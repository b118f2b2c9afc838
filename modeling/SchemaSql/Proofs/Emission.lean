import SchemaSql.Statement

/-! # Emission — every node passes on exactly its text

    A printer passes on pieces in any monad, so what it does with a sink that fails is fixed by
    the list of its pieces alone: it hands over one after the other, and the sink's failure
    ends it.  The route:

    * `Emits p s` says that a printer hands over a fixed list of pieces, in order and whatever
      takes them, and that they make up a text;
    * one rule for each way in which printers are put together (`next`, `when`, `optional`,
      `all`, `separated`);
    * one lemma for each kind of node: here the nodes that statements are made of, and in
      `SchemaSql.Proofs.Emission.Statements` the statements themselves. -/

namespace SchemaSql

open Text

/-- A way of passing on pieces, whatever takes them. -/
abbrev Printer := ∀ (m : Type → Type) [Monad m], (String → m Unit) → m Unit

/-- The printer passes on fixed pieces, one after the other, and they make up the text. -/
def Emits (p : Printer) (s : String) : Prop :=
  ∃ pieces : Chunks, pieces.text = s ∧
    ∀ (m : Type → Type) [Monad m] [LawfulMonad m] (put : String → m Unit),
      p m put = pieces.forM put

namespace Emits

variable {α : Type} {p q : Printer} {s t : String}

/-- The text may be put differently. -/
theorem of_eq (hp : Emits p s) (h : s = t) : Emits p t := h ▸ hp

/-- Nothing is passed on, and that is no text. -/
theorem nothing : Emits (fun _ _ _ => pure ()) "" :=
  ⟨[], rfl, fun _ _ _ _ => rfl⟩

theorem piece (s : String) : Emits (fun _ _ put => put s) s :=
  ⟨[s], by simp, fun m _ _ put => by simp⟩

/-- One printer behind the other. -/
theorem next (hp : Emits p s) (hq : Emits q t) :
    Emits (fun m _ put => do p m put; q m put) (s ++ t) := by
  obtain ⟨a, rfl, ha⟩ := hp
  obtain ⟨b, rfl, hb⟩ := hq
  refine ⟨a ++ b, by simp, fun m _ _ put => ?_⟩
  show (p m put >>= fun _ => q m put) = (a ++ b).forM put
  rw [ha, hb]
  exact (List.forM_append).symm

/-- A printer that may be left out. -/
theorem when (present : Bool) (hp : Emits p s) :
    Emits (fun m _ put => emitIf present (p m put)) (if present then s else "") := by
  cases present with
  | false => exact nothing
  | true => exact hp

/-- A printer of something that may be missing. -/
theorem optional {f : α → Printer} {text : α → String} (h : ∀ x, Emits (f x) (text x))
    (o : Option α) :
    Emits (fun m _ put => o.forM fun x => f x m put) (Chunks.text (o.toList.map text)) := by
  cases o with
  | none => exact nothing
  | some x => exact (h x).of_eq (by simp)

/-- A printer for each item of a list. -/
theorem all {f : α → Printer} {text : α → String} (h : ∀ x, Emits (f x) (text x))
    (items : List α) :
    Emits (fun m _ put => items.forM fun x => f x m put) (Chunks.text (items.map text)) := by
  induction items with
  | nil => exact nothing
  | cons x rest ih => exact ((h x).next ih).of_eq (by simp)

/-- Items behind one piece each. -/
theorem led {f : α → Printer} {text : α → String} (h : ∀ x, Emits (f x) (text x))
    (separator : String) (x : α) (rest : List α) (lead : String) :
    Emits (fun m _ put => emitItems put separator (fun x => f x m put) lead (x :: rest))
      (lead ++ separator.intercalate ((x :: rest).map text)) := by
  induction rest generalizing x lead with
  | nil => exact ((piece lead).next ((h x).next nothing)).of_eq (by simp)
  | cons y rest ih =>
      refine ((piece lead).next ((h x).next (ih y separator))).of_eq ?_
      simp [String.append_assoc]

/-- Items with a separator between two of them. -/
theorem separated {f : α → Printer} {text : α → String} (h : ∀ x, Emits (f x) (text x))
    (separator : String) (items : List α) :
    Emits (fun m _ put => emitSeparated put separator (fun x => f x m put) items)
      (separator.intercalate (items.map text)) := by
  cases items with
  | nil => exact nothing
  | cons x rest => exact (led h separator x rest "").of_eq (by simp)

end Emits

open Emits

/-! ## The texts of chunks -/

namespace Text.Chunks

/-- The text of separated pieces has the separator between their texts. -/
@[simp] theorem text_separated (separator : String) (items : List Chunks) :
    text (separated separator items) = separator.intercalate (items.map text) := by
  show text ([separator].intercalate items) = _
  induction items with
  | nil => rfl
  | cons x rest ih =>
      cases rest with
      | nil => simp
      | cons y rest =>
          rw [List.intercalate_cons_cons, text_append, text_append, ih]
          simp [String.append_assoc]

end Text.Chunks

/-! ## Names, literals and expressions -/

/-- Between quotes the pieces are single characters. -/
theorem emits_escaped (quote : Char) (s : String) :
    Emits (fun _ _ put => emitEscaped put quote s) (escape quote s) := by
  have hchars : ∀ chars : List Char,
      String.join (chars.map Char.toString) = String.ofList chars := by
    intro chars
    induction chars with
    | nil => rfl
    | cons c rest ih =>
        rw [List.map_cons, String.join_cons, ih]
        exact (@String.ofList_append [c] rest).symm
  exact (all (fun c : Char => piece c.toString) _).of_eq (hchars _)

/-- A text between quotes is passed on as three pieces. -/
theorem emits_enclosed (quote : Char) (s : String) :
    Emits (fun _ _ put => emitEnclosed put quote s) (enclose quote s) :=
  of_eq (next (piece _) (next (emits_escaped quote s) (piece _)))
    (by rw [enclose, String.append_assoc])

/-- A name is passed on with its quotes, where it has some. -/
theorem Ident.emits (ident : Ident) : Emits (fun _ _ put => ident.emit put) ident.text := by
  obtain ⟨value, _ | q⟩ := ident
  · exact piece value
  · by_cases h : q = '"' ∨ q = '\'' ∨ q = '\x60'
    · simp only [Ident.emit, Ident.text, if_pos h]
      exact emits_enclosed q value
    · simp only [Ident.emit, Ident.text, if_neg h]
      exact of_eq (next (piece _) (next (piece _) (piece _))) (by rw [String.append_assoc])

theorem Ident.emits_list (idents : List Ident) :
    Emits (fun _ _ put => Ident.emitList put idents) (commaSeparated (idents.map Ident.text)) :=
  separated Ident.emits ", " idents

theorem ObjectName.emits (name : ObjectName) :
    Emits (fun _ _ put => name.emit put) name.text :=
  separated Ident.emits "." name.parts

/-- Strings are passed on between their quotes, escaped. -/
theorem Literal.emits (literal : Literal) :
    Emits (fun _ _ put => literal.emit put) literal.text := by
  cases literal with
  | number digits long => exact next (piece _) (piece _)
  | singleQuoted value => exact emits_enclosed _ value
  | doubleQuoted value => exact emits_enclosed _ value
  | boolean b => exact piece _
  | null => exact piece _

mutual

/-- Each kind of expression passes on its operands and the words around them, in the order of its
    text. -/
theorem Expr.emits : (e : Expr) → Emits (fun _ _ put => e.emit put) e.text
  | .ident name => of_eq name.emits (by simp [Expr.text, Expr.chunks])
  | .compound parts =>
    of_eq (separated Ident.emits "." parts) (by simp [Expr.text, Expr.chunks])
  | .literal value => of_eq value.emits (by simp [Expr.text, Expr.chunks])
  | .binary left op right =>
    of_eq (next left.emits (next (piece _) (next (piece _) (next (piece _) right.emits))))
      (by simp [Expr.text, Expr.chunks, String.append_assoc])
  | .unary op operand =>
    of_eq (next (piece _) (next (when _ (piece _)) operand.emits))
      (by cases op <;> simp [Expr.text, Expr.chunks, UnaryOp.text, ← String.append_assoc])
  | .nested inner =>
    of_eq (next (piece _) (next inner.emits (piece _)))
      (by simp [Expr.text, Expr.chunks])
  | .call function args =>
    of_eq (next function.emits (next (piece _) (next (Expr.emits_items args "") (piece _))))
      (by cases args <;> simp [Expr.text, Expr.chunks, Expr.listChunks, String.append_assoc])
  | .isNull operand => of_eq (next operand.emits (piece _)) (by simp [Expr.text, Expr.chunks])
  | .isNotNull operand =>
    of_eq (next operand.emits (piece _)) (by simp [Expr.text, Expr.chunks])
  | .inList operand items negated =>
    of_eq
      (next operand.emits <| next (piece _) <| next (piece _) <| next (piece _) <|
        next (Expr.emits_items items "") (piece _))
      (by cases items <;> simp [Expr.text, Expr.chunks, Expr.listChunks, String.append_assoc])
  | .between operand negated low high =>
    of_eq
      (next operand.emits <| next (piece _) <| next (piece _) <| next (piece _) <|
        next low.emits <| next (piece _) high.emits)
      (by simp [Expr.text, Expr.chunks, String.append_assoc])
  | .wildcard => of_eq (piece _) (by simp [Expr.text, Expr.chunks])

/-- Items of a list are passed on behind their separator, and the first behind what leads the list.
    -/
theorem Expr.emits_items : (items : List Expr) → (lead : String) →
    Emits (fun _ _ put => Expr.emitItems put lead items)
      (if items.isEmpty then "" else lead ++ Chunks.text (Expr.listChunks items))
  | [], _ => nothing
  | [e], lead =>
    of_eq (next (piece lead) (next e.emits nothing)) (by simp [Expr.text, Expr.listChunks])
  | e :: e' :: rest, lead =>
    of_eq (next (piece lead) (next e.emits (Expr.emits_items (e' :: rest) ", ")))
      (by simp [Expr.text, Expr.listChunks])

end

/-! ## Columns, indexes, constraints and partitions -/

theorem DataType.emits_arguments (arguments : List String) :
    Emits (fun _ _ put => DataType.emitArguments put arguments)
      (DataType.argumentsText arguments) := by
  refine (when (!arguments.isEmpty)
    (next (piece _) (next (separated piece ", " arguments) (piece _)))).of_eq ?_
  cases arguments <;> simp [DataType.argumentsText, commaSeparated, String.append_assoc]

/-- The element type of a collection is passed on between angle brackets. -/
theorem DataType.emits (t : DataType) : Emits (fun _ _ put => t.emit put) t.text := by
  induction t with
  | plain name arguments => exact next (piece _) (DataType.emits_arguments arguments)
  | collection name element arguments ih =>
      exact of_eq
        (next (piece _) (next (piece _) (next ih (next (piece _)
          (DataType.emits_arguments arguments)))))
        (by simp [DataType.text, String.append_assoc])

/-- The entries behind something, each behind a space. -/
theorem emits_spaced (entries : List String) :
    Emits (fun _ _ put => entries.forM fun entry => do put " "; put entry)
      (Chunks.text (entries.map (" " ++ ·))) :=
  all (fun entry => next (piece " ") (piece entry)) entries

/-- A column passes on its word, its name, its type and its specification. -/
theorem ColumnDefinition.emits (column : ColumnDefinition) :
    Emits (fun _ _ put => column.emit put) column.text := by
  refine of_eq
    (next (piece _) <| next column.name.emits <|
      next (optional (fun t : DataType => next (piece " ") t.emits) column.dataType) <|
        emits_spaced column.specs) ?_
  simp [ColumnDefinition.text, ColumnDefinition.chunks, String.append_assoc]

/-- What is done to a column passes on its words, and a default value or a type as it is. -/
theorem ColumnAction.emits (action : ColumnAction) :
    Emits (fun _ _ put => action.emit put) (Chunks.text action.chunks) := by
  cases action with
  | setDataType dataType setData =>
      exact of_eq (next (when _ (piece _)) (next (piece _) dataType.emits))
        (by simp [ColumnAction.chunks, String.append_assoc])
  | setDefault value =>
      exact of_eq (next (piece _) value.emits) (by simp [ColumnAction.chunks, Expr.text])
  | setVisible visible =>
      exact of_eq (piece _) (by cases visible <;> rfl)
  | setOptions options =>
      exact of_eq (next (piece _) (piece _)) (by simp [ColumnAction.chunks])
  | dropDefault | setNotNull | dropNotNull => exact of_eq (piece _) rfl

theorem Direction.emits_trailer (direction : Option Direction) :
    Emits (fun _ _ put => Direction.emitTrailer put direction) (Direction.trailer direction) := by
  cases direction with
  | none => exact nothing
  | some direction => cases direction <;> exact piece _

theorem IndexColumn.emits (column : IndexColumn) :
    Emits (fun _ _ put => column.emit put) column.text := by
  refine of_eq
    (next column.name.emits <|
      next (optional (fun n => next (piece "(") (next (piece n) (piece ")"))) column.length) <|
        Direction.emits_trailer column.direction) ?_
  cases hlength : column.length <;> simp [IndexColumn.text, hlength, String.append_assoc]

/-- The words of an index are passed on one by one. -/
theorem Index.emits_head (index : Index) :
    Emits (fun _ _ put => index.emitHead put) index.head := by
  obtain ⟨kind, keyword, name, method, columns, specs, states⟩ := index
  cases kind with
  | plain | primary => exact piece _
  | unique | fulltext | spatial => exact next (piece _) (piece _)

theorem ConstraintState.emits_list (states : List ConstraintState) :
    Emits (fun _ _ put => ConstraintState.emitList put states)
      (Chunks.text (states.map fun state => " " ++ state.text)) :=
  all (fun state : ConstraintState => next (piece " ") (piece state.text)) states

/-- The columns are passed on in parentheses, with a space in front where the index has one there.
    -/
theorem Index.emits_columns (index : Index) :
    Emits
      (fun _ _ put => emitIf (!index.columns.isEmpty) do
        emitIf (!index.abutsColumns) (put " ")
        put "("
        emitSeparated put ", " (IndexColumn.emit put) index.columns
        put ")")
      index.columnsText := by
  refine of_eq
    (when (!index.columns.isEmpty) <| next (when (!index.abutsColumns) (piece " ")) <|
      next (piece _) <| next (separated IndexColumn.emits ", " index.columns) (piece _)) ?_
  simp only [Index.columnsText, commaSeparated, String.append_assoc]
  cases index.columns.isEmpty <;> cases index.abutsColumns <;> rfl

/-- An index passes on its words, its name, its columns and what is said of them. -/
theorem Index.emits (index : Index) : Emits (fun _ _ put => index.emit put) index.text := by
  refine of_eq
    (next index.emits_head <|
      next (optional (fun name : Ident => next (piece " ") name.emits) index.name) <|
      next (optional (fun method : Ident => next (piece " USING ") method.emits) index.method) <|
      next index.emits_columns <|
      next (emits_spaced index.specs) (ConstraintState.emits_list index.states)) ?_
  simp [Index.text, Index.chunks]

/-- The name of a constraint is passed on behind its word, and no word without a name. -/
theorem TableConstraint.emits_name (name : Option Ident) :
    Emits (fun _ _ put => TableConstraint.emitName put name)
      (Chunks.text (name.toList.map fun name => "CONSTRAINT " ++ name.text ++ " ")) := by
  refine of_eq
    (optional (fun name : Ident => next (piece "CONSTRAINT ") (next name.emits (piece " "))) name)
    ?_
  simp only [String.append_assoc]

/-- The columns that are referred to are passed on where there are some. -/
theorem ForeignKey.emits_referred (key : ForeignKey) :
    Emits
      (fun _ _ put => emitIf (!key.referredColumns.isEmpty) do
        put (if key.name.isSome then "" else " ")
        put "("
        Ident.emitList put key.referredColumns
        put ")")
      key.referredColumnsText := by
  refine of_eq
    (when (!key.referredColumns.isEmpty) <| next (piece (if key.name.isSome then "" else " ")) <|
      next (piece _) <| next (Ident.emits_list key.referredColumns) (piece _)) ?_
  simp only [ForeignKey.referredColumnsText, String.append_assoc]
  cases key.referredColumns.isEmpty <;> rfl

/-- A foreign key passes on its columns, the table and columns it refers to, its rules and its
    states. -/
theorem ForeignKey.emits (key : ForeignKey) :
    Emits (fun _ _ put => key.emit put) (Chunks.text key.chunks) := by
  refine of_eq
    (next (TableConstraint.emits_name key.name) <| next (piece _) <|
      next (Ident.emits_list key.columns) <| next (piece _) <| next key.referredTable.emits <|
      next key.emits_referred <|
      next
        (all (fun rule : ReferentialRule =>
          next (piece " ") (next (piece rule.event.text)
            (next (piece " ") (piece rule.action.text)))) key.rules) <|
      ConstraintState.emits_list key.states) ?_
  simp [ForeignKey.chunks, ReferentialRule.text, String.append_assoc]

/-- Each kind of constraint passes on its name and what it is about. -/
theorem TableConstraint.emits (constraint : TableConstraint) :
    Emits (fun _ _ put => constraint.emit put) constraint.text := by
  cases constraint with
  | index definition => exact definition.emits
  | named name definition =>
      exact of_eq
        (next (piece _) <|
          next (optional (fun name : Ident => next name.emits (piece " ")) name) definition.emits)
        (by simp [TableConstraint.text, TableConstraint.chunks, Index.text])
  | foreignKey key => exact key.emits
  | check name condition =>
      exact of_eq
        (next (TableConstraint.emits_name name) <| next (piece _) <|
          next condition.emits (piece _))
        (by simp [TableConstraint.text, TableConstraint.chunks, Expr.text])

theorem PartitionEngine.emits (engine : PartitionEngine) :
    Emits (fun _ _ put => engine.emit put) engine.text :=
  of_eq
    (next (piece _) <| next (piece _) <| next (piece _) <| next (piece _) engine.name.emits)
    (by simp only [PartitionEngine.text, String.append_assoc])

/-- A partition passes on its bound and its engine, where it has them. -/
theorem PartitionDefinition.emits (partition : PartitionDefinition) :
    Emits (fun _ _ put => partition.emit put) partition.text := by
  refine of_eq
    (next (piece _) <| next partition.name.emits <|
      next
        (optional (fun bound : PartitionBound =>
          next (piece " ") <| next (piece bound.text) <| next (piece " (") <|
            next (separated piece ", " partition.values) (piece ")")) partition.bound) <|
      optional PartitionEngine.emits partition.engine) ?_
  simp [PartitionDefinition.text, PartitionDefinition.chunks, commaSeparated,
    String.append_assoc]

theorem PartitionDefinition.emits_list (partitions : List PartitionDefinition) :
    Emits (fun _ _ put => PartitionDefinition.emitList put partitions)
      (Chunks.text (PartitionDefinition.listChunks partitions)) := by
  refine of_eq (separated PartitionDefinition.emits ", " partitions) ?_
  rw [PartitionDefinition.listChunks, Chunks.text_separated, List.map_map]
  rfl

/-- A key passes on its columns or its expression, in parentheses. -/
theorem PartitionKey.emits (key : PartitionKey) :
    Emits (fun _ _ put => key.emit put) (Chunks.text key.chunks) := by
  cases key with
  | expression e =>
      exact of_eq (next (piece _) (next e.emits (piece _)))
        (by simp [PartitionKey.chunks, Expr.text])
  | columns keyword names =>
      exact of_eq (next (piece _) (next (Ident.emits_list names) (piece _)))
        (by simp [PartitionKey.chunks, ← String.append_assoc])

/-- A partitioning passes on its method, its key, the number of its partitions and these. -/
theorem Partitioning.emits (partitioning : Partitioning) :
    Emits (fun _ _ put => partitioning.emit put) partitioning.text := by
  refine of_eq
    (next (piece _) <| next (when _ (piece _)) <| next (piece _) <|
      next partitioning.key.emits <|
      next (optional (fun n => next (piece " PARTITIONS ") (piece (toString n)))
        partitioning.count) <|
      when (!partitioning.partitions.isEmpty) <| next (piece _) <|
        next (PartitionDefinition.emits_list partitioning.partitions) (piece _)) ?_
  simp only [Partitioning.text, Partitioning.chunks, Bool.not_eq_true']
  cases partitioning.partitions.isEmpty <;> simp [String.append_assoc]

end SchemaSql
