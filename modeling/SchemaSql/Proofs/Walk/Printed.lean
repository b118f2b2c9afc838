import SchemaSql.Proofs.Walk.Outline
import SchemaSql.Walk.Contents

/-! # Printed — the outline of a statement

    The printer and the walk each go through a statement on their own.  Here every part of a
    statement gets one outline, and that outline is shown to be both: its text is what the
    printer writes, its reports are what the walk reports, and its nodes are what is stored.

    * `Outlines` says this of a part, and has one rule for each way to put parts together.
    * `Statement.outlines` is the result. -/

namespace SchemaSql

/-! ## Outlines of the parts of a statement -/

/-- The outline of a name. -/
def ObjectName.outline (name : ObjectName) : Outline := .mark (.relation name) (.plain name.text)

mutual

/-- The outline of an expression. -/
def Expr.outline (e : Expr) : Outline :=
  .mark (.expr e) <| match e with
    | .ident name => .plain name.text
    | .compound parts => .plain (".".intercalate (parts.map Ident.text))
    | .literal value => .plain value.text
    | .binary left op right => left.outline ++ .text (" " ++ op.text ++ " ") right.outline
    | .unary .not operand => .text "NOT " operand.outline
    | .unary op operand => .text op.text operand.outline
    | .nested inner => .text "(" (inner.outline ++ .plain ")")
    | .call function args => .text (function.text ++ "(") (Expr.listOutline args ++ .plain ")")
    | .isNull operand => operand.outline ++ .plain " IS NULL"
    | .isNotNull operand => operand.outline ++ .plain " IS NOT NULL"
    | .inList operand items negated =>
      operand.outline
        ++ .text (" " ++ negation negated ++ "IN (") (Expr.listOutline items ++ .plain ")")
    | .between operand negated low high =>
      operand.outline
        ++ .text (" " ++ negation negated ++ "BETWEEN ")
            (low.outline ++ .text " AND " high.outline)
    | .wildcard => .plain "*"

/-- The outline of a comma separated list of expressions. -/
def Expr.listOutline : List Expr → Outline
  | [] => .nil
  | [e] => e.outline
  | e :: rest => e.outline ++ .text ", " (Expr.listOutline rest)

end

/-- The outline of what a constraint is printed as. -/
def TableConstraint.outline : TableConstraint → Outline
  | .foreignKey key =>
    .text (Text.Chunks.text (key.name.toList.map fun name => "CONSTRAINT " ++ name.text ++ " ")
        ++ "FOREIGN KEY (" ++ Text.commaSeparated (key.columns.map Ident.text) ++ ") REFERENCES ")
      (key.referredTable.outline
        ++ .plain (key.referredColumnsText
          ++ Text.Chunks.text (key.rules.map fun rule => " " ++ rule.text)
          ++ Text.Chunks.text (key.states.map fun state => " " ++ state.text)))
  | .check name condition =>
    .text (Text.Chunks.text (name.toList.map fun name => "CONSTRAINT " ++ name.text ++ " "))
      (.text "CHECK (" (condition.outline ++ .plain ")"))
  | constraint => .plain constraint.text

/-- The outline of a clause. -/
def AlterClause.outline : AlterClause → Outline
  | .addConstraint constraint => .text "ADD " constraint.outline
  | .alterColumn keyword name (.setDefault value) =>
    .text ("ALTER " ++ keyword.lead ++ name.text ++ " ") (.text "SET DEFAULT " value.outline)
  | .renameTable asKeyword newName =>
    .text ("RENAME " ++ (if asKeyword then "AS " else "TO ")) newName.outline
  | .exchangePartition partition table validation =>
    .text ("EXCHANGE PARTITION " ++ partition.text ++ " WITH TABLE ")
      (table.outline ++ .plain (match validation with
        | some true => " WITH VALIDATION"
        | some false => " WITHOUT VALIDATION"
        | none => ""))
  | .tableOption option =>
    .text (option.name ++ equalsText option.equals ++ " ") option.value.outline
  | .partitionBy partitioning =>
    match partitioning.key with
    | .expression e =>
      .text ("PARTITION BY " ++ (if partitioning.linear then "LINEAR " else "")
          ++ partitioning.method.text ++ " (")
        (e.outline ++ .plain (Text.Chunks.text
          (")" :: (partitioning.count.toList.map fun n => " PARTITIONS " ++ toString n)
            ++ if partitioning.partitions.isEmpty then []
              else " (" :: PartitionDefinition.listChunks partitioning.partitions ++ [")"])))
    | .columns _ _ => .plain partitioning.text
  | clause => .plain clause.text

/-- The outline of an `ALTER TABLE`. -/
def Alter.outline (alter : Alter) : Outline :=
  .text ("ALTER TABLE " ++ (if alter.ifExists then "IF EXISTS " else "")
      ++ (if alter.only then "ONLY " else ""))
    (alter.table.outline ++
      if alter.clauses.isEmpty then .nil
      else .text " " (.separated ", " (alter.clauses.map AlterClause.outline)))

/-- The outline of an item of a query. -/
def SelectItem.outline : SelectItem → Outline
  | .unnamed e => e.outline
  | .aliased e asName => e.outline ++ .plain (" AS " ++ asName.text)
  | .wildcard => .plain "*"

/-- The outline of a comma separated list of items. -/
def SelectItem.listOutline (items : List SelectItem) : Outline :=
  .separated ", " (items.map SelectItem.outline)

/-- The outline of a table reference. -/
def TableRef.outline (table : TableRef) : Outline :=
  table.name.outline ++ .plain (match table.asName with
    | some asName => " AS " ++ asName.text
    | none => "")

/-- The outline of the start of a query. -/
def QueryBody.outline : QueryBody → Outline
  | .select s =>
    .text ("SELECT " ++ if s.distinct then "DISTINCT " else "")
      (SelectItem.listOutline s.projection
        ++ (.optional " FROM " (s.source.map TableRef.outline)
          ++ .optional " WHERE " (s.selection.map Expr.outline)))
  | .from table => .text "FROM " table.outline

/-- The outline of a pipe operator. -/
def PipeOperator.outline : PipeOperator → Outline
  | .where condition => .text "WHERE " condition.outline
  | .select items => .text "SELECT " (SelectItem.listOutline items)
  | .extend items => .text "EXTEND " (SelectItem.listOutline items)
  | .limit count offset =>
    .text "LIMIT " (count.outline ++ .optional " OFFSET " (offset.map Expr.outline))
  | .orderBy items =>
    .text "ORDER BY " (.separated ", " (items.map fun item =>
      item.expr.outline ++ .plain (Direction.trailer item.direction)))
  | .aggregate items groupBy =>
    .text "AGGREGATE"
      ((if items.isEmpty then .nil else .text " " (SelectItem.listOutline items))
        ++ if groupBy.isEmpty then .nil else .text " GROUP BY " (SelectItem.listOutline groupBy))
  | pipe => .plain pipe.text

/-- The outline of a query. -/
def Query.outline (query : Query) : Outline :=
  query.body.outline ++ .joined (query.pipes.map fun pipe => .text " |> " pipe.outline)

/-- The outline of an `EXPLAIN`. -/
def Explain.outline (explain : Explain) : Outline :=
  match explain.target with
  | .table name => .text (explain.keyword.text ++ " ") name.outline
  | .query query =>
    .text (explain.keyword.text
        ++ Text.Chunks.text (explain.options.map fun option => " " ++ option.text) ++ " ")
      query.outline

/-- The outline of a `CREATE SYNONYM`. -/
def CreateSynonym.outline (s : CreateSynonym) : Outline :=
  .text ("CREATE " ++ (if s.orReplace then "OR REPLACE " else "")
      ++ (if s.isPublic then "PUBLIC " else "") ++ "SYNONYM ")
    (s.synonym.outline ++ .text " FOR " s.object.outline)

/-- The outline of a statement. -/
def Statement.outline (s : Statement) : Outline :=
  .mark (.statement s) <| match s with
    | .alter s => s.outline
    | .explain s => s.outline
    | .createSynonym s => s.outline
    | .query s => s.outline

/-! ## What an outline is the outline of -/

section

variable {m : Type → Type} [Monad m] (visit : Event → m Unit)

/-- The outline of a part that stores these contents, is printed as these chunks and is walked
    through like this. -/
structure Outlines (o : Outline) (contents : List Node) (chunks : Text.Chunks) (walk : m Unit) :
    Prop where
  nodes  : o.nodes = contents
  flat   : o.flat = Text.Chunks.text chunks
  walk   : forM o.events visit = walk
  spread : o.Spread

namespace Outlines

variable {visit} {o o' : Outline} {c c' : List Node} {ch ch' : Text.Chunks} {w w' : m Unit}

/-- A part that is not there has no nodes, no text and no walk. -/
theorem nil : Outlines visit .nil [] [] (pure ()) := ⟨rfl, rfl, rfl, trivial⟩

/-- Only the text that the chunks make up counts. -/
theorem reprint (h : Outlines visit o c ch w)
    (printed : Text.Chunks.text ch = Text.Chunks.text ch') : Outlines visit o c ch' w :=
  ⟨h.nodes, h.flat.trans printed, h.walk, h.spread⟩

/-- Text in front of a part changes neither its nodes nor its walk. -/
theorem text (s : String) (h : Outlines visit o c ch w) :
    Outlines visit (.text s o) c (s :: ch) w :=
  ⟨h.nodes, by simp [Outline.flat, h.flat], h.walk, h.spread⟩

variable (visit) in
theorem plain (s : String) : Outlines visit (.plain s) [] [s] (pure ()) :=
  ⟨rfl, by simp [Outline.plain, Outline.flat], nil.walk, trivial⟩

variable [LawfulMonad m]

/-- One part behind another; text has to keep their nodes apart. -/
theorem append (h : Outlines visit o c ch w) (h' : Outlines visit o' c' ch' w')
    (opens : o'.Opens) :
    Outlines visit (o ++ o') (c ++ c') (ch ++ ch') (do w; w') where
  nodes := by rw [Outline.nodes_append, h.nodes, h'.nodes]
  flat := by rw [Outline.flat_append, h.flat, h'.flat, Text.Chunks.text_append]
  walk := by rw [Outline.events_append, List.forM_append, h.walk, h'.walk]
  spread := h.spread.append h'.spread opens

theorem trailed (h : Outlines visit o c ch w) (s : String) :
    Outlines visit (o ++ .plain s) c (ch ++ [s]) w := by
  simpa using h.append (plain visit s) (.inr trivial)

/-- A node around a part: it is entered first and left last, and it has text of its own. -/
theorem mark {n : Node} (h : Outlines visit o c ch w) (text : n.text = Text.Chunks.text ch)
    (own : 0 < o.own ∨ o.nodes = []) :
    Outlines visit (.mark n o) (n :: c) ch
      (do visit (.enter n); w; visit (.leave n)) where
  nodes := by simp [Outline.mark, Outline.nodes, h.nodes]
  flat := by simp [Outline.mark, Outline.flat, h.flat]
  walk := by simp [Outline.mark, Outline.events, h.walk]
  spread := ⟨⟨h.flat.trans text.symm, own, h.spread⟩, trivial, trivial⟩

/-- An expression is a node of its own around its operands. -/
theorem expr (h : Outlines visit o c ch w) (e : Expr) (printed : e.chunks = ch)
    (own : 0 < o.own ∨ o.nodes = []) :
    Outlines visit (.mark (.expr e) o) (.expr e :: c) e.chunks
      (do visit (.enter (.expr e)); w; visit (.leave (.expr e))) :=
  printed ▸ h.mark (congrArg Text.Chunks.text printed) own

variable (visit) in
/-- An expression with no other inside it. -/
theorem leaf (e : Expr) (s : String) (printed : e.chunks = [s]) :
    Outlines visit (.mark (.expr e) (.plain s)) [.expr e] e.chunks
      (do visit (.enter (.expr e)); visit (.leave (.expr e))) := by
  simpa [printed] using (plain visit s).expr e printed (.inr rfl)

section

variable {α : Type} {outline : α → Outline} {contents : α → List Node}
  {chunks : α → Text.Chunks} {walk : α → m Unit} {items : List α}

variable (items) in
/-- Parts one behind the other, each of which starts with text. -/
theorem joined (h : ∀ x ∈ items, Outlines visit (outline x) (contents x) (chunks x) (walk x))
    (opens : ∀ x ∈ items, (outline x).Opens) :
    Outlines visit (.joined (items.map outline)) (items.flatMap contents)
        (items.flatMap chunks) (items.forM walk) ∧
      (Outline.joined (items.map outline)).Opens := by
  induction items with
  | nil => exact ⟨nil, trivial⟩
  | cons x items ih =>
      simp only [List.mem_cons, forall_eq_or_imp] at h opens
      obtain ⟨hrest, hopens⟩ := ih h.2 opens.2
      exact ⟨by simpa [Outline.joined] using h.1.append hrest hopens, opens.1.append hopens⟩

/-- A separator between two parts keeps their nodes apart. -/
theorem separated {separator : String} (hne : separator ≠ "")
    (h : ∀ x ∈ items, Outlines visit (outline x) (contents x) (chunks x) (walk x)) :
    Outlines visit (.separated separator (items.map outline)) (items.flatMap contents)
      (Text.Chunks.separated separator (items.map chunks)) (items.forM walk) := by
  induction items with
  | nil => exact nil
  | cons x items ih =>
      simp only [List.mem_cons, forall_eq_or_imp] at h
      cases items with
      | nil => simpa [Outline.separated, Text.Chunks.separated] using h.1
      | cons y items =>
          simpa [Outline.separated, Text.Chunks.separated] using
            h.1.append ((ih h.2).text separator) (.inl hne)

omit [LawfulMonad m] in
/-- A part that may be missing, with the text that stands in front of it. -/
theorem optional (s : String) (x? : Option α)
    (h : ∀ x, Outlines visit (outline x) (contents x) (chunks x) (walk x)) :
    Outlines visit (.optional s (x?.map outline)) (x?.toList.flatMap contents)
      (x?.toList.flatMap fun x => s :: chunks x) (x?.forM walk) := by
  cases x? with
  | none => exact nil
  | some x => simpa [Outline.optional] using (h x).text s

omit [LawfulMonad m] in
/-- A list with a text in front, or nothing for the empty list. -/
theorem unless_empty (s : String)
    (h : Outlines visit o (items.flatMap contents) ch (items.forM walk)) :
    Outlines visit (if items.isEmpty then .nil else .text s o) (items.flatMap contents)
      (if items.isEmpty then [] else s :: ch) (items.forM walk) := by
  cases items with
  | nil => exact nil
  | cons x items => exact h.text s

end

end Outlines

variable [LawfulMonad m]

/-! ## Names and expressions -/

/-- The name of an object is one node. -/
theorem ObjectName.outlines (name : ObjectName) :
    Outlines visit name.outline [.relation name] [name.text] (name.walk visit) := by
  have h : (Node.relation name).text = Text.Chunks.text [name.text] := by simp [Node.text]
  simpa [outline, walk] using (Outlines.plain visit name.text).mark h (.inr rfl)

mutual

/-- An expression stores its operands in the order in which they are printed and walked. -/
theorem Expr.outlines : ∀ e : Expr, Outlines visit e.outline e.contents e.chunks (e.walk visit)
  | .ident name => .leaf visit (.ident name) _ rfl
  | .compound parts => .leaf visit (.compound parts) _ rfl
  | .literal value => .leaf visit (.literal value) _ rfl
  | .wildcard => .leaf visit .wildcard _ rfl
  -- the operands in the order of the text, with the operator as this node's own text
  | .binary left op right => by
      have h := (outlines left).append ((outlines right).text (" " ++ op.text ++ " "))
        (.inl (by simp))
      simpa [outline, contents, walk] using
        h.expr (.binary left op right) (by simp [chunks])
          (.inl (Outline.own_behind _ (Outline.own_text (by simp) _)))
  | .unary .not operand => by
      simpa [outline, contents, walk] using
        ((outlines operand).text "NOT ").expr (.unary .not operand) rfl
          (.inl (Outline.own_text (by simp) _))
  | .unary .plus operand => by
      simpa [outline, contents, walk, UnaryOp.text] using
        ((outlines operand).text "+").expr (.unary .plus operand) rfl
          (.inl (Outline.own_text (by simp) _))
  | .unary .minus operand => by
      simpa [outline, contents, walk, UnaryOp.text] using
        ((outlines operand).text "-").expr (.unary .minus operand) rfl
          (.inl (Outline.own_text (by simp) _))
  | .nested inner => by
      have h := ((outlines inner).trailed ")").text "("
      simpa [outline, contents, walk] using
        h.expr (.nested inner) rfl (.inl (Outline.own_text (by simp) _))
  | .call function args => by
      have h := ((Expr.list_outlines args).trailed ")").text (function.text ++ "(")
      simpa [outline, contents, walk] using
        h.expr (.call function args) rfl (.inl (Outline.own_text (by simp) _))
  | .isNull operand => by
      have h := (outlines operand).trailed " IS NULL"
      simpa [outline, contents, walk] using
        h.expr (.isNull operand) rfl (.inl (Outline.own_behind _ (Outline.own_text (by simp) _)))
  | .isNotNull operand => by
      have h := (outlines operand).trailed " IS NOT NULL"
      simpa [outline, contents, walk] using
        h.expr (.isNotNull operand) rfl
          (.inl (Outline.own_behind _ (Outline.own_text (by simp) _)))
  | .inList operand items negated => by
      have hitems := ((Expr.list_outlines items).trailed ")").text
        (" " ++ negation negated ++ "IN (")
      have h := (outlines operand).append hitems (.inl (by simp))
      simpa [outline, contents, walk] using
        h.expr (.inList operand items negated) (by simp [chunks])
          (.inl (Outline.own_behind _ (Outline.own_text (by simp) _)))
  | .between operand negated low high => by
      have hbounds := ((outlines low).append ((outlines high).text " AND ")
        (.inl (by simp))).text (" " ++ negation negated ++ "BETWEEN ")
      have h := (outlines operand).append hbounds (.inl (by simp))
      simpa [outline, contents, walk] using
        h.expr (.between operand negated low high) (by simp [chunks])
          (.inl (Outline.own_behind _ (Outline.own_text (by simp) _)))

theorem Expr.list_outlines : ∀ list : List Expr,
    Outlines visit (Expr.listOutline list) (Expr.listContents list) (Expr.listChunks list)
      (Expr.walkList visit list)
  | [] => .nil
  | [e] => by
      simpa [Expr.listOutline, Expr.listContents, Expr.listChunks, Expr.walkList] using outlines e
  | e :: e' :: rest => by
      simpa [Expr.listOutline, Expr.listContents, Expr.listChunks, Expr.walkList] using
        (outlines e).append ((Expr.list_outlines (e' :: rest)).text ", ") (.inl (by simp))

end

/-! ## Clauses -/

/-- A constraint stores the condition of a check or the table it refers to, and nothing else. -/
theorem TableConstraint.outlines (constraint : TableConstraint) :
    Outlines visit constraint.outline constraint.contents constraint.chunks
      (constraint.walk visit) := by
  cases constraint with
  | index definition => exact (Outlines.plain visit _).reprint (by simp [text])
  | named name definition => exact (Outlines.plain visit _).reprint (by simp [text])
  | foreignKey key =>
      refine (((key.referredTable.outlines visit).trailed _).text _).reprint ?_
      simp [chunks, ForeignKey.chunks, String.append_assoc]
  | check name condition =>
      refine ((((condition.outlines visit).trailed _).text _).text _).reprint ?_
      simp [chunks, String.append_assoc]

/-- A clause stores what its expressions and table names are. -/
theorem AlterClause.outlines (clause : AlterClause) :
    Outlines visit clause.outline clause.contents clause.chunks (clause.walk visit) := by
  -- a clause without nodes is its text
  have hplain : Outlines visit (.plain clause.text) [] clause.chunks (pure ()) :=
    (Outlines.plain visit _).reprint (by simp [text])
  cases clause with
  | addConstraint constraint => exact (constraint.outlines visit).text _
  | alterColumn keyword name action =>
      cases action with
      | setDefault value => exact ((value.outlines visit).text _).text _
      | _ => exact hplain
  | renameTable asKeyword newName =>
      refine ((newName.outlines visit).text _).reprint ?_
      simp [chunks]
  | exchangePartition partition table validation =>
      refine (((table.outlines visit).trailed _).text _).reprint ?_
      rcases validation with _ | _ | _ <;> simp [chunks, String.append_assoc]
  | tableOption option => exact (option.value.outlines visit).text _
  | partitionBy partitioning =>
      obtain ⟨linear, method, key, count, partitions⟩ := partitioning
      -- only a key that is an expression has nodes
      cases key with
      | expression e =>
          refine ((((e.outlines visit).trailed _)).text _).reprint ?_
          simp [chunks, Partitioning.chunks, PartitionKey.chunks, String.append_assoc]
      | columns keyword names => exact hplain
  | _ => exact hplain

/-- The table comes first, and then the clauses with commas between them. -/
theorem Alter.outlines (alter : Alter) :
    Outlines visit alter.outline alter.contents alter.chunks (alter.walk visit) := by
  have hclauses : Outlines visit (.separated ", " (alter.clauses.map AlterClause.outline)) _ _ _ :=
    .separated (by decide) fun clause _ => clause.outlines visit
  have h := (alter.table.outlines visit).append (hclauses.unless_empty " ")
    (Outline.opens_unless (by decide) _ _)
  refine (h.text _).reprint ?_
  simp [chunks, String.append_assoc]

/-! ## Queries -/

/-- An alias belongs to no node. -/
theorem SelectItem.outlines (item : SelectItem) :
    Outlines visit item.outline item.contents item.chunks (item.walk visit) := by
  cases item with
  | unnamed e => exact e.outlines visit
  | aliased e asName => exact (e.outlines visit).trailed _
  | wildcard => exact .plain visit _

theorem SelectItem.list_outlines (items : List SelectItem) :
    Outlines visit (listOutline items) (items.flatMap contents) (listChunks items)
      (items.forM (walk visit)) :=
  .separated (by decide) fun item _ => item.outlines visit

theorem TableRef.outlines (table : TableRef) :
    Outlines visit table.outline table.contents [table.text] (table.name.walk visit) := by
  obtain ⟨name, asName⟩ := table
  refine ((name.outlines visit).trailed _).reprint ?_
  cases asName <;> simp [text, String.append_assoc]

/-- Columns, table and condition are stored in the order of their words. -/
theorem QueryBody.outlines (body : QueryBody) :
    Outlines visit body.outline body.contents body.chunks (body.walk visit) := by
  cases body with
  | select s =>
      have hsource := Outlines.optional " FROM " s.source (TableRef.outlines visit)
      have hselection := Outlines.optional " WHERE " s.selection (Expr.outlines visit)
      have htail := hsource.append hselection (Outline.opens_optional (by decide) _)
      have h := (SelectItem.list_outlines visit s.projection).append htail
        ((Outline.opens_optional (by decide) _).append (Outline.opens_optional (by decide) _))
      refine (h.text _).reprint ?_
      cases hs : s.source <;> cases hw : s.selection <;>
        simp [chunks, hs, hw, String.append_assoc]
  | «from» table =>
      refine ((table.outlines visit).text _).reprint ?_
      simp [chunks]

/-- Each operator stores its expressions behind its word. -/
theorem PipeOperator.outlines (pipe : PipeOperator) :
    Outlines visit pipe.outline pipe.contents pipe.chunks (pipe.walk visit) := by
  -- an operator without nodes is its text
  have hplain : Outlines visit (.plain pipe.text) [] pipe.chunks (pure ()) :=
    (Outlines.plain visit _).reprint (by simp [text])
  cases pipe with
  | «where» condition => exact (condition.outlines visit).text _
  | select items => exact (SelectItem.list_outlines visit items).text _
  | extend items => exact (SelectItem.list_outlines visit items).text _
  | limit count offset =>
      have hoffset := Outlines.optional " OFFSET " offset (Expr.outlines visit)
      have h := (count.outlines visit).append hoffset (Outline.opens_optional (by decide) _)
      refine (h.text _).reprint ?_
      cases offset <;> simp [chunks]
  | orderBy items =>
      have h : Outlines visit (.separated ", " (items.map _)) _ _ _ :=
        .separated (by decide) fun item _ =>
          (item.expr.outlines visit).trailed (Direction.trailer item.direction)
      exact h.text _
  | aggregate items groupBy =>
      have h := ((SelectItem.list_outlines visit items).unless_empty " ").append
        ((SelectItem.list_outlines visit groupBy).unless_empty " GROUP BY ")
        (Outline.opens_unless (by decide) _ _)
      exact h.text _
  | drop columns => exact hplain
  | «as» asName => exact hplain
  | rename renamings => exact hplain

/-- The pipes come behind the body, with their signs in front. -/
theorem Query.outlines (query : Query) :
    Outlines visit query.outline query.contents query.chunks (query.walk visit) := by
  obtain ⟨hpipes, hopens⟩ := Outlines.joined query.pipes
    (fun pipe _ => (pipe.outlines visit).text " |> ") (fun _ _ => .inl (by decide))
  simpa [outline, contents, chunks, walk] using (query.body.outlines visit).append hpipes hopens

/-! ## Statements -/

/-- The options of an explanation are text, and its target is stored. -/
theorem Explain.outlines (explain : Explain) :
    Outlines visit explain.outline explain.contents explain.chunks (explain.walk visit) := by
  obtain ⟨keyword, options, target⟩ := explain
  cases target with
  | table name =>
      refine ((name.outlines visit).text _).reprint ?_
      simp [chunks]
  | query query =>
      refine ((query.outlines visit).text _).reprint ?_
      simp [chunks, String.append_assoc]

/-- A synonym stores two names, with the word between them. -/
theorem CreateSynonym.outlines (s : CreateSynonym) :
    Outlines visit s.outline s.contents s.chunks (s.walk visit) := by
  have hnames := (s.synonym.outlines visit).append ((s.object.outlines visit).text " FOR ")
    (.inl (by decide))
  refine (hnames.text _).reprint ?_
  simp [chunks, String.append_assoc]

/-- A statement is a node around all that it stores. -/
theorem Statement.outlines (s : Statement) :
    Outlines visit s.outline (.statement s :: s.contents) s.chunks (s.walk visit) := by
  cases s with
  | alter s => exact (s.outlines visit).mark rfl (.inl (Outline.own_text (by simp) _))
  | explain s =>
      refine (s.outlines visit).mark rfl (.inl ?_)
      obtain ⟨keyword, options, target⟩ := s
      cases target <;> exact Outline.own_text (by simp) _
  | createSynonym s => exact (s.outlines visit).mark rfl (.inl (Outline.own_text (by simp) _))
  | query s =>
      refine (s.outlines visit).mark rfl (.inl ?_)
      have hbody : 0 < s.body.outline.own := by
        cases s.body <;> exact Outline.own_text (by simp) _
      rw [Query.outline, Outline.own_append]
      omega

end

end SchemaSql
