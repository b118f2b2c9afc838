import SchemaSql.Proofs.Ensures
import SchemaSql.Proofs.Keyed
import SchemaSql.Statement.Datum

/-! # Well-formed trees — the rules that printing relies on

    Printing leaves things out without a word when a tree breaks a rule: the values of a
    partition that has no bound, the column list of an index that has no columns.  This file
    states the rules for every node of a statement's tree, and proves that a tree that was
    read from a text keeps all of them.

    * `Expr.WellFormed`, `AlterClause.WellFormed`, … are the rules, from the leaves up to
      `Statement.WellFormed`.
    * `parse_wellFormed` of each kind of node is assembled from those of its parts, by the
      rules of `Ensures`.
    * `Statement.parseAll_wellFormed` puts them together for whole texts. -/

namespace SchemaSql

open SchemaSql.Parser

/-! ## Names and expressions -/

/-- A name of an object has a part. -/
def ObjectName.WellFormed (name : ObjectName) : Prop := name.parts ≠ []

/-- A path has at least two parts, and the list behind `IN` is not empty. -/
inductive Expr.WellFormed : Expr → Prop where
  | ident (name : Ident) : Expr.WellFormed (.ident name)
  | compound {parts : List Ident} (h : 2 ≤ parts.length) : Expr.WellFormed (.compound parts)
  | literal (value : Literal) : Expr.WellFormed (.literal value)
  | binary {left right : Expr} (op : BinaryOp) (hl : Expr.WellFormed left)
      (hr : Expr.WellFormed right) : Expr.WellFormed (.binary left op right)
  | unary {operand : Expr} (op : UnaryOp) (h : Expr.WellFormed operand) :
      Expr.WellFormed (.unary op operand)
  | nested {inner : Expr} (h : Expr.WellFormed inner) : Expr.WellFormed (.nested inner)
  | call {function : ObjectName} {args : List Expr} (hf : function.WellFormed)
      (ha : ∀ e ∈ args, Expr.WellFormed e) : Expr.WellFormed (.call function args)
  | isNull {operand : Expr} (h : Expr.WellFormed operand) : Expr.WellFormed (.isNull operand)
  | isNotNull {operand : Expr} (h : Expr.WellFormed operand) :
      Expr.WellFormed (.isNotNull operand)
  | inList {operand : Expr} {items : List Expr} (negated : Bool)
      (h : Expr.WellFormed operand) (hne : items ≠ []) (hi : ∀ e ∈ items, Expr.WellFormed e) :
      Expr.WellFormed (.inList operand items negated)
  | between {operand low high : Expr} (negated : Bool) (h : Expr.WellFormed operand)
      (hl : Expr.WellFormed low) (hh : Expr.WellFormed high) :
      Expr.WellFormed (.between operand negated low high)
  | wildcard : Expr.WellFormed .wildcard

/-- The first part of a name is read before anything else. -/
theorem ObjectName.parseIn_wellFormed (inFrom : Bool) :
    Ensures (ObjectName.parseIn inFrom) ObjectName.WellFormed :=
  .after fun first => .after fun rest => .pure (List.cons_ne_nil first rest)

theorem ObjectName.parse_wellFormed : Ensures ObjectName.parse ObjectName.WellFormed :=
  ObjectName.parseIn_wellFormed false

namespace Expr

variable {sub : SubParser}

/-- A name is a path only where a part stands behind a period. -/
theorem parsePath_wellFormed (hsub : ∀ p, Ensures (sub p) WellFormed) (first : Ident) :
    Ensures (parsePath sub first) WellFormed := by
  refine .after fun rest => .test ?_ (.ite (fun _ => .pure (.ident first)) fun hrest => ?_)
  · refine .bind (.commaSeparatedUntil (hsub 0)) fun args hargs => .after fun _ => ?_
    exact .pure (.call (List.cons_ne_nil first rest) hargs)
  · refine .pure (.compound ?_)
    cases rest with
    | nil => exact absurd rfl hrest
    | cons second rest => simp

/-- An operand is as well formed as the expressions that are read inside it. -/
theorem parseOperand_wellFormed (hsub : ∀ p, Ensures (sub p) WellFormed) :
    Ensures (parseOperand sub) WellFormed := by
  have hunary : ∀ op p, Ensures (do return .unary op (← sub p)) WellFormed :=
    fun op p => .bind (hsub p) fun _ h => .pure (.unary op h)
  refine .after fun found => ?_
  split
  · split
    · exact .pure (.literal _)
    · exact .pure (.literal _)
    · exact .pure (.literal _)
    · exact hunary .not Precedence.not
    · exact parsePath_wellFormed hsub _
  · exact .pure (.literal _)
  · exact .pure (.literal _)
  · exact .pure (.literal _)
  · exact hunary .minus Precedence.sign
  · exact hunary .plus Precedence.sign
  · exact .bind (hsub 0) fun _ h => .after fun _ => .pure (.nested h)
  · exact .pure .wildcard
  · exact .expected

/-- The list behind `IN` has the item that is read first. -/
theorem parseInList_wellFormed (hsub : ∀ p, Ensures (sub p) WellFormed) {operand : Expr}
    (h : operand.WellFormed) (negated : Bool) :
    Ensures (parseInList sub operand negated) WellFormed :=
  .bind (.parenthesized (.commaSeparated (hsub 0))) fun _ hitems =>
    .pure (.inList negated h hitems.1 hitems.2)

theorem parseBetween_wellFormed (hsub : ∀ p, Ensures (sub p) WellFormed) {operand : Expr}
    (h : operand.WellFormed) (negated : Bool) :
    Ensures (parseBetween sub operand negated) WellFormed :=
  .bind (hsub _) fun _ hlow => .after fun _ => .bind (hsub _) fun _ hhigh =>
    .pure (.between negated h hlow hhigh)

/-- An operator is put behind an operand that is well formed already, so only what stands to its
    right has to be read. -/
theorem parseOperator_wellFormed (hsub : ∀ p, Ensures (sub p) WellFormed) {left : Expr}
    (h : left.WellFormed) (precedence : Nat) :
    Ensures (parseOperator sub left precedence) WellFormed :=
  parseOperator_ensures (fun op => (hsub precedence).mono fun _ hright => .binary op h hright)
    (.isNull h) (.isNotNull h) (parseInList_wellFormed hsub h) (parseBetween_wellFormed hsub h)

/-- By induction on the levels of nesting; the loop over the operators keeps what is read so
    far well formed. -/
theorem parseAt_wellFormed (depth : Nat) :
    ∀ precedence, Ensures (parseAt depth precedence) WellFormed := by
  induction depth with
  | zero => exact fun _ => .throw
  | succ depth ih =>
      intro precedence
      refine .descend <| .bind (parseOperand_wellFormed ih) fun operand hoperand => ?_
      refine .iterate hoperand fun left hleft => .after fun next => ?_
      refine .ite (fun _ => .pure (by simp)) fun _ => ?_
      exact .map (parseOperator_wellFormed ih hleft next) (by simp)

/-- Whatever expression is read, the rules hold at each of its nodes. -/
theorem parse_wellFormed : Ensures Expr.parse WellFormed :=
  .after fun levels => parseAt_wellFormed levels 0

end Expr

/-! ## Columns -/

/-- Only a list in parentheses behind `MODIFY` has columns with a word in front. -/
def ColumnDefinition.Bare (column : ColumnDefinition) : Prop := column.keyword = .none

/-- In that list the word is `COLUMN`, if there is one. -/
def ColumnDefinition.Modified (column : ColumnDefinition) : Prop :=
  column.keyword = .none ∨ column.keyword = .column

/-- A default value is well formed. -/
def ColumnAction.WellFormed : ColumnAction → Prop
  | .setDefault value => value.WellFormed
  | _ => True

/-- The reader of a definition knows no word in front of it; the clauses add theirs. -/
theorem ColumnDefinition.parse_bare : Ensures ColumnDefinition.parse Bare :=
  .after fun _ => .after fun _ => .either fun _ => .after fun _ => .pure rfl

/-- Only a default value has something to check. -/
theorem ColumnAction.parse_wellFormed : Ensures ColumnAction.parse WellFormed :=
  .test (.after fun _ => .pure trivial) <| .test (.after fun _ => .pure trivial) <|
  .test (.bind Expr.parse_wellFormed fun _ h => .pure h) <|
  .test (.pure trivial) <| .test (.pure trivial) <| .test (.pure trivial) <|
  .test (.pure trivial) <| .test (.pure trivial) <|
  .test (.after fun _ => .pure trivial) <| .after fun _ => .expected

/-! ## Indexes and constraints -/

/-- An index has columns; a plain one says `INDEX` or `KEY`, a primary key cannot. -/
structure Index.WellFormed (index : Index) : Prop where
  columns : index.columns ≠ []
  plain   : index.kind = .plain → index.keyword.isSome
  primary : index.kind = .primary → index.keyword = none

/-- A foreign key has columns and a table, and one rule at most for each event. -/
structure ForeignKey.WellFormed (fk : ForeignKey) : Prop where
  columns : fk.columns ≠ []
  table   : fk.referredTable.WellFormed
  rules   : (fk.rules.map ReferentialRule.event).Nodup

/-- A constraint is as well formed as what it says. -/
def TableConstraint.WellFormed : TableConstraint → Prop
  | .index definition => definition.WellFormed
  | .named _ definition => definition.WellFormed
  | .foreignKey key => key.WellFormed
  | .check _ condition => condition.WellFormed

namespace Index

/-- What the words of an index's head have to fit. -/
def HeadWellFormed (head : IndexKind × Option IndexKeyword) : Prop :=
  (head.1 = .plain → head.2.isSome) ∧ (head.1 = .primary → head.2 = none)

/-- A plain index is told by its word, and a primary key by having none. -/
theorem parseHead_wellFormed : Ensures parseHead HeadWellFormed := by
  refine .after fun keyword => ?_
  split
  · exact .after fun _ => .pure ⟨by simp, fun _ => rfl⟩
  · exact .pure ⟨fun _ => rfl, by simp⟩
  · exact .pure ⟨fun _ => rfl, by simp⟩
  all_goals exact .after fun _ => .pure ⟨by simp, by simp⟩

/-- The columns of an index are read in parentheses, and so there are some. -/
theorem parse_wellFormed : Ensures Index.parse WellFormed := by
  refine .bind parseHead_wellFormed fun head hhead => .after fun _ => .after fun _ => ?_
  refine .either fun _ => .after fun _ => .either fun _ => ?_
  exact .bind .parenthesizedList_ne_nil fun _ hcolumns => .after fun _ => .after fun _ =>
    .pure ⟨hcolumns, hhead.1, hhead.2⟩

end Index

namespace ForeignKey

/-- A rule is added under the event that it is for, unless there is one for it. -/
theorem parseRule_wellFormed {fk : ForeignKey} (h : fk.WellFormed) :
    Ensures (parseRule fk) fun o => ∀ fk' ∈ o, fk'.WellFormed := by
  refine .after fun start => ?_
  cases start with
  | none => exact .pure (by simp)
  | some start =>
      have hset : ∀ event action, (fk.setAction event action).WellFormed := fun event action =>
        ⟨h.columns, h.table, Keyed.nodup_upsert _ h.rules⟩
      refine .after fun keyword => ?_
      split <;>
      exact .after fun event => .ite (fun _ => .bind (P := fun _ => False) .throw nofun)
        fun _ => .after fun action => .pure (by simpa using hset event action)

/-- A key starts without rules and keeps one for each event at most. -/
theorem parse_wellFormed (name : Option Ident) : Ensures (ForeignKey.parse name) WellFormed := by
  refine .after fun _ => .bind .parenthesizedList_ne_nil fun columns hcolumns => .after fun _ => ?_
  refine .bind ObjectName.parse_wellFormed fun table htable => .after fun _ => ?_
  refine .either fun referred => ?_
  refine .bind (.iterate (R := WellFormed) ⟨hcolumns, htable, List.nodup_nil⟩
    fun _ => parseRule_wellFormed) fun fk hfk => ?_
  exact .after fun _ => .pure ⟨hfk.columns, hfk.table, hfk.rules⟩

end ForeignKey

/-- Each kind of constraint keeps the rules of what it is about. -/
theorem TableConstraint.parse_wellFormed : Ensures TableConstraint.parse WellFormed := by
  have hcheck : ∀ name, Ensures (do return .check name (← parseCondition)) WellFormed :=
    fun _ => .bind (.parenthesized Expr.parse_wellFormed) fun _ h => .pure h
  have hkey : ∀ name, Ensures (do return .foreignKey (← ForeignKey.parse name)) WellFormed :=
    fun name => .bind (ForeignKey.parse_wellFormed name) fun _ h => .pure h
  refine .test (.after fun _ => ?_) ?_
  · exact .either fun name => .test (hkey name) <| .test (hcheck name) <|
      .bind Index.parse_wellFormed fun _ h => .pure h
  · exact .test (hkey _) <| .test (hcheck _) <| .bind Index.parse_wellFormed fun _ h => .pure h

/-! ## Partitions -/

/-- A partition has values exactly when it says how they bound it. -/
def PartitionDefinition.WellFormed (partition : PartitionDefinition) : Prop :=
  partition.values ≠ [] ↔ partition.bound.isSome

/-- Rows are assigned by a well-formed expression or by some columns, which only `KEY` takes
    without the word `COLUMNS`; `KEY` takes no expression. -/
def PartitionKey.WellFormed (method : PartitionMethod) : PartitionKey → Prop
  | .expression e => method ≠ .key ∧ e.WellFormed
  | .columns keyword names => names ≠ [] ∧ (keyword = false → method = .key)

/-- The key of a partitioning fits its method, and its partitions are well formed. -/
structure Partitioning.WellFormed (partitioning : Partitioning) : Prop where
  key        : partitioning.key.WellFormed partitioning.method
  partitions : ∀ partition ∈ partitioning.partitions, partition.WellFormed

namespace PartitionDefinition

/-- Values are read in parentheses wherever there is a bound. -/
theorem parseBound_values : Ensures parseBound fun bound => bound.2 ≠ [] := by
  refine .test (.test (.pure (by simp)) ?_) (.after fun _ => ?_) <;>
  exact .bind .parenthesizedList_ne_nil fun _ h => .pure h

/-- A partition without a bound gets no values. -/
theorem parse_wellFormed : Ensures PartitionDefinition.parse WellFormed := by
  refine .after fun _ => .after fun name => .test ?_ ?_
  · refine .bind parseBound_values fun bound hbound => ?_
    exact .bind (P := WellFormed) (.pure (by simpa [WellFormed] using hbound)) fun _ h =>
      .after fun _ => .pure h
  · exact .bind (P := WellFormed) (.pure (by simp [WellFormed])) fun _ h =>
      .after fun _ => .pure h

theorem parseList_wellFormed : Ensures parseList (Filled WellFormed) :=
  .parenthesizedList parse_wellFormed

end PartitionDefinition

namespace Partitioning

/-- Columns without the word `COLUMNS` are read for `KEY` alone. -/
theorem parseKey_wellFormed (method : PartitionMethod) :
    Ensures (parseKey method) (PartitionKey.WellFormed method) := by
  refine .test (.bind .parenthesizedList_ne_nil fun _ h => .pure ⟨h, by simp⟩) ?_
  refine .ite (fun hmethod => ?_) fun hmethod => ?_
  · exact .bind .parenthesizedList_ne_nil fun _ h => .pure ⟨h, fun _ => hmethod⟩
  · exact .bind (.parenthesized Expr.parse_wellFormed) fun _ h => .pure ⟨hmethod, h⟩

/-- The key is read for the method in front of it, which is how the two fit. -/
theorem parse_wellFormed : Ensures Partitioning.parse WellFormed := by
  refine .after fun _ => .after fun method => .bind (parseKey_wellFormed method) fun key hkey => ?_
  have hlist : Ensures PartitionDefinition.parseList
      fun partitions => ∀ partition ∈ partitions, partition.WellFormed :=
    PartitionDefinition.parseList_wellFormed.mono fun _ h => h.2
  refine .after fun _ => .either fun count => .after fun _ => ?_
  exact .bind_ite hlist (.pure (by simp)) fun partitions h => .pure ⟨hkey, h⟩

end Partitioning

/-! ## Clauses of ALTER TABLE -/

/-- A list of columns that is not in parentheses holds exactly one. -/
def ColumnsWellFormed (parenthesized : Bool) (columns : List ColumnDefinition) : Prop :=
  columns ≠ [] ∧ (parenthesized = false → columns.length = 1)

namespace AlterClause

/-- The rules for a clause.  Where a table is converted to a character set, neither `DEFAULT` nor
    an equals sign is printed, so neither flag is set. -/
def WellFormed : AlterClause → Prop
  | .addColumns _ _ parenthesized columns =>
    ColumnsWellFormed parenthesized columns ∧ ∀ column ∈ columns, column.Bare
  | .addConstraint constraint => constraint.WellFormed
  | .addPartition partitions => Filled PartitionDefinition.WellFormed partitions
  | .alterColumn _ _ action => action.WellFormed
  | .dropUnique columns => columns ≠ []
  | .modify _ parenthesized columns =>
    ColumnsWellFormed parenthesized columns ∧
      if parenthesized then ∀ column ∈ columns, column.Modified
      else ∀ column ∈ columns, column.Bare
  | .change _ _ column => column.Bare
  | .renameTable _ newName => newName.WellFormed
  | .tableOption option => option.value.WellFormed
  | .convert convertTo default equals _ _ => convertTo = true → default = false ∧ equals = false
  | .onPartitions _ partitions => partitions ≠ []
  | .reorganizePartition partitions into =>
    partitions ≠ [] ∧ Filled PartitionDefinition.WellFormed into
  | .exchangePartition _ table _ => table.WellFormed
  | .partitionBy partitioning => partitioning.WellFormed
  | _ => True

/-- The names of partitions are a list with a first one. -/
theorem parsePartitions_ne_nil : Ensures parsePartitions (· ≠ []) :=
  .after fun first => .after fun rest => .pure (List.cons_ne_nil first rest)

/-- Behind `ADD` stand partitions, a constraint, or columns whose definitions carry no word of their
    own. -/
theorem parseAdd_wellFormed : Ensures parseAdd WellFormed := by
  refine .test (.bind PartitionDefinition.parseList_wellFormed fun _ h => .pure h) ?_
  refine .after fun _ => .after fun _ => .ite (fun _ => ?_) fun _ => .after fun _ => ?_
  · exact .bind TableConstraint.parse_wellFormed fun _ h => .pure h
  refine .after fun _ => .ite (fun _ => ?_) fun _ => ?_
  · exact .bind (.parenthesizedList ColumnDefinition.parse_bare) fun _ h =>
      .pure ⟨⟨h.1, by simp⟩, h.2⟩
  · exact .bind ColumnDefinition.parse_bare fun _ h => .pure ⟨⟨by simp, by simp⟩, by simpa⟩

/-- Only the default value that a column may get has rules. -/
theorem parseAlter_wellFormed : Ensures parseAlter WellFormed := by
  refine .test (.after fun _ => .after fun _ => .pure trivial) (.after fun keyword => ?_)
  cases keyword with
  | some keyword =>
      exact .after fun _ => .after fun _ => .after fun _ => .pure trivial
  | none =>
      exact .after fun _ => .after fun _ => .bind ColumnAction.parse_wellFormed fun _ h => .pure h

/-- The columns of a unique key that is dropped are read in parentheses. -/
theorem parseDrop_wellFormed : Ensures parseDrop WellFormed := by
  refine .test (.pure trivial) <| .test (.bind .parenthesizedList_ne_nil fun _ h => .pure h) ?_
  refine .test (.after fun _ => .either fun _ => .after fun _ => .either fun _ => .pure trivial) ?_
  refine .after fun keyword => ?_
  cases keyword with
  | some keyword => exact .after fun _ => .pure trivial
  | none =>
      refine .test (.bind parsePartitions_ne_nil fun _ h => .pure h) <| .test ?_ ?_
      · exact .after fun _ => .after fun _ => .after fun _ => .pure trivial
      · exact .after fun _ => .after fun _ => .after fun _ => .after fun _ => .pure trivial

/-- In the parenthesized list the reader accepts `COLUMN` in front of a definition and keeps it
    there. -/
theorem parseModifiedColumn_modified :
    Ensures parseModifiedColumn ColumnDefinition.Modified := by
  refine .after fun found => .after fun _ => .pure ?_
  cases found
  · exact .inl rfl
  · exact .inr rfl

/-- Parentheses decide both how many columns there may be and where the word stands. -/
theorem parseModify_wellFormed : Ensures parseModify WellFormed := by
  refine .after fun _ => .after fun _ => .ite (fun _ => ?_) fun _ => ?_
  · exact .bind (.parenthesizedList parseModifiedColumn_modified) fun _ h =>
      .pure ⟨⟨h.1, by simp⟩, h.2⟩
  · exact .bind ColumnDefinition.parse_bare fun _ h => .pure ⟨⟨by simp, by simp⟩, by simpa⟩

theorem parseChange_wellFormed : Ensures parseChange WellFormed :=
  .after fun _ => .after fun _ => .bind ColumnDefinition.parse_bare fun _ h => .pure h

/-- A new name of the table is a name with parts. -/
theorem parseRename_wellFormed : Ensures parseRename WellFormed := by
  refine .after fun keyword => ?_
  cases keyword with
  | some keyword => exact .bind ObjectName.parse_wellFormed fun _ h => .pure h
  | none =>
      refine .after fun kind => .either fun _ => .after fun _ => .after fun _ => .after fun _ => ?_
      cases kind <;> exact .pure trivial

theorem parseSetting_wellFormed (kind : NamedSetting) : Ensures (parseSetting kind) WellFormed :=
  .after fun _ => .after fun _ => .pure trivial

theorem parseCharacterSet_wellFormed (default : Bool) :
    Ensures (parseCharacterSet default) WellFormed :=
  .after fun _ => .after fun _ => .after fun _ => .pure fun h => absurd h Bool.false_ne_true

/-- Behind `CONVERT TO` neither `DEFAULT` nor an equals sign is asked for, and the clause that is
    built says that there was none. -/
theorem parseConvert_wellFormed : Ensures parseConvert WellFormed :=
  .after fun _ => .after fun _ => .after fun _ => .pure fun _ => ⟨rfl, rfl⟩

/-- Without the word `PARTITION` the clause is the one for the table, which is well formed. -/
theorem parseTablespace_wellFormed (whole : AlterClause) (h : whole.WellFormed)
    (command : PartitionCommand) : Ensures (parseTablespace whole command) WellFormed :=
  .test (.pure h) <| .after fun _ => .bind parsePartitions_ne_nil fun _ hp =>
    .after fun _ => .pure hp

theorem parsePartitionCommand_wellFormed (command : PartitionCommand) :
    Ensures (parsePartitionCommand command) WellFormed :=
  .after fun _ => .bind parsePartitions_ne_nil fun _ h => .pure h

theorem parseReorganize_wellFormed : Ensures parseReorganize WellFormed :=
  .after fun _ => .bind parsePartitions_ne_nil fun _ hp => .after fun _ =>
    .bind PartitionDefinition.parseList_wellFormed fun _ hinto => .pure ⟨hp, hinto⟩

theorem parseExchange_wellFormed : Ensures parseExchange WellFormed :=
  .after fun _ => .after fun _ => .after fun _ => .bind ObjectName.parse_wellFormed fun _ h =>
    .test (.pure h) <| .test (.pure h) <| .pure h

/-- One case for each word that a clause starts with. -/
theorem parseAfter_wellFormed (found : Located) (keyword : Option Keyword) :
    Ensures (parseAfter found keyword) WellFormed := by
  unfold parseAfter
  split
  · exact parseAdd_wellFormed
  · exact parseAlter_wellFormed
  · exact parseDrop_wellFormed
  · exact parseModify_wellFormed
  · exact parseChange_wellFormed
  · exact parseRename_wellFormed
  · exact .after fun _ => .after fun _ => .pure trivial
  · exact .test (.after fun _ => .after fun _ => .pure trivial) <|
      .after fun _ => parseCharacterSet_wellFormed true
  · exact .after fun _ => parseCharacterSet_wellFormed false
  · exact parseConvert_wellFormed
  · exact parseSetting_wellFormed .lock
  · exact parseSetting_wellFormed .algorithm
  · exact parseSetting_wellFormed .engine
  · exact .after fun _ => .after fun _ => .pure trivial
  · exact .pure trivial
  · exact .after fun _ => .after fun _ => .pure trivial
  · exact parseTablespace_wellFormed .discardTablespace trivial .discardTablespace
  · exact parseTablespace_wellFormed .importTablespace trivial .importTablespace
  · exact .after fun _ => .pure trivial
  · exact .after fun _ => .pure trivial
  · exact parsePartitionCommand_wellFormed .truncate
  · exact parsePartitionCommand_wellFormed .analyze
  · exact parsePartitionCommand_wellFormed .check
  · exact parsePartitionCommand_wellFormed .optimize
  · exact parsePartitionCommand_wellFormed .rebuild
  · exact parsePartitionCommand_wellFormed .repair
  · exact .after fun _ => .after fun _ => .pure trivial
  · exact parseReorganize_wellFormed
  · exact parseExchange_wellFormed
  · exact .after fun _ => .pure trivial
  · exact .after fun _ => .bind Partitioning.parse_wellFormed fun _ h => .pure h
  · exact .after fun _ => .after fun _ => .pure trivial
  · exact .ite (fun _ => .after fun _ => .bind Expr.parse_wellFormed fun _ h => .pure h)
      fun _ => .expected
  · exact .expected

/-- Whichever word a clause starts with, its reader keeps the rules. -/
theorem parse_wellFormed : Ensures AlterClause.parse WellFormed :=
  .after fun found => parseAfter_wellFormed found _

end AlterClause

/-- A statement names a table and has clauses, all of them well formed. -/
structure Alter.WellFormed (alter : Alter) : Prop where
  table   : alter.table.WellFormed
  clauses : Filled AlterClause.WellFormed alter.clauses

/-- The clauses are a list that is separated by commas, which has a first item. -/
theorem Alter.parse_wellFormed : Ensures Alter.parse WellFormed :=
  .after fun _ => .after fun _ => .after fun _ => .bind ObjectName.parse_wellFormed fun _ ht =>
    .bind (.commaSeparatedWith false AlterClause.parse_wellFormed) fun _ hc => .pure ⟨ht, hc⟩

/-! ## Queries -/

/-- A table reference names a table. -/
def TableRef.WellFormed (table : TableRef) : Prop := table.name.WellFormed

/-- The expression of a column is well formed. -/
def SelectItem.WellFormed : SelectItem → Prop
  | .unnamed e => e.WellFormed
  | .aliased e _ => e.WellFormed
  | .wildcard => True

/-- A `SELECT` has columns, and all its parts are well formed. -/
structure Select.WellFormed (select : Select) : Prop where
  projection : Filled SelectItem.WellFormed select.projection
  source     : ∀ table ∈ select.source, table.WellFormed
  selection  : ∀ e ∈ select.selection, e.WellFormed

/-- What a query starts with is well formed. -/
def QueryBody.WellFormed : QueryBody → Prop
  | .select s => s.WellFormed
  | .from table => table.WellFormed

/-- An operator has the items that it works with; `AGGREGATE` alone may have none. -/
def PipeOperator.WellFormed : PipeOperator → Prop
  | .where condition => condition.WellFormed
  | .select items | .extend items => Filled SelectItem.WellFormed items
  | .drop columns => columns ≠ []
  | .as _ => True
  | .limit count offset => count.WellFormed ∧ ∀ e ∈ offset, e.WellFormed
  | .orderBy items => Filled (fun item => item.expr.WellFormed) items
  | .rename renamings => renamings ≠ []
  | .aggregate items groupBy =>
    (∀ item ∈ items, item.WellFormed) ∧ ∀ item ∈ groupBy, item.WellFormed

/-- A query is as well formed as its parts. -/
structure Query.WellFormed (query : Query) : Prop where
  body  : query.body.WellFormed
  pipes : ∀ pipe ∈ query.pipes, pipe.WellFormed

theorem TableRef.parse_wellFormed : Ensures TableRef.parse WellFormed :=
  .bind (ObjectName.parseIn_wellFormed true) fun _ h => .after fun _ => .pure h

/-- An alias does not change the expression in front of it. -/
theorem SelectItem.parse_wellFormed : Ensures SelectItem.parse WellFormed := by
  refine .test (.pure trivial) <| .bind Expr.parse_wellFormed fun e he => .after fun asName => ?_
  cases asName <;> exact .pure he

theorem SelectItem.parseList_wellFormed : Ensures SelectItem.parseList (Filled WellFormed) :=
  .commaSeparated SelectItem.parse_wellFormed

/-- The parts that may be missing are well formed where they are there. -/
theorem Select.parse_wellFormed : Ensures Select.parse WellFormed := by
  refine .after fun _ => .bind SelectItem.parseList_wellFormed fun items hitems => ?_
  refine .bind_option TableRef.parse_wellFormed fun source hsource => ?_
  refine .bind_option Expr.parse_wellFormed fun selection hselection => ?_
  exact .pure ⟨hitems, hsource, hselection⟩

theorem OrderItem.parse_wellFormed :
    Ensures OrderItem.parse fun item => item.expr.WellFormed := by
  refine .bind Expr.parse_wellFormed fun e he => .after fun direction => ?_
  split <;> exact .pure he

/-- Each operator reads the items that it works with; only `AGGREGATE` may go on without them. -/
theorem PipeOperator.parse_wellFormed : Ensures PipeOperator.parse WellFormed := by
  refine .after fun found => ?_
  split
  · exact .bind Expr.parse_wellFormed fun _ h => .pure h
  · exact .bind SelectItem.parseList_wellFormed fun _ h => .pure h
  · exact .bind SelectItem.parseList_wellFormed fun _ h => .pure h
  · exact .bind .commaSeparated_ne_nil fun _ h => .pure h
  · exact .after fun _ => .pure trivial
  · refine .bind Expr.parse_wellFormed fun count hcount => ?_
    exact .bind_option Expr.parse_wellFormed fun offset hoffset => .pure ⟨hcount, hoffset⟩
  · exact .after fun _ => .bind (.commaSeparated OrderItem.parse_wellFormed) fun _ h => .pure h
  · exact .bind .commaSeparated_ne_nil fun _ h => .pure h
  · have hlist : Ensures SelectItem.parseList fun items => ∀ item ∈ items, item.WellFormed :=
      SelectItem.parseList_wellFormed.mono fun _ h => h.2
    refine .after fun _ => .bind_ite (.pure (by simp)) hlist fun items hitems => ?_
    refine .after fun _ => .bind_ite hlist (.pure (by simp)) fun groupBy hgroupBy => ?_
    exact .pure ⟨hitems, hgroupBy⟩
  · exact .expected

/-- A query is read from its body to the last of its pipes. -/
theorem Query.parse_wellFormed : Ensures Query.parse WellFormed := by
  have hbody : Ensures Query.parseBody QueryBody.WellFormed :=
    .test (.bind Select.parse_wellFormed fun _ h => .pure h) <|
      .after fun _ => .bind TableRef.parse_wellFormed fun _ h => .pure h
  have hpipes : Ensures Query.parsePipes fun pipes => ∀ pipe ∈ pipes, pipe.WellFormed :=
    .after fun _ => .ite (fun _ => .pure (by simp)) fun _ =>
      .many_test PipeOperator.parse_wellFormed
  exact .descend <| .bind hbody fun _ hb => .bind hpipes fun _ hp => .pure ⟨hb, hp⟩

/-! ## Explanations, synonyms, statements -/

/-- What is explained is well formed. -/
def ExplainTarget.WellFormed : ExplainTarget → Prop
  | .table name => name.WellFormed
  | .query q => q.WellFormed

/-- An explanation has one setting of each kind at most. -/
structure Explain.WellFormed (explain : Explain) : Prop where
  target  : explain.target.WellFormed
  options : (explain.options.map ExplainOption.kind).Nodup

/-- A synonym and what it stands for have names. -/
structure CreateSynonym.WellFormed (s : CreateSynonym) : Prop where
  synonym : s.synonym.WellFormed
  object  : s.object.WellFormed

/-- A statement is as well formed as its parts. -/
def Statement.WellFormed : Statement → Prop
  | .alter statement => statement.WellFormed
  | .explain statement => statement.WellFormed
  | .createSynonym statement => statement.WellFormed
  | .query statement => statement.WellFormed

/-- Options are set one behind the other, and an option of a kind that was set replaces the
    earlier one. -/
theorem Explain.foldl_addOption_wellFormed (options : List ExplainOption) {explain : Explain}
    (h : explain.WellFormed) : (options.foldl addOption explain).WellFormed := by
  induction options generalizing explain with
  | nil => exact h
  | cons option options ih => exact ih ⟨h.target, Keyed.nodup_upsert option h.options⟩

/-- The options in front of the target are folded into an explanation that has none. -/
theorem Explain.parse_wellFormed (keyword : ExplainKeyword) :
    Ensures (Explain.parse keyword) WellFormed := by
  have htarget : Ensures Explain.parseTarget ExplainTarget.WellFormed :=
    .after fun _ => .after fun _ => .ite (fun _ => .bind Query.parse_wellFormed fun _ h => .pure h)
      fun _ => .bind ObjectName.parse_wellFormed fun _ h => .pure h
  exact .after fun options => .bind htarget fun target h =>
    .pure (foldl_addOption_wellFormed options ⟨h, List.nodup_nil⟩)

theorem CreateSynonym.parse_wellFormed : Ensures CreateSynonym.parse WellFormed := by
  refine .after fun _ => .ite (fun _ => ?_) fun _ => ?_
  · exact .after fun _ => .bind (P := fun _ => False) .expected nofun
  · exact .after fun _ => .after fun _ => .after fun _ => .bind ObjectName.parse_wellFormed
      fun _ hs => .after fun _ => .bind ObjectName.parse_wellFormed fun _ ho => .pure ⟨hs, ho⟩

namespace Statement

/-- The first word of a statement chooses among readers that keep the rules. -/
theorem parseBuiltin_wellFormed : Ensures parseBuiltin WellFormed := by
  refine .after fun found => ?_
  split
  · exact .bind Alter.parse_wellFormed fun _ h => .pure h
  · exact .bind (Explain.parse_wellFormed .explain) fun _ h => .pure h
  · exact .bind (Explain.parse_wellFormed .describe) fun _ h => .pure h
  · exact .bind (Explain.parse_wellFormed .desc) fun _ h => .pure h
  · exact .bind CreateSynonym.parse_wellFormed fun _ h => .pure h
  · exact .after fun _ => .bind Query.parse_wellFormed fun _ h => .pure h
  · exact .after fun _ => .bind Query.parse_wellFormed fun _ h => .pure h
  · exact .expected

/-- Statements that a caller adds have to be well formed for themselves. -/
theorem parseAllWith_wellFormed {extension : Extension}
    (h : Ensures extension fun o => ∀ s ∈ o, s.WellFormed) :
    Ensures (parseAllWith extension) fun statements => ∀ s ∈ statements, s.WellFormed := by
  have hone : Ensures (parseWith extension) WellFormed := by
    refine .descend <| .bind h fun statement hstatement => ?_
    cases statement with
    | some statement => exact .pure (hstatement statement rfl)
    | none => exact parseBuiltin_wellFormed
  have hnext : ∀ first, Ensures (parseNext extension first) fun o => ∀ s ∈ o, s.WellFormed := by
    intro first
    refine .after fun _ => .after fun _ => .ite (fun _ => .pure (by simp)) fun _ => ?_
    refine .ite (fun _ => .bind (P := fun _ => False) .expected nofun) fun _ => ?_
    exact .map hone (by simp)
  refine .map (P := fun statements => ∀ s ∈ statements, s.WellFormed)
    (.iterate (by simp) fun statements hs => .map (hnext _) ?_) (by simp)
  rintro (_ | s) ho
  · simp
  · simpa using ⟨ho s rfl, hs⟩

/-- Every statement that is read from a text is well formed, in every dialect and with every
    choice of options. -/
theorem parseAll_wellFormed (ctx : Context) (text : String) (statements : List Statement)
    (h : parseAll.runText ctx text = .ok statements) : ∀ s ∈ statements, s.WellFormed := by
  cases htokens : ctx.lex text with
  | error e => simp [runText, htokens, bind, Except.bind] at h
  | ok tokens =>
      replace h : parseAll.runTokens ctx tokens = .ok statements := by
        simpa [runText, htokens, bind, Except.bind] using h
      unfold runTokens at h
      split at h
      · rename_i value c' hrun
        obtain rfl := Except.ok.inj h
        exact parseAllWith_wellFormed (.pure (by simp)) ctx _ _ c' hrun
      · cases h

/-- The statement of `ALTER TABLE t MODIFY (COLUMN a), CONVERT TO CHARACTER SET utf8`. -/
def modifyAndConvert : Statement :=
  .alter {
    table := .simple "t"
    clauses := [.modify .none true [{ keyword := .column, name := { value := "a" } }],
      .convert true false false { value := "utf8" } none] }

/-- A column with its word in the parenthesized list, and a conversion without flags. -/
theorem modifyAndConvert_wellFormed : let ctx : Context := { dialect := .mysql }
    let text := "ALTER TABLE t MODIFY (COLUMN a), CONVERT TO CHARACTER SET utf8"
    parseAll.runText ctx text = .ok [modifyAndConvert] ∧
      ∀ s ∈ [modifyAndConvert], s.WellFormed := by
  intro ctx text
  have h : parseAll.runText ctx text = .ok [modifyAndConvert] := by decide +kernel
  exact ⟨h, parseAll_wellFormed ctx text _ h⟩

end Statement

end SchemaSql
