import SchemaSql.Proofs.SingleStatements
import SchemaSql.Proofs.TrailingCommas.Expressions

/-! # Trailing commas — what allowing them changes

    Where lists may end in a comma, `SELECT a, FROM t` selects one column from a table.  Where
    they may not, it selects two, since `FROM` names a column and `t` is its alias.  That is all
    the difference: a text is read alike if none of its lists goes on with a reserved word.

    * `Statement.lists` are the lists of a statement that may end in a comma: projections, the
      lists of pipe operators, arguments and the items behind `IN`.
    * Each reader of a statement extends itself because the readers of its parts do; those that
      hold no such list are `Free`.
    * `Statement.parseAll_lenient` puts them together for whole texts, and
      `Statement.parseAll_selectFrom` is the text above. -/

namespace SchemaSql

open Cursor SchemaSql.Parser Comparison

/-! ## Lists -/

/-- The token that an item of a query starts with. -/
def SelectItem.first : SelectItem → Token
  | .unnamed e => e.first
  | .aliased e _ => e.first
  | .wildcard => .mul

/-- The first tokens of the items, for each list of a pipe operator. -/
def PipeOperator.lists : PipeOperator → List (List Token)
  | .select items | .extend items => [items.map SelectItem.first]
  | .drop columns => [columns.map fun name => .word name.word]
  | .orderBy items => [items.map fun item => item.expr.first]
  | .rename renamings => [renamings.map fun r => .word r.name.word]
  | .aggregate items groupBy => [items.map SelectItem.first, groupBy.map SelectItem.first]
  | .where _ | .as _ | .limit _ _ => []

/-- The first tokens of the items of a projection. -/
def QueryBody.lists : QueryBody → List (List Token)
  | .select s => [s.projection.map SelectItem.first]
  | .from _ => []

/-- The first tokens of the items, for each list of a query itself. -/
def Query.lists (query : Query) : List (List Token) :=
  query.body.lists ++ query.pipes.flatMap PipeOperator.lists

/-- An explanation has the lists of the query that it explains. -/
def Explain.lists (explain : Explain) : List (List Token) :=
  match explain.target with
  | .query query => query.lists
  | .table _ => []

/-- The first tokens of the items, for each list of a statement that may end in a comma. -/
def Statement.lists (s : Statement) : List (List Token) :=
  s.exprs.map (fun e => e.items.map Expr.first) ++
    match s with
    | .query q => q.lists
    | .explain e => e.lists
    | .alter _ | .createSynonym _ => []

/-- No item but the first of a list starts with a reserved word. -/
def Unreserved (lists : List (List Token)) : Prop := ∀ l ∈ lists, ∀ t ∈ l.tail, ¬ t.IsReserved

instance : DecidablePred Unreserved := fun lists =>
  inferInstanceAs (Decidable (∀ l ∈ lists, ∀ t ∈ l.tail, ¬ t.IsReserved))

@[simp] theorem unreserved_nil : Unreserved [] := by simp [Unreserved]

@[simp] theorem unreserved_cons (l : List Token) (lists : List (List Token)) :
    Unreserved (l :: lists) ↔ (∀ t ∈ l.tail, ¬ t.IsReserved) ∧ Unreserved lists := by
  simp [Unreserved]

@[simp] theorem unreserved_append (a b : List (List Token)) :
    Unreserved (a ++ b) ↔ Unreserved a ∧ Unreserved b := by
  simp [Unreserved, or_imp, forall_and]

@[simp] theorem unreserved_flatMap {α : Type} (f : α → List (List Token)) (l : List α) :
    Unreserved (l.flatMap f) ↔ ∀ a ∈ l, Unreserved (f a) := by
  induction l with
  | nil => simp
  | cons a l ih => simp [ih]

/-- The lists of all expressions in a statement are unreserved where each expression is settled. -/
theorem Statement.unreserved_exprs (s : Statement) :
    Unreserved (s.exprs.map fun e => e.items.map Expr.first) ↔
      Throughout Expr.Settled s.contents := by
  rw [s.throughout_contents]
  simp [Unreserved, Expr.Settled]

/-! ## Clauses -/

/-- A default value is the only place for a list. -/
theorem ColumnAction.parse_extends :
    Extends (fun action => Throughout Expr.Settled action.contents) ColumnAction.parse
      ColumnAction.parse := by
  have htype : ∀ set, Free (do return ColumnAction.setDataType (← DataType.parse) set) := fun _ _ =>
    DataType.parse_steady.next fun _ => .pure rfl
  refine .test (fun _ => .acceptKeyword _) (.of_free (htype false)) <|
    .test (fun _ => .acceptKeywords _) (.of_free (htype true)) <|
    .test (fun _ => .acceptKeywords _) ?_ <|
    .test (fun _ => .acceptKeywords _) (.pure _) <|
    .test (fun _ => .acceptKeywords _) (.pure _) <|
    .test (fun _ => .acceptKeywords _) (.pure _) <|
    .test (fun _ => .acceptKeywords _) (.pure _) <|
    .test (fun _ => .acceptKeywords _) (.pure _) <|
    .test (fun _ => .acceptKeywords _) (.after (fun _ => Lawful.group) fun _ => .pure _) <|
    .peek fun _ => .expected
  exact .bind Expr.parse_extends (fun _ => .pure _) fun _ => .pure id

/-- A condition is the only place for a list that may end in a comma. -/
theorem TableConstraint.parse_extends :
    Extends (fun c => Throughout Expr.Settled c.contents) TableConstraint.parse
      TableConstraint.parse := by
  have hcheck : ∀ name, Extends (fun c => Throughout Expr.Settled c.contents)
      (do return TableConstraint.check name (← parseCondition))
      (do return TableConstraint.check name (← parseCondition)) := fun _ =>
    .bind (.parenthesized Expr.parse_extends) (fun _ => .pure _) fun _ => .pure id
  have hkey : ∀ name, Free (do return TableConstraint.foreignKey (← ForeignKey.parse name)) :=
    fun name _ => (ForeignKey.parse_steady name).next fun _ => .pure rfl
  have hindex : Free Index.parse := fun _ => Index.parse_steady
  refine .test (fun _ => .acceptKeyword _) (.peek fun t => ?_) ?_
  -- behind the word `CONSTRAINT` the name is optional and the kinds are the same
  · have hname : ∀ name, Extends (fun c => Throughout Expr.Settled c.contents) (do
        if ← acceptKeyword .foreign then return TableConstraint.foreignKey (← ForeignKey.parse name)
        if ← acceptKeyword .check then return .check name (← parseCondition)
        return .named name (← Index.parse)) (do
        if ← acceptKeyword .foreign then return TableConstraint.foreignKey (← ForeignKey.parse name)
        if ← acceptKeyword .check then return .check name (← parseCondition)
        return .named name (← Index.parse)) := fun name =>
      .test (fun _ => .acceptKeyword _) (.of_free (hkey name)) <|
      .test (fun _ => .acceptKeyword _) (hcheck name) <| .after hindex fun _ => .pure _
    exact .ite (.after (fun _ => .pure rfl) hname)
      (.after (fun _ => (Ident.parse_steady false).map fun _ _ heq => by rw [heq]) hname)
  · exact .test (fun _ => .acceptKeyword _) (.of_free (hkey none)) <|
      .test (fun _ => .acceptKeyword _) (hcheck none) <| .after hindex fun _ => .pure _

/-- A key by expression is the only place for a list that may end in a comma. -/
theorem Partitioning.parse_extends :
    Extends (fun p => Throughout Expr.Settled p.key.contents) Partitioning.parse
      Partitioning.parse := by
  have hkey : ∀ method, Extends (fun key => Throughout Expr.Settled key.contents)
      (parseKey method) (parseKey method) := fun method =>
    .test (fun _ => .acceptKeyword _)
      (.after (fun _ => Ident.parseList_steady) fun _ => .pure _) <|
    .ite (.after (fun _ => Ident.parseList_steady) fun _ => .pure _) <|
    .bind (.parenthesized Expr.parse_extends) (fun _ => .pure _) fun _ => .pure id
  refine .after (fun _ => .acceptKeyword _) fun linear => .after (fun _ => parseMethod_steady)
    fun method => ?_
  -- nothing behind the key is a list that may end in a comma
  have hrest : ∀ key, Free (do
      let count ← if ← acceptKeyword .partitions then some <$> Literal.parseCount else pure none
      let partitions ← if (← peek).token = .lparen then PartitionDefinition.parseList else pure []
      return ({ linear, method, key, count, partitions } : Partitioning)) := fun key _ =>
    (Steady.acceptKeyword _).test_next (Literal.parseCount_steady.map fun _ _ heq => by rw [heq])
      (.pure rfl) fun count => .peek_if_next PartitionDefinition.parseList_steady (.pure rfl)
        fun _ => .pure rfl
  refine .bind (hkey method) (fun key => .of_free (hrest key)) fun key => ?_
  exact .after fun _ => .either fun _ => .after fun _ => .either fun _ => .pure id

namespace AlterClause

/-- A clause extends itself if none of its expressions has a list in the way. -/
abbrev Grows (p : Parser AlterClause) : Prop :=
  Extends (fun clause => Throughout Expr.Settled clause.contents) p p

theorem parseAdd_extends : Grows parseAdd := by
  refine .test (fun _ => .acceptKeyword _)
    (.after (fun _ => PartitionDefinition.parseList_steady) fun _ => .pure _) ?_
  refine .after (fun _ => ColumnKeyword.parse_steady) fun keyword => .peek fun t => .ite ?_ ?_
  · exact .bind TableConstraint.parse_extends (fun _ => .pure _) fun _ => .pure id
  · refine .after (fun _ => .acceptKeywords _) fun _ => .peek fun t => .ite ?_ ?_
    · exact .after (fun _ => .parenthesizedList ColumnDefinition.parse_local
        ColumnDefinition.parse_local ColumnDefinition.parse_steady) fun _ => .pure _
    · exact .after (fun _ => ColumnDefinition.parse_steady) fun _ => .pure _

theorem parseAlter_extends : Grows parseAlter := by
  refine .test (fun _ => .acceptKeyword _) (.after (fun _ => Ident.parse_steady false) fun _ =>
    .after (fun _ => .expectOneOf _) fun _ => .pure _) ?_
  refine .after (fun _ => .acceptOneOf _) fun keyword => ?_
  split
  · exact .after (fun _ => Ident.parse_steady false) fun _ =>
      .after (fun _ => .acceptKeyword _) fun _ => .after (Free.expectKeyword _) fun _ => .pure _
  · exact .after (fun _ => ColumnKeyword.parse_steady) fun _ =>
      .after (fun _ => Ident.parse_steady false) fun _ =>
        .bind ColumnAction.parse_extends (fun _ => .pure _) fun _ => .pure id

/-- One case for each word that a clause starts with; most clauses have no expressions. -/
theorem parseAfter_extends (found : Located) (keyword : Option Keyword) :
    Grows (parseAfter found keyword) := by
  unfold parseAfter
  -- one case for each keyword; a reader with neither lists nor expressions is free of the option
  split
  · exact parseAdd_extends
  · exact parseAlter_extends
  · exact .of_free fun _ => parseDrop_steady
  · exact .of_free fun _ => parseModify_steady
  · exact .of_free fun _ => parseChange_steady
  · exact .of_free fun _ => parseRename_steady
  · exact .of_free fun _ => parseCollate_steady false
  · exact .of_free fun _ => parseDefault_steady
  · exact .of_free fun _ => .behind_keyword _ (parseCharacterSet_steady false)
  · exact .of_free fun _ => parseConvert_steady
  · exact .of_free fun _ => parseSetting_steady _
  · exact .of_free fun _ => parseSetting_steady _
  · exact .of_free fun _ => parseSetting_steady _
  · exact .of_free fun _ => Steady.acceptEquals.next fun _ =>
      Literal.parseCount_steady.next fun _ => .pure rfl
  · exact .pure _
  · exact .of_free fun _ => Steady.acceptEquals.next fun _ =>
      Literal.parseString_steady.next fun _ => .pure rfl
  · exact .of_free fun _ => parseTablespace_steady _ _
  · exact .of_free fun _ => parseTablespace_steady _ _
  · exact .after (Free.expectKeyword _) fun _ => .pure _
  · exact .after (Free.expectKeyword _) fun _ => .pure _
  · exact .of_free fun _ => parsePartitionCommand_steady _
  · exact .of_free fun _ => parsePartitionCommand_steady _
  · exact .of_free fun _ => parsePartitionCommand_steady _
  · exact .of_free fun _ => parsePartitionCommand_steady _
  · exact .of_free fun _ => parsePartitionCommand_steady _
  · exact .of_free fun _ => parsePartitionCommand_steady _
  · exact .of_free fun _ => .behind_keyword _ <| Literal.parseCount_steady.next fun _ => .pure rfl
  · exact .of_free fun _ => parseReorganize_steady
  · exact .of_free fun _ => parseExchange_steady
  · exact .after (Free.expectKeyword _) fun _ => .pure _
  · exact .after (Free.expectKeyword _) fun _ =>
      .bind Partitioning.parse_extends (fun _ => .pure _) fun _ => .pure id
  · exact .of_free fun _ => Alike.back.next fun _ => Lawful.value.next fun _ => .pure rfl
  · exact .ite (.after (fun _ => Steady.acceptEquals) fun _ =>
      .bind Expr.parse_extends (fun _ => .pure _) fun _ => .pure id) .expected
  · exact .expected

/-- Each kind of clause extends itself, since its lists of columns and partitions may never end in a
    comma. -/
theorem parse_extends : Grows parse :=
  .next (fun found => parseAfter_extends found _) fun _ _ _ _ => throw_ne_ok

end AlterClause

/-- The list of clauses may not end in a comma, whatever the options say. -/
theorem Alter.parse_extends :
    Extends (fun alter => Throughout Expr.Settled alter.contents) Alter.parse Alter.parse := by
  refine .after (Free.expectKeyword _) fun _ => .after (fun _ => .acceptKeywords _) fun _ =>
    .after (fun _ => .acceptKeyword _) fun _ => .after (fun _ => ObjectName.parse_steady)
      fun table => ?_
  have hclauses : Extends (fun clauses => ∀ c ∈ clauses, Throughout Expr.Settled c.contents)
      (commaSeparatedWith false AlterClause.parse) (commaSeparatedWith false AlterClause.parse) :=
    .bind AlterClause.parse_extends (fun first =>
      .bind (.many_test (fun _ => .acceptSeparator false) AlterClause.parse_extends)
        (fun _ => .pure _) fun rest => .pure fun h c hc => h c (by simp [hc]))
      fun first => .after fun rest => .pure fun h => h first (by simp)
  exact .bind hclauses (fun _ => .pure _) fun clauses => .pure fun h => by
    simpa [contents] using h

/-! ## Queries -/

namespace SelectItem

/-- A column of a query is calm if its expression is. -/
theorem parse_extends :
    Extends (fun item => Throughout Expr.Settled item.contents) SelectItem.parse
      SelectItem.parse := by
  refine .test (fun _ => .accept (by simp)) (.pure _) ?_
  refine .bind Expr.parse_extends (fun e => .after (fun _ => Ident.parseAlias_steady _)
    fun asName => ?_) fun e => .after fun asName => ?_
  · cases asName with
    | some asName => exact .pure _
    | none => exact .pure _
  · cases asName with
    | some asName => exact .pure id
    | none => exact .pure id

/-- An item starts with what its expression starts with. -/
theorem parse_opens : Opens first SelectItem.parse := by
  intro ctx c item c' hgood hends hrun
  have hmul : c.peek.token ≠ .mul := fun hmul => by simp [hmul, endsList] at hends
  rw [SelectItem.parse, bind_run ((accept_run _ ctx c).trans (if_neg hmul))] at hrun
  refine Opens.bind Expr.parse_opens (fun e => ?_) ctx c item c' hgood hends hrun
  refine .after fun asName => ?_
  cases asName with
  | some asName => exact .pure rfl
  | none => exact .pure rfl

/-- The items of a list are calm, and none but the first starts with a reserved word. -/
abbrev ListCalm : List SelectItem → Prop :=
  Listed (fun item => Throughout Expr.Settled item.contents) first

/-- A projection may end in a comma, and is read alike if none of its later columns starts with a
    reserved word. -/
theorem parseList_extends : Extends ListCalm parseList parseList :=
  .commaSeparated parse_extends parse_opens

end SelectItem

/-- A name that stands where a list may end is a reserved word. -/
theorem Ident.parse_opens : Opens (fun name : Ident => .word name.word) (Ident.parse false) := by
  refine .next (fun ctx c l w name c' htoken hproper hreserved hrun => ?_) fun l hend => ?_
  · rw [htoken] at hreserved hrun
    replace hrun : (pure (ofWord w) : Parser Ident) ctx c = .ok name c' := hrun
    obtain ⟨rfl, -⟩ := pure_ok.mp hrun
    have hname : (ofWord w).word = w := hproper.symm
    rwa [hname]
  · rcases hend with h | h | h | h
    all_goals
      rw [h]
      exact Fails.expected _ _

namespace OrderItem

theorem parse_extends :
    Extends (fun item => Throughout Expr.Settled item.expr.contents) OrderItem.parse
      OrderItem.parse := by
  refine .bind Expr.parse_extends (fun e => .after (fun _ => .acceptOneOf _) fun direction => ?_)
    fun e => .after fun direction => ?_
  · split
    · exact .pure _
    · exact .pure _
    · exact .pure _
  · split
    · exact .pure id
    · exact .pure id
    · exact .pure id

/-- An item of an order starts with its expression. -/
theorem parse_opens : Opens (fun item => item.expr.first) OrderItem.parse := by
  refine .bind Expr.parse_opens fun e => .after fun direction => ?_
  split
  · exact .pure rfl
  · exact .pure rfl
  · exact .pure rfl

end OrderItem

theorem Renaming.parse_opens : Opens (fun r => .word r.name.word) Renaming.parse :=
  .bind Ident.parse_opens fun _ => .after fun _ => .after fun _ => .pure rfl

/-- Nothing in the start of a query has a list that goes on with a reserved word. -/
def QueryBody.Calm (body : QueryBody) : Prop :=
  Throughout Expr.Settled body.contents ∧ Unreserved body.lists

/-- A query is read alike if its projection and all its expressions are calm. -/
theorem Select.parse_extends :
    Extends (fun select => (QueryBody.select select).Calm) Select.parse Select.parse := by
  refine .after (fun _ => .acceptKeyword _) fun distinct => .bind SelectItem.parseList_extends
    (fun projection => ?_) fun projection => ?_
  · refine .bind_option (fun _ => .acceptKeyword _)
      (.of_free (P := fun _ => True) fun _ => TableRef.parse_steady) (fun source => ?_)
      fun source => .of_forall fun _ _ _ _ => trivial
    refine .bind_option (fun _ => .acceptKeyword _) Expr.parse_extends (fun _ => .pure _)
      fun selection => .pure fun h => ?_
    simpa [QueryBody.contents] using (throughout_append _ _).mp ((throughout_append _ _).mp h.1).2
      |>.2
  · refine .after fun _ => .either fun source => .after fun _ => .either fun selection => .pure ?_
    rintro ⟨hcontents, hlists⟩
    simp only [QueryBody.contents, throughout_append, throughout_flatMap] at hcontents
    exact ⟨hcontents.1, ((unreserved_cons _ _).mp hlists).1⟩

namespace PipeOperator

/-- Nothing in an operator has a list that goes on with a reserved word. -/
def Calm (pipe : PipeOperator) : Prop :=
  Throughout Expr.Settled pipe.contents ∧ Unreserved pipe.lists

/-- An operator is read alike if its lists and all its expressions are calm. -/
theorem parse_extends : Extends Calm PipeOperator.parse PipeOperator.parse := by
  have hident : Extends (Listed (fun _ => True) fun name : Ident => .word name.word)
      (commaSeparated (Ident.parse false)) (commaSeparated (Ident.parse false)) :=
    .commaSeparated (.of_free fun _ => Ident.parse_steady false) Ident.parse_opens
  refine .next (fun found => ?_) fun _ _ _ _ => throw_ne_ok
  split
  · exact .bind Expr.parse_extends (fun _ => .pure _) fun _ => .pure fun h => h.1
  · exact .bind SelectItem.parseList_extends (fun _ => .pure _) fun _ => .pure fun h => by
      simpa [Calm, contents, lists, SelectItem.ListCalm, Listed] using h
  · exact .bind SelectItem.parseList_extends (fun _ => .pure _) fun _ => .pure fun h => by
      simpa [Calm, contents, lists, SelectItem.ListCalm, Listed] using h
  · exact .bind hident (fun _ => .pure _) fun _ => .pure fun h => by
      simpa [Calm, contents, lists, Listed] using h
  · exact .after (fun _ => Ident.parse_steady false) fun _ => .pure _
  · refine .bind Expr.parse_extends (fun count => ?_) fun count => ?_
    · exact .bind_option (fun _ => .acceptKeyword _) Expr.parse_extends (fun _ => .pure _)
        fun offset => .pure fun h => by
          simpa [contents] using ((throughout_append _ _).mp h.1).2
    · exact .after fun _ => .either fun offset => .pure fun h => ((throughout_append _ _).mp h.1).1
  · exact .after (Free.expectKeyword _) fun _ =>
      .bind (.commaSeparated OrderItem.parse_extends OrderItem.parse_opens) (fun _ => .pure _)
        fun _ => .pure fun h => by simpa [Calm, contents, lists, Listed] using h
  · have hrenaming : Extends (Listed (fun _ => True) fun r : Renaming => .word r.name.word)
        (commaSeparated Renaming.parse) (commaSeparated Renaming.parse) :=
      .commaSeparated (.of_free fun _ => Renaming.parse_steady) Renaming.parse_opens
    exact .bind hrenaming (fun _ => .pure _) fun _ => .pure fun h => by
      simpa [Calm, contents, lists, Listed] using h
  -- the contents of an aggregation are those of both of its lists
  · have hcalm : ∀ items groupBy, Calm (.aggregate items groupBy) →
        SelectItem.ListCalm items ∧ SelectItem.ListCalm groupBy := fun items groupBy h => by
      simp only [Calm, contents, lists, throughout_append, throughout_flatMap,
        unreserved_cons] at h
      exact ⟨⟨h.1.1, h.2.1⟩, h.1.2, h.2.2.1⟩
    refine .peek fun t => ?_
    -- the grouping is read the same way with and without a list in front of it
    have hgroup : ∀ items, Extends Calm (do
        let groupBy ← if ← acceptKeywords [.group, .by] then SelectItem.parseList else pure []
        return PipeOperator.aggregate items groupBy) (do
        let groupBy ← if ← acceptKeywords [.group, .by] then SelectItem.parseList else pure []
        return PipeOperator.aggregate items groupBy) := fun items =>
      .after (fun _ => .acceptKeywords _) fun _ => .ite
        (.bind SelectItem.parseList_extends (fun _ => .pure _) fun groupBy => .pure fun h =>
          (hcalm items groupBy h).2)
        (.after (fun _ => .pure rfl) fun _ => .pure _)
    exact .ite (.after (fun _ => .pure rfl) hgroup) <|
      .bind SelectItem.parseList_extends hgroup fun items => .after fun _ =>
        .either fun groupBy => .pure fun h => (hcalm items groupBy h).1
  · exact .expected

end PipeOperator

namespace Query

/-- Nothing in a query has a list that goes on with a reserved word. -/
def Calm (query : Query) : Prop :=
  Throughout Expr.Settled query.contents ∧ Unreserved query.lists

/-- Body and pipes are read alike if both are calm. -/
theorem parse_extends : Extends Calm Query.parse Query.parse := by
  have hbody : Extends QueryBody.Calm parseBody parseBody :=
    .test (fun _ => .acceptKeyword _)
      (.bind Select.parse_extends (fun _ => .pure _) fun _ => .pure id) <|
      .after (Free.expectKeyword _) fun _ => .after (fun _ => TableRef.parse_steady) fun _ =>
        .pure _
  have hpipes : Extends (fun pipes => ∀ pipe ∈ pipes, pipe.Calm) parsePipes parsePipes := by
    intro ctx c v c' hstrict hgood hrun
    exact Extends.ite (.pure _) (.many_test (fun _ => .accept (by simp))
      PipeOperator.parse_extends) ctx c v c' hstrict hgood hrun
  refine .descend <| .bind hbody (fun body => .bind hpipes (fun _ => .pure _) fun pipes => ?_)
    fun body => .after fun pipes => ?_
  · refine .pure fun h pipe hpipe => ?_
    simp only [Calm, contents, lists, throughout_append, throughout_flatMap, unreserved_append,
      unreserved_flatMap] at h
    exact ⟨h.1.2 pipe hpipe, h.2.2 pipe hpipe⟩
  · refine .pure fun h => ?_
    simp only [Calm, contents, lists, throughout_append, unreserved_append] at h
    exact ⟨h.1.1, h.2.1⟩

end Query

/-! ## Statements -/

/-- The query that is explained is read alike if it is calm. -/
theorem Explain.parse_extends (keyword : ExplainKeyword) :
    Extends (fun e => Throughout Expr.Settled e.contents ∧ Unreserved e.lists)
      (Explain.parse keyword) (Explain.parse keyword) := by
  have hlists : ∀ (options : List ExplainOption) (e : Explain),
      (options.foldl addOption e).lists = e.lists := by
    intro options
    induction options with
    | nil => exact fun _ => rfl
    | cons option options ih => exact fun e => ih _
  have htarget : Extends (fun target => Throughout Expr.Settled (contents { keyword, target }) ∧
      Unreserved (lists { keyword, target })) parseTarget parseTarget := by
    refine .after (fun _ => .peekKeyword _) fun _ => .after (fun _ => .peekKeyword _) fun _ => ?_
    refine .ite (.bind Query.parse_extends (fun _ => .pure _) fun _ => .pure id) ?_
    exact .after (fun _ => ObjectName.parse_steady) fun _ => .pure _
  refine .after (fun _ => .many ExplainOption.parse_offers ExplainOption.parse_offers
    ExplainOption.parse_steady) fun options => .bind htarget (fun _ => .pure _) fun target => ?_
  refine .pure fun h => ?_
  rwa [foldl_addOption_contents, hlists] at h

namespace Statement

/-- None of the lists of a statement goes on with a reserved word. -/
abbrev Calm (s : Statement) : Prop := Unreserved s.lists

/-- Each kind of statement is read alike if it is calm. -/
theorem parseBuiltin_extends : Extends Calm parseBuiltin parseBuiltin := by
  -- two keywords start a query, which reads its own keyword again
  have hquery : Extends Calm (do
      back
      return Statement.query (← Query.parse)) (do
      back
      return Statement.query (← Query.parse)) := by
    refine .after (fun _ => Alike.back) fun _ => .bind Query.parse_extends (fun _ => .pure _)
      fun query => .pure fun h => ?_
    obtain ⟨hexprs, hlists⟩ := (unreserved_append _ _).mp h
    exact ⟨(unreserved_exprs _).mp hexprs, hlists⟩
  have hexplain : ∀ keyword, Extends Calm (do return .explain (← Explain.parse keyword))
      (do return Statement.explain (← Explain.parse keyword)) := fun keyword => by
    refine .bind (Explain.parse_extends keyword) (fun _ => .pure _) fun e => .pure fun h => ?_
    obtain ⟨hexprs, hlists⟩ := (unreserved_append _ _).mp h
    exact ⟨(unreserved_exprs _).mp hexprs, hlists⟩
  refine .next (fun found => ?_) fun _ _ _ _ => throw_ne_ok
  split
  · refine .bind Alter.parse_extends (fun _ => .pure _) fun alter => .pure fun h => ?_
    exact (unreserved_exprs _).mp ((unreserved_append _ _).mp h).1
  · exact hexplain .explain
  · exact hexplain .describe
  · exact hexplain .desc
  · exact .of_free fun _ => (CreateSynonym.parse_steady fun hd =>
      congrArg Dialect.synonyms hd).next fun _ => .pure rfl
  · exact hquery
  · exact hquery
  · exact .expected

/-- Statements are read one by one, so each must be calm. -/
theorem parseAll_extends :
    Extends (fun statements => ∀ s ∈ statements, s.Calm) parseAll parseAll := by
  have hone : Extends Calm (parseWith noExtension) (parseWith noExtension) :=
    .descend parseBuiltin_extends
  -- the loop reads statements, of which none changes those that were read
  have hnext : ∀ first, Extends (fun o => ∀ s ∈ o, s.Calm) (parseNext noExtension first)
      (parseNext noExtension first) := by
    intro first
    refine .after (fun _ => acceptSemicolons_steady) fun separated => .peek fun t => ?_
    refine .ite (.pure none) (.ite ?_ (.map hone (by simp)))
    exact .of_fails fun ctx c v c' hrun => by
      obtain ⟨_, _, hthrow, -⟩ := bind_ok.mp hrun
      exact absurd hthrow throw_ne_ok
  refine .map (P := fun statements => ∀ s ∈ statements, s.Calm)
    (.iterate (fun statements => ?_) (fun statements => ?_) []) (by simp)
  · refine .map (hnext _) fun o ho s hs => ?_
    obtain rfl : o = some s := hs
    exact ho _ rfl s (by simp)
  · refine .map (P := fun _ => True) (.of_forall fun _ => trivial) fun o _ later hlater hall => ?_
    obtain ⟨s, -, rfl⟩ := Option.map_eq_some_iff.mp hlater
    exact fun s hs => hall s (by simp [hs])

/-- A text that is read without trailing commas is read as the same statements with them, if no
    item of their lists but the first starts with a reserved word. -/
theorem parseAll_lenient {ctx : Context} {text : String} {statements : List Statement}
    (hstrict : ctx.options.trailingCommas = false)
    (h : parseAll.runText ctx text = .ok statements) (hcalm : ∀ s ∈ statements, s.Calm) :
    parseAll.runText ctx.lenient text = .ok statements := by
  obtain ⟨tokens, hlex, hrun⟩ := runText_ok.mp h
  refine runText_ok.mpr ⟨tokens, hlex, ?_⟩
  have hgood : (Cursor.ofTokens tokens).Good :=
    ⟨rfl, fun t ht => (Token.scanned_of_mem hlex ht).proper_and_ne_eof.1⟩
  rw [runTokens] at hrun ⊢
  split at hrun
  · rename_i value c' hread
    obtain rfl := Except.ok.inj hrun
    rw [(parseAll_extends ctx _ _ c' hstrict hgood hread).2 hcalm]
  · cases hrun

/-- The statement of `SELECT f(a, b), c IN (1, 2) FROM t WHERE x`. -/
def severalLists : Statement :=
  .query {
    body := .select {
      projection := [
        .unnamed (.call (.simple "f") [.ident ⟨"a", none⟩, .ident ⟨"b", none⟩]),
        .unnamed (.inList (.ident ⟨"c", none⟩)
          [.literal (.number "1" false), .literal (.number "2" false)] false)]
      source := some { name := .simple "t" }
      selection := some (.ident ⟨"x", none⟩) } }

/-- The word behind its projection is reserved, but no item of it. -/
theorem parseAll_lenient_severalLists :
    let text := "SELECT f(a, b), c IN (1, 2) FROM t WHERE x"
    let ctx : Context := { dialect := .generic }
    ctx.options.trailingCommas = false ∧ parseAll.runText ctx text = .ok [severalLists] ∧
      (∀ s ∈ [severalLists], s.Calm) ∧
      parseAll.runText ctx.lenient text = .ok [severalLists] := by
  intro text ctx
  have h : parseAll.runText ctx text = .ok [severalLists] := by decide +kernel
  have hcalm : ∀ s ∈ [severalLists], s.Calm := by decide +kernel
  exact ⟨rfl, h, hcalm, parseAll_lenient rfl h hcalm⟩

/-- Without trailing commas this text selects a column `FROM` as `t`, with them a table `t`. -/
theorem parseAll_selectFrom :
    let column (name : String) := Expr.ident ⟨name, none⟩
    let strict : Statement := .query { body := .select {
      projection := [.unnamed (column "a"), .aliased (column "FROM") ⟨"t", none⟩] } }
    let lenient : Statement := .query { body := .select {
      projection := [.unnamed (column "a")], source := some { name := .simple "t" } } }
    let ctx : Context := { dialect := .generic }
    ctx.options.trailingCommas = false ∧
      parseAll.runText ctx "SELECT a, FROM t" = .ok [strict] ∧
      parseAll.runText ctx.lenient "SELECT a, FROM t" = .ok [lenient] ∧ strict ≠ lenient := by
  refine ⟨rfl, by decide +kernel, by decide +kernel, by decide⟩

end Statement

end SchemaSql
