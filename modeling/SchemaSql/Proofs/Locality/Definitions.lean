import SchemaSql.Column.Parser
import SchemaSql.Constraint.Parser
import SchemaSql.Partition.Parser
import SchemaSql.Proofs.Locality.Expressions

/-! # Locality of what clauses are made of

    Data types, columns, indexes, constraints and partitions are read by the joins and loops
    that the rules are for, so each of them is local because its parts are.  An optional tail
    is one more test, and no test is passed by a token where a clause may end. -/

namespace SchemaSql

open Cursor SchemaSql.Parser

variable {R : Rel} [Lookahead R]

/-! ## Data types -/

namespace DataType

/-- The first of the continuations that is there is taken as it is written. -/
theorem parseContinuation_local (words : List (List Keyword)) :
    Local R (parseContinuation words) := by
  induction words with
  | nil => exact Local.pure _
  | cons ks words ih =>
      refine (Local.acceptKeywordsAsWritten ks).bind fun spelling => ?_
      cases spelling with
      | none => exact ih
      | some spelling => exact Local.pure _

/-- A type starts with a word. -/
theorem parseName_reads : Reads R parseName := by
  refine .next_bind (fun t => ?_) (Fails.expected _ _)
  split
  · refine (parseContinuation_local _).bind fun spelling => ?_
    cases spelling with
    | none => exact Local.pure _
    | some spelling => exact Local.pure _
  · exact Local.expected _ _

/-- Arguments stand in parentheses, and without a parenthesis there are none. -/
theorem parseArguments_local : Local R parseArguments :=
  (Local.accept (by simp [EndMark])).test
    ((Local.commaSeparatedWith false valueText_local).bind_reads
      fun _ => .bind (.expect (by simp)) fun _ => Local.pure _)
    (Local.pure _)

/-- A type is local at every level, by induction on the levels that are left. -/
theorem parseAt_local (depth : Nat) : Local R (parseAt depth) := by
  induction depth with
  | zero => exact Local.throw _
  | succ depth ih =>
      refine Local.descend <| parseName_reads.isLocal.bind fun name => ?_
      refine (Local.accept (by simp [EndMark])).test ?_ ?_
      · exact ih.bind fun _ => (Local.expect (by simp)).bind fun _ =>
          parseArguments_local.bind fun _ => Local.pure _
      · exact parseArguments_local.bind fun _ => Local.pure _

theorem parse_local : Local R parse := Local.remaining.bind parseAt_local

end DataType

/-! ## Columns -/

theorem ColumnKeyword.parse_local : Local R parse :=
  (Local.acceptKeyword _).test (Local.pure _) <|
    (Local.acceptKeyword _).test (Local.pure _) (Local.pure _)

namespace ColumnDefinition

/-- The next entry of a specification: nothing where it ends, else its token. -/
def specToken (t : Located) : Option Token :=
  if endsSpecs t.token then none else some t.token

/-- A specification ends at every mark that may end a clause. -/
theorem specToken_mark {t : Located} (h : EndMark t.token) : specToken t = none := by
  rcases h with h | h | h <;> simp [specToken, h, endsSpecs]

/-- One entry of a specification. -/
theorem spec_offers : Offers R (· ≠ none) (do
    let found ← peek
    if endsSpecs found.token then return none
    if found.token = .lparen then return some (← groupText)
    return some (← next).token.text) := by
  -- the token that is looked at decides, and it is then taken as the one that was seen
  refine .peek_with specToken (fun o => match o with
    | none => return none
    | some token => do
      if token = .lparen then return some (← groupText)
      return some (← expect token).token.text) (fun ctx c => ?_) (fun t => ?_) fun w r h => ?_
  · unfold specToken
    by_cases hends : endsSpecs c.peek.token
    · rw [if_pos hends, if_pos hends]
    · rw [if_neg hends, if_neg hends]
      dsimp only
      split
      · rfl
      · exact next_bind_eq_expect _ ctx c
  · unfold specToken
    by_cases hends : endsSpecs t.token
    · rw [if_pos hends]
      exact .pure (by simp)
    · rw [if_neg hends]
      refine .ite (.bind groupText_reads fun _ => Local.pure _)
        (.bind (.expect ?_) fun _ => Local.pure _)
      rintro heq
      exact hends (by rw [heq]; rfl)
  · rcases Lookahead.mark h with heq | ⟨hm, hm'⟩
    · rw [heq]
    · rw [specToken_mark hm, specToken_mark hm']

theorem parseSpecs_local : Local R parseSpecs := Local.many spec_offers

/-- Whether there is a type is seen from the token behind the name, which is no mark if there is
    one. -/
theorem parse_local : Local R parse := by
  refine (Ident.parse_local false).bind fun name => ?_
  refine Local.peek_test lacksType (fun b => do
    let dataType ← if b then pure none else some <$> DataType.parse
    return { name, dataType, specs := ← parseSpecs }) (fun _ _ => rfl) (fun b => ?_) rfl rfl
  exact Local.ite_bind (Local.pure _) (DataType.parse_local.map some) fun _ =>
    parseSpecs_local.bind fun _ => Local.pure _

end ColumnDefinition

theorem ColumnAction.parse_local : Local R parse :=
  (Local.acceptKeyword _).test (DataType.parse_local.bind fun _ => Local.pure _) <|
    (Local.acceptKeywords _).test (DataType.parse_local.bind fun _ => Local.pure _) <|
    (Local.acceptKeywords _).test (Expr.parse_local.bind fun _ => Local.pure _) <|
    (Local.acceptKeywords _).test (Local.pure _) <|
    (Local.acceptKeywords _).test (Local.pure _) <|
    (Local.acceptKeywords _).test (Local.pure _) <|
    (Local.acceptKeywords _).test (Local.pure _) <|
    (Local.acceptKeywords _).test (Local.pure _) <|
    (Local.acceptKeywords _).test (groupText_local.bind fun _ => Local.pure _) <|
    Local.expected_peek _

/-! ## Indexes and constraints -/

theorem Direction.parse_local : Local R parse :=
  (Local.acceptKeyword _).test (Local.pure _) <|
    (Local.acceptKeyword _).test (Local.pure _) (Local.pure _)

theorem IndexKeyword.parse_local : Local R parse :=
  (Local.acceptKeyword _).test (Local.pure _) <|
    (Local.acceptKeyword _).test (Local.pure _) (Local.pure _)

theorem ConstraintState.parse_offers : Offers R (· ≠ none) parse :=
  .test (.acceptKeyword _) (Local.pure _) <|
    .test (.acceptKeywords (by simp)) (Local.pure _) <|
    .test (.acceptKeywords (by simp)) (Local.pure _) <|
    .test (.acceptKeywords (by simp)) (Local.pure _) <|
    .test (.acceptKeyword _) (Local.pure _) <|
    .test (.acceptKeyword _) (Local.pure _) <|
    .test (.acceptKeyword _) (Local.pure _) <|
    .test (.acceptKeyword _) (Local.pure _) <|
    .pure (by simp)

namespace Index

theorem parseColumn_local : Local R parseColumn := by
  refine (Ident.parse_local false).bind fun name => ?_
  have hdirection : ∀ length, Local R (do
      return { name, length, direction := ← Direction.parse } : Parser IndexColumn) :=
    fun _ => Direction.parse_local.bind fun _ => Local.pure _
  refine (Local.accept (by simp [EndMark])).test (Local.next_bind (fun t => ?_)
    (Fails.bind (Fails.expected _ _) _)) ((Local.pure _).bind hdirection)
  split
  · exact (Local.expect (by simp)).bind fun _ => (Local.pure _).bind hdirection
  · exact (Local.expected _ _).bind hdirection

theorem parseSpec_offers : Offers R (· ≠ none) parseSpec :=
  .test (.acceptKeyword _) ((Ident.parse_local false).bind fun _ => Local.pure _) <|
    .test (.acceptKeyword _)
      (Local.acceptEquals.bind fun _ => Literal.parseCount_local.bind fun _ => Local.pure _) <|
    .test (.acceptKeywords (by simp)) ((Ident.parse_local false).bind fun _ => Local.pure _) <|
    .test (.acceptKeyword _) (Literal.parseString_local.bind fun _ => Local.pure _) <|
    .test (.acceptKeyword _) (Local.pure _) <|
    .test (.acceptKeyword _) (Local.pure _) <|
    .pure (by simp)

theorem parseHead_reads : Reads R parseHead := by
  refine .bind (.expectOneOf _) fun keyword => ?_
  split
  · exact (Local.expectKeyword _).bind fun _ => Local.pure _
  · exact Local.pure _
  · exact Local.pure _
  · exact IndexKeyword.parse_local.bind fun _ => Local.pure _
  · exact IndexKeyword.parse_local.bind fun _ => Local.pure _
  · exact IndexKeyword.parse_local.bind fun _ => Local.pure _

/-- Behind the columns of an index stand entries and states, until no word of one is ahead. -/
theorem parse_local : Local R parse := by
  refine parseHead_reads.isLocal.bind fun head => ?_
  obtain ⟨kind, keyword⟩ := head
  refine Local.peek_test (fun token => decide (token = .lparen)) (fun b => do
    let unnamed := b || (← peekKeyword .using)
    let name ← if unnamed then pure none else some <$> Ident.parse false
    let method ← if ← acceptKeyword .using then some <$> Ident.parse false else pure none
    let columns ← parenthesizedList parseColumn
    let specs ← many parseSpec
    return { kind, keyword, name, method, columns, specs, states := ← many ConstraintState.parse })
    (fun _ _ => rfl) (fun b => ?_) rfl rfl
  have hname := (Ident.parse_local (R := R) false).map some
  refine (Local.peekKeyword _).bind fun _ => Local.ite_bind (Local.pure _) hname fun name => ?_
  refine (Local.acceptKeyword _).test_bind hname (Local.pure _) fun method => ?_
  exact (Local.parenthesizedList parseColumn_local).bind fun _ =>
    (Local.many parseSpec_offers).bind fun _ =>
      (Local.many ConstraintState.parse_offers).bind fun _ => Local.pure _

end Index

namespace ForeignKey

theorem parseAction_local : Local R parseAction :=
  (Local.acceptKeyword _).test (Local.pure _) <|
    (Local.acceptKeyword _).test (Local.pure _) <|
    (Local.acceptKeywords _).test (Local.pure _) <|
    (Local.acceptKeywords _).test (Local.pure _) <|
    (Local.acceptKeywords _).test (Local.pure _) <|
    Local.expected_peek _

/-- What is read behind the word `ON` of a rule. -/
theorem parseEvent_local (fk : ForeignKey) (start : Located) : Local R (do
    let event ← match ← expectOneOf [.update, .delete] with
      | .update => pure ReferentialEvent.update
      | _ => pure ReferentialEvent.delete
    if (fk.action? event).isSome then throw (.repeatedRule event start.location)
    return some (fk.setAction event (← parseAction)) : Parser (Option ForeignKey)) := by
  have haction : ∀ event, Local R (do
      if (fk.action? event).isSome then throw (.repeatedRule event start.location)
      return some (fk.setAction event (← parseAction)) : Parser (Option ForeignKey)) :=
    fun event => .ite ((Local.throw _).bind fun _ => parseAction_local.bind fun _ => Local.pure _)
      (parseAction_local.bind fun _ => Local.pure _)
  refine (Local.expectOneOf _).bind fun keyword => ?_
  split
  · exact (Local.pure _).bind haction
  · exact (Local.pure _).bind haction

/-- A rule starts with `ON`, and without that word there is none. -/
theorem parseRule_offers (fk : ForeignKey) : Offers R (· ≠ none) (parseRule fk) := by
  refine .bind_option (.acceptKeyword? .on) (fun start => ?_) (.pure (by simp))
  cases start with
  | none => exact Local.pure _
  | some start => exact parseEvent_local fk start

theorem parse_local (name : Option Ident) : Local R (parse name) := by
  refine (Local.expectKeyword _).bind fun _ => Ident.parseList_local.bind fun columns =>
    (Local.expectKeyword _).bind fun _ => ObjectName.parse_local.bind fun referredTable => ?_
  exact Local.peek_if_bind (by simp [EndMark]) Ident.parseList_local (Local.pure _) fun _ =>
    (Local.iterate parseRule_offers _).bind fun _ =>
      (Local.many ConstraintState.parse_offers).bind fun _ => Local.pure _

end ForeignKey

/-- Whether a constraint has a name is seen from the token behind `CONSTRAINT`. -/
theorem TableConstraint.parse_local : Local R parse := by
  have hcheck : ∀ name, Local R (do
      return .check name (← parseCondition) : Parser TableConstraint) :=
    fun _ => (Local.parenthesized Expr.parse_local.within).bind fun _ => Local.pure _
  have hindex : Local R (do return .index (← Index.parse) : Parser TableConstraint) :=
    Index.parse_local.bind fun _ => Local.pure _
  have hforeign : ∀ name, Local R (do
      return .foreignKey (← ForeignKey.parse name) : Parser TableConstraint) :=
    fun name => (ForeignKey.parse_local name).bind fun _ => Local.pure _
  refine (Local.acceptKeyword _).test (Local.peek_test startsUnnamed (fun b => do
      let name ← if b then pure none else some <$> Ident.parse false
      if ← acceptKeyword .foreign then return .foreignKey (← ForeignKey.parse name)
      if ← acceptKeyword .check then return .check name (← parseCondition)
      return .named name (← Index.parse)) (fun _ _ => rfl) (fun b => ?_) rfl rfl) ?_
  · refine Local.ite_bind (Local.pure _) ((Ident.parse_local false).map some) fun name => ?_
    exact (Local.acceptKeyword _).test (hforeign name) <|
      (Local.acceptKeyword _).test (hcheck name) <|
      Index.parse_local.bind fun _ => Local.pure _
  · exact (Local.acceptKeyword _).test (hforeign none) <|
      (Local.acceptKeyword _).test (hcheck none) hindex

/-! ## Partitions -/

namespace PartitionDefinition

theorem parseValues_local : Local R parseValues :=
  Local.parenthesized (Local.commaSeparatedWith false valueText_local)

theorem parseBound_local : Local R parseBound :=
  (Local.acceptKeywords _).test
    ((Local.acceptKeyword _).test (Local.pure _) (parseValues_local.bind fun _ => Local.pure _))
    ((Local.expectKeyword _).bind fun _ => parseValues_local.bind fun _ => Local.pure _)

theorem parseEngineName_local (storage : Bool) : Local R (parseEngineName storage) :=
  Local.acceptEquals.bind fun _ => (Ident.parse_local false).bind fun _ => Local.pure _

theorem parseEngine_local : Local R parseEngine :=
  (Local.acceptSpelling _).test
    ((Local.expectKeyword _).bind fun _ => parseEngineName_local true) <|
    (Local.acceptKeyword _).test (parseEngineName_local false) (Local.pure _)

/-- A bound and an engine are told by their words. -/
theorem parse_local : Local R parse := by
  refine (Local.expectKeyword _).bind fun _ => (Ident.parse_local false).bind fun name => ?_
  have hengine : ∀ partition : PartitionDefinition, Local R (do
      return { partition with engine := ← parseEngine } : Parser PartitionDefinition) :=
    fun _ => parseEngine_local.bind fun _ => Local.pure _
  exact (Local.acceptKeyword _).test
    (parseBound_local.bind fun bound => (Local.pure _).bind hengine)
    ((Local.pure _).bind hengine)

theorem parseList_local : Local R parseList := Local.parenthesizedList parse_local

end PartitionDefinition

namespace Partitioning

theorem parseMethod_local : Local R parseMethod := by
  refine (Local.expectOneOf _).bind fun keyword => ?_
  split
  · exact Local.pure _
  · exact Local.pure _
  · exact Local.pure _
  · exact Local.pure _

theorem parseKey_local (method : PartitionMethod) : Local R (parseKey method) :=
  (Local.acceptKeyword _).test (Ident.parseList_local.bind fun _ => Local.pure _) <|
    (Ident.parseList_local.bind fun _ => Local.pure _).ite <|
      (Local.parenthesized Expr.parse_local.within).bind fun _ => Local.pure _

/-- The number of partitions and their list may be missing, which a mark tells too. -/
theorem parse_local : Local R parse := by
  refine (Local.acceptKeyword _).bind fun linear => parseMethod_local.bind fun method =>
    (parseKey_local method).bind fun key => ?_
  refine (Local.acceptKeyword _).test_bind (Literal.parseCount_local.map some) (Local.pure _)
    fun count => ?_
  exact Local.peek_if_bind (by simp [EndMark]) PartitionDefinition.parseList_local (Local.pure _)
    fun _ => Local.pure _

end Partitioning

end SchemaSql
