import SchemaSql.Partition.Parser
import SchemaSql.Constraint.Parser
import SchemaSql.Proofs.Progress.Expressions

/-! # Progress of the readers for what clauses are made of

    Columns, indexes, constraints and partitions start with a word or a name, so their readers
    advance.  What may be missing in them is read by readers that give nothing then; those move
    when they give something, which is what the loops over them need. -/

namespace SchemaSql

open Cursor SchemaSql.Parser

/-! ## Columns -/

theorem ColumnKeyword.parse_onward : Onward parse :=
  .test (.acceptKeyword _) (.pure id) <| .test (.acceptKeyword _) (.pure id) (.pure id)

namespace ColumnDefinition

/-- One entry of a column's specification, if there is one. -/
def parseSpec : Parser (Option String) := do
  let found ← peek
  if endsSpecs found.token then return none
  if found.token = .lparen then return some (← groupText)
  return some (← next).token.text

theorem parseSpecs_eq : parseSpecs = many parseSpec := rfl

/-- The end of the text ends a specification, so the token that is taken is there. -/
theorem parseSpec_forward : Forward (·.isSome) parseSpec := by
  intro ctx c hc
  rw [parseSpec, bind_run (peek_ok.mpr ⟨rfl, rfl⟩)]
  split
  · exact .ok hc le_rfl nofun
  split
  · exact (groupText_advances.after fun _ => .pure id) ctx c hc
  · next hends _ =>
      exact Forward.next_lands hc (.pure id) fun heof => absurd (by rw [heof]; rfl) hends

/-- Each entry of a specification is read, and there may be none. -/
theorem parseSpecs_onward : Onward parseSpecs := by
  rw [parseSpecs_eq]
  exact .many parseSpec_forward

/-- A column has a name. -/
theorem parse_advances : Advances parse := by
  refine (Ident.parse_advances false).after fun name => .peek fun t => ?_
  have hspecs : ∀ dataType, Onward (do
      return { name, dataType, specs := ← parseSpecs } : Parser ColumnDefinition) := fun _ =>
    parseSpecs_onward.behind fun _ => .pure id
  exact .bind_ite (.pure id) (DataType.parse_advances.onward.map fun _ => id) hspecs

end ColumnDefinition

theorem ColumnAction.parse_advances : Advances parse :=
  .test (.acceptKeyword _) (DataType.parse_advances.after fun _ => .pure id) <|
    .test (.acceptKeywords _ _) (DataType.parse_advances.after fun _ => .pure id) <|
    .test (.acceptKeywords _ _) (Expr.parse_advances.after fun _ => .pure id) <|
    .test (.acceptKeywords _ _) (.pure id) <|
    .test (.acceptKeywords _ _) (.pure id) <|
    .test (.acceptKeywords _ _) (.pure id) <|
    .test (.acceptKeywords _ _) (.pure id) <|
    .test (.acceptKeywords _ _) (.pure id) <|
    .test (.acceptKeywords _ _) (groupText_advances.after fun _ => .pure id) <|
    .expected_peek (by decide)

/-! ## Indexes and constraints -/

theorem Direction.parse_onward : Onward parse :=
  .test (.acceptKeyword _) (.pure id) <| .test (.acceptKeyword _) (.pure id) (.pure id)

theorem IndexKeyword.parse_forward : Forward (·.isSome) parse :=
  .test (.acceptKeyword _) (.pure id) <| .test (.acceptKeyword _) (.pure id) (.pure nofun)

/-- A state has a word, and without one nothing is read. -/
theorem ConstraintState.parse_forward : Forward (·.isSome) parse :=
  .test (.acceptKeyword _) (.pure id) <|
    .test (.acceptKeywords _ _) (.pure id) <|
    .test (.acceptKeywords _ _) (.pure id) <|
    .test (.acceptKeywords _ _) (.pure id) <|
    .test (.acceptKeyword _) (.pure id) <|
    .test (.acceptKeyword _) (.pure id) <|
    .test (.acceptKeyword _) (.pure id) <|
    .test (.acceptKeyword _) (.pure id) (.pure nofun)

namespace Index

theorem parseColumn_advances : Advances parseColumn := by
  refine (Ident.parse_advances false).after fun name => ?_
  have hdirection : ∀ length, Onward (do
      return { name, length, direction := ← Direction.parse } : Parser IndexColumn) :=
    fun _ => Direction.parse_onward.behind fun _ => .pure id
  refine .test (.accept (by simp)) (.next (fun t => ?_) fun _ => .expected_bind (by decide))
    (hdirection none)
  split
  · exact (Forward.expect (by simp) (by decide)).after fun _ => hdirection _
  · exact .expected_bind (by decide)

/-- An option behind the columns moves, since it starts with a word. -/
theorem parseSpec_forward : Forward (·.isSome) parseSpec :=
  .test (.acceptKeyword _) ((Ident.parse_advances false).after fun _ => .pure id) <|
    .test (.acceptKeyword _) (Forward.acceptEquals.behind fun _ =>
      Literal.parseCount_advances.after fun _ => .pure id) <|
    .test (.acceptKeywords _ _) ((Ident.parse_advances false).after fun _ => .pure id) <|
    .test (.acceptKeyword _) (Literal.parseString_advances.after fun _ => .pure id) <|
    .test (.acceptKeyword _) (.pure id) <|
    .test (.acceptKeyword _) (.pure id) (.pure nofun)

theorem parseHead_advances : Advances parseHead := by
  refine (Forward.expectOneOf _).after fun keyword => ?_
  split
  · exact (Forward.expectKeyword _).after fun _ => .pure id
  · exact .pure id
  · exact .pure id
  · exact IndexKeyword.parse_forward.behind fun _ => .pure id
  · exact IndexKeyword.parse_forward.behind fun _ => .pure id
  · exact IndexKeyword.parse_forward.behind fun _ => .pure id

/-- An index starts with its words. -/
theorem parse_advances : Advances parse := by
  refine parseHead_advances.after fun (kind, keyword) => .peek fun t => ?_
  have hname : Onward (some <$> Ident.parse false) :=
    (Ident.parse_advances false).onward.map fun _ => id
  -- the words of the head have moved already, so a name and a method may be missing
  refine (Forward.peekKeyword _).behind fun _ => .bind_ite (.pure id) hname fun name => ?_
  refine .bind_option (.acceptKeyword _) (Ident.parse_advances false).onward fun method => ?_
  exact (Forward.parenthesizedList parseColumn_advances).after fun _ =>
    (Forward.many parseSpec_forward).behind fun _ =>
      (Forward.many ConstraintState.parse_forward).behind fun _ => .pure id

end Index

namespace ForeignKey

theorem parseAction_advances : Advances parseAction :=
  .test (.acceptKeyword _) (.pure id) <|
    .test (.acceptKeyword _) (.pure id) <|
    .test (.acceptKeywords _ _) (.pure id) <|
    .test (.acceptKeywords _ _) (.pure id) <|
    .test (.acceptKeywords _ _) (.pure id) <|
    .expected_peek (by decide)

/-- A rule has the word `ON`, and without it nothing is read. -/
theorem parseRule_forward (fk : ForeignKey) : Forward (·.isSome) (parseRule fk) := by
  refine .option (.acceptKeyword? _) (.pure (by simp)) fun start => ?_
  -- a second rule for an event is an error that stands behind its word `ON`
  have haction : ∀ event, Onward (do
      if (fk.action? event).isSome then throw (.repeatedRule event start.location)
      return some (fk.setAction event (← parseAction)) : Parser (Option ForeignKey)) :=
    fun event => .ite (fun _ _ hc => .error hc le_rfl trivial)
      (parseAction_advances.after fun _ => .pure id)
  refine (Forward.expectOneOf _).after fun keyword => ?_
  split
  · exact haction _
  · exact haction _

theorem parse_advances (name : Option Ident) : Advances (parse name) :=
  (Forward.expectKeyword _).after fun _ => Ident.parseList_advances.after fun _ =>
    (Forward.expectKeyword _).after fun _ => ObjectName.parse_advances.after fun _ =>
      .peek fun _ => .bind_ite Ident.parseList_advances.onward (.pure id) fun _ =>
        (Forward.iterate parseRule_forward _).behind fun _ =>
          (Forward.many ConstraintState.parse_forward).behind fun _ => .pure id

end ForeignKey

/-- Each kind of constraint has a word of its own. -/
theorem TableConstraint.parse_advances : Advances parse := by
  have hcheck : ∀ name, Advances (do
      return .check name (← parseCondition) : Parser TableConstraint) :=
    fun _ => (Forward.parenthesized Expr.parse_advances.onward).after fun _ => .pure id
  have hforeign : ∀ name, Advances (do
      return .foreignKey (← ForeignKey.parse name) : Parser TableConstraint) :=
    fun name => (ForeignKey.parse_advances name).after fun _ => .pure id
  refine .test (.acceptKeyword _) (.peek fun _ => ?_) ?_
  · refine .bind_ite (.pure id) ((Ident.parse_advances false).onward.map fun _ => id)
      fun name => ?_
    exact .test (.acceptKeyword _) (hforeign name).onward <|
      .test (.acceptKeyword _) (hcheck name).onward <|
      Index.parse_advances.after fun _ => .pure id
  · exact .test (.acceptKeyword _) (hforeign none).onward <|
      .test (.acceptKeyword _) (hcheck none).onward <|
      Index.parse_advances.after fun _ => .pure id

/-! ## Partitions -/

namespace PartitionDefinition

theorem parseValues_advances : Advances parseValues := .parenthesizedList valueText_advances

theorem parseBound_advances : Advances parseBound :=
  .test (.acceptKeywords _ _)
    (.test (.acceptKeyword _) (.pure id) (parseValues_advances.after fun _ => .pure id))
    ((Forward.expectKeyword _).after fun _ => parseValues_advances.after fun _ => .pure id)

theorem parseEngineName_advances (storage : Bool) : Advances (parseEngineName storage) :=
  Forward.acceptEquals.behind fun _ => (Ident.parse_advances false).after fun _ => .pure id

theorem parseEngine_onward : Onward parseEngine :=
  .test (.acceptSpelling _)
    ((Forward.expectKeyword _).after fun _ => (parseEngineName_advances true).onward) <|
    .test (.acceptKeyword _) (parseEngineName_advances false).onward (.pure id)

theorem parse_advances : Advances parse := by
  refine (Forward.expectKeyword _).after fun _ => (Ident.parse_advances false).after fun name => ?_
  have hengine : ∀ partition : PartitionDefinition, Onward (do
      return { partition with engine := ← parseEngine } : Parser PartitionDefinition) :=
    fun _ => parseEngine_onward.behind fun _ => .pure id
  exact .test (.acceptKeyword _) (parseBound_advances.after fun _ => hengine _) (hengine _)

theorem parseList_advances : Advances parseList := .parenthesizedList parse_advances

end PartitionDefinition

namespace Partitioning

theorem parseMethod_advances : Advances parseMethod := by
  refine (Forward.expectOneOf _).after fun keyword => ?_
  split
  · exact .pure id
  · exact .pure id
  · exact .pure id
  · exact .pure id

theorem parseKey_advances (method : PartitionMethod) : Advances (parseKey method) :=
  .test (.acceptKeyword _) (Ident.parseList_advances.after fun _ => .pure id) <|
    .ite (Ident.parseList_advances.after fun _ => .pure id) <|
      (Forward.parenthesized Expr.parse_advances.onward).after fun _ => .pure id

theorem parse_advances : Advances parse := by
  refine (Forward.acceptKeyword _).behind fun linear => parseMethod_advances.after fun method =>
    (parseKey_advances method).after fun key => ?_
  refine .bind_option (.acceptKeyword _) Literal.parseCount_advances.onward fun count => ?_
  exact .peek fun _ => .bind_ite PartitionDefinition.parseList_advances.onward (.pure id)
    fun _ => .pure id

end Partitioning

end SchemaSql
