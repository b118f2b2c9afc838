import SchemaSql.Proofs.Comparison.Expressions
import SchemaSql.Proofs.Locality.Definitions

/-! # Two runs of the readers for what clauses are made of

    Columns, indexes, constraints and partitions are read by joins and loops, so each of their
    readers ends alike because its parts do. -/

namespace SchemaSql

open Cursor SchemaSql.Parser Comparison

variable {K : Comparison}

/-! ## Columns -/

section

variable [Lawful K]

theorem ColumnKeyword.parse_steady : K.Steady parse :=
  (Steady.acceptKeyword _).test (.pure rfl) <|
    (Steady.acceptKeyword _).test (.pure rfl) (.pure rfl)

/-- One entry of a specification. -/
theorem ColumnDefinition.spec_steady : K.Steady (do
    let found ← peek
    if endsSpecs found.token then return none
    if found.token = .lparen then return some (← groupText)
    return some (← next).token.text) := by
  intro ctx ctx' c d hctx hc
  rw [bind_run (peek_ok.mpr ⟨rfl, rfl⟩), bind_run (peek_ok.mpr ⟨rfl, rfl⟩),
    ← Lawful.peek_token hc]
  split
  · exact .ok rfl hc
  split
  · exact (Lawful.group.next fun _ => .pure rfl) ctx ctx' c d hctx hc
  · rename_i hends _
    refine Alike.next_seen (fun heof => hends (by rw [heof]; rfl))
      (fun t u h => .pure (by rw [Lawful.token h])) hctx hc rfl

/-- Where a specification ends is told by a token, so it has the same entries. -/
theorem ColumnDefinition.parseSpecs_steady : K.Steady parseSpecs :=
  .many spec_offers spec_offers spec_steady

end

namespace ColumnDefinition

theorem parse_steady [Nesting K] : K.Steady parse :=
  (Ident.parse_steady false).next fun _ => .peek fun _ _ _ _ =>
    .ite_next (.pure rfl) (DataType.parse_steady.map fun _ _ heq => by rw [heq]) fun _ =>
      parseSpecs_steady.next fun _ => .pure rfl

end ColumnDefinition

/-- A default value is read one level down, and types and options without one. -/
theorem ColumnAction.parse_steady [Nesting K] [Listing K] : K.Steady parse :=
  (Steady.acceptKeyword _).test (DataType.parse_steady.next fun _ => .pure rfl) <|
    (Steady.acceptKeywords _).test (DataType.parse_steady.next fun _ => .pure rfl) <|
    (Steady.acceptKeywords _).test (Expr.parse_steady.next fun _ => .pure rfl) <|
    (Steady.acceptKeywords _).test (.pure rfl) <|
    (Steady.acceptKeywords _).test (.pure rfl) <|
    (Steady.acceptKeywords _).test (.pure rfl) <|
    (Steady.acceptKeywords _).test (.pure rfl) <|
    (Steady.acceptKeywords _).test (.pure rfl) <|
    (Steady.acceptKeywords _).test (Lawful.group.next fun _ => .pure rfl) <|
    .expected_peek _

/-! ## Indexes and constraints -/

section

variable [Dialectal K]

theorem Direction.parse_steady : K.Steady parse :=
  (Steady.acceptKeyword _).test (.pure rfl) <|
    (Steady.acceptKeyword _).test (.pure rfl) (.pure rfl)

theorem IndexKeyword.parse_steady : K.Steady parse :=
  (Steady.acceptKeyword _).test (.pure rfl) <|
    (Steady.acceptKeyword _).test (.pure rfl) (.pure rfl)

theorem ConstraintState.parse_steady : K.Steady parse :=
  (Steady.acceptKeyword _).test (.pure rfl) <|
    (Steady.acceptKeywords _).test (.pure rfl) <|
    (Steady.acceptKeywords _).test (.pure rfl) <|
    (Steady.acceptKeywords _).test (.pure rfl) <|
    (Steady.acceptKeyword _).test (.pure rfl) <|
    (Steady.acceptKeyword _).test (.pure rfl) <|
    (Steady.acceptKeyword _).test (.pure rfl) <|
    (Steady.acceptKeyword _).test (.pure rfl) (.pure rfl)

theorem ConstraintState.many_steady : K.Steady (many parse) :=
  .many parse_offers parse_offers parse_steady

namespace Index

theorem parseColumn_steady : K.Steady parseColumn := by
  refine (Ident.parse_steady false).next fun name => ?_
  have hdirection : ∀ length, K.Steady (do
      return { name, length, direction := ← Direction.parse } : Parser IndexColumn) :=
    fun _ => Direction.parse_steady.next fun _ => .pure rfl
  refine (Steady.accept (by simp)).test (.next_token (fun token l l' h => ?_) fun h =>
    (Throws.expected _ h).bind _ _) ((Alike.pure rfl).next hdirection)
  dsimp only
  split
  · exact .behind (by simp) ((Alike.pure rfl).next hdirection)
  · exact (Alike.expected _ h).next hdirection

theorem parseSpec_steady : K.Steady parseSpec :=
  (Steady.acceptKeyword _).test ((Ident.parse_steady false).next fun _ => .pure rfl) <|
    (Steady.acceptKeyword _).test (Steady.acceptEquals.next fun _ =>
      Literal.parseCount_steady.next fun _ => .pure rfl) <|
    (Steady.acceptKeywords _).test ((Ident.parse_steady false).next fun _ => .pure rfl) <|
    (Steady.acceptKeyword _).test (Literal.parseString_steady.next fun _ => .pure rfl) <|
    (Steady.acceptKeyword _).test (.pure rfl) <|
    (Steady.acceptKeyword _).test (.pure rfl) (.pure rfl)

theorem parseHead_steady : K.Steady parseHead := by
  refine (Steady.expectOneOf _).next fun keyword => ?_
  split
  · exact .behind_keyword _ (.pure rfl)
  · exact .pure rfl
  · exact .pure rfl
  · exact IndexKeyword.parse_steady.next fun _ => .pure rfl
  · exact IndexKeyword.parse_steady.next fun _ => .pure rfl
  · exact IndexKeyword.parse_steady.next fun _ => .pure rfl

/-- A name is missing where a parenthesis or `USING` is ahead, in both runs. -/
theorem parse_steady : K.Steady parse := by
  refine parseHead_steady.next fun (kind, keyword) => .peek fun token l l' _ => ?_
  have hname : K.Steady (some <$> Ident.parse false) :=
    (Ident.parse_steady false).map fun _ _ heq => by rw [heq]
  refine (Steady.peekKeyword _).next fun _ => .ite_next (.pure rfl) hname fun name => ?_
  refine (Steady.acceptKeyword _).test_next hname (.pure rfl) fun method => ?_
  exact (Alike.parenthesizedList parseColumn_local parseColumn_local parseColumn_steady).next
    fun _ => (Alike.many parseSpec_offers parseSpec_offers parseSpec_steady).next
      fun _ => ConstraintState.many_steady.next fun _ => .pure rfl

end Index

namespace ForeignKey

theorem parseAction_steady : K.Steady parseAction :=
  (Steady.acceptKeyword _).test (.pure rfl) <|
    (Steady.acceptKeyword _).test (.pure rfl) <|
    (Steady.acceptKeywords _).test (.pure rfl) <|
    (Steady.acceptKeywords _).test (.pure rfl) <|
    (Steady.acceptKeywords _).test (.pure rfl) <|
    .expected_peek _

/-- A rule that repeats an event is refused at its word `ON`. -/
theorem parseRule_steady (fk : ForeignKey) : K.Steady (parseRule fk) := by
  refine (Steady.acceptWord? _).bind fun start start' hstart => ?_
  cases hstart with
  | none => exact .pure rfl
  | @some start start' hstart =>
      have haction : ∀ event, K.Alike Eq (do
          if (fk.action? event).isSome then throw (.repeatedRule event start.location)
          return some (fk.setAction event (← parseAction)) : Parser (Option ForeignKey)) (do
          if (fk.action? event).isSome then throw (.repeatedRule event start'.location)
          return some (fk.setAction event (← parseAction))) := fun event =>
        .ite ((Alike.throw (V := Eq) (Lawful.refuses (fun t => .repeatedRule event t.location)
          (fun _ => rfl) hstart)).next fun _ => parseAction_steady.next fun _ => .pure rfl)
          (parseAction_steady.next fun _ => .pure rfl)
      refine (Steady.expectOneOf _).next fun keyword => ?_
      split
      · exact (Alike.pure rfl).next haction
      · exact (Alike.pure rfl).next haction

theorem parse_steady (name : Option Ident) : K.Steady (parse name) :=
  .behind_keyword _ <| Ident.parseList_steady.next fun _ => .behind_keyword _ <|
    ObjectName.parse_steady.next fun _ => .peek_if_next Ident.parseList_steady (.pure rfl)
      fun _ => (Alike.iterate_same parseRule_offers parseRule_offers parseRule_steady _).next
        fun _ => ConstraintState.many_steady.next fun _ => .pure rfl

end ForeignKey

end

/-- A name is missing where the word behind `CONSTRAINT` starts an unnamed one, in both runs. -/
theorem TableConstraint.parse_steady [Nesting K] [Listing K] : K.Steady parse := by
  have hcheck : ∀ name, K.Steady (do
      return .check name (← parseCondition) : Parser TableConstraint) :=
    fun _ => (Alike.parenthesized Expr.parse_steady).next fun _ => .pure rfl
  have hforeign : ∀ name, K.Steady (do
      return .foreignKey (← ForeignKey.parse name) : Parser TableConstraint) :=
    fun name => (ForeignKey.parse_steady name).next fun _ => .pure rfl
  refine (Steady.acceptKeyword _).test (.peek fun _ _ _ _ => ?_) ?_
  · refine .ite_next (.pure rfl) ((Ident.parse_steady false).map fun _ _ heq => by rw [heq])
      fun name => ?_
    exact (Steady.acceptKeyword _).test (hforeign name) <|
      (Steady.acceptKeyword _).test (hcheck name) <|
      Index.parse_steady.next fun _ => .pure rfl
  · exact (Steady.acceptKeyword _).test (hforeign none) <|
      (Steady.acceptKeyword _).test (hcheck none) <|
      Index.parse_steady.next fun _ => .pure rfl

/-! ## Partitions -/

namespace PartitionDefinition

section

variable [Dialectal K]

theorem parseValues_steady : K.Steady parseValues :=
  .parenthesizedList valueText_local valueText_local Lawful.value

theorem parseBound_steady : K.Steady parseBound :=
  (Steady.acceptKeywords _).test
    ((Steady.acceptKeyword _).test (.pure rfl) (parseValues_steady.next fun _ => .pure rfl))
    (.behind_keyword _ <| parseValues_steady.next fun _ => .pure rfl)

theorem parseEngineName_steady (storage : Bool) : K.Steady (parseEngineName storage) :=
  Steady.acceptEquals.next fun _ => (Ident.parse_steady false).next fun _ => .pure rfl

theorem parseEngine_steady : K.Steady parseEngine :=
  (Steady.acceptSpelling _).test
    (.behind_keyword _ (parseEngineName_steady true)) <|
    (Steady.acceptKeyword _).test (parseEngineName_steady false) (.pure rfl)

theorem parse_steady : K.Steady parse := by
  refine .behind_keyword _ <| (Ident.parse_steady false).next fun name => ?_
  have hengine : ∀ partition : PartitionDefinition, K.Steady (do
      return { partition with engine := ← parseEngine } : Parser PartitionDefinition) :=
    fun _ => parseEngine_steady.next fun _ => .pure rfl
  exact (Steady.acceptKeyword _).test
    (parseBound_steady.next fun bound => (Alike.pure rfl).next hengine)
    ((Alike.pure rfl).next hengine)

theorem parseList_steady : K.Steady parseList :=
  .parenthesizedList parse_local parse_local parse_steady

end

end PartitionDefinition

namespace Partitioning

theorem parseMethod_steady [Lawful K] : K.Steady parseMethod := by
  refine (Steady.expectOneOf _).next fun keyword => ?_
  split
  · exact .pure rfl
  · exact .pure rfl
  · exact .pure rfl
  · exact .pure rfl

variable [Nesting K] [Listing K]

theorem parseKey_steady (method : PartitionMethod) : K.Steady (parseKey method) :=
  (Steady.acceptKeyword _).test (Ident.parseList_steady.next fun _ => .pure rfl) <|
    .ite (Ident.parseList_steady.next fun _ => .pure rfl) <|
      (Alike.parenthesized Expr.parse_steady).next fun _ => .pure rfl

theorem parse_steady : K.Steady parse := by
  refine (Steady.acceptKeyword _).next fun linear => parseMethod_steady.next fun method =>
    (parseKey_steady method).next fun key => ?_
  refine (Steady.acceptKeyword _).test_next
    (Literal.parseCount_steady.map fun _ _ heq => by rw [heq]) (.pure rfl) fun count => ?_
  exact .peek_if_next PartitionDefinition.parseList_steady (.pure rfl) fun _ => .pure rfl

end Partitioning

end SchemaSql
