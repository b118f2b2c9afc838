import SchemaSql.Proofs.Locality.Clauses
import SchemaSql.Statement.Parser

/-! # Locality of statements

    A query has lists with commas at its end, so it is local where a comma is never the end;
    the end of the text and a semicolon are alike to it.  The same then holds of every
    statement. -/

namespace SchemaSql

open Cursor SchemaSql.Parser

variable {R : Rel} [CommaAware R]

/-! ## Queries -/

theorem TableRef.parse_local : Local R parse :=
  (ObjectName.parseIn_reads true).isLocal.bind fun _ =>
    (Ident.parseAlias_local _).bind fun _ => Local.pure _

/-- The alias behind an expression may be missing. -/
theorem SelectItem.parse_local : Local R parse := by
  refine (Local.accept (by simp [EndMark])).test (Local.pure _) ?_
  refine Expr.parse_local.bind fun e => (Ident.parseAlias_local _).bind fun asName => ?_
  cases asName with
  | none => exact Local.pure _
  | some asName => exact Local.pure _

theorem SelectItem.parseList_local : Local R parseList := Local.commaSeparated parse_local

theorem OrderItem.parse_local : Local R parse := by
  refine Expr.parse_local.bind fun expr => (Local.acceptOneOf _).bind fun direction => ?_
  split
  · exact Local.pure _
  · exact Local.pure _
  · exact Local.pure _

theorem Renaming.parse_local : Local R parse :=
  (Ident.parse_local false).bind fun _ => (Local.acceptKeyword _).bind fun _ =>
    (Ident.parse_local false).bind fun _ => Local.pure _

/-- The table and the condition may be missing, which the end of the statement tells too. -/
theorem Select.parse_local : Local R parse := by
  refine (Local.acceptKeyword _).bind fun distinct =>
    SelectItem.parseList_local.bind fun projection => ?_
  refine (Local.acceptKeyword _).test_bind (TableRef.parse_local.map some) (Local.pure _)
    fun source => ?_
  exact (Local.acceptKeyword _).test_bind (Expr.parse_local.map some) (Local.pure _)
    fun _ => Local.pure _

/-- The first word tells the operator, and each operator ends where no word of it is ahead. -/
theorem PipeOperator.parse_local : Local R parse := by
  refine Local.next_bind (fun t => ?_) (Fails.expected _ _)
  split
  · exact Expr.parse_local.bind fun _ => Local.pure _
  · exact SelectItem.parseList_local.bind fun _ => Local.pure _
  · exact SelectItem.parseList_local.bind fun _ => Local.pure _
  · exact (Local.commaSeparated (Ident.parse_local false)).bind fun _ => Local.pure _
  · exact (Ident.parse_local false).bind fun _ => Local.pure _
  · exact Expr.parse_local.bind fun _ => (Local.acceptKeyword _).test_bind
      (Expr.parse_local.map some) (Local.pure _) fun _ => Local.pure _
  · exact (Local.expectKeyword _).bind fun _ =>
      (Local.commaSeparated OrderItem.parse_local).bind fun _ => Local.pure _
  · exact (Local.commaSeparated Renaming.parse_local).bind fun _ => Local.pure _
  · refine Local.peek_sharp endsAggregates (fun b => do
      let items ← if b then pure [] else SelectItem.parseList
      let groupBy ← if ← acceptKeywords [.group, .by] then SelectItem.parseList else pure []
      return .aggregate items groupBy) (fun _ _ => rfl) (fun b => ?_) rfl
    refine Local.ite_bind (Local.pure _) SelectItem.parseList_local fun items => ?_
    exact (Local.acceptKeywords _).test_bind SelectItem.parseList_local (Local.pure _)
      fun _ => Local.pure _
  · exact Local.expected _ _

namespace Query

theorem parseBody_reads : Reads R parseBody :=
  .test (.acceptKeyword _) (Select.parse_local.bind fun _ => Local.pure _) <|
    .bind (.expectKeyword _) fun _ => TableRef.parse_local.bind fun _ => Local.pure _

/-- A pipe starts with its own sign, and no statement ends at that. -/
theorem parsePipes_local : Local R parsePipes :=
  Local.read.bind fun _ => (Local.pure _).ite <|
    Local.many_item (.accept (by simp [EndMark])) PipeOperator.parse_local

theorem parse_reads : Reads R parse :=
  .descend <| .bind parseBody_reads fun _ => parsePipes_local.bind fun _ => Local.pure _

end Query

/-! ## The other statements -/

theorem ExplainOption.parseFlag_local : Local R parseFlag := by
  refine (Local.acceptOneOf _).bind fun keyword => ?_
  cases keyword with
  | some keyword => exact Local.pure _
  | none => exact (Local.acceptSpelling _).test (Local.pure _) (Local.pure _)

theorem ExplainOption.parseFormat_local : Local R parseFormat := by
  refine Local.next_bind (fun t => ?_) (Fails.expected _ _)
  split
  · exact Local.pure _
  · exact Local.expected _ _

/-- An option starts with its word, and without one there is none. -/
theorem ExplainOption.parse_offers : Offers R (· ≠ none) parse := by
  refine .bind_option (.acceptOneOf _) (fun keyword => ?_) (.pure (by simp))
  split
  · exact parseFlag_local.bind fun _ => Local.pure _
  · exact parseFlag_local.bind fun _ => Local.pure _
  · exact parseFlag_local.bind fun _ => Local.pure _
  · exact parseFlag_local.bind fun _ => Local.pure _
  · exact parseFormat_local.bind fun _ => Local.pure _
  · exact (Local.acceptKeyword _).bind fun _ => Local.pure _
  · exact Local.pure _

/-- What is explained is told by its first word, which stays ahead. -/
theorem Explain.parseTarget_local : Local R parseTarget := by
  have hquery := Query.parse_reads (R := R)
  exact (Local.peekKeyword _).bind fun _ => (Local.peekKeyword _).bind fun _ =>
    (hquery.isLocal.bind fun _ => Local.pure _).ite <|
      ObjectName.parse_local.bind fun _ => Local.pure _

theorem Explain.parse_local (keyword : ExplainKeyword) : Local R (parse keyword) :=
  (Local.many ExplainOption.parse_offers).bind fun _ =>
    parseTarget_local.bind fun _ => Local.pure _

theorem CreateSynonym.parse_local : Local R parse := by
  have hsynonym : ∀ _ : PUnit, Local R (do
      let orReplace ← acceptKeywords [.or, .replace]
      let isPublic ← acceptKeyword .public
      let _ ← expectKeyword .synonym
      let synonym ← ObjectName.parse
      let _ ← expectKeyword .for
      return { orReplace, isPublic, synonym, object := ← ObjectName.parse }
        : Parser CreateSynonym) := fun _ =>
    (Local.acceptKeywords _).bind fun _ => (Local.acceptKeyword _).bind fun _ =>
      (Local.expectKeyword _).bind fun _ => ObjectName.parse_local.bind fun _ =>
        (Local.expectKeyword _).bind fun _ => ObjectName.parse_local.bind fun _ => Local.pure _
  exact Local.read.bind fun _ =>
    (Local.of_fails (Fails.bind_right fun _ => Fails.bind (Fails.expected _ _) _)).ite
      (hsynonym ())

namespace Statement

/-- Every statement starts with a keyword, which is taken. -/
theorem parseBuiltin_reads : Reads R parseBuiltin := by
  have hquery : Reads R (do return .query (← Query.parse) : Parser Statement) :=
    .bind Query.parse_reads fun _ => Local.pure _
  refine .next_bind_back (fun t => ?_) (Fails.expected _ _)
  unfold Local.Resumes
  beta_reduce
  split
  · exact .inl (Alter.parse_local.bind fun _ => Local.pure _)
  · exact .inl ((Explain.parse_local _).bind fun _ => Local.pure _)
  · exact .inl ((Explain.parse_local _).bind fun _ => Local.pure _)
  · exact .inl ((Explain.parse_local _).bind fun _ => Local.pure _)
  · exact .inl (CreateSynonym.parse_local.bind fun _ => Local.pure _)
  · exact .inr ⟨_, rfl, hquery.isLocal, hquery.takes⟩
  · exact .inr ⟨_, rfl, hquery.isLocal, hquery.takes⟩
  · exact .inl (Local.expected _ _)

/-- Reading a statement depends on its own tokens only. -/
theorem parseWith_reads : Reads R (parseWith noExtension) :=
  .descend parseBuiltin_reads

end Statement

end SchemaSql
