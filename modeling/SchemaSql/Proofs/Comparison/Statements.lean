import SchemaSql.Proofs.Comparison.Clauses
import SchemaSql.Proofs.StatementLists

/-! # Two runs of the readers for statements

    The last step: queries, the other statements, and the loop that reads a whole text.
    `Statement.parseAll_steady` is what every comparison is for. -/

namespace SchemaSql

open Cursor SchemaSql.Parser Comparison

variable {K : Comparison}

/-! ## Queries -/

theorem TableRef.parse_steady [Dialectal K] : K.Steady parse :=
  (ObjectName.parseIn_steady true).next fun _ => (Ident.parseAlias_steady _).next fun _ => .pure rfl

theorem Renaming.parse_steady [Dialectal K] : K.Steady parse :=
  (Ident.parse_steady false).next fun _ => (Steady.acceptKeyword _).next fun _ =>
    (Ident.parse_steady false).next fun _ => .pure rfl

section

variable [Nesting K] [Listing K]

theorem SelectItem.parse_steady : K.Steady parse := by
  refine (Steady.accept (by simp)).test (.pure rfl) ?_
  refine Expr.parse_steady.next fun e => (Ident.parseAlias_steady _).next fun asName => ?_
  cases asName with
  | none => exact .pure rfl
  | some asName => exact .pure rfl

/-- A projection ends alike where the comparison knows how lists end. -/
theorem SelectItem.parseList_steady : K.Steady parseList :=
  .commaSeparated parse_local parse_local parse_steady

theorem OrderItem.parse_steady : K.Steady parse := by
  refine Expr.parse_steady.next fun expr => (Steady.acceptOneOf _).next fun direction => ?_
  split
  · exact .pure rfl
  · exact .pure rfl
  · exact .pure rfl

theorem Select.parse_steady : K.Steady parse := by
  refine (Steady.acceptKeyword _).next fun distinct =>
    SelectItem.parseList_steady.next fun projection => ?_
  refine (Steady.acceptKeyword _).test_next
    (TableRef.parse_steady.map fun _ _ heq => by rw [heq]) (.pure rfl) fun source => ?_
  exact (Steady.acceptKeyword _).test_next
    (Expr.parse_steady.map fun _ _ heq => by rw [heq]) (.pure rfl) fun _ => .pure rfl

/-- The first word tells the operator in both runs, or is the error in both. -/
theorem PipeOperator.parse_steady : K.Steady parse := by
  refine .next_token (fun token l l' h => ?_) fun h => .expected _ h
  dsimp only
  split
  · exact Expr.parse_steady.next fun _ => .pure rfl
  · exact SelectItem.parseList_steady.next fun _ => .pure rfl
  · exact SelectItem.parseList_steady.next fun _ => .pure rfl
  · exact (Alike.commaSeparated (Ident.parse_local false) (Ident.parse_local false)
      (Ident.parse_steady false)).next fun _ => .pure rfl
  · exact (Ident.parse_steady false).next fun _ => .pure rfl
  · exact Expr.parse_steady.next fun _ => (Steady.acceptKeyword _).test_next
      (Expr.parse_steady.map fun _ _ heq => by rw [heq]) (.pure rfl) fun _ => .pure rfl
  · exact .behind_keyword _ <| (Alike.commaSeparated OrderItem.parse_local OrderItem.parse_local
      OrderItem.parse_steady).next fun _ => .pure rfl
  · exact (Alike.commaSeparated Renaming.parse_local Renaming.parse_local
      Renaming.parse_steady).next fun _ => .pure rfl
  · refine .peek fun token _ _ _ => .ite_next (.pure rfl) SelectItem.parseList_steady
      fun items => ?_
    exact (Steady.acceptKeywords _).test_next SelectItem.parseList_steady (.pure rfl)
      fun _ => .pure rfl
  · exact .expected _ h

namespace Query

theorem parseBody_steady : K.Steady parseBody :=
  (Steady.acceptKeyword _).test (Select.parse_steady.next fun _ => .pure rfl) <|
    .behind_keyword _ <| TableRef.parse_steady.next fun _ => .pure rfl

/-- Without a pipe arrow there are no pipe operators, whatever the dialect. -/
theorem parsePipes_none {ctx : Context} {c : Cursor} (h : c.peek.token ≠ .pipeArrow) :
    parsePipes ctx c = .ok [] c := by
  have hmany : many (do if ← accept .pipeArrow then some <$> PipeOperator.parse else return none)
      ctx c = .ok [] c := by
    have hstep : ∀ s : List PipeOperator, ((·.map (· :: s)) <$> (do
        if ← accept .pipeArrow then some <$> PipeOperator.parse else return none
          : Parser (Option PipeOperator))) ctx c = .ok none c := fun s =>
      map_ok.mpr ⟨none, by rw [bind_run ((accept_run _ ctx c).trans (if_neg h))]; rfl, rfl⟩
    refine map_ok.mpr ⟨[], ?_, rfl⟩
    rw [iterate, bind_run (get_ok.mpr ⟨rfl, rfl⟩), iterateUpTo, bind_run (hstep [])]
    rfl
  rw [parsePipes, bind_run (read_ok.mpr ⟨rfl, rfl⟩)]
  split
  · rfl
  · exact hmany

/-- Pipe operators are read in both runs or in neither. -/
theorem parsePipes_steady : K.Steady parsePipes := by
  intro ctx ctx' c d hctx hc
  rcases Dialectal.pipes hctx.dialect with hflag | harrow
  · rw [parsePipes, bind_run (read_ok.mpr ⟨rfl, rfl⟩), bind_run (read_ok.mpr ⟨rfl, rfl⟩), hflag]
    exact Alike.ite (.pure rfl) (.many_test ⟨Local.accept (by simp [EndMark]), .accept (by simp)⟩
      PipeOperator.parse_local PipeOperator.parse_local (Steady.accept (by simp))
      PipeOperator.parse_steady) ctx ctx' c d hctx hc
  · have hpeek := harrow _ _ (Lawful.peek hc)
    rw [parsePipes_none hpeek, parsePipes_none (Lawful.peek_token hc ▸ hpeek)]
    exact .ok rfl hc

theorem parse_steady : K.Steady parse :=
  .descend <| parseBody_steady.next fun _ => parsePipes_steady.next fun _ => .pure rfl

end Query

end

/-! ## The other statements -/

section

variable [Dialectal K]

theorem ExplainOption.parseFlag_steady : K.Steady parseFlag := by
  refine (Steady.acceptOneOf _).next fun keyword => ?_
  cases keyword with
  | some keyword => exact .pure rfl
  | none => exact (Steady.acceptSpelling _).test (.pure rfl) (.pure rfl)

theorem ExplainOption.parseFormat_steady : K.Steady parseFormat :=
  .next_token (fun token l l' h => by
    dsimp only
    split
    · exact .pure rfl
    · exact .expected _ h) fun h => .expected _ h

theorem ExplainOption.parse_steady : K.Steady parse := by
  refine (Steady.acceptOneOf _).next fun keyword => ?_
  split
  · exact parseFlag_steady.next fun _ => .pure rfl
  · exact parseFlag_steady.next fun _ => .pure rfl
  · exact parseFlag_steady.next fun _ => .pure rfl
  · exact parseFlag_steady.next fun _ => .pure rfl
  · exact parseFormat_steady.next fun _ => .pure rfl
  · exact (Steady.acceptKeyword _).next fun _ => .pure rfl
  · exact .pure rfl

/-- Synonyms are created in both runs or in neither. -/
theorem CreateSynonym.parse_steady
    (hflag : ∀ {d d'}, K.dialects d d' → d.synonyms = d'.synonyms) : K.Steady parse := by
  refine .read fun ctx ctx' hctx => ?_
  rw [hflag hctx.dialect]
  have hsynonym : K.Steady (do
      let orReplace ← acceptKeywords [.or, .replace]
      let isPublic ← acceptKeyword .public
      let _ ← expectKeyword .synonym
      let synonym ← ObjectName.parse
      let _ ← expectKeyword .for
      return { orReplace, isPublic, synonym, object := ← ObjectName.parse }
        : Parser CreateSynonym) :=
    (Steady.acceptKeywords _).next fun _ => (Steady.acceptKeyword _).next fun _ =>
      .behind_keyword _ <| ObjectName.parse_steady.next fun _ => .behind_keyword _ <|
        ObjectName.parse_steady.next fun _ => .pure rfl
  exact .ite (.peek fun _ _ _ h => (Alike.expected (V := @Eq PUnit) _ h).next
    fun _ => hsynonym) hsynonym

end

variable [Nesting K] [Listing K]

theorem Explain.parseTarget_steady : K.Steady parseTarget :=
  (Steady.peekKeyword _).next fun _ => (Steady.peekKeyword _).next fun _ =>
    .ite (Query.parse_steady.next fun _ => .pure rfl) <|
      ObjectName.parse_steady.next fun _ => .pure rfl

theorem Explain.parse_steady (keyword : ExplainKeyword) : K.Steady (parse keyword) :=
  (Alike.many ExplainOption.parse_offers ExplainOption.parse_offers
    ExplainOption.parse_steady).next fun _ => parseTarget_steady.next fun _ => .pure rfl

namespace Statement

/-- A query is read from its first word on once more. -/
theorem parseBuiltin_steady : K.Steady parseBuiltin := by
  refine .next_token (fun token l l' h => ?_) fun h => .expected _ h
  have hquery : K.Steady (do
      back
      return .query (← Query.parse) : Parser Statement) :=
    Alike.back.next fun _ => Query.parse_steady.next fun _ => .pure rfl
  dsimp only
  split
  · exact Alter.parse_steady.next fun _ => .pure rfl
  · exact (Explain.parse_steady _).next fun _ => .pure rfl
  · exact (Explain.parse_steady _).next fun _ => .pure rfl
  · exact (Explain.parse_steady _).next fun _ => .pure rfl
  · -- this `CREATE` stands in both runs, so both dialects have synonyms or neither
    rename_i hcreate
    exact (CreateSynonym.parse_steady fun hd => (Dialectal.synonyms hd).resolve_right
      fun hno => hno _ _ h hcreate).next fun _ => .pure rfl
  · exact hquery
  · exact hquery
  · exact .expected _ h

/-- A statement takes its level in both runs, or in neither. -/
theorem parseWith_steady : K.Steady (parseWith noExtension) := by
  refine .descend <| (Alike.pure (V := Eq) rfl : K.Steady noExtension).next fun statement => ?_
  cases statement with
  | some statement => exact .pure rfl
  | none => exact parseBuiltin_steady

omit [Nesting K] [Listing K] in
theorem acceptSemicolons_steady [Lawful K] : K.Steady acceptSemicolons := by
  have hsemicolon : K.Steady semicolon? := (Steady.accept (by simp)).test (.pure rfl) (.pure rfl)
  have hmany : K.Steady (many semicolon?) :=
    (Alike.iterate_eq semicolon?_shortens semicolon?_shortens
      (fun _ => hsemicolon.map fun _ _ heq => by rw [heq]) []).map fun _ _ heq => by rw [heq]
  exact hmany.next fun _ => .pure rfl

/-- The text ends in both runs or in neither. -/
theorem parseNext_steady (first : Bool) : K.Steady (parseNext noExtension first) := by
  have hstatement : K.Steady (some <$> parseWith noExtension) :=
    parseWith_steady.map fun _ _ heq => by rw [heq]
  refine acceptSemicolons_steady.next fun separated => .peek fun token _ _ h => ?_
  exact .ite (.pure rfl) <| .ite ((Alike.expected (V := @Eq PUnit) _ h).next
    fun _ => hstatement) hstatement

/-- A whole text is read alike from like places. -/
theorem parseAll_steady : K.Steady parseAll :=
  (Alike.iterate_eq step_shortens step_shortens
    (fun statements => (parseNext_steady statements.isEmpty).map fun _ _ heq => by rw [heq])
    []).map fun _ _ heq => by rw [heq]

end Statement

end SchemaSql
