import SchemaSql.Proofs.Progress.Clauses
import SchemaSql.Proofs.Progress.Queries
import SchemaSql.Proofs.StatementLists

/-! # Progress of the readers for statements

    The last readers, and what the walk through all of them was for: every reader moves forward
    and every loop asks its step at most once more than there are tokens left
    (`Statement.moves_forward`), and no error says that an operator was announced and not found
    (`Statement.operators_in_step`). -/

namespace SchemaSql

open Cursor SchemaSql.Parser

/-! ## The other statements -/

theorem ExplainOption.parseFlag_onward : Onward parseFlag := by
  refine (Forward.acceptOneOf _).behind fun keyword => ?_
  cases keyword with
  | some keyword => exact .pure id
  | none => exact .test (.acceptSpelling _) (.pure id) (.pure id)

theorem ExplainOption.parseFormat_advances : Advances parseFormat := by
  refine .next (fun t => ?_) fun _ => .expected (by decide)
  split
  · exact .pure id
  · exact .expected (by decide)

/-- A setting has its word, and without one nothing is read. -/
theorem ExplainOption.parse_forward : Forward (·.isSome) parse := by
  refine .option (.acceptOneOf _) (.pure (by simp)) fun keyword => ?_
  split
  · exact parseFlag_onward.behind fun _ => .pure id
  · exact parseFlag_onward.behind fun _ => .pure id
  · exact parseFlag_onward.behind fun _ => .pure id
  · exact parseFlag_onward.behind fun _ => .pure id
  · exact parseFormat_advances.after fun _ => .pure id
  · exact (Forward.acceptKeyword _).behind fun _ => .pure id
  · exact .pure id

/-- Looking at the first word of the target reads nothing, but the target is read. -/
theorem Explain.parseTarget_advances : Advances parseTarget :=
  (Forward.peekKeyword _).behind fun _ => (Forward.peekKeyword _).behind fun _ =>
    .ite (Query.parse_advances.after fun _ => .pure id) <|
      ObjectName.parse_advances.after fun _ => .pure id

theorem Explain.parse_advances (keyword : ExplainKeyword) : Advances (parse keyword) :=
  (Forward.many ExplainOption.parse_forward).behind fun _ => parseTarget_advances.after fun _ =>
    .pure id

/-- Where there are no synonyms the error comes before anything is read. -/
theorem CreateSynonym.parse_advances : Advances parse := by
  have hsynonym : Advances (do
      let orReplace ← acceptKeywords [.or, .replace]
      let isPublic ← acceptKeyword .public
      let _ ← expectKeyword .synonym
      let synonym ← ObjectName.parse
      let _ ← expectKeyword .for
      return { orReplace, isPublic, synonym, object := ← ObjectName.parse }
        : Parser CreateSynonym) :=
    (Forward.acceptKeywords _ _).behind fun _ => (Forward.acceptKeyword _).behind fun _ =>
      (Forward.expectKeyword _).after fun _ => ObjectName.parse_advances.after fun _ =>
        (Forward.expectKeyword _).after fun _ => ObjectName.parse_advances.after fun _ => .pure id
  exact .read fun ctx => .ite (.peek fun _ => .expected_bind (by decide)) hsynonym

/-! ## Statements -/

namespace Statement

/-- The first word of a query is put back. -/
theorem parseBuiltin_advances : Advances parseBuiltin := by
  have hexplain : ∀ keyword, Advances (do
      return .explain (← Explain.parse keyword) : Parser Statement) := fun keyword =>
    (Explain.parse_advances keyword).after fun _ => .pure id
  have hquery : Advances (do return .query (← Query.parse) : Parser Statement) :=
    Query.parse_advances.after fun _ => .pure id
  refine .next_or_back fun t => ?_
  have htakes : ∀ {p : Parser Statement}, Advances p →
      Onward p ∧ (t.token = .eof → Advances p) := fun hp => ⟨hp.onward, fun _ => hp⟩
  split
  · exact .inl (htakes (Alter.parse_advances.after fun _ => .pure id))
  · exact .inl (htakes (hexplain _))
  · exact .inl (htakes (hexplain _))
  · exact .inl (htakes (hexplain _))
  · exact .inl (htakes (CreateSynonym.parse_advances.after fun _ => .pure id))
  · exact .inr ⟨_, hquery, rfl⟩
  · exact .inr ⟨_, hquery, rfl⟩
  · exact .inl (htakes (.expected (by decide)))

theorem parseWith_advances : Advances (parseWith noExtension) := by
  have hbuiltin : parseWith noExtension = descend parseBuiltin := rfl
  rw [hbuiltin]
  exact .descend parseBuiltin_advances

theorem acceptSemicolons_eq : acceptSemicolons = (do
    let semicolons ← many semicolon?
    return !semicolons.isEmpty) := rfl

theorem semicolon?_forward : Forward (·.isSome) semicolon? :=
  .test (.accept (by simp)) (.pure id) (.pure nofun)

/-- There may be no semicolon. -/
theorem acceptSemicolons_onward : Onward acceptSemicolons := by
  rw [acceptSemicolons_eq]
  exact (Forward.many semicolon?_forward).behind fun _ => .pure id

/-- A statement is read, or the end of the text was found. -/
theorem parseNext_forward (first : Bool) : Forward (·.isSome) (parseNext noExtension first) := by
  have hstatement : Forward (·.isSome) (some <$> parseWith noExtension) :=
    parseWith_advances.map fun _ _ => trivial
  exact acceptSemicolons_onward.behind fun _ => .peek fun _ =>
    .ite (.pure nofun) <| .ite (.expected_bind (by decide)) hstatement

/-- The step of the loop that reads statements. -/
def another (statements : List Statement) : Parser (Option (List Statement)) :=
  gather (parseNext noExtension statements.isEmpty) statements

theorem parseAll_eq : parseAll = List.reverse <$> iterate another [] := rfl

theorem another_forward (statements : List Statement) : Forward (·.isSome) (another statements) :=
  .gather (parseNext_forward _) statements

/-- A text may have no statement. -/
theorem parseAll_onward : Onward parseAll := by
  rw [parseAll_eq]
  exact (Forward.iterate another_forward []).map fun _ => id

/-! ## Main results -/

/-- The loops of the readers: none asks its step more often than once for each token that is
    left and once more. -/
structure LoopsBounded : Prop where
  statements : Bounded another
  semicolons : Bounded (gather semicolon?)
  /-- The items of a list that stand behind a comma, those of clauses among them. -/
  items {α : Type} (trailing : Bool) (item : Parser α) (h : Advances item) :
    Bounded (gather (further (acceptSeparator trailing) item))
  clauses : Bounded (gather (further (acceptSeparator false) AlterClause.parse))
  columnSpecs : Bounded (gather ColumnDefinition.parseSpec)
  indexSpecs : Bounded (gather Index.parseSpec)
  states : Bounded (gather ConstraintState.parse)
  rules : Bounded ForeignKey.parseRule
  partitionNames : Bounded (gather AlterClause.furtherPartition)
  options : Bounded (gather ExplainOption.parse)
  pipeOperators : Bounded (gather (further (accept .pipeArrow) PipeOperator.parse))
  operators (depth precedence : Nat) : Bounded (Expr.another (Expr.parseAt depth) precedence)
  pathParts : Bounded (gather Expr.pathPart?)
  nameParts (inFrom : Bool) : Bounded (gather (further (accept .period) (Ident.parse inFrom)))
  hyphens : Bounded Ident.parseHyphenated

/-- Each loop has steps that move, so it asks at most once more than there are tokens left. -/
theorem loopsBounded : LoopsBounded where
  statements := .of_forward another_forward
  semicolons := .gather semicolon?_forward
  items _ _ h := .gather (.further (.acceptSeparator _) h.onward)
  clauses := .gather (.further (.acceptSeparator _) AlterClause.parse_advances.onward)
  columnSpecs := .gather ColumnDefinition.parseSpec_forward
  indexSpecs := .gather Index.parseSpec_forward
  states := .gather ConstraintState.parse_forward
  rules := .of_forward ForeignKey.parseRule_forward
  partitionNames := .gather AlterClause.furtherPartition_forward
  options := .gather ExplainOption.parse_forward
  pipeOperators := .gather Query.pipe_forward
  operators depth precedence :=
    .of_forward (Expr.another_forward (Expr.parseAt_advances depth) precedence)
  pathParts := .gather Expr.pathPart?_forward
  nameParts inFrom := .gather (ObjectName.part_forward inFrom)
  hyphens := .of_forward Ident.parseHyphenated_forward

/-- Readers only move forward, whatever the tokens are, so all loops end before their bounds and
    a whole text is read by a loop that has none. -/
theorem moves_forward :
    (MovesForward (parseWith noExtension) ∧ MovesForward Query.parse ∧
      MovesForward PipeOperator.parse ∧ MovesForward AlterClause.parse ∧
      MovesForward TableConstraint.parse ∧ MovesForward PartitionDefinition.parse ∧
      MovesForward ColumnDefinition.parse ∧ MovesForward DataType.parse ∧
      MovesForward SelectItem.parse ∧ MovesForward TableRef.parse ∧
      ∀ precedence, MovesForward (Expr.parseAbove precedence)) ∧
    LoopsBounded ∧
    ∀ ctx c, c.IsPlace → ∃ n ≤ c.left + 1, ∃ r, Asks another ctx n [] c r ∧
      parseAll ctx c = match r with
        | .ok statements c' => .ok statements.reverse c'
        | .error e c' => .error e c' := by
  refine ⟨⟨parseWith_advances.moves, Query.parse_advances.moves,
    PipeOperator.parse_advances.moves, AlterClause.parse_advances.moves,
    TableConstraint.parse_advances.moves, PartitionDefinition.parse_advances.moves,
    ColumnDefinition.parse_advances.moves, DataType.parse_advances.moves,
    SelectItem.parse_advances.moves, TableRef.parse_advances.moves, fun precedence =>
      (Expr.parseAbove_advances precedence).moves⟩, loopsBounded, fun ctx c hc => ?_⟩
  obtain ⟨n, hn, hasks⟩ := loopsBounded.statements ctx [] c hc
  refine ⟨n, hn, _, hasks, ?_⟩
  rw [parseAll_eq]
  simp only [Parser.map_apply]
  cases iterate another [] ctx c with
  | ok => rfl
  | error => rfl

/-- Both ways out of the sum `a + 1)`: what is read is the sum, and the parenthesis is left; and
    where a sign stands behind the plus there is an error at the end of it. -/
theorem moves_forward_sum :
    let ctx : Context := { dialect := .generic }
    let a : Located := { token := .word ⟨"a", none, none⟩ }
    let sum : Cursor := .ofTokens [a, { token := .plus }, { token := .number "1" false },
      { token := .rparen }]
    let broken : Cursor := .ofTokens [a, { token := .plus }, { token := .rparen }]
    (∃ c', Expr.parseAbove 0 ctx sum = .ok
        (.binary (.ident ⟨"a", none⟩) .plus (.literal (.number "1" false))) c' ∧
      c'.IsPlace ∧ sum.left = 4 ∧ c'.left < sum.left) ∧
    ∃ e c', Expr.parseAbove 0 ctx broken = .error e c' ∧ c'.IsPlace ∧ c'.left ≤ broken.left := by
  intro ctx a sum broken
  have hmoves : MovesForward (Expr.parseAbove 0) := by
    obtain ⟨⟨-, -, -, -, -, -, -, -, -, -, habove⟩, -⟩ := moves_forward
    exact habove 0
  obtain ⟨c', hsum⟩ : ∃ c', Expr.parseAbove 0 ctx sum = .ok
      (.binary (.ident ⟨"a", none⟩) .plus (.literal (.number "1" false))) c' := ⟨_, rfl⟩
  obtain ⟨e, c'', hbroken⟩ : ∃ e c'', Expr.parseAbove 0 ctx broken = .error e c'' := ⟨_, _, rfl⟩
  have hplace := hmoves ctx sum (.inl rfl)
  have hplace' := hmoves ctx broken (.inl rfl)
  rw [hsum] at hplace
  rw [hbroken] at hplace'
  exact ⟨⟨c', hsum, hplace.1, rfl, hplace.2⟩, e, c'', hbroken, hplace'⟩

/-- The table of precedences and the reader of operators are in step.  The loop in an expression
    goes on where the next token binds tighter; an operator starts there, and what is read is
    one that binds as tight. -/
theorem operators_in_step (ctx : Context) :
    (∀ tokens e, parseAll.runTokens ctx tokens = .error e → e.InStep) ∧
    (∀ tokens e, Expr.parse.runTokens ctx tokens = .error e → e.InStep) ∧
    (∀ depth precedence, Expr.parseAt (depth + 1) precedence =
      descend (Expr.parseOperand (Expr.parseAt depth) >>=
        iterate (Expr.another (Expr.parseAt depth) precedence))) ∧
    ∀ depth precedence left c, c.IsPlace →
      ∀ n, (c.peekNth 0).token.tightness (c.peekNth 1).token = n →
        (n ≤ precedence →
          Expr.another (Expr.parseAt depth) precedence left ctx c = .ok none c) ∧
        (precedence < n →
          Expr.Announced (c.peekNth 0).token (c.peekNth 1).token n ∧
          match Expr.parseOperator (Expr.parseAt depth) left n ctx c with
          | .ok e c' => Expr.Applies left n e ∧
              Expr.another (Expr.parseAt depth) precedence left ctx c = .ok (some e) c'
          | .error e c' => e.InStep ∧
              Expr.another (Expr.parseAt depth) precedence left ctx c = .error e c') := by
  refine ⟨fun tokens e => parseAll_onward.runTokens ctx tokens,
    fun tokens e => Expr.parse_advances.runTokens ctx tokens, Expr.parseAt_succ, ?_⟩
  intro depth precedence left c hc n hn
  rw [Expr.another_run, hn]
  refine ⟨fun hle => if_pos hle, fun hlt => ?_⟩
  have hannounced : Expr.Announced (c.peekNth 0).token (c.peekNth 1).token n :=
    hn ▸ Expr.announced_of_tightness (by omega)
  -- the operator that was announced is read, so neither error of a mismatch is left
  have hlands : Lands c.left (fun _ => True)
      (Expr.parseOperator (Expr.parseAt depth) left n ctx c) :=
    Expr.parseOperator_lands (Expr.parseAt_advances depth) left n hc hannounced
  rw [if_neg (Nat.not_le_of_lt hlt)]
  refine ⟨hannounced, ?_⟩
  simp only [Parser.map_apply]
  generalize hread : Expr.parseOperator (Expr.parseAt depth) left n ctx c = r at hlands
  cases hlands with
  | ok place le lt => exact ⟨Expr.parseOperator_applies hannounced hread, rfl⟩
  | error place le step => exact ⟨step, rfl⟩

/-- Behind `a` the tokens `NOT BETWEEN 1 AND 2` announce a range, by the first two of them, and
    what the loop reads there is that range of `a`. -/
theorem operators_in_step_range :
    let ctx : Context := { dialect := .generic }
    let c : Cursor := .ofTokens [{ token := .word ⟨"NOT", none, some .not⟩ },
      { token := .word ⟨"BETWEEN", none, some .between⟩ }, { token := .number "1" false },
      { token := .word ⟨"AND", none, some .and⟩ }, { token := .number "2" false }]
    let a : Expr := .ident ⟨"a", none⟩
    Expr.Announced (c.peekNth 0).token (c.peekNth 1).token Precedence.range ∧
    ∃ e c', Expr.another (Expr.parseAt 3) 0 a ctx c = .ok (some e) c' ∧
      e = .between a true (.literal (.number "1" false)) (.literal (.number "2" false)) ∧
      Expr.Applies a Precedence.range e := by
  intro ctx c a
  obtain ⟨-, -, -, hstep⟩ := operators_in_step ctx
  obtain ⟨-, hloop⟩ := hstep 3 0 a c (.inl rfl) Precedence.range rfl
  obtain ⟨hannounced, hread⟩ := hloop (by decide)
  obtain ⟨c', hrun⟩ : ∃ c', Expr.parseOperator (Expr.parseAt 3) a Precedence.range ctx c = .ok
      (.between a true (.literal (.number "1" false)) (.literal (.number "2" false))) c' :=
    ⟨_, rfl⟩
  rw [hrun] at hread
  exact ⟨hannounced, _, c', hread.2, rfl, hread.1⟩

end Statement

end SchemaSql
