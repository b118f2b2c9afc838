import SchemaSql.Expr.Parser
import SchemaSql.Proofs.Locality.Names

/-! # Locality of expressions

    Whether an expression goes on is decided by the next token and, for `NOT`, by the one
    behind it.  None of the tokens at which a clause ends binds to an operand, so an
    expression ends alike in front of all of them.  The readers for the parts of an
    expression are local when the reader for the expressions inside is, and the whole reader
    is by induction on the levels of nesting. -/

namespace SchemaSql

open Cursor SchemaSql.Parser

variable {R : Rel}

namespace Expr

/-- A mark that may end a clause is no keyword. -/
theorem keyword?_mark {t : Located} (h : EndMark t.token) : t.token.keyword? = none := by
  rcases h with h | h | h <;> simp [h, Token.keyword?]

/-- No mark that may end a clause binds to an operand, whatever stands behind it. -/
theorem precedence_mark {t t' : Located} (h : EndMark t.token) :
    t.token.precedence t'.token = 0 := by
  rcases h with h | h | h <;> simp [h, Token.precedence, Token.binaryOp?, Token.keyword?]

/-- Behind a token that may be `NOT`, all tokens where a clause ends are alike. -/
theorem precedence_behind {token : Token} {t t' : Located} (h : EndMark t.token)
    (h' : EndMark t'.token) : token.precedence t.token = token.precedence t'.token := by
  simp only [Token.precedence, keyword?_mark h, keyword?_mark h']

theorem nextPrecedence_local [Lookahead R] : Local R nextPrecedence := by
  refine Local.peek_two (fun t t' => t.token.precedence t'.token) (fun n => return n)
    (fun _ _ => rfl) (fun _ => Local.pure _) fun w r hw h => ?_
  rcases Local.two_cases hw h with ⟨hend, hend'⟩ | ⟨heq, heq' | ⟨hm, hm'⟩⟩
  · have hmark := hend.mark
    have hmark' := hend'.mark
    rw [← nthSolid_zero_of_clean hend.clean] at hmark
    rw [← nthSolid_zero_of_clean hend'.clean] at hmark'
    rw [precedence_mark hmark, precedence_mark hmark']
  · rw [heq, heq']
  · rw [heq, precedence_behind hm hm']

/-! ## The parts of an expression -/

/-- The part of a path that the token behind a period is. -/
def pathPart (found : Located) : Parser (Option Ident) :=
  match found.token with
  | .word w => return some (Ident.ofWord w)
  | _ => expected "an identifier after '.'" found

theorem pathPart_local (found : Located) : Local R (pathPart found) := by
  unfold pathPart
  split
  · exact Local.pure _
  · exact Local.expected _ _

/-- One more part of a path. -/
theorem part_offers [Lookahead R] : Offers R (· ≠ none) (do
    if ← accept .period then
      let found ← next
      match found.token with
      | .word w => return some (Ident.ofWord w)
      | _ => expected "an identifier after '.'" found
    else return none) :=
  .test (.accept (by simp [EndMark])) (Local.next_bind pathPart_local (Fails.expected _ _))
    (.pure (by simp))

section

variable [Lookahead R] {sub : SubParser}

/-- A path goes on behind periods and ends with the arguments of a call, if there is a parenthesis.
    -/
theorem parsePath_local (hsub : ∀ n, Local R (sub n)) (first : Ident) :
    Local R (parsePath sub first) := by
  refine (Local.many part_offers).bind fun rest => ?_
  refine (Local.accept (by simp [EndMark])).test ?_ (.ite (.pure _) (.pure _))
  exact (commaSeparatedUntil_local (by simp [EndMark]) (hsub 0).within).bind_reads
    fun _ => .bind (.expect (by simp)) fun _ => Local.pure _

/-- An operand is told by its first token and takes it. -/
theorem parseOperand_reads (hsub : ∀ n, Local R (sub n)) : Reads R (parseOperand sub) := by
  refine .next_bind (fun t => ?_) (Fails.expected _ _)
  split
  · split
    · exact Local.pure _
    · exact Local.pure _
    · exact Local.pure _
    · exact (hsub _).bind fun _ => Local.pure _
    · exact parsePath_local hsub _
  · exact Local.pure _
  · exact Local.pure _
  · exact Local.pure _
  · exact (hsub _).bind fun _ => Local.pure _
  · exact (hsub _).bind fun _ => Local.pure _
  · exact (hsub 0).bind fun _ => (Local.expect (by simp)).bind fun _ => Local.pure _
  · exact Local.pure _
  · exact Local.expected _ _

theorem parseInList_local (hsub : ∀ n, Local R (sub n)) (operand : Expr) (negated : Bool) :
    Local R (parseInList sub operand negated) :=
  (Local.parenthesized (Local.commaSeparated (hsub 0).within)).bind fun _ => Local.pure _

theorem parseBetween_local (hsub : ∀ n, Local R (sub n)) (operand : Expr) (negated : Bool) :
    Local R (parseBetween sub operand negated) :=
  (hsub _).bind fun _ => (Local.expectKeyword _).bind fun _ => (hsub _).bind fun _ =>
    Local.pure _

/-- Reading an operator; `IN`, `BETWEEN` and `NOT` are read once more from the start. -/
theorem parseOperator_reads (hsub : ∀ n, Local R (sub n)) (left : Expr) (precedence : Nat) :
    Reads R (parseOperator sub left precedence) := by
  have hrange : ∀ negated, Reads R (do
      if ← acceptKeyword .in then return ← parseInList sub left negated
      if ← acceptKeyword .between then return ← parseBetween sub left negated
      expected "IN or BETWEEN after NOT" (← peek) : Parser Expr) := fun negated =>
    .test (.acceptKeyword _) (parseInList_local hsub left negated) <|
      .test (.acceptKeyword _) (parseBetween_local hsub left negated) <|
        .of_fails (Fails.expected_peek _)
  have hrest : Reads R (do
      let negated ← acceptKeyword .not
      if ← acceptKeyword .in then return ← parseInList sub left negated
      if ← acceptKeyword .between then return ← parseBetween sub left negated
      expected "IN or BETWEEN after NOT" (← peek) : Parser Expr) :=
    .bind_right (Local.acceptKeyword _) hrange
  refine .next_bind_back (fun t => ?_) fun _ _ _ _ => throw_ne_ok
  unfold Local.Resumes
  beta_reduce
  cases t.token.binaryOp? with
  | some op => exact .inl ((hsub _).bind fun _ => Local.pure _)
  | none =>
      dsimp only
      split
      · exact .inl <| (Local.acceptKeyword _).test (Local.pure _) <|
          (Local.acceptKeywords _).test (Local.pure _) (Local.expected_peek _)
      · exact .inr ⟨_, rfl, hrest.isLocal, hrest.takes⟩
      · exact .inr ⟨_, rfl, hrest.isLocal, hrest.takes⟩
      · exact .inr ⟨_, rfl, hrest.isLocal, hrest.takes⟩
      · exact .inl (Local.throw _)

end

/-! ## Expressions -/

/-- By induction on the levels of nesting; each operator is one step of a loop. -/
theorem parseAt_reads [Lookahead R] (depth precedence : Nat) :
    Reads R (parseAt depth precedence) := by
  induction depth generalizing precedence with
  | zero => exact .of_fails fun _ _ _ _ => throw_ne_ok
  | succ depth ih =>
      have hsub : ∀ n, Local R (parseAt depth n) := fun n => (ih n).isLocal
      refine .descend <| (parseOperand_reads hsub).bind fun operand =>
        Local.iterate (fun left => ?_) operand
      refine .bind_right nextPrecedence_local fun next => .ite (.pure (by simp)) ?_
      exact .map (parseOperator_reads hsub left next).any

/-- An expression has an operand. -/
theorem parse_reads [Lookahead R] : Reads R parse :=
  .bind_right Local.remaining fun levels => parseAt_reads levels 0

theorem parse_local [Lookahead R] : Local R parse := parse_reads.isLocal

end Expr

end SchemaSql
