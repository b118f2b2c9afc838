import SchemaSql.Proofs.Comparison.Names

/-! # Two runs of the readers for expressions and data types

    The parts of an expression end alike when the readers for the expressions inside do.  Those
    may be different readers, since the levels of nesting that are left may differ: a whole
    expression is by induction on the levels that are left. -/

namespace SchemaSql

open Cursor SchemaSql.Parser Comparison

variable {K : Comparison}

namespace Expr

section

variable [Lawful K]

theorem nextPrecedence_steady : K.Steady nextPrecedence :=
  .get fun c d hc => .pure (by
    rw [Lawful.token (Lawful.peekNth hc 0), Lawful.token (Lawful.peekNth hc 1)])

/-- What stands behind a period is a word in both runs, or an error in both. -/
theorem pathPart_steady {t t' : Located} (h : K.tokens t t') :
    K.Alike Eq (pathPart t) (pathPart t') := by
  unfold pathPart
  rw [← Lawful.token h]
  split
  · exact .pure rfl
  · exact .expected _ h

/-- The further parts of a path. -/
theorem parts_steady : K.Steady (many do
    if ← accept .period then
      let found ← next
      match found.token with
      | .word w => return some (Ident.ofWord w)
      | _ => expected "an identifier after '.'" found
    else return none) :=
  .many part_offers part_offers <| (Steady.accept (by simp)).test
    (.next_token (fun _ _ _ h => pathPart_steady h) fun h => .expected _ h) (.pure rfl)

variable {sub sub' : SubParser}

/-- The expressions inside another end alike in the two runs, and nothing is put back. -/
structure Inner (K : Comparison) (sub sub' : SubParser) : Prop where
  isLocal  : ∀ n, Alike.LocalItem (sub n)
  isLocal' : ∀ n, Alike.LocalItem (sub' n)
  alike    : ∀ n, K.Alike Eq (sub n) (sub' n)

namespace Inner

/-- The arguments of a call are read alike if the expressions inside are. -/
theorem parsePath [Listing K] (hsub : Inner K sub sub') (first : Ident) :
    K.Alike Eq (Expr.parsePath sub first) (Expr.parsePath sub' first) := by
  refine parts_steady.next fun rest =>
    (Steady.accept (by simp)).test ?_ (.ite (.pure rfl) (.pure rfl))
  exact (Alike.commaSeparatedUntil (hsub.isLocal 0) (hsub.isLocal' 0) (hsub.alike 0)).next
    fun _ => .behind (by simp) (.pure rfl)

/-- The first token tells the operand in both runs. -/
theorem parseOperand [Listing K] (hsub : Inner K sub sub') :
    K.Alike Eq (Expr.parseOperand sub) (Expr.parseOperand sub') := by
  refine .next_token (fun token l l' h => ?_) fun h => .expected _ h
  have hsign : ∀ op n, K.Alike Eq (do return Expr.unary op (← sub n)) (do
      return Expr.unary op (← sub' n)) := fun _ n => (hsub.alike n).next fun _ => .pure rfl
  dsimp only
  split
  · split
    · exact .pure rfl
    · exact .pure rfl
    · exact .pure rfl
    · exact hsign _ _
    · exact hsub.parsePath _
  · exact .pure rfl
  · exact .pure rfl
  · exact .pure rfl
  · exact hsign _ _
  · exact hsign _ _
  · exact (hsub.alike 0).next fun _ => .behind (by simp) (.pure rfl)
  · exact .pure rfl
  · exact .expected _ h

theorem parseInList [Listing K] (hsub : Inner K sub sub') (operand : Expr) (negated : Bool) :
    K.Alike Eq (Expr.parseInList sub operand negated) (Expr.parseInList sub' operand negated) :=
  (Alike.parenthesized (.commaSeparated (hsub.isLocal 0) (hsub.isLocal' 0) (hsub.alike 0))).next
    fun _ => .pure rfl

theorem parseBetween (hsub : Inner K sub sub') (operand : Expr) (negated : Bool) :
    K.Alike Eq (Expr.parseBetween sub operand negated)
      (Expr.parseBetween sub' operand negated) :=
  (hsub.alike _).next fun _ => .behind_keyword _ <| (hsub.alike _).next fun _ => .pure rfl

/-- An operator of more than one word is read once more from its first. -/
theorem parseOperator [Listing K] (hsub : Inner K sub sub') (left : Expr) (precedence : Nat) :
    K.Alike Eq (Expr.parseOperator sub left precedence)
      (Expr.parseOperator sub' left precedence) := by
  refine .next_token (fun token l l' h => ?_) fun h =>
    .throw (Lawful.refuses .notAnOperator (fun _ => rfl) h)
  have hrange := Alike.back.next fun _ => (Steady.acceptKeyword (K := K) .not).next fun negated =>
    (Steady.acceptKeyword .in).test (hsub.parseInList left negated) <|
      (Steady.acceptKeyword .between).test (hsub.parseBetween left negated) <|
        Alike.expected_peek "IN or BETWEEN after NOT"
  dsimp only
  cases token.binaryOp? with
  | some op => exact (hsub.alike _).next fun _ => .pure rfl
  | none =>
      dsimp only
      split
      · exact (Steady.acceptKeyword _).test (.pure rfl) <|
          (Steady.acceptKeywords _).test (.pure rfl) (.expected_peek _)
      · exact hrange
      · exact hrange
      · exact hrange
      · exact .throw (Lawful.refuses .notAnOperator (fun _ => rfl) h)

end Inner

end

variable [Nesting K] [Listing K]

/-- Whatever levels are left, like runs stay alike, by induction on the levels of the first run. -/
theorem parseAt_alike {depth depth' : Nat} (h : K.levels depth depth') (precedence : Nat) :
    K.Alike Eq (parseAt depth precedence) (parseAt depth' precedence) := by
  have hlocal : ∀ n m, Alike.LocalItem (parseAt n m) := fun n m => (parseAt_reads n m).isLocal
  refine .by_levels (fun _ => rfl) (fun _ => rfl) (fun n m ih precedence => ?_) h precedence
  have hinner : Inner K (parseAt n) (parseAt m) := ⟨hlocal n, hlocal m, ih⟩
  have hstep : ∀ (n : Nat) (left : Expr), Alike.OffersItem (do
      let next ← nextPrecedence
      if next ≤ precedence then return none
      some <$> parseOperator (parseAt n) left next) := fun n left =>
    .bind_right nextPrecedence_local fun next => .ite (.pure (by simp)) <|
      .map (parseOperator_reads (hlocal n) left next).any
  refine .descend <| hinner.parseOperand.next fun operand =>
    .iterate_same (hstep n) (hstep m) (fun left => ?_) operand
  exact nextPrecedence_steady.next fun next => .ite (.pure rfl) <|
    (hinner.parseOperator left next).map fun _ _ heq => by rw [heq]

theorem parse_steady : K.Steady parse :=
  .remaining fun _ _ hlevels => parseAt_alike hlevels 0

end Expr

namespace DataType

section

variable [Lawful K]

theorem parseContinuation_steady (words : List (List Keyword)) :
    K.Steady (parseContinuation words) := by
  induction words with
  | nil => exact .pure rfl
  | cons ks words ih =>
      refine (Steady.acceptKeywordsAsWritten ks).next fun spelling => ?_
      cases spelling with
      | none => exact ih
      | some spelling => exact .pure rfl

theorem parseName_steady : K.Steady parseName := by
  refine .next_token (fun token l l' h => ?_) fun h => .expected _ h
  dsimp only
  split
  · refine (parseContinuation_steady _).next fun spelling => ?_
    cases spelling with
    | none => exact .pure rfl
    | some spelling => exact .pure rfl
  · exact .expected _ h

theorem parseArguments_steady : K.Steady parseArguments :=
  (Steady.accept (by simp)).test
    ((Alike.commaSeparatedWith false valueText_local valueText_local Lawful.value).next
      fun _ => .behind (by simp) (.pure rfl))
    (.pure rfl)

end

variable [Nesting K]

/-- The type of the elements is read alike one level down, by induction on the levels. -/
theorem parseAt_alike {depth depth' : Nat} (h : K.levels depth depth') :
    K.Alike Eq (parseAt depth) (parseAt depth') := by
  refine Alike.by_levels (p := fun n (_ : Unit) => parseAt n)
    (q := fun n _ => parseAt n)
    (fun _ => rfl) (fun _ => rfl) (fun n m ih _ => ?_) h ()
  refine .descend <| parseName_steady.next fun name => (Steady.accept (by simp)).test ?_ ?_
  · exact (ih ()).next fun _ => .behind (by simp) <|
      parseArguments_steady.next fun _ => .pure rfl
  · exact parseArguments_steady.next fun _ => .pure rfl

theorem parse_steady : K.Steady parse := .remaining fun _ _ hlevels => parseAt_alike hlevels

end DataType

end SchemaSql
