import SchemaSql.Proofs.Climbing.Readers
import SchemaSql.Proofs.Ensures
import SchemaSql.Proofs.Progress.Names

/-! # Progress of the readers for expressions

    An operand is a token and what belongs to it.  An operator advances where the loop that
    reads it has found one.  How tight a token binds is told token by token
    (`Token.tightness`); `Expr.Announced` lists the tokens that operators start with,
    `Expr.announced_of_tightness` says that no others bind, and `Expr.parseOperator_lands` and
    `Expr.parseOperator_applies` that the reader of operators knows all of them and makes of
    each an operator that binds as tight. -/

namespace SchemaSql

open Cursor SchemaSql.Parser

namespace Cursor

/-- Behind the next token stands the one behind it. -/
theorem next_peek (c : Cursor) : c.next.2.peek = c.peekNth 1 := by
  cases hrest : c.rest with
  | nil =>
      rw [peek_eq, (next_of_rest_nil hrest).2, peekNth_eq_rest, hrest]
      rfl
  | cons t w =>
      have ht : t.isWhitespace = false := clean_cons.mp (hrest ▸ c.clean_rest)
      rw [next_of_rest_cons hrest, peekNth_eq_rest, hrest]
      simp [Cursor.peek, peekNth, nthSolid, ht]

end Cursor

/-! ## Operators that are announced -/

namespace Token

/-- How tight a token binds to what stands in front of it, token by token. -/
def tightness (token following : Token) : Nat :=
  match token with
  | .word w => match w.keyword with
    | some .or => 5
    | some .and => 10
    | some .not => match following.keyword? with
      | some .in | some .between => 20
      | _ => 0
    | some .is => 17
    | some .in | some .between => 20
    | _ => 0
  | .eq | .doubleEq | .lt | .ltEq | .neq | .gt | .gtEq | .spaceship => 20
  | .pipe => 21
  | .caret => 22
  | .ampersand => 23
  | .plus | .minus => 30
  | .mul | .div | .mod | .concat => 40
  | _ => 0

/-- That is what the table of operators says. -/
theorem precedence_eq_tightness (token following : Token) :
    token.precedence following = token.tightness following := by
  cases token with
  | word w =>
      obtain ⟨value, quote, keyword⟩ := w
      cases keyword with
      | none => rfl
      | some keyword => cases keyword <;> rfl
  | _ => rfl

end Token

namespace Expr

/-- The tokens that an operator starts with, `following` standing behind `token`, and how tight
    it binds. -/
inductive Announced (token following : Token) : Nat → Prop where
  | binary {op} (h : token.binaryOp? = some op) : Announced token following op.precedence
  | is (h : token.keyword? = some .is) : Announced token following Precedence.is
  | range (h : token.keyword? = some .in ∨ token.keyword? = some .between) :
      Announced token following Precedence.range
  | notRange (h : token.keyword? = some .not)
      (hf : following.keyword? = some .in ∨ following.keyword? = some .between) :
      Announced token following Precedence.range

/-- A token that binds to what stands in front of it starts an operator that binds so tight. -/
theorem announced_of_tightness {token following : Token} (h : 0 < token.tightness following) :
    Announced token following (token.tightness following) := by
  rw [← Token.precedence_eq_tightness] at h ⊢
  unfold Token.precedence at h ⊢
  cases hop : token.binaryOp? with
  | some op => exact .binary hop
  | none =>
      simp only [hop] at h ⊢
      split at h
      · next his => simpa [his] using Announced.is his
      · next hin => simpa [hin] using Announced.range (.inl hin)
      · next hbetween => simpa [hbetween] using Announced.range (.inr hbetween)
      · next hnot =>
          split at h
          · next hin => simpa [hnot, hin] using Announced.notRange hnot (.inl hin)
          · next hbetween => simpa [hnot, hbetween] using Announced.notRange hnot (.inr hbetween)
          · exact absurd h (by simp)
      · exact absurd h (by simp)

/-! ## The parts of an expression -/

section

variable {sub : SubParser}

/-- A further part of a path. -/
def pathPart? : Parser (Option Ident) := do
  if ← accept .period then pathPart (← next) else return none

theorem parsePath_eq (first : Ident) : parsePath sub first = (do
    let rest ← many pathPart?
    if ← accept .lparen then
      let args ← commaSeparatedUntil .rparen (sub 0)
      let _ ← expect .rparen
      return .call ⟨first :: rest⟩ args
    if rest.isEmpty then return .ident first
    return .compound (first :: rest)) := rfl

/-- A part has its period, and without one nothing is read. -/
theorem pathPart?_forward : Forward (·.isSome) pathPart? := by
  have hpart : ∀ t, Onward (pathPart t) := by
    intro t
    unfold pathPart
    split
    · exact .pure id
    · exact .expected (by decide)
  exact .test (.accept (by simp)) (.next hpart fun _ => .expected (by decide)) (.pure (by simp))

/-- Behind the first name of a path there may be nothing more. -/
theorem parsePath_onward (hsub : ∀ n, Advances (sub n)) (first : Ident) :
    Onward (parsePath sub first) := by
  rw [parsePath_eq]
  refine (Forward.many pathPart?_forward).behind fun rest =>
    .test (.accept (by simp)) ?_ (.ite (.pure id) (.pure id))
  exact (Forward.commaSeparatedUntil (hsub 0)).behind fun _ =>
    (Forward.expect (by simp) (by decide)).after fun _ => .pure id

/-- The token that tells the operand is read. -/
theorem parseOperand_advances (hsub : ∀ n, Advances (sub n)) : Advances (parseOperand sub) := by
  have hsign : ∀ op n, Onward (do return Expr.unary op (← sub n)) := fun _ n =>
    (hsub n).behind fun _ => .pure id
  refine .next (fun t => ?_) fun _ => .expected (by decide)
  split
  · split
    · exact .pure id
    · exact .pure id
    · exact .pure id
    · exact hsign _ _
    · exact parsePath_onward hsub _
  · exact .pure id
  · exact .pure id
  · exact .pure id
  · exact hsign _ _
  · exact hsign _ _
  · exact (hsub 0).behind fun _ => (Forward.expect (by simp) (by decide)).behind fun _ => .pure id
  · exact .pure id
  · exact .expected (by decide)

theorem parseInList_onward (hsub : ∀ n, Advances (sub n)) (operand : Expr) (negated : Bool) :
    Onward (parseInList sub operand negated) :=
  (Forward.parenthesized (Forward.commaSeparated (hsub 0)).onward).behind fun _ => .pure id

theorem parseBetween_onward (hsub : ∀ n, Advances (sub n)) (operand : Expr) (negated : Bool) :
    Onward (parseBetween sub operand negated) :=
  (hsub _).behind fun _ => (Forward.expectKeyword _).behind fun _ => (hsub _).behind fun _ =>
    .pure id

/-- What is read where `NOT` may have stood in front of `IN` or `BETWEEN`. -/
def parseRange (sub : SubParser) (left : Expr) (negated : Bool) : Parser Expr := do
  if ← acceptKeyword .in then return ← parseInList sub left negated
  if ← acceptKeyword .between then return ← parseBetween sub left negated
  expected "IN or BETWEEN after NOT" (← peek)

variable {ctx : Context} {c : Cursor}

/-- The keyword is there. -/
theorem acceptKeyword_taken {k : Keyword} (h : c.peek.token.keyword? = some k) :
    acceptKeyword k ctx c = .ok true c.next.2 := by
  rw [acceptKeyword, acceptWord_run, if_pos (Denotes.hasKeyword_iff.mpr h)]

/-- The keyword is not there, and the place is kept. -/
theorem acceptKeyword_refused {k : Keyword} (h : c.peek.token.keyword? ≠ some k) :
    acceptKeyword k ctx c = .ok false c := by
  rw [acceptKeyword, acceptWord_run, if_neg (mt Denotes.hasKeyword_iff.mp h)]

/-- The end of the text is no keyword. -/
theorem ne_eof_of_keyword {t : Token} {k : Keyword} (h : t.keyword? = some k) : t ≠ .eof :=
  fun heof => by simp [heof, Token.keyword?] at h

/-- A range whose keyword is ahead moves on by that keyword. -/
theorem parseRange_lands (hsub : ∀ n, Advances (sub n)) (left : Expr) (negated : Bool)
    (hc : c.IsPlace)
    (h : c.peek.token.keyword? = some .in ∨ c.peek.token.keyword? = some .between) :
    Lands c.left (fun _ => True) (parseRange sub left negated ctx c) := by
  unfold parseRange
  rcases h with h | h
  · rw [bind_run (acceptKeyword_taken h)]
    exact Forward.taken hc (ne_eof_of_keyword h) (parseInList_onward hsub left negated)
  · rw [bind_run (acceptKeyword_refused (by simp [h]))]
    show Lands _ _ ((acceptKeyword .between >>= _) ctx c)
    rw [bind_run (acceptKeyword_taken h)]
    exact Forward.taken hc (ne_eof_of_keyword h) (parseBetween_onward hsub left negated)

/-- `NOT`, `IN` and `BETWEEN` are put back and read once more. -/
theorem parseOperator_back {left : Expr} {precedence : Nat} {k : Keyword}
    (hk : k = .not ∨ k = .in ∨ k = .between) (h : c.peek.token.keyword? = some k) :
    parseOperator sub left precedence ctx c =
      (back >>= fun _ => acceptKeyword .not >>= parseRange sub left) ctx c.next.2 := by
  have hop : c.peek.token.binaryOp? = none :=
    binaryOp?_of_keyword h (by rcases hk with rfl | rfl | rfl <;> simp)
      (by rcases hk with rfl | rfl | rfl <;> simp)
  rw [parseOperator, bind_run (next_run ctx c)]
  rcases hk with rfl | rfl | rfl <;> simp only [hop, h] <;> rfl

/-- An operator that was announced is read: where it ends in an error, something is missing
    behind it. -/
theorem parseOperator_lands (hsub : ∀ n, Advances (sub n)) (left : Expr) (precedence : Nat)
    {n : Nat} (hc : c.IsPlace) (h : Announced c.peek.token (c.peekNth 1).token n) :
    Lands c.left (fun _ => True) (parseOperator sub left precedence ctx c) := by
  cases h with
  | @binary op hop =>
      rw [parseOperator, bind_run (next_run ctx c)]
      simp only [hop]
      exact Forward.taken hc (fun heof => by simp [heof, Token.binaryOp?] at hop)
        ((hsub _).behind fun _ => .pure id)
  | is h =>
      rw [parseOperator, bind_run (next_run ctx c)]
      simp only [binaryOp?_of_keyword h (by simp) (by simp), h]
      refine Forward.taken hc (ne_eof_of_keyword h) ?_
      exact (Forward.acceptKeyword _).behind fun _ => .ite (.pure id) <|
        (Forward.acceptKeywords _ _).behind fun _ => .ite (.pure id) <|
          .expected_peek (by decide)
  | range h =>
      obtain ⟨k, hk, ht⟩ : ∃ k, (k = .not ∨ k = .in ∨ k = .between) ∧
          c.peek.token.keyword? = some k := by
        rcases h with h | h
        · exact ⟨_, .inr (.inl rfl), h⟩
        · exact ⟨_, .inr (.inr rfl), h⟩
      rw [parseOperator_back hk ht]
      refine Forward.back_lands hc fun c1 hc1 hrest => ?_
      have hpeek : c1.peek = c.peek := by rw [peek_eq, peek_eq, hrest]
      -- the token that was put back is no `NOT`, so it is the one that starts the range
      rw [bind_run (acceptKeyword_refused (by rcases h with h | h <;> simp [hpeek, h]))]
      exact parseRange_lands hsub left false hc1 (hpeek ▸ h)
  | notRange h hf =>
      rw [parseOperator_back (.inl rfl) h]
      refine Forward.back_lands hc fun c1 hc1 hrest => ?_
      have hpeek : c1.peek = c.peek := by rw [peek_eq, peek_eq, hrest]
      have hbehind : c1.next.2.peek = c.peekNth 1 := by
        rw [next_peek, peekNth_eq_rest, peekNth_eq_rest, hrest]
      obtain ⟨hplace, hle, -⟩ := hc1.next
      -- behind `NOT` stands the token that the table looked at, blanks or not
      rw [bind_run (acceptKeyword_taken (hpeek ▸ h))]
      exact (parseRange_lands hsub left true hplace (hbehind ▸ hf)).mono hle fun _ h => .inl h

/-! ## What an announced operator is read as -/

/-- An operator that binds so tight, behind `left`. -/
inductive Applies (left : Expr) : Nat → Expr → Prop where
  | binary {op right} : Applies left op.precedence (.binary left op right)
  | isNull : Applies left Precedence.is (.isNull left)
  | isNotNull : Applies left Precedence.is (.isNotNull left)
  | inList {items negated} : Applies left Precedence.range (.inList left items negated)
  | between {negated low high} : Applies left Precedence.range (.between left negated low high)

/-- What is read of a range is one of the left operand. -/
theorem parseRange_applies (left : Expr) (negated : Bool) :
    Ensures (parseRange sub left negated) (Applies left Precedence.range) :=
  .test (.after fun _ => .pure .inList) <|
    .test (.after fun _ => .after fun _ => .after fun _ => .pure .between) <|
    .after fun _ => .expected

/-- The operator that is read binds as tight as the one that was announced. -/
theorem parseOperator_applies {left e : Expr} {precedence n : Nat} {c' : Cursor}
    (h : Announced c.peek.token (c.peekNth 1).token n)
    (hrun : parseOperator sub left precedence ctx c = .ok e c') : Applies left n e := by
  have hrange : ∀ k : Keyword, k = .not ∨ k = .in ∨ k = .between →
      c.peek.token.keyword? = some k → Applies left Precedence.range e := by
    intro k hk ht
    rw [parseOperator_back hk ht] at hrun
    have hensures : Ensures (back >>= fun _ => acceptKeyword .not >>= parseRange sub left)
        (Applies left Precedence.range) := .after fun _ => .after (parseRange_applies left)
    exact hensures _ _ _ _ hrun
  cases h with
  | binary hop =>
      rw [parseOperator, bind_run (next_run ctx c)] at hrun
      simp only [hop] at hrun
      obtain ⟨right, c1, -, hpure⟩ := bind_ok.mp hrun
      obtain ⟨rfl, -⟩ := pure_ok.mp hpure
      exact .binary
  | is h =>
      rw [parseOperator, bind_run (next_run ctx c)] at hrun
      simp only [binaryOp?_of_keyword h (by simp) (by simp), h] at hrun
      have hensures : Ensures (do
          if ← acceptKeyword .null then return .isNull left
          if ← acceptKeywords [.not, .null] then return .isNotNull left
          expected "[NOT] NULL after IS" (← peek)) (Applies left Precedence.is) :=
        .test (.pure .isNull) <| .test (.pure .isNotNull) <| .after fun _ => .expected
      exact hensures _ _ _ _ hrun
  | range h =>
      rcases h with h | h
      · exact hrange _ (.inr (.inl rfl)) h
      · exact hrange _ (.inr (.inr rfl)) h
  | notRange h => exact hrange _ (.inl rfl) h

/-! ## Expressions -/

/-- One step of the loop that reads operators: the next one, if it binds tighter than
    `precedence`. -/
def another (sub : SubParser) (precedence : Nat) (left : Expr) : Parser (Option Expr) := do
  let next ← nextPrecedence
  if next ≤ precedence then return none
  some <$> parseOperator sub left next

/-- With a level left, an expression is an operand and a loop over operators, one level down. -/
theorem parseAt_succ (depth precedence : Nat) : parseAt (depth + 1) precedence = descend (do
    let operand ← parseOperand (parseAt depth)
    iterate (another (parseAt depth) precedence) operand) := rfl

/-- The loop reads an operator where the next token binds tighter, and nowhere else. -/
theorem another_run (sub : SubParser) (precedence : Nat) (left : Expr) (ctx : Context)
    (c : Cursor) :
    another sub precedence left ctx c =
      if (c.peekNth 0).token.tightness (c.peekNth 1).token ≤ precedence then .ok none c
      else (some <$> parseOperator sub left
        ((c.peekNth 0).token.tightness (c.peekNth 1).token)) ctx c := by
  have hprecedence : nextPrecedence ctx c =
      .ok ((c.peekNth 0).token.tightness (c.peekNth 1).token) c := by
    rw [← Token.precedence_eq_tightness]
    rfl
  rw [another, bind_run hprecedence]
  split
  · rfl
  · rfl

/-- A round of the loop reads an operator, or leaves the place as it is. -/
theorem another_forward (hsub : ∀ n, Advances (sub n)) (precedence : Nat) (left : Expr) :
    Forward (·.isSome) (another sub precedence left) := by
  intro ctx c hc
  rw [another_run]
  split
  · exact .ok hc le_rfl nofun
  · next htight =>
      have hannounced := announced_of_tightness (Nat.zero_lt_of_lt (Nat.lt_of_not_le htight))
      exact Forward.map_lands (parseOperator_lands hsub left _ hc hannounced) fun _ _ => trivial

end

/-- By induction on the levels of nesting that are left. -/
theorem parseAt_advances (depth precedence : Nat) : Advances (parseAt depth precedence) := by
  induction depth generalizing precedence with
  | zero => exact .throw trivial
  | succ depth ih =>
      rw [parseAt_succ]
      exact .descend <|
        (parseOperand_advances ih).after (Forward.iterate (another_forward ih precedence))

theorem parseAbove_advances (precedence : Nat) : Advances (parseAbove precedence) :=
  .remaining fun levels => parseAt_advances levels precedence

theorem parse_advances : Advances parse := parseAbove_advances 0

end Expr

end SchemaSql
