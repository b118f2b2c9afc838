import SchemaSql.Proofs.Denotation

/-! # What a reader took

    Under options that allow trailing commas a reader is no longer the relation that it denotes
    without them.  But it still takes some of the tokens that are left and gives a value, and
    `Spends` says something about those two alone.

    * The rules follow the way readers are written; behind another reader the tokens add up.
    * A loop has an invariant about the tokens that it took so far (`Spends.iterate`).
    * `Spends.commaSeparated` is a list: its items have commas between them, and a comma behind
      the last one only if the options allow it. -/

namespace SchemaSql

open Cursor SchemaSql.Parser

variable {α β : Type}

/-- The reader takes tokens of which `Q` holds, together with the value that it gives. -/
def Spends (ctx : Context) (p : Parser α) (Q : List Token → α → Prop) : Prop :=
  ∀ c T v c', c.Holds T → p ctx c = .ok v c' → ∃ S K, T = S ++ K ∧ c'.Holds K ∧ Q S v

namespace Spends

variable {ctx : Context} {Q : List Token → α → Prop} {R : List Token → β → Prop}

/-- What a reader denotes tells which tokens it takes. -/
theorem of_denotes {p : Parser α} {D : Reading α} (h : Denotes ctx p D)
    (hD : ∀ {T v K}, D T v K → ∃ S, T = S ++ K ∧ Q S v) : Spends ctx p Q := by
  intro c T v c' hc hrun
  obtain ⟨K, hK, hread⟩ := h.sound hc hrun
  obtain ⟨S, rfl, hQ⟩ := hD hread
  exact ⟨S, K, rfl, hK, hQ⟩

/-- A value that is given takes no tokens. -/
theorem pure {a : α} (h : Q [] a) : Spends ctx (Pure.pure a) Q :=
  of_denotes (.pure a) fun ⟨hv, hK⟩ => ⟨[], hK.symm, hv ▸ h⟩

theorem descend {p : Parser α} (h : ∀ depth, Spends { ctx with depth } p Q) :
    Spends ctx (Parser.descend p) Q := by
  intro c T v c' hc hrun
  obtain ⟨depth, -, hrun⟩ := descend_ok.mp hrun
  exact h depth c T v c' hc hrun

theorem fails {p : Parser α} (h : Fails p) : Spends ctx p Q :=
  fun _ _ _ _ _ hrun => absurd hrun (h _ _ _ _)

theorem mono {Q' : List Token → α → Prop} {p : Parser α} (h : Spends ctx p Q')
    (hQ : ∀ S v, Q' S v → Q S v) : Spends ctx p Q := by
  intro c T v c' hc hrun
  obtain ⟨S, K, hT, hK, hv⟩ := h c T v c' hc hrun
  exact ⟨S, K, hT, hK, hQ S v hv⟩

/-- One reader behind the other: the tokens of both add up. -/
theorem bind {p : Parser α} {f : α → Parser β} (hp : Spends ctx p Q)
    (hf : ∀ S a, Q S a → Spends ctx (f a) fun S' v => R (S ++ S') v) : Spends ctx (p >>= f) R := by
  intro c T v c' hc hrun
  obtain ⟨a, c1, ha, hrun⟩ := bind_ok.mp hrun
  obtain ⟨S, M, rfl, hM, hQ⟩ := hp c T a c1 hc ha
  obtain ⟨S', K, rfl, hK, hR⟩ := hf S a hQ c1 _ v c' hM hrun
  exact ⟨S ++ S', K, (List.append_assoc S S' K).symm, hK, hR⟩

/-- What is done with the value takes no tokens. -/
theorem map {p : Parser α} {g : α → β} (hp : Spends ctx p Q) (hg : ∀ S a, Q S a → R S (g a)) :
    Spends ctx (g <$> p) R := by
  intro c T v c' hc hrun
  obtain ⟨a, ha, rfl⟩ := map_ok.mp hrun
  obtain ⟨S, K, hT, hK, hQ⟩ := hp c T a c' hc ha
  exact ⟨S, K, hT, hK, hg S a hQ⟩

theorem ite {b : Prop} [Decidable b] {p q : Parser α} (hp : b → Spends ctx p Q)
    (hq : ¬ b → Spends ctx q Q) : Spends ctx (if b then p else q) Q := by
  split
  · exact hp ‹_›
  · exact hq ‹_›

/-! ## Single tokens -/

/-- A reader that takes the next token if it is of this kind. -/
theorem taken {t : Parser Bool} {P : Token → Prop} [DecidablePred P] (heof : ¬ P .eof)
    (ht : ∀ c, t ctx c = if P c.peek.token then .ok true c.next.2 else .ok false c) :
    Spends ctx t fun S b => if b then ∃ x, S = [x] ∧ P x else S = [] := by
  intro c T b c' hc hrun
  rw [ht] at hrun
  split at hrun
  · rename_i hP
    obtain ⟨rfl, rfl⟩ := EStateM.Result.ok.inj hrun
    rw [hc.peek] at hP
    cases T with
    | nil => exact absurd hP heof
    | cons x T => exact ⟨[x], T, rfl, hc.next, x, rfl, hP⟩
  · obtain ⟨rfl, rfl⟩ := EStateM.Result.ok.inj hrun
    exact ⟨[], T, rfl, hc, by simp⟩

/-- The token of a test is taken in front of what is read behind it. -/
theorem test {t : Parser Bool} {P : Token → Prop} {p q : Parser α}
    (ht : Spends ctx t fun S b => if b then ∃ x, S = [x] ∧ P x else S = [])
    (hp : ∀ x, P x → Spends ctx p fun S v => Q (x :: S) v) (hq : Spends ctx q Q) :
    Spends ctx (t >>= fun b => if b then p else q) Q := by
  refine bind ht fun S b hb => ite (fun htrue => ?_) fun hfalse => ?_
  · rw [if_pos htrue] at hb
    obtain ⟨x, rfl, hx⟩ := hb
    exact hp x hx
  · rw [if_neg hfalse] at hb
    subst hb
    exact hq

/-- A token is taken if it was accepted. -/
theorem accept {token : Token} (h : token ≠ .eof) :
    Spends ctx (Parser.accept token) fun S b => if b then ∃ x, S = [x] ∧ x = token else S = [] :=
  taken h.symm fun c => accept_run token ctx c

theorem acceptKeyword (k : Keyword) : Spends ctx (Parser.acceptKeyword k) fun S b =>
    if b then ∃ x, S = [x] ∧ x.keyword? = some k else S = [] :=
  taken (by simp [Token.keyword?]) fun c => by
    rw [Parser.acceptKeyword, acceptWord_run]
    simp only [Denotes.hasKeyword_iff]

/-- The token that must be there is taken. -/
theorem expect {token : Token} (h : token ≠ .eof) :
    Spends ctx (Parser.expect token) fun S _ => S = [token] := by
  intro c T l c' hc hrun
  rw [expect_run] at hrun
  split at hrun
  · rename_i hpeek
    obtain ⟨-, rfl⟩ := EStateM.Result.ok.inj hrun
    rw [hc.peek] at hpeek
    cases T with
    | nil => exact absurd hpeek h.symm
    | cons x T => exact ⟨[x], T, rfl, hc.next, congrArg ([·]) hpeek⟩
  · cases hrun

theorem expectKeyword (k : Keyword) :
    Spends ctx (Parser.expectKeyword k) fun S _ => ∃ x, S = [x] ∧ x.keyword? = some k := by
  intro c T l c' hc hrun
  rw [Parser.expectKeyword, expectWord_run] at hrun
  split at hrun
  · rename_i hpeek
    rw [Denotes.hasKeyword_iff, hc.peek] at hpeek
    obtain ⟨-, rfl⟩ := EStateM.Result.ok.inj hrun
    cases T with
    | nil => simp [Token.keyword?] at hpeek
    | cons x T => exact ⟨[x], T, rfl, hc.next, x, rfl, hpeek⟩
  · cases hrun

/-- A reader that takes the next token and goes on as the token says. -/
theorem next {k : Located → Parser α}
    (hk : ∀ l, l.token.Proper → Spends ctx (k l) fun S v => Q (l.token :: S) v)
    (heof : Fails (k .eof)) : Spends ctx (Parser.next >>= k) Q := by
  intro c T v c' hc hrun
  rw [bind_run (next_run ctx c)] at hrun
  cases T with
  | nil => exact absurd (hc.peek_nil ▸ hrun) (heof _ _ _ _)
  | cons t T =>
      have hpeek : c.peek.token = t := hc.peek
      obtain ⟨S, K, rfl, hK, hQ⟩ := hk c.peek (hpeek ▸ hc.proper t (by simp)) _ _ _ _
        hc.next hrun
      exact ⟨t :: S, K, rfl, hK, hpeek ▸ hQ⟩

/-- A reader that takes the next token, or puts it back for another reader. -/
theorem next_or_back {k : Located → Parser α} {B : Token → Prop} {q : Parser α}
    (hk : ∀ l, l.token.Proper → ¬ B l.token → Spends ctx (k l) fun S v => Q (l.token :: S) v)
    (hback : ∀ l, B l.token → k l = (Parser.back >>= fun _ => q)) (hq : Spends ctx q Q)
    (heof : Fails (k .eof)) : Spends ctx (Parser.next >>= k) Q := by
  intro c T v c' hc hrun
  rw [bind_run (next_run ctx c)] at hrun
  cases T with
  | nil => exact absurd (hc.peek_nil ▸ hrun) (heof _ _ _ _)
  | cons t T =>
      have hpeek : c.peek.token = t := hc.peek
      by_cases hB : B t
      · rw [hback _ (hpeek.symm ▸ hB), bind_run (back_ok (v := ()).mpr rfl)] at hrun
        exact hq _ _ _ _ hc.back hrun
      · obtain ⟨S, K, rfl, hK, hQ⟩ := hk c.peek (hpeek ▸ hc.proper t (by simp))
          (hpeek.symm ▸ hB) _ _ _ _ hc.next hrun
        exact ⟨t :: S, K, rfl, hK, hpeek ▸ hQ⟩

/-- The parentheses are taken around what stands between them. -/
theorem parenthesized {p : Parser α} (h : Spends ctx p Q) :
    Spends ctx (Parser.parenthesized p) fun S v => ∃ S', S = .lparen :: (S' ++ [.rparen]) ∧
      Q S' v := by
  refine bind (expect (by simp)) fun _ _ hopen => bind h fun S' a hQ =>
    bind (expect (by simp)) fun _ _ hclose => pure ?_
  subst hopen hclose
  exact ⟨S', by simp, hQ⟩

/-! ## Loops -/

/-- A loop keeps what holds of its state and the tokens that it took so far; where it ends, the
    last step may have taken some more. -/
theorem iterate {step : β → Parser (Option β)} {I : List Token → β → Prop}
    (hstop : ∀ S s, I S s → R S s)
    (hstep : ∀ S s, I S s → Spends ctx (step s) fun S' o =>
      (o = none → R (S ++ S') s) ∧ ∀ s' ∈ o, I (S ++ S') s')
    {s : β} (h : I [] s) : Spends ctx (Parser.iterate step s) R := by
  -- by induction on the steps that are left, for all tokens that were taken in front of them
  have hupTo : ∀ n S s, I S s →
      Spends ctx (iterateUpTo step n s) fun S' s' => R (S ++ S') s' := by
    intro n
    induction n with
    | zero => exact fun S s hI => pure (by simpa using hstop S s hI)
    | succ n ih =>
        refine fun S s hI => bind (hstep S s hI) fun S' o ho => ?_
        cases o with
        | none => exact pure (by simpa using ho.1 rfl)
        | some s' => simpa using ih (S ++ S') s' (ho.2 s' rfl)
  intro c T v c' hc hrun
  rw [iterate_apply] at hrun
  exact hupTo _ [] s h c T v c' hc hrun

/-- An invariant about the tokens taken and the values gathered so far holds of all of them at the
    end. -/
theorem many {item : Parser (Option α)} {I R : List Token → List α → Prop}
    (hstop : ∀ S items, I S items → R S items)
    (hitem : ∀ S items, I S items → Spends ctx item fun S' o =>
      (o = none → R (S ++ S') items) ∧ ∀ a ∈ o, I (S ++ S') (items ++ [a]))
    (h : I [] []) : Spends ctx (Parser.many item) R := by
  refine map (Q := fun S (items : List α) => R S items.reverse)
    (iterate (I := fun S (items : List α) => I S items.reverse) (fun S items => hstop S _)
      (fun S items hI => map (hitem S _ hI) fun S' o ho => ⟨fun hnone => ?_, fun l hl => ?_⟩) h)
    fun _ _ hR => hR
  · exact ho.1 (by simpa using hnone)
  · obtain ⟨a, rfl, rfl⟩ := Option.map_eq_some_iff.mp hl
    simpa using ho.2 a rfl

end Spends

/-! ## Lists -/

/-- The tokens of several items with commas between them. -/
def commas : List (List Token) → List Token
  | [] => []
  | first :: rest => first ++ rest.flatMap (.comma :: ·)

/-- These are the tokens of several items with commas between them, and behind them if
    `trailing` allows it. -/
def Separated (trailing : Bool) (Q : List Token → α → Prop) (S : List Token) (items : List α) :
    Prop :=
  ∃ parts, List.Forall₂ Q parts items ∧
    (S = commas parts ∨ trailing = true ∧ S = commas parts ++ [.comma])

namespace Spends

variable {ctx : Context} {Q : List Token → α → Prop} {item : Parser α}

/-- A comma may be taken although the list ends, where one may stand at the end. -/
theorem acceptSeparator (trailing : Bool) :
    Spends ctx (Parser.acceptSeparator trailing) fun S b =>
      if b then S = [.comma] else S = [] ∨ trailing = true ∧ S = [.comma] := by
  intro c T b c' hc hrun
  rw [acceptSeparator_run] at hrun
  split at hrun
  · rename_i hcomma
    obtain ⟨rfl, rfl⟩ := EStateM.Result.ok.inj hrun
    cases T with
    | nil => simp [hc.peek_nil, Located.eof] at hcomma
    | cons t T =>
        obtain rfl : t = .comma := hc.peek.symm.trans hcomma
        refine ⟨[.comma], T, rfl, hc.next, ?_⟩
        cases trailing <;> simp
  · obtain ⟨rfl, rfl⟩ := EStateM.Result.ok.inj hrun
    exact ⟨[], T, rfl, hc, by simp⟩

/-- The tokens of a list are those of its items and the commas between them, and perhaps one behind
    them. -/
theorem commaSeparatedWith (trailing : Bool) (h : Spends ctx item Q) :
    Spends ctx (Parser.commaSeparatedWith trailing item) (Separated trailing Q) := by
  -- a comma in front of every further item, and one more at the end if the option is set
  have hrest : Spends ctx
      (Parser.many do if ← Parser.acceptSeparator trailing then some <$> item else return none)
      fun S items => ∃ parts, List.Forall₂ Q parts items ∧ (S = parts.flatMap (.comma :: ·) ∨
        trailing = true ∧ S = parts.flatMap (.comma :: ·) ++ [.comma]) := by
    refine many (I := fun S items => ∃ parts, List.Forall₂ Q parts items ∧
      S = parts.flatMap (.comma :: ·)) ?_ ?_ ⟨[], .nil, rfl⟩
    · rintro S items ⟨parts, hparts, hS⟩
      exact ⟨parts, hparts, .inl hS⟩
    · rintro S items ⟨parts, hparts, rfl⟩
      refine bind (acceptSeparator trailing) fun S' b hb => ite (fun htrue => ?_) fun hfalse => ?_
      · rw [if_pos htrue] at hb
        subst hb
        refine map h fun S' a hQ => ⟨by simp, ?_⟩
        rintro _ ⟨⟩
        exact ⟨parts ++ [S'], List.rel_append hparts (.cons hQ .nil), by simp⟩
      · rw [if_neg hfalse] at hb
        refine pure ⟨fun _ => ⟨parts, hparts, ?_⟩, by simp⟩
        rcases hb with rfl | ⟨htrailing, rfl⟩
        · exact .inl (by simp)
        · exact .inr ⟨htrailing, by simp⟩
  refine bind h fun S a hQ => bind hrest fun S' items hitems => pure ?_
  obtain ⟨parts, hparts, rfl | ⟨htrailing, rfl⟩⟩ := hitems
  · exact ⟨S :: parts, .cons hQ hparts, .inl (by simp [commas])⟩
  · exact ⟨S :: parts, .cons hQ hparts, .inr ⟨htrailing, by simp [commas]⟩⟩

theorem commaSeparated (h : Spends ctx item Q) :
    Spends ctx (Parser.commaSeparated item) (Separated ctx.options.trailingCommas Q) := by
  intro c T v c' hc hrun
  rw [Parser.commaSeparated, bind_run (read_ok.mpr ⟨rfl, rfl⟩)] at hrun
  exact commaSeparatedWith _ h c T v c' hc hrun

/-- A list that may be empty; then it may consist of a comma. -/
theorem commaSeparatedUntil (close : Token) (h : Spends ctx item Q) :
    Spends ctx (Parser.commaSeparatedUntil close item)
      (Separated ctx.options.trailingCommas Q) := by
  intro c T v c' hc hrun
  rw [Parser.commaSeparatedUntil, bind_run (peek_ok.mpr ⟨rfl, rfl⟩)] at hrun
  split at hrun
  · obtain ⟨rfl, rfl⟩ := pure_ok.mp hrun
    exact ⟨[], T, rfl, hc, [], .nil, .inl rfl⟩
  · rw [bind_run (read_ok.mpr ⟨rfl, rfl⟩), bind_run (get_ok.mpr ⟨rfl, rfl⟩)] at hrun
    split at hrun
    -- an empty list may have the trailing comma alone
    · rename_i hpair
      obtain ⟨htrailing, hpair⟩ : ctx.options.trailingCommas = true ∧
          c.peekTokens 2 = [.comma, close] := by simpa using hpair
      rw [peekTokens_two] at hpair
      have hcomma : c.peek.token = .comma := (List.cons.inj hpair).1
      rw [bind_run (next_run ctx c)] at hrun
      obtain ⟨rfl, rfl⟩ := pure_ok.mp hrun
      cases T with
      | nil => simp [hc.peek_nil, Located.eof] at hcomma
      | cons t T =>
          obtain rfl : t = .comma := hc.peek.symm.trans hcomma
          exact ⟨[.comma], T, rfl, hc.next, [], .nil, .inr ⟨htrailing, rfl⟩⟩
    · exact commaSeparated h c T v c' hc hrun

end Spends

end SchemaSql
