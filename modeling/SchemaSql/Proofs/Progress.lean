import SchemaSql.Proofs.Keywords
import SchemaSql.Proofs.Levels.Bound

/-! # Progress — how readers move, however they end

    A reader may look ahead, put tokens back and return to a place it kept, but it never ends in
    front of the place where it started, and one that gives a value has moved on.  What counts
    are the tokens that are left, without the blanks, and unlike the facts about successful runs
    this is a fact about errors too.

    * `Lands n moved r` is how a run `r` may end that started with `n` tokens left: with no more
      of them, and with fewer if `moved` holds of its value.  Along the way it says which errors
      cannot end a run (`ParseError.InStep`), since that needs the same walk through all readers.
    * `Forward moved p` says it of all runs of `p`; `Onward` and `Advances` are the two ends of
      it.  The rules below follow the way readers are written.
    * `Asks` is a loop without its bound that counts how often it asks its step, and
      `Bounded.of_forward` says that a loop whose steps move asks at most once more than there are
      tokens left. -/

namespace SchemaSql

open Cursor SchemaSql.Parser

/-- A place that a reader can be at: the end of the text is read behind all tokens only. -/
def Cursor.IsPlace (c : Cursor) : Prop := c.overrun = 0 ∨ c.unread = []

/-- How many tokens are left, blanks not counted. -/
def Cursor.left (c : Cursor) : Nat := solids c.unread

namespace ParseError

/-- What is said to be missing where `NOT` was read as an operator and is none. -/
def missingRange : String := "IN or BETWEEN after NOT"

/-- The error does not say that an operator was announced and then not found. -/
def InStep : ParseError → Prop
  | .notAnOperator _ => False
  | .expected what _ => what ≠ missingRange
  | _ => True

theorem InStep.expected {what : String} (h : what ≠ missingRange) (found : Located) :
    (ParseError.expected what found).InStep := h

end ParseError

variable {α β : Type}

/-- How a run ends that started with `n` tokens left: with no more than those, and with fewer if
    it gives a value that says so. -/
inductive Lands (n : Nat) (moved : α → Prop) : EStateM.Result ParseError Cursor α → Prop where
  | ok {a c} (place : c.IsPlace) (le : c.left ≤ n) (lt : moved a → c.left < n) :
      Lands n moved (.ok a c)
  | error {e c} (place : c.IsPlace) (le : c.left ≤ n) (step : e.InStep) : Lands n moved (.error e c)

/-- From every place, the reader ends at that place or behind it, and behind it if it gives a
    value that says so. -/
def Forward (moved : α → Prop) (p : Parser α) : Prop :=
  ∀ ctx c, c.IsPlace → Lands c.left moved (p ctx c)

/-- The reader never ends in front of where it started. -/
abbrev Onward (p : Parser α) : Prop := Forward (fun _ => False) p

/-- The reader has moved on whenever it gives a value. -/
abbrev Advances (p : Parser α) : Prop := Forward (fun _ => True) p

/-- The reader ends where no more tokens are left than where it started, and fewer if it gives a
    value. -/
def MovesForward (p : Parser α) : Prop :=
  ∀ ctx c, c.IsPlace → match p ctx c with
    | .ok _ c' => c'.IsPlace ∧ c'.left < c.left
    | .error _ c' => c'.IsPlace ∧ c'.left ≤ c.left

/-- A reader that advances moves forward however it ends. -/
theorem Forward.moves {p : Parser α} (h : Advances p) : MovesForward p := by
  intro ctx c hc
  have hlands := h ctx c hc
  generalize p ctx c = r at hlands
  cases hlands with
  | ok place _ lt => exact ⟨place, lt trivial⟩
  | error place le _ => exact ⟨place, le⟩

/-- No error of the reader says that an operator was announced and then not found. -/
theorem Forward.inStep {moved : α → Prop} {p : Parser α} (h : Forward moved p) {ctx : Context}
    {c c' : Cursor} (hc : c.IsPlace) {e : ParseError} (hrun : p ctx c = .error e c') :
    e.InStep := by
  have hlands := h ctx c hc
  rw [hrun] at hlands
  cases hlands with
  | error _ _ step => exact step

/-- The errors of a run over a whole text are among those that the walk allows. -/
theorem Forward.runTokens {moved : α → Prop} {p : Parser α} (h : Forward moved p) (ctx : Context)
    (tokens : List Located) {e : ParseError} (hrun : p.runTokens ctx tokens = .error e) :
    e.InStep := by
  unfold Parser.runTokens at hrun
  split at hrun
  · cases hrun
  · next hrun' =>
      obtain rfl := Except.error.inj hrun
      exact h.inStep (.inl rfl) hrun'

/-! ## Single moves -/

namespace Cursor

variable {c : Cursor}

theorem left_eq (c : Cursor) : c.left = solids c.rest := (solids_dropWhile c.unread).symm

theorem solids_cons {t : Located} (h : t.isWhitespace = false) (w : List Located) :
    solids (t :: w) = solids w + 1 := by simp [solids, h]

theorem solids_le_cons (t : Located) (w : List Located) : solids w ≤ solids (t :: w) :=
  (List.sublist_cons_self t w).countP_le

/-- What there is to a place where a token is left. -/
theorem IsPlace.overrun (h : c.IsPlace) {t : Located} {w : List Located} (hrest : c.rest = t :: w) :
    c.overrun = 0 := by
  rcases h with h | h
  · exact h
  · simp [rest, h] at hrest

/-- Reading a token that is there. -/
theorem IsPlace.next_cons (h : c.IsPlace) {t : Located} {w : List Located}
    (hrest : c.rest = t :: w) : c.next.2.IsPlace ∧ c.next.2.left < c.left := by
  have ht : t.isWhitespace = false := clean_cons.mp (hrest ▸ c.clean_rest)
  refine ⟨?_, ?_⟩
  · rw [next_of_rest_cons hrest]
    exact .inl (h.overrun hrest)
  · rw [next_of_rest_cons hrest, left_eq c, hrest, solids_cons ht]
    exact Nat.lt_succ_self _

/-- Reading the end. -/
theorem next_nil (hrest : c.rest = []) : c.next.2.IsPlace ∧ c.next.2.left ≤ c.left := by
  rw [next, nextFrom_eq]
  rw [rest] at hrest
  simp [hrest, IsPlace, left, solids]

/-- Taking a token leads to a place with fewer tokens left, unless there was none to take. -/
theorem IsPlace.next (h : c.IsPlace) : c.next.2.IsPlace ∧ c.next.2.left ≤ c.left ∧
    (c.peek.token ≠ .eof → c.next.2.left < c.left) := by
  cases hrest : c.rest with
  | nil =>
      obtain ⟨hplace, hle⟩ := next_nil hrest
      refine ⟨hplace, hle, fun hne => absurd ?_ hne⟩
      rw [peek_eq, hrest]
      rfl
  | cons t w =>
      obtain ⟨hplace, hlt⟩ := h.next_cons hrest
      exact ⟨hplace, hlt.le, fun _ => hlt⟩

/-- Putting back the token that was just read gives the place in front of it. -/
theorem IsPlace.next_back (h : c.IsPlace) :
    c.next.2.back.IsPlace ∧ c.next.2.back.rest = c.rest := by
  cases hrest : c.rest with
  | nil =>
      rw [Cursor.next, nextFrom_eq]
      rw [Cursor.rest] at hrest ⊢
      simp [hrest, IsPlace, back]
  | cons t w =>
      have h0 := h.overrun hrest
      have hat := (at_rest h0).next_back
      exact ⟨.inl hat.overrun, hat.rest.trans hrest⟩

end Cursor

/-! ## Rules -/

namespace Lands

variable {n m : Nat} {moved moved' : α → Prop} {r : EStateM.Result ParseError Cursor α}

/-- How a run lands may be said with more tokens at its start, and with fewer values that have
    moved. -/
theorem mono (h : Lands n moved r) (hle : n ≤ m) (hmoved : ∀ a, moved' a → moved a ∨ n < m) :
    Lands m moved' r := by
  cases h with
  | ok place le lt =>
      refine .ok place (le.trans hle) fun ha => ?_
      rcases hmoved _ ha with h | h
      · exact (lt h).trans_le hle
      · exact le.trans_lt h
  | error place le step => exact .error place (le.trans hle) step

end Lands

namespace Forward

variable {P P' : α → Prop} {Q : β → Prop}

/-- Fewer values may be asked to have moved. -/
theorem mono {p : Parser α} (h : Forward P p) (hP : ∀ a, P' a → P a) : Forward P' p :=
  fun ctx c hc => (h ctx c hc).mono le_rfl fun a ha => .inl (hP a ha)

/-- Whatever its values say, a reader that goes forward does not go back. -/
theorem onward {p : Parser α} (h : Forward P p) : Onward p := h.mono fun _ => False.elim

/-- A value alone has not moved on, and may not say so. -/
theorem pure {a : α} (h : ¬ P a) : Forward P (Pure.pure a : Parser α) :=
  fun _ _ hc => .ok hc le_rfl fun ha => absurd ha h

/-- An error ends a run where it is, if it is one that the walk allows. -/
theorem throw {e : ParseError} (h : e.InStep) : Forward P (MonadExcept.throw e : Parser α) :=
  fun _ _ hc => .error hc le_rfl h

theorem expected {what : String} {found : Located} (h : what ≠ ParseError.missingRange) :
    Forward P (Parser.expected what found : Parser α) := throw (.expected h found)

/-- One reader after the other: what the first says about its move is off the second. -/
theorem bind {p : Parser α} {f : α → Parser β} (hp : Forward P p)
    (hf : ∀ a, Forward (fun b => Q b ∧ ¬ P a) (f a)) : Forward Q (p >>= f) := by
  intro ctx c hc
  simp only [Parser.bind_apply]
  have hlands := hp ctx c hc
  generalize p ctx c = r at hlands
  cases hlands with
  | @ok a c1 place le lt =>
      refine (hf a ctx c1 place).mono le fun b hb => ?_
      by_cases ha : P a
      · exact .inr (lt ha)
      · exact .inl ⟨hb, ha⟩
  | error place le step => exact .error place le step

/-- Behind a reader that moves on, no further move is needed. -/
theorem after {p : Parser α} {f : α → Parser β} (hp : Advances p) (hf : ∀ a, Onward (f a)) :
    Forward Q (p >>= f) := hp.bind fun a => (hf a).mono fun _ h => h.2 trivial

/-- Behind any reader, one that moves is enough. -/
theorem behind {p : Parser α} {f : α → Parser β} (hp : Forward P p) (hf : ∀ a, Forward Q (f a)) :
    Forward Q (p >>= f) := hp.bind fun a => (hf a).mono fun _ h => h.1

/-- The value of a run may be exchanged for one that says no more about it. -/
theorem map_lands {p : Parser α} {g : α → β} {ctx : Context} {c : Cursor} {n : Nat}
    (hp : Lands n P (p ctx c)) (hg : ∀ a, Q (g a) → P a) : Lands n Q ((g <$> p) ctx c) := by
  simp only [Parser.map_apply]
  generalize p ctx c = r at hp
  cases hp with
  | ok place le lt => exact .ok place le fun h => lt (hg _ h)
  | error place le step => exact .error place le step

theorem map {p : Parser α} {g : α → β} (hp : Forward P p) (hg : ∀ a, Q (g a) → P a) :
    Forward Q (g <$> p) := fun ctx c hc => map_lands (hp ctx c hc) hg

/-- A reader that asks for the settings. -/
theorem read {f : Settings → Parser α} (hf : ∀ ctx, Forward P (f ctx)) :
    Forward P (MonadReader.read >>= f) := fun ctx c hc => hf ctx.toSettings ctx c hc

/-- A reader that asks how many levels are left. -/
theorem remaining {f : Nat → Parser α} (hf : ∀ levels, Forward P (f levels)) :
    Forward P (Parser.remaining >>= f) := fun ctx c hc => hf ctx.depth ctx c hc

/-- A reader that asks where it is. -/
theorem get {f : Cursor → Parser α} (hf : ∀ ctx c, c.IsPlace → Lands c.left P (f c ctx c)) :
    Forward P (MonadState.get >>= f) := fun ctx c hc => hf ctx c hc

/-- Nothing is read behind an error. -/
theorem expected_bind {what : String} {found : Located} {f : β → Parser α}
    (h : what ≠ ParseError.missingRange) :
    Forward P ((Parser.expected what found : Parser β) >>= f) :=
  fun _ _ hc => .error hc le_rfl (.expected h found)

/-- Both sides of a choice go forward. -/
theorem ite {b : Prop} [Decidable b] {p q : Parser α} (hp : Forward P p) (hq : Forward P q) :
    Forward P (if b then p else q) := by
  split
  · exact hp
  · exact hq

/-- A test that takes what it looks for. -/
theorem test {t : Parser Bool} {p q : Parser α} (ht : Forward (· = true) t) (hp : Onward p)
    (hq : Forward P q) : Forward P (t >>= fun b => if b then p else q) := by
  refine ht.bind fun b => ?_
  cases b with
  | true => exact hp.mono fun _ h => h.2 rfl
  | false => exact hq.mono fun _ h => h.1

/-- A reader that may give nothing, and moves when it gives something. -/
theorem option {γ : Type} {t : Parser (Option γ)} {f : Option γ → Parser α}
    (ht : Forward (·.isSome) t) (hnone : Forward P (f none)) (hsome : ∀ v, Onward (f (some v))) :
    Forward P (t >>= f) := by
  refine ht.bind fun o => ?_
  cases o with
  | none => exact hnone.mono fun _ h => h.1
  | some v => exact (hsome v).mono fun _ h => h.2 rfl

/-- A value that is read in one of two ways. -/
theorem bind_ite {b : Prop} [Decidable b] {p q : Parser α} {f : α → Parser β} (hp : Onward p)
    (hq : Onward q) (hf : ∀ a, Forward Q (f a)) : Forward Q (if b then p >>= f else q >>= f) :=
  ite (hp.behind hf) (hq.behind hf)

/-- What a reader gives where a test succeeds, and nothing elsewhere. -/
theorem bind_option {R : Bool → Prop} {t : Parser Bool} {p : Parser α} {f : Option α → Parser β}
    (ht : Forward R t) (hp : Onward p) (hf : ∀ o, Forward Q (f o)) :
    Forward Q (t >>= fun b => if b then some <$> p >>= f else Pure.pure none >>= f) :=
  ht.behind fun _ => bind_ite (hp.map fun _ => id) (pure id) hf

/-- Looking at a token leaves the place where it is. -/
theorem peek {k : Located → Parser α} (hk : ∀ t, Forward P (k t)) :
    Forward P (Parser.peek >>= k) := fun ctx c hc => hk c.peek ctx c hc

theorem expected_peek {what : String} (h : what ≠ ParseError.missingRange) :
    Forward P (do Parser.expected what (← Parser.peek) : Parser α) := peek fun _ => expected h

/-- What is read behind a token that was there. -/
theorem taken {p : Parser α} {ctx : Context} {c : Cursor} (hc : c.IsPlace)
    (hne : c.peek.token ≠ .eof) (hp : Onward p) : Lands c.left P (p ctx c.next.2) := by
  obtain ⟨hplace, hle, hlt⟩ := hc.next
  exact (hp ctx _ hplace).mono hle fun _ _ => .inr (hlt hne)

/-- What may stand behind the next token: something that moves if the end was read. -/
theorem next_lands {k : Located → Parser α} {ctx : Context} {c : Cursor} (hc : c.IsPlace)
    (hk : Onward (k c.peek)) (heof : c.peek.token = .eof → Forward P (k c.peek)) :
    Lands c.left P ((Parser.next >>= k) ctx c) := by
  rw [bind_run (next_run ctx c)]
  by_cases h : c.peek.token = .eof
  · obtain ⟨hplace, hle, -⟩ := hc.next
    exact (heof h ctx _ hplace).mono hle fun _ ha => .inl ha
  · exact taken hc h hk

/-- A reader that takes the next token, and has to move on itself at the end. -/
theorem next {k : Located → Parser α} (hk : ∀ t, Onward (k t))
    (heof : ∀ location, Forward P (k ⟨.eof, location⟩)) : Forward P (Parser.next >>= k) := by
  refine fun ctx c hc => next_lands hc (hk _) fun h => ?_
  have ht : c.peek = ⟨.eof, c.peek.location⟩ := by rw [← h]
  rw [ht]
  exact heof _

/-- A reader that puts back the token that was just taken starts anew. -/
theorem back_lands {p : Parser α} {ctx : Context} {c : Cursor} (hc : c.IsPlace)
    (hp : ∀ c1, c1.IsPlace → c1.rest = c.rest → Lands c1.left P (p ctx c1)) :
    Lands c.left P ((Parser.back >>= fun _ => p) ctx c.next.2) := by
  rw [bind_run (back_ok (v := ()).mpr rfl)]
  obtain ⟨hplace, hrest⟩ := hc.next_back
  have hle : c.next.2.back.left ≤ c.left := by rw [left_eq, left_eq, hrest]
  exact (hp _ hplace hrest).mono hle fun _ ha => .inl ha

/-- A reader that takes the next token, or puts it back for another reader. -/
theorem next_or_back {k : Located → Parser α}
    (hk : ∀ t, (Onward (k t) ∧ (t.token = .eof → Forward P (k t))) ∨
      ∃ p, Forward P p ∧ k t = (Parser.back >>= fun _ => p)) :
    Forward P (Parser.next >>= k) := by
  intro ctx c hc
  rcases hk c.peek with ⟨htakes, heof⟩ | ⟨p, hp, hback⟩
  · exact next_lands hc htakes heof
  · rw [bind_run (next_run ctx c), hback]
    exact back_lands hc fun c1 hc1 _ => hp ctx c1 hc1

/-- Going one level down. -/
theorem descend {p : Parser α} (hp : Forward P p) : Forward P (Parser.descend p) := by
  intro ctx c hc
  rw [descend_apply]
  split
  · exact .error hc le_rfl trivial
  · exact hp _ c hc

end Forward

/-! ## Words and signs -/

/-- No keyword is written like the message about a missing range. -/
theorem Keyword.label_ne (keyword : Option Keyword) :
    Keyword.label keyword ≠ ParseError.missingRange := by
  cases keyword with
  | none => decide
  | some keyword =>
      have h : ∀ k ∈ Keyword.ordered, k.name ≠ ParseError.missingRange := by decide +kernel
      exact h keyword keyword.mem_ordered

namespace Forward

variable {P : α → Prop}

/-- A reader that takes the next token, unless it is the end, or stays where it is. -/
theorem of_run {p : Parser α} (h : ∀ ctx c, (∃ v, c.peek.token ≠ .eof ∧ p ctx c = .ok v c.next.2) ∨
    (∃ v, ¬ P v ∧ p ctx c = .ok v c) ∨ ∃ e, e.InStep ∧ p ctx c = .error e c) : Forward P p := by
  intro ctx c hc
  rcases h ctx c with ⟨v, hne, hrun⟩ | ⟨v, hv, hrun⟩ | ⟨e, he, hrun⟩
  · rw [hrun]
    obtain ⟨hplace, hle, hlt⟩ := hc.next
    exact .ok hplace hle fun _ => hlt hne
  · rw [hrun]
    exact .ok hc le_rfl fun h => absurd h hv
  · rw [hrun]
    exact .error hc le_rfl he

/-- A token that was accepted is read, unless it is the end. -/
theorem accept {token : Token} (h : token ≠ .eof) : Forward (· = true) (accept token) := by
  refine of_run fun ctx c => ?_
  rw [accept_run]
  split
  · next ht => exact .inl ⟨true, ht ▸ h, rfl⟩
  · exact .inr (.inl ⟨false, by simp, rfl⟩)

theorem acceptEquals : Forward (· = true) acceptEquals := accept (by simp)

/-- A token that must be there is read whenever there is no error. -/
theorem expect {token : Token} (h : token ≠ .eof) (htext : token.text ≠ ParseError.missingRange) :
    Advances (expect token) := by
  refine of_run fun ctx c => ?_
  rw [expect_run]
  split
  · next ht => exact .inl ⟨_, ht ▸ h, rfl⟩
  · exact .inr (.inr ⟨_, .expected htext _, rfl⟩)

theorem acceptSpelling (spelling : String) : Forward (· = true) (acceptSpelling spelling) := by
  refine of_run fun ctx c => ?_
  rw [acceptSpelling_run]
  split
  · next ht => exact .inl ⟨true, fun heof => by simp [spelled, heof] at ht, rfl⟩
  · exact .inr (.inl ⟨false, by simp, rfl⟩)

/-- A word that was accepted is read; where it was not, it is put back. -/
theorem acceptWord? (keyword : Option Keyword) : Forward (·.isSome) (acceptWord? keyword) := by
  refine of_run fun ctx c => ?_
  rw [acceptWord?_run]
  split
  · next ht => exact .inl ⟨_, fun heof => by simp [hasKeyword, heof] at ht, rfl⟩
  · exact .inr (.inl ⟨none, by simp, rfl⟩)

theorem acceptKeyword? (keyword : Keyword) : Forward (·.isSome) (acceptKeyword? keyword) :=
  acceptWord? _

theorem acceptKeyword (keyword : Keyword) : Forward (· = true) (acceptKeyword keyword) :=
  (acceptWord? _).map fun _ h => h

/-- Looking for a keyword reads nothing, whatever the answer. -/
theorem peekKeyword (keyword : Keyword) : Onward (peekKeyword keyword) :=
  peek fun t => by
    split
    · exact pure id
    · exact pure id

theorem expectWord (keyword : Option Keyword) : Advances (expectWord keyword) :=
  option (acceptWord? keyword) (expected_peek (Keyword.label_ne keyword)) fun _ => pure id

theorem expectKeyword (keyword : Keyword) : Advances (expectKeyword keyword) := expectWord _

/-- One of several words is tried behind the other, and each that is not found is put back. -/
theorem acceptWordOf (keywords : List (Option Keyword)) :
    Forward (·.isSome) (acceptWordOf keywords) := by
  refine of_run fun ctx c => ?_
  rw [acceptWordOf_run]
  split
  · next ht => exact .inl ⟨_, fun heof => by simp [keywordOf, heof] at ht, rfl⟩
  · exact .inr (.inl ⟨none, by simp, rfl⟩)

theorem acceptOneOf (keywords : List Keyword) : Forward (·.isSome) (acceptOneOf keywords) :=
  (acceptWordOf _).map fun found h => by
    cases found with
    | none => exact h
    | some _ => rfl

theorem expectOneOf (keywords : List Keyword) : Advances (expectOneOf keywords) := by
  refine option (acceptOneOf keywords) (expected_peek fun heq => ?_) fun _ => pure id
  -- the two texts differ in their first character, whatever the keywords are
  have hhead := congrArg (fun s => s.toList.head?) heq
  simp [ParseError.missingRange] at hhead

/-! ### Several tokens -/

/-- Readers that stop at the first refusal do not go back, however many of them succeed. -/
theorem allM {readers : List (Parser Bool)} (h : ∀ t ∈ readers, Onward t) :
    Onward (readers.allM id) := by
  induction readers with
  | nil => exact pure id
  | cons t readers ih =>
      obtain ⟨ht, hreaders⟩ := List.forall_mem_cons.mp h
      refine ht.behind fun b => ?_
      cases b with
      | true => exact ih hreaders
      | false => exact pure id

/-- Readers that do not all take what they look for leave the place as it was. -/
theorem acceptAll {t : Parser Bool} {readers : List (Parser Bool)} (ht : Forward (· = true) t)
    (h : ∀ t ∈ readers, Onward t) : Forward (· = true) (acceptAll (t :: readers)) := by
  have hall : Forward (· = true) ((t :: readers).allM id) := by
    refine ht.bind fun b => ?_
    cases b with
    | true => exact (allM h).mono fun _ h => h.2 rfl
    | false => exact pure (by simp)
  refine get fun ctx c hc => ?_
  have hlands := hall ctx c hc
  simp only [Parser.bind_apply]
  generalize (t :: readers).allM id ctx c = r at hlands ⊢
  cases hlands with
  | @ok b c1 place le lt =>
      cases b with
      | true => exact .ok place le lt
      | false => exact .ok hc le_rfl (by simp)
  | error place le step => exact .error place le step

/-- Where all keywords are there, the first of them was read; where one is missing, the reader
    returns to where it started and not further. -/
theorem acceptKeywords (keyword : Keyword) (keywords : List Keyword) :
    Forward (· = true) (acceptKeywords (keyword :: keywords)) :=
  acceptAll (acceptKeyword keyword) fun t ht => by
    simp only [List.map_map, List.mem_map, Function.comp] at ht
    obtain ⟨k, -, rfl⟩ := ht
    exact (acceptKeyword k).onward

theorem expectKeywords (keywords : List Keyword) : Onward (expectKeywords keywords) := by
  show Onward ((keywords.map some).forM fun keyword => discard (Parser.expectWord keyword))
  induction keywords with
  | nil => exact pure id
  | cons keyword keywords ih =>
      have hword : Onward (discard (Parser.expectWord (some keyword))) :=
        (expectWord _).onward.map fun _ => id
      exact hword.behind fun _ => ih

/-- Words that are accepted as they are written go back to the place that was kept, or stay behind
    the last of them. -/
theorem acceptWordsAsWritten (keywords : List (Option Keyword)) :
    Onward (acceptWordsAsWritten keywords) := by
  have hgo : Onward (acceptWordsAsWritten.go keywords) := by
    induction keywords with
    | nil => exact pure id
    | cons keyword keywords ih =>
        refine (acceptWord? keyword).behind fun found => ?_
        cases found with
        | none => exact pure id
        | some t => exact ih.behind fun _ => pure id
  refine get fun ctx c hc => ?_
  have hlands := hgo ctx c hc
  simp only [Parser.bind_apply]
  generalize acceptWordsAsWritten.go keywords ctx c = r at hlands ⊢
  cases hlands with
  | @ok words c1 place le lt =>
      cases words with
      | some words => exact .ok place le False.elim
      | none => exact .ok hc le_rfl False.elim
  | error place le step => exact .error place le step

theorem acceptKeywordsAsWritten (keywords : List Keyword) :
    Onward (acceptKeywordsAsWritten keywords) := acceptWordsAsWritten _

theorem acceptSeparator (trailing : Bool) : Forward (· = true) (acceptSeparator trailing) := by
  refine test (accept (by simp)) (peek fun _ => pure id) (pure (by simp))

end Forward

/-! ## Loops -/

namespace Parser

/-- The step of a loop that gathers what `item` gives. -/
def gather (item : Parser (Option α)) (items : List α) : Parser (Option (List α)) :=
  (·.map (· :: items)) <$> item

/-- A list of values is a loop that gathers them in front of those it has. -/
theorem many_eq (item : Parser (Option α)) :
    many item = List.reverse <$> iterate (gather item) [] :=
  rfl

/-- A further item of a list, if `mark` finds what stands in front of one. -/
def further (mark : Parser Bool) (item : Parser α) : Parser (Option α) := do
  if ← mark then some <$> item else return none

/-- The items behind the first are gathered by a loop, each behind its comma. -/
theorem commaSeparatedWith_eq (trailing : Bool) (item : Parser α) :
    commaSeparatedWith trailing item = (do
      let first ← item
      let rest ← many (further (acceptSeparator trailing) item)
      return first :: rest) := rfl

end Parser

/-- A loop without a bound that asks its step `n` times, and how it ends. -/
inductive Asks (step : β → Parser (Option β)) (ctx : Context) :
    Nat → β → Cursor → EStateM.Result ParseError Cursor β → Prop where
  | done {s c c'} (h : step s ctx c = .ok none c') : Asks step ctx 1 s c (.ok s c')
  | failed {s c e c'} (h : step s ctx c = .error e c') : Asks step ctx 1 s c (.error e c')
  | more {n s s1 c c1 r} (h : step s ctx c = .ok (some s1) c1) (rest : Asks step ctx n s1 c1 r) :
      Asks step ctx (n + 1) s c r

/-- The loop ends as it would end without its bound, and asks its step at most once more than
    there are tokens left. -/
def Bounded (step : β → Parser (Option β)) : Prop :=
  ∀ ctx s c, c.IsPlace → ∃ n ≤ c.left + 1, Asks step ctx n s c (iterate step s ctx c)

namespace Forward

variable {P : α → Prop} {step : β → Parser (Option β)}

/-- A loop whose steps move does not go back, whatever its last step does. -/
theorem iterate (h : ∀ s, Forward (·.isSome) (step s)) (s : β) : Onward (iterate step s) := by
  have hloop : ∀ n s, Onward (iterateUpTo step n s) := by
    intro n
    induction n with
    | zero => exact fun s => pure id
    | succ n ih =>
        intro s
        refine (h s).behind fun o => ?_
        cases o with
        | none => exact pure id
        | some s => exact ih s
  exact get fun ctx c hc => hloop _ s ctx c hc

/-- A round that gathers a value has moved as the value's reader has. -/
theorem gather {item : Parser (Option α)} (h : Forward (·.isSome) item) (items : List α) :
    Forward (·.isSome) (gather item items) := h.map fun o ho => by simpa using ho

theorem many {item : Parser (Option α)} (h : Forward (·.isSome) item) : Onward (many item) := by
  rw [many_eq]
  exact (iterate (gather h) []).map fun _ => id

/-- A round behind a separator has moved by the separator alone. -/
theorem further {mark : Parser Bool} {item : Parser α} (hmark : Forward (· = true) mark)
    (h : Onward item) : Forward (·.isSome) (further mark item) :=
  test hmark (h.map fun _ => id) (pure (by simp))

end Forward

namespace Bounded

/-- Each step that gives something takes a token, so the loop is over before its bound. -/
theorem of_forward {step : β → Parser (Option β)}
    (h : ∀ s, Forward (·.isSome) (step s)) : Bounded step := by
  have hloop : ∀ ctx n s c, c.IsPlace → c.left < n →
      ∃ m ≤ c.left + 1, Asks step ctx m s c (iterateUpTo step n s ctx c) := by
    intro ctx n
    induction n with
    | zero => intro s c _ hlt; omega
    | succ n ih =>
        intro s c hc hlt
        have hlands := h s ctx c hc
        rw [iterateUpTo]
        simp only [Parser.bind_apply]
        generalize hrun : step s ctx c = r at hlands
        cases hlands with
        | error => exact ⟨1, by omega, .failed hrun⟩
        | @ok o c1 place le lt =>
            cases o with
            | none => exact ⟨1, by omega, .done hrun⟩
            | some s1 =>
                -- the bound counts all tokens, so it is never below those that are left
                have hmove := lt rfl
                obtain ⟨m, hm, hasks⟩ := ih s1 c1 place (by omega)
                exact ⟨m + 1, by omega, .more hrun hasks⟩
  intro ctx s c hc
  have hleft : c.left ≤ c.unread.length := List.countP_le_length
  exact hloop ctx _ s c hc (Nat.lt_succ_of_le hleft)

theorem gather {item : Parser (Option α)} (h : Forward (·.isSome) item) : Bounded (gather item) :=
  of_forward (Forward.gather h)

end Bounded

namespace Forward

/-! ### Lists -/

/-- A list has a first item, so reading it moves on. -/
theorem commaSeparatedWith (trailing : Bool) {item : Parser α} (h : Advances item) :
    Advances (commaSeparatedWith trailing item) := by
  rw [commaSeparatedWith_eq]
  exact h.after fun _ => (many (further (acceptSeparator trailing) h.onward)).behind fun _ =>
    pure id

theorem commaSeparated {item : Parser α} (h : Advances item) : Advances (commaSeparated item) :=
  read fun _ => commaSeparatedWith _ h

/-- A list that may be empty does not move where it is. -/
theorem commaSeparatedUntil {close : Token} {item : Parser α} (h : Advances item) :
    Onward (commaSeparatedUntil close item) := by
  refine peek fun _ => ite (pure id) (read fun _ => get fun ctx c hc => ?_)
  split
  · exact next (fun _ => pure id) (fun _ => pure id) ctx c hc
  · exact (commaSeparated h).onward ctx c hc

/-- The parentheses are read even where nothing stands between them. -/
theorem parenthesized {inner : Parser α} (h : Onward inner) : Advances (parenthesized inner) :=
  (expect (by simp) (by decide)).after fun _ => h.behind fun _ =>
    (expect (by simp) (by decide)).onward.behind fun _ => pure id

theorem parenthesizedList {item : Parser α} (h : Advances item) :
    Advances (parenthesizedList item) := parenthesized (commaSeparatedWith false h).onward

end Forward

end SchemaSql
