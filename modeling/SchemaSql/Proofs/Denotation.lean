import SchemaSql.Proofs.Locality.Expressions

/-! # Denotations — what readers make of the tokens that are left

    Where blanks do not matter, a reader is a relation: it takes some of the tokens that are
    left, gives a value and leaves the others.  `Denotes` says that a reader is such a
    relation, no more and no less, so that both what it gives and what makes it give something
    can be read off the relation.

    * `Cursor.Holds` is a place with these tokens left, none of which is a blank.
    * The rules of `Denotes` follow the way readers are written; `Reading.Loop`,
      `Reading.Many` and `Reading.Items` are what loops and lists denote. -/

namespace SchemaSql

open Cursor SchemaSql.Parser

/-! ## The tokens that are left -/

/-- A token as the lexer makes them: a word has the keyword that its spelling has. -/
def Token.Proper (t : Token) : Prop := ∀ w, t = .word w → w = Word.of w.value w.quote

/-- The tokens that are no blanks. -/
def solidTokens (w : List Located) : List Token :=
  (w.filter fun t => !t.isWhitespace).map Located.token

/-- A place between tokens where these are left, blanks apart. -/
structure Cursor.Holds (c : Cursor) (T : List Token) : Prop where
  overrun : c.overrun = 0
  tokens  : solidTokens c.unread = T
  proper  : ∀ t ∈ T, t.Proper

/-- Blanks that are passed leave the tokens that are no blanks. -/
theorem solidTokens_dropWhile (w : List Located) :
    solidTokens (w.dropWhile Located.isWhitespace) = solidTokens w := by
  induction w with
  | nil => rfl
  | cons t w ih =>
      by_cases ht : t.isWhitespace
      · rw [List.dropWhile_cons_of_pos ht, ih]
        simp [solidTokens, ht]
      · rw [List.dropWhile_cons_of_neg ht]

/-- Tokens ahead are counted in the list without blanks. -/
theorem solidTokens_nthSolid (n : Nat) (w : List Located) :
    (nthSolid n w).token = (solidTokens w).getD n .eof := by
  induction w generalizing n with
  | nil => simp [nthSolid, solidTokens, Located.eof]
  | cons t w ih =>
      by_cases ht : t.isWhitespace
      · have hn : nthSolid n (t :: w) = nthSolid n w := by cases n <;> simp [nthSolid, ht]
        rw [hn, ih n]
        simp [solidTokens, ht]
      · cases n with
        | zero => simp [nthSolid, solidTokens, ht]
        | succ n => simpa [nthSolid, solidTokens, ht] using ih n

namespace Cursor.Holds

variable {c : Cursor} {t : Token} {T : List Token}

/-- What is ahead is read off the tokens that are left, and the end behind them. -/
theorem peekNth (h : c.Holds T) (n : Nat) : (c.peekNth n).token = T.getD n .eof := by
  rw [Cursor.peekNth, solidTokens_nthSolid, h.tokens]

/-- The first of the tokens that are left is the one that is looked at. -/
theorem peek (h : c.Holds T) : c.peek.token = T.headD .eof := by
  rw [Cursor.peek, h.peekNth]
  cases T <;> rfl

theorem peek_nil (h : c.Holds []) : c.peek = .eof := by
  have hnone : ∀ w : List Located, solidTokens w = [] → nthSolid 0 w = .eof := by
    intro w
    induction w with
    | nil => exact fun _ => rfl
    | cons t w ih =>
        intro hw
        by_cases ht : t.isWhitespace
        · simpa [nthSolid, ht] using ih (by simpa [solidTokens, ht] using hw)
        · simp [solidTokens, ht] at hw
  exact hnone _ h.tokens

/-- Where a token is left, what is left starts with it. -/
theorem at_cons (h : c.Holds (t :: T)) : ∃ l w, l.token = t ∧ c.At (l :: w) ∧
    solidTokens w = T := by
  have hrest : solidTokens c.rest = t :: T := by rw [Cursor.rest, solidTokens_dropWhile, h.tokens]
  cases hw : c.rest with
  | nil => simp [hw, solidTokens] at hrest
  | cons l w =>
      have hl : l.isWhitespace = false := by simpa [hw] using c.clean_rest
      rw [hw] at hrest
      simp only [solidTokens, hl, Bool.not_false, List.filter_cons_of_pos, List.map_cons,
        List.cons.injEq] at hrest
      exact ⟨l, w, hrest.1, ⟨h.overrun, hw⟩, hrest.2⟩

/-- Taking the first token leaves the others. -/
theorem next (h : c.Holds (t :: T)) : c.next.2.Holds T := by
  obtain ⟨l, w, -, hat, hw⟩ := h.at_cons
  refine ⟨hat.next.2.overrun, ?_, fun t' ht' => h.proper t' (List.mem_cons_of_mem _ ht')⟩
  rw [← solidTokens_dropWhile, show c.next.2.unread.dropWhile _ = _ from hat.next.2.rest,
    solidTokens_dropWhile, hw]

/-- A token that was just read is put back. -/
theorem back (h : c.Holds (t :: T)) : c.next.2.back.Holds (t :: T) := by
  obtain ⟨l, w, hl, hat, hw⟩ := h.at_cons
  have hback := hat.next_back
  refine ⟨hback.overrun, ?_, h.proper⟩
  rw [← solidTokens_dropWhile, show c.next.2.back.unread.dropWhile _ = _ from hback.rest]
  have hblank : l.isWhitespace = false := by simpa using hat.clean
  simpa [solidTokens, hblank, hl] using hw

/-- What was left earlier is what was read since and what is left now. -/
theorem append {c c1 : Cursor} {T M : List Token} {used : List Located}
    (hc : c.Holds T) (hc1 : c1.Holds M) (h : c.rest = used ++ c1.rest) :
    T = solidTokens used ++ M := by
  rw [← hc.tokens, ← hc1.tokens, ← solidTokens_dropWhile, ← solidTokens_dropWhile c1.unread]
  show solidTokens c.rest = _ ++ solidTokens c1.rest
  rw [h]
  simp [solidTokens]

/-- Where no tokens are left there are none in the text either. -/
theorem rest_nil {c : Cursor} (h : c.Holds []) : c.rest = [] := by
  have hsolid : solidTokens c.rest = [] := (solidTokens_dropWhile c.unread).trans h.tokens
  cases hrest : c.rest with
  | nil => rfl
  | cons t w =>
      have ht : t.isWhitespace = false := clean_cons.mp (hrest ▸ c.clean_rest)
      simp [hrest, solidTokens, ht] at hsolid

end Cursor.Holds

/-- Two places in one list are the same if the same tokens are left at them. -/
theorem eq_of_suffix {A B L : List Located} (hA : A <:+ L) (hB : B <:+ L) (hcleanA : Clean A)
    (hcleanB : Clean B) (h : solidTokens A = solidTokens B) : A = B := by
  have hend : ∀ {A B : List Located}, A <:+ B → Clean B → solidTokens A = solidTokens B →
      A = B := by
    rintro A _ ⟨x, rfl⟩ hclean h
    cases x with
    | nil => rfl
    | cons t x =>
        have ht : t.isWhitespace = false := by simpa using hclean
        have hlength := congrArg List.length h
        simp [solidTokens, ht] at hlength
        omega
  rcases List.suffix_or_suffix_of_suffix hA hB with hAB | hBA
  · exact hend hAB hcleanB h
  · exact (hend hBA hcleanA h.symm).symm

/-! ## Readers as relations -/

/-- What a reader makes of the tokens that are left: a value, and what is left then. -/
abbrev Reading (α : Type) := List Token → α → List Token → Prop

/-- The reader gives what the relation says wherever it says something, and nothing else. -/
structure Denotes {α : Type} (ctx : Context) (p : Parser α) (D : Reading α) : Prop where
  sound    : ∀ {c T v c'}, c.Holds T → p ctx c = .ok v c' → ∃ K, c'.Holds K ∧ D T v K
  complete : ∀ {c T v K}, c.Holds T → D T v K → ∃ c', p ctx c = .ok v c' ∧ c'.Holds K

namespace Reading

variable {α β : Type}

/-- One reading and then another. -/
def seq (D : Reading α) (E : α → Reading β) : Reading β :=
  fun T v K => ∃ a M, D T a M ∧ E a M v K

/-- A token of this kind and then a reading. -/
def behind (P : Token → Prop) (D : Reading α) : Reading α :=
  fun T v K => ∃ t T', T = t :: T' ∧ P t ∧ D T' v K

/-- A token of this kind and then one reading, or no such token and another reading. -/
def test (P : Token → Prop) (D E : Reading α) : Reading α :=
  fun T v K => behind P D T v K ∨ ((∀ t ∈ T.head?, ¬ P t) ∧ E T v K)

/-- A word with one of these keywords and then a reading that depends on it, or no such word and
    another reading. -/
def oneOf (ks : List Keyword) (F : Option Keyword → Reading α) : Reading α :=
  fun T v K => (∃ t T' k, T = t :: T' ∧ t.keyword? = some k ∧ k ∈ ks ∧ F (some k) T' v K) ∨
    ((∀ t ∈ T.head?, ∀ k ∈ ks, t.keyword? ≠ some k) ∧ F none T v K)

/-- A step repeated until it gives nothing. -/
inductive Loop (D : β → Reading (Option β)) : β → Reading β
  | done {s : β} {T K : List Token} : D s T none K → Loop D s T s K
  | more {s s1 s' : β} {T M K : List Token} :
      D s T (some s1) M → Loop D s1 M s' K → Loop D s T s' K

/-- Values gathered until there is none. -/
inductive Many (D : Reading (Option α)) : Reading (List α)
  | nil {T K : List Token} : D T none K → Many D T [] K
  | cons {a : α} {items : List α} {T M K : List Token} :
      D T (some a) M → Many D M items K → Many D T (a :: items) K

/-- One more value in front of those gathered. -/
def collect (D : Reading (Option α)) (items : List α) : Reading (Option (List α)) :=
  fun T o K => ∃ o', D T o' K ∧ o = o'.map (· :: items)

/-- A loop that gathers values gathers them the last first. -/
theorem loop_collect {D : Reading (Option α)} {items out : List α} {T K : List Token} :
    Loop D.collect items T out K ↔ ∃ more, Many D T more K ∧ out = more.reverse ++ items := by
  constructor
  · intro h
    induction h with
    | done h =>
        obtain ⟨o, hD, ho⟩ := h
        obtain rfl : o = none := by simpa using ho.symm
        exact ⟨[], .nil hD, rfl⟩
    | more h _ ih =>
        obtain ⟨o, hD, ho⟩ := h
        obtain ⟨a, rfl, rfl⟩ := Option.map_eq_some_iff.mp ho.symm
        obtain ⟨more, hmore, rfl⟩ := ih
        exact ⟨a :: more, .cons hD hmore, by simp⟩
  -- the loop collects in reverse, so the first item found is put at the end
  · rintro ⟨more, h, rfl⟩
    induction h generalizing items with
    | nil h => exact .done ⟨none, h, rfl⟩
    | @cons a more T M K h _ ih =>
        rw [List.reverse_cons, List.append_assoc]
        exact .more ⟨some a, h, rfl⟩ ih

/-- Items with commas between them. -/
inductive Items (D : Reading α) : Reading (List α)
  | last {a : α} {T K : List Token} : D T a K → K.head? ≠ some .comma → Items D T [a] K
  | more {a : α} {items : List α} {T M K : List Token} :
      D T a (.comma :: M) → Items D M items K → Items D T (a :: items) K

end Reading

open Reading

namespace Denotes

variable {α β : Type} {ctx : Context} {D E : Reading α}

/-- Only lists of proper tokens count. -/
theorem congr {p : Parser α} (h : Denotes ctx p D)
    (heq : ∀ T v K, (∀ t ∈ T, t.Proper) → (D T v K ↔ E T v K)) : Denotes ctx p E where
  sound hc hrun := by
    obtain ⟨K, hK, hD⟩ := h.sound hc hrun
    exact ⟨K, hK, (heq _ _ _ hc.proper).mp hD⟩
  complete hc hE := h.complete hc ((heq _ _ _ hc.proper).mpr hE)

/-- Readers that run alike denote the same. -/
theorem of_run {p q : Parser α} (h : Denotes ctx q D) (heq : ∀ c, p ctx c = q ctx c) :
    Denotes ctx p D :=
  ⟨fun hc hrun => h.sound hc (heq _ ▸ hrun), fun hc hD => heq _ ▸ h.complete hc hD⟩

/-- With a level to spare, what is read one level down is read with one level less. -/
theorem descend {p : Parser α} {depth : Nat} (h : Denotes { ctx with depth } p D) :
    Denotes { ctx with depth := depth + 1 } (Parser.descend p) D :=
  ⟨fun hc hrun => h.sound hc (descend_succ p depth ctx _ ▸ hrun),
    fun hc hD => descend_succ p depth ctx _ ▸ h.complete hc hD⟩

/-- A value that is given leaves all tokens. -/
theorem pure (a : α) : Denotes ctx (Pure.pure a) fun T v K => v = a ∧ K = T where
  sound {c T v c'} hc hrun := by
    obtain ⟨rfl, rfl⟩ := pure_ok.mp hrun
    exact ⟨T, hc, rfl, rfl⟩
  complete {c T v K} hc h := by
    obtain ⟨rfl, rfl⟩ := h
    exact ⟨c, pure_ok.mpr ⟨rfl, rfl⟩, hc⟩

/-- A reader without values denotes the empty relation. -/
theorem fails {p : Parser α} (h : Fails p) : Denotes ctx p fun _ _ _ => False :=
  ⟨fun _ hrun => absurd hrun (h _ _ _ _), fun _ h => h.elim⟩

/-- One reader behind another denotes one reading and then the other. -/
theorem bind {p : Parser α} {f : α → Parser β} {F : α → Reading β} (hp : Denotes ctx p D)
    (hf : ∀ a, Denotes ctx (f a) (F a)) : Denotes ctx (p >>= f) (D.seq F) where
  sound hc hrun := by
    obtain ⟨a, c1, ha, hrun⟩ := bind_ok.mp hrun
    obtain ⟨M, hM, hD⟩ := hp.sound hc ha
    obtain ⟨K, hK, hF⟩ := (hf a).sound hM hrun
    exact ⟨K, hK, a, M, hD, hF⟩
  complete hc h := by
    obtain ⟨a, M, hD, hF⟩ := h
    obtain ⟨c1, ha, hM⟩ := hp.complete hc hD
    obtain ⟨c', hrun, hK⟩ := (hf a).complete hM hF
    exact ⟨c', bind_ok.mpr ⟨a, c1, ha, hrun⟩, hK⟩

/-- What is done with the value is done in the relation. -/
theorem map {p : Parser α} {F : Reading β} (g : α → β) (hp : Denotes ctx p D)
    (hF : ∀ T v K, F T v K ↔ ∃ a, D T a K ∧ v = g a) : Denotes ctx (g <$> p) F where
  sound hc hrun := by
    obtain ⟨a, ha, rfl⟩ := map_ok.mp hrun
    obtain ⟨K, hK, hD⟩ := hp.sound hc ha
    exact ⟨K, hK, (hF _ _ _).mpr ⟨a, hD, rfl⟩⟩
  complete hc h := by
    obtain ⟨a, hD, rfl⟩ := (hF _ _ _).mp h
    obtain ⟨c', ha, hK⟩ := hp.complete hc hD
    exact ⟨c', map_ok.mpr ⟨a, ha, rfl⟩, hK⟩

/-! ### Single tokens -/

/-- A reader that takes the next token if it is of this kind, and what follows in each case. -/
theorem test {t : Parser Bool} {P : Token → Prop} [DecidablePred P] (heof : ¬ P .eof)
    (ht : ∀ c, t ctx c = if P c.peek.token then .ok true c.next.2 else .ok false c)
    {p q : Parser α} (hp : Denotes ctx p D) (hq : Denotes ctx q E) :
    Denotes ctx (t >>= fun b => if b then p else q) (Reading.test P D E) where
  sound {c T v c'} hc hrun := by
    obtain ⟨b, c1, hb, hrun⟩ := bind_ok.mp hrun
    rw [ht] at hb
    cases T with
    | nil =>
        -- the end is no token that passes
        rw [if_neg (by simpa [hc.peek] using heof)] at hb
        obtain ⟨rfl, rfl⟩ := EStateM.Result.ok.inj hb
        obtain ⟨K, hK, hE⟩ := hq.sound hc (by simpa using hrun)
        exact ⟨K, hK, .inr ⟨by simp, hE⟩⟩
    | cons t T =>
        have hpeek : c.peek.token = t := hc.peek
        rw [hpeek] at hb
        by_cases hP : P t
        · rw [if_pos hP] at hb
          obtain ⟨rfl, rfl⟩ := EStateM.Result.ok.inj hb
          obtain ⟨K, hK, hD⟩ := hp.sound hc.next (by simpa using hrun)
          exact ⟨K, hK, .inl ⟨t, T, rfl, hP, hD⟩⟩
        · rw [if_neg hP] at hb
          obtain ⟨rfl, rfl⟩ := EStateM.Result.ok.inj hb
          obtain ⟨K, hK, hE⟩ := hq.sound hc (by simpa using hrun)
          exact ⟨K, hK, .inr ⟨by simpa using hP, hE⟩⟩
  complete {c T v K} hc h := by
    rcases h with ⟨t, T, rfl, hP, hD⟩ | ⟨hP, hE⟩
    · obtain ⟨c', hrun, hK⟩ := hp.complete hc.next hD
      refine ⟨c', bind_ok.mpr ⟨true, c.next.2, ?_, by simpa using hrun⟩, hK⟩
      rw [ht, hc.peek, if_pos (by simpa using hP)]
    · obtain ⟨c', hrun, hK⟩ := hq.complete hc hE
      refine ⟨c', bind_ok.mpr ⟨false, c, ?_, by simpa using hrun⟩, hK⟩
      rw [ht, hc.peek, if_neg]
      cases T with
      | nil => exact heof
      | cons t T => simpa using hP

/-- A reader that takes the next token, which has to be of this kind. -/
theorem behind {t : Parser Located} {P : Token → Prop} [DecidablePred P] (heof : ¬ P .eof)
    {e : Cursor → ParseError}
    (ht : ∀ c, t ctx c = if P c.peek.token then .ok c.peek c.next.2 else .error (e c) c)
    {p : Parser α} (hp : Denotes ctx p D) :
    Denotes ctx (t >>= fun _ => p) (Reading.behind P D) where
  sound {c T v c'} hc hrun := by
    obtain ⟨l, c1, hl, hrun⟩ := bind_ok.mp hrun
    rw [ht] at hl
    split at hl
    · rename_i hP
      obtain ⟨rfl, rfl⟩ := EStateM.Result.ok.inj hl
      rw [hc.peek] at hP
      cases T with
      | nil => exact absurd hP heof
      | cons t T =>
          obtain ⟨K, hK, hD⟩ := hp.sound hc.next hrun
          exact ⟨K, hK, t, T, rfl, hP, hD⟩
    · simp at hl
  complete {c T v K} hc h := by
    obtain ⟨t, T, rfl, hP, hD⟩ := h
    obtain ⟨c', hrun, hK⟩ := hp.complete hc.next hD
    refine ⟨c', bind_ok.mpr ⟨c.peek, c.next.2, ?_, hrun⟩, hK⟩
    rw [ht, hc.peek, if_pos (by simpa using hP)]

/-- A reader that takes the next token and goes on as the token says. -/
theorem next {k : Located → Parser α} {F : Token → Reading α}
    (hk : ∀ l, l.token.Proper → Denotes ctx (k l) (F l.token)) (heof : Fails (k .eof)) :
    Denotes ctx (Parser.next >>= k) fun T v K => ∃ t T', T = t :: T' ∧ F t T' v K where
  sound {c T v c'} hc hrun := by
    rw [bind_run (next_run ctx c)] at hrun
    cases T with
    | nil => exact absurd (hc.peek_nil ▸ hrun) (heof _ _ _ _)
    | cons t T =>
        have hpeek : c.peek.token = t := hc.peek
        obtain ⟨K, hK, hF⟩ := (hk c.peek (hpeek ▸ hc.proper t (by simp))).sound hc.next hrun
        exact ⟨K, hK, t, T, rfl, hpeek ▸ hF⟩
  complete {c T v K} hc h := by
    obtain ⟨t, T, rfl, hF⟩ := h
    have hpeek : c.peek.token = t := hc.peek
    obtain ⟨c', hrun, hK⟩ := (hk c.peek (hpeek ▸ hc.proper t (by simp))).complete hc.next
      (hpeek.symm ▸ hF)
    exact ⟨c', by rw [bind_run (next_run ctx c)]; exact hrun, hK⟩

/-- A reader that takes the next token, or puts it back for another reader. -/
theorem next_or_back {k : Located → Parser α} {F : Token → Reading α} {B : Token → Prop}
    {q : Parser α} (hk : ∀ l, l.token.Proper → ¬ B l.token → Denotes ctx (k l) (F l.token))
    (hback : ∀ l, B l.token → k l = (Parser.back >>= fun _ => q)) (hq : Denotes ctx q E)
    (heof : Fails (k .eof)) :
    Denotes ctx (Parser.next >>= k) fun T v K => ∃ t T', T = t :: T' ∧
      ((¬ B t ∧ F t T' v K) ∨ (B t ∧ E T v K)) where
  sound {c T v c'} hc hrun := by
    rw [bind_run (next_run ctx c)] at hrun
    cases T with
    | nil => exact absurd (hc.peek_nil ▸ hrun) (heof _ _ _ _)
    | cons t T =>
        have hpeek : c.peek.token = t := hc.peek
        -- a token that is put back is ahead again, and the second reader starts with it
        by_cases hB : B t
        · rw [hback _ (hpeek.symm ▸ hB), bind_run (back_ok (v := ()).mpr rfl)] at hrun
          obtain ⟨K, hK, hE⟩ := hq.sound hc.back hrun
          exact ⟨K, hK, t, T, rfl, .inr ⟨hB, hE⟩⟩
        · obtain ⟨K, hK, hF⟩ := (hk c.peek (hpeek ▸ hc.proper t (by simp))
            (hpeek.symm ▸ hB)).sound hc.next hrun
          exact ⟨K, hK, t, T, rfl, .inl ⟨hB, hpeek ▸ hF⟩⟩
  complete {c T v K} hc h := by
    obtain ⟨t, T, rfl, h⟩ := h
    have hpeek : c.peek.token = t := hc.peek
    rw [bind_run (next_run ctx c)]
    rcases h with ⟨hB, hF⟩ | ⟨hB, hE⟩
    · exact (hk c.peek (hpeek ▸ hc.proper t (by simp)) (hpeek.symm ▸ hB)).complete hc.next
        (hpeek.symm ▸ hF)
    · rw [hback _ (hpeek.symm ▸ hB), bind_run (back_ok (v := ()).mpr rfl)]
      exact hq.complete hc.back hE

/-! ### Keywords -/

theorem hasKeyword_iff {k : Keyword} {l : Located} :
    hasKeyword (some k) l = true ↔ l.token.keyword? = some k := by
  unfold hasKeyword Token.keyword?
  cases l.token <;> simp

/-- The keyword and one reading, or another reading where it is not there. -/
theorem keyword_test (k : Keyword) {p q : Parser α} (hp : Denotes ctx p D)
    (hq : Denotes ctx q E) :
    Denotes ctx (acceptKeyword k >>= fun b => if b then p else q)
      (Reading.test (·.keyword? = some k) D E) :=
  test (by simp [Token.keyword?])
    (fun c => by rw [acceptKeyword, acceptWord_run]; simp only [hasKeyword_iff]) hp hq

/-- The answer is whether the keyword was there, and only then is it taken. -/
theorem keyword (k : Keyword) : Denotes ctx (acceptKeyword k) (Reading.test (·.keyword? = some k)
    (fun T b K => b = true ∧ K = T) fun T b K => b = false ∧ K = T) :=
  (keyword_test k (pure true) (pure false)).of_run fun c => by
    simp only [Parser.bind_apply]
    rw [acceptKeyword, acceptWord_run]
    by_cases h : hasKeyword (some k) c.peek <;> simp [h] <;> rfl

/-- The keyword must be there. -/
theorem keyword_behind (k : Keyword) {p : Parser α} (hp : Denotes ctx p D) :
    Denotes ctx (expectKeyword k >>= fun _ => p) (Reading.behind (·.keyword? = some k) D) :=
  behind (e := fun c => .expected (Keyword.label (some k)) c.peek) (by simp [Token.keyword?])
    (fun c => by rw [expectKeyword, expectWord_run]; simp only [hasKeyword_iff]) hp

/-- A bare word with this spelling or another reading. -/
theorem spelling_test (spelling : String) {p q : Parser α} (hp : Denotes ctx p D)
    (hq : Denotes ctx q E) :
    Denotes ctx (acceptSpelling spelling >>= fun b => if b then p else q)
      (Reading.test (fun t => spelled spelling { token := t } = true) D E) :=
  test (by simp [spelled]) (fun c => acceptSpelling_run spelling ctx c) hp hq

/-- The keyword that is found is that of the token, if it was looked for. -/
theorem keywordOf_join {ks : List Keyword} {l : Located} {k : Keyword} :
    (keywordOf (ks.map some) l).join = some k ↔ l.token.keyword? = some k ∧ k ∈ ks := by
  unfold keywordOf Token.keyword?
  cases l.token with
  | word w =>
      dsimp only
      split
      · rename_i hmem
        constructor
        · intro h
          have hk : w.keyword = some k := by simpa using h
          exact ⟨hk, by simpa [hk] using hmem⟩
        · rintro ⟨h, -⟩
          simpa using h
      · rename_i hmem
        simp only [Option.join_none, reduceCtorEq, false_iff, not_and]
        rintro hk hks
        exact hmem (by simpa [hk] using hks)
  | _ => simp

/-- A reader that goes on as a keyword says, if one of these comes next. -/
theorem oneOf (ks : List Keyword) {f : Option Keyword → Parser α}
    {F : Option Keyword → Reading α} (hf : ∀ o, Denotes ctx (f o) (F o)) :
    Denotes ctx (acceptOneOf ks >>= f) (Reading.oneOf ks F) := by
  -- a keyword is found in the next token if and only if that token starts what is left
  have hpeek : ∀ {c : Cursor} {T : List Token} {k : Keyword}, c.Holds T →
      ((keywordOf (ks.map some) c.peek).join = some k ↔
        ∃ t T', T = t :: T' ∧ t.keyword? = some k ∧ k ∈ ks) := by
    intro c T k hc
    rw [keywordOf_join, hc.peek]
    cases T with
    | nil => simp [Token.keyword?]
    | cons t T => simp
  constructor
  · intro c T v c' hc hrun
    obtain ⟨o, c1, ho, hrun⟩ := bind_ok.mp hrun
    rw [acceptOneOf_run] at ho
    cases hk : (keywordOf (ks.map some) c.peek).join with
    | none =>
        rw [hk] at ho
        obtain ⟨rfl, rfl⟩ := EStateM.Result.ok.inj ho
        obtain ⟨K, hK, hF⟩ := (hf none).sound hc hrun
        refine ⟨K, hK, .inr ⟨fun t ht k hmem hkey => ?_, hF⟩⟩
        obtain ⟨T', rfl⟩ := List.head?_eq_some_iff.mp ht
        have := (hpeek hc).mpr ⟨t, T', rfl, hkey, hmem⟩
        simp [hk] at this
    | some k =>
        rw [hk] at ho
        obtain ⟨rfl, rfl⟩ := EStateM.Result.ok.inj ho
        obtain ⟨t, T', rfl, hkey, hmem⟩ := (hpeek hc).mp hk
        obtain ⟨K, hK, hF⟩ := (hf (some k)).sound hc.next hrun
        exact ⟨K, hK, .inl ⟨t, T', k, rfl, hkey, hmem, hF⟩⟩
  · rintro c T v K hc (⟨t, T', k, rfl, hkey, hmem, hF⟩ | ⟨hnone, hF⟩)
    · obtain ⟨c', hrun, hK⟩ := (hf (some k)).complete hc.next hF
      refine ⟨c', bind_ok.mpr ⟨some k, c.next.2, ?_, hrun⟩, hK⟩
      rw [acceptOneOf_run, (hpeek hc).mpr ⟨t, T', rfl, hkey, hmem⟩]
    · obtain ⟨c', hrun, hK⟩ := (hf none).complete hc hF
      refine ⟨c', bind_ok.mpr ⟨none, c, ?_, hrun⟩, hK⟩
      -- where none of the keywords is ahead none is found
      have hjoin : (keywordOf (ks.map some) c.peek).join = none := by
        by_contra h
        obtain ⟨k, hk⟩ := Option.ne_none_iff_exists'.mp h
        obtain ⟨t, T', rfl, hkey, hmem⟩ := (hpeek hc).mp hk
        exact hnone t rfl k hmem hkey
      rw [acceptOneOf_run, hjoin]

/-- A sign and one reading, or another reading where it is not there. -/
theorem accept_test (token : Token) (heof : token ≠ .eof) {p q : Parser α}
    (hp : Denotes ctx p D) (hq : Denotes ctx q E) :
    Denotes ctx (accept token >>= fun b => if b then p else q)
      (Reading.test (· = token) D E) :=
  test (fun h => heof h.symm) (fun c => accept_run token ctx c) hp hq

/-- The sign must be there. -/
theorem expect_behind (token : Token) (heof : token ≠ .eof) {p : Parser α}
    (hp : Denotes ctx p D) :
    Denotes ctx (expect token >>= fun _ => p) (Reading.behind (· = token) D) :=
  behind (fun h => heof h.symm) (fun c => expect_run token ctx c) hp

end Denotes

/-- What is left behind words with these keywords. -/
def dropWords : List Keyword → List Token → Option (List Token)
  | [], T => some T
  | _ :: _, [] => none
  | k :: ks, t :: T => if t.keyword? = some k then dropWords ks T else none

/-- Words are taken from the front. -/
theorem dropWords_suffix {ks : List Keyword} {T M : List Token} (h : dropWords ks T = some M) :
    M <:+ T := by
  induction ks generalizing T with
  | nil => exact Option.some.inj h ▸ List.suffix_refl T
  | cons k ks ih =>
      cases T with
      | nil => simp [dropWords] at h
      | cons t T =>
          by_cases hk : t.keyword? = some k
          · rw [dropWords, if_pos hk] at h
            exact (ih h).trans (List.suffix_cons t T)
          · simp [dropWords, hk] at h

/-- Two words are taken where the first two tokens have these keywords. -/
theorem dropWords_two {k k' : Keyword} {T M : List Token} :
    dropWords [k, k'] T = some M ↔
      ∃ t t', T = t :: t' :: M ∧ t.keyword? = some k ∧ t'.keyword? = some k' := by
  match T with
  | [] => simp [dropWords]
  | [t] => simp [dropWords]
  | t :: t' :: T =>
      by_cases hk : t.keyword? = some k <;> by_cases hk' : t'.keyword? = some k' <;>
        simp [dropWords, hk, hk']

/-- Words that are taken from a text are taken from its tokens without blanks. -/
theorem takeWords_solid (ks : List Keyword) {w : List Located} (hw : Clean w) :
    (takeWords (ks.map some) w).map (fun p => solidTokens p.2) = dropWords ks (solidTokens w) := by
  induction ks generalizing w with
  | nil => rfl
  | cons k ks ih =>
      cases w with
      | nil => rfl
      | cons t w =>
          have ht : t.isWhitespace = false := by simpa using hw
          have hsolid : solidTokens (t :: w) = t.token :: solidTokens w := by
            simp [solidTokens, ht]
          have hrec := ih (clean_dropWhile w)
          rw [solidTokens_dropWhile] at hrec
          rw [hsolid, List.map_cons, takeWords, dropWords, ← hrec]
          by_cases hk : t.token.keyword? = some k
          · simp [Denotes.hasKeyword_iff, hk, Function.comp_def]
          · simp [Denotes.hasKeyword_iff, hk]

namespace Denotes

variable {α β : Type} {ctx : Context} {D E : Reading α}

/-- Several keywords, which have to be there. -/
theorem keywords_test (ks : List Keyword) {p q : Parser α} (hp : Denotes ctx p D)
    (hq : Fails q) :
    Denotes ctx (acceptKeywords ks >>= fun b => if b then p else q)
      fun T v K => ∃ M, dropWords ks T = some M ∧ D M v K := by
  -- the words are taken, blanks and all, exactly where the tokens without blanks start with them
  have hrun : ∀ {c : Cursor} {T : List Token}, c.Holds T →
      match dropWords ks T with
      | some M => ∃ c1, acceptKeywords ks ctx c = .ok true c1 ∧ c1.Holds M
      | none => acceptKeywords ks ctx c = .ok false c := by
    intro c T hc
    have hwords := acceptWords_run (ks.map some) ctx (at_rest hc.overrun)
    have hsolid := takeWords_solid ks c.clean_rest
    rw [Cursor.rest, solidTokens_dropWhile, hc.tokens] at hsolid
    rw [Cursor.rest] at hwords
    cases htake : takeWords (ks.map some) (c.unread.dropWhile Located.isWhitespace) with
    | none =>
        rw [htake] at hwords
        rw [← hsolid, htake]
        exact hwords
    | some taken =>
        rw [htake] at hwords hsolid
        obtain ⟨c1, hrun, hat⟩ := hwords
        have hM : dropWords ks T = some (solidTokens taken.2) := hsolid.symm
        rw [hM]
        refine ⟨c1, hrun, hat.overrun, ?_,
          fun t ht => hc.proper t ((dropWords_suffix hM).mem ht)⟩
        rw [← solidTokens_dropWhile]
        exact congrArg solidTokens hat.rest
  constructor
  · intro c T v c' hc h
    obtain ⟨b, c1, hb, h⟩ := bind_ok.mp h
    have hwords := hrun hc
    cases hdrop : dropWords ks T with
    | none =>
        rw [hdrop] at hwords
        obtain ⟨rfl, rfl⟩ := EStateM.Result.ok.inj (hwords.symm.trans hb)
        exact absurd (by simpa using h) (hq _ _ _ _)
    | some M =>
        rw [hdrop] at hwords
        obtain ⟨c2, hb', hM⟩ := hwords
        obtain ⟨rfl, rfl⟩ := EStateM.Result.ok.inj (hb'.symm.trans hb)
        obtain ⟨K, hK, hD⟩ := hp.sound hM (by simpa using h)
        exact ⟨K, hK, M, rfl, hD⟩
  · rintro c T v K hc ⟨M, hM, hD⟩
    have hwords := hrun hc
    rw [hM] at hwords
    obtain ⟨c1, hb, hholds⟩ := hwords
    obtain ⟨c', h, hK⟩ := hp.complete hholds hD
    exact ⟨c', bind_ok.mpr ⟨true, c1, hb, by simpa using h⟩, hK⟩

/-! ### Loops and lists -/

/-- A loop denotes its step repeated until it gives nothing; its bound does not show, since every
    step takes a token. -/
theorem iterate {step : β → Parser (Option β)} {F : β → Reading (Option β)}
    (hstep : ∀ s, Denotes ctx (step s) (F s)) (hshort : Shortens step) (s : β) :
    Denotes ctx (Parser.iterate step s) (Loop F s) where
  sound {c T v c'} hc hrun := by
    -- since the bound is never met, the induction is on the rounds of the loop
    rw [iterate_ok hshort hc.overrun] at hrun
    induction hrun generalizing T with
    | done h =>
        obtain ⟨K, hK, hF⟩ := (hstep _).sound hc h
        exact ⟨K, hK, .done hF⟩
    | more h _ ih =>
        obtain ⟨M, hM, hF⟩ := (hstep _).sound hc h
        obtain ⟨K, hK, hloop⟩ := ih hM
        exact ⟨K, hK, .more hF hloop⟩
  complete {c T v K} hc h := by
    suffices hiter : ∃ c', Iterates step ctx s c v c' ∧ c'.Holds K by
      obtain ⟨c', hiter, hK⟩ := hiter
      exact ⟨c', (iterate_ok hshort hc.overrun).mpr hiter, hK⟩
    induction h generalizing c with
    | done hF =>
        obtain ⟨c', hrun, hK⟩ := (hstep _).complete hc hF
        exact ⟨c', .done hrun, hK⟩
    | more hF _ ih =>
        obtain ⟨c1, hrun, hM⟩ := (hstep _).complete hc hF
        obtain ⟨c', hiter, hK⟩ := ih hM
        exact ⟨c', .more hrun hiter, hK⟩

/-- The values are given in the order in which they were read. -/
theorem many {item : Parser (Option α)} {F : Reading (Option α)} (h : Denotes ctx item F)
    {R : Rel} (ho : Offers R (· ≠ none) item) : Denotes ctx (Parser.many item) (Many F) := by
  have hloop : Denotes ctx (Parser.iterate (fun items => (·.map (· :: items)) <$> item) [])
      (Loop F.collect []) :=
    iterate (fun items => h.map _ fun _ _ _ => Iff.rfl)
      (shortens_of fun items => ho.collect items) []
  refine hloop.map List.reverse fun T v K => ?_
  simp only [loop_collect]
  constructor
  · intro hmany
    exact ⟨v.reverse, ⟨v, hmany, by simp⟩, by simp⟩
  · rintro ⟨out, ⟨more, hmany, rfl⟩, rfl⟩
    simpa using hmany

/-- Items with commas between them; none may stand behind the last one. -/
theorem commaSeparatedWith {item : Parser α} (h : Denotes ctx item D)
    (hl : Local (Follow StatementEnd) item) :
    Denotes ctx (Parser.commaSeparatedWith false item) (Items D) := by
  -- the items behind the first, each with its comma
  have hmore : Denotes ctx
      (Parser.many do if ← acceptSeparator false then some <$> item else return none)
      (Many (Reading.test (· = .comma) (fun T o K => ∃ a, D T a K ∧ o = some a)
        fun T o K => o = none ∧ K = T)) :=
    many (test (by simp) (acceptSeparator_run false ctx) (h.map some fun _ _ _ => Iff.rfl)
      (pure none))
      (.item (.acceptSeparator false) hl)
  refine (h.bind fun first => hmore.map (first :: ·) fun _ _ _ => Iff.rfl).congr
    fun T v K hproper => ?_
  clear hproper
  constructor
  · rintro ⟨first, M, hfirst, rest, hrest, rfl⟩
    -- by induction on the items that were gathered: each of them is the first of those behind it
    induction hrest generalizing first T with
    | nil hnone =>
        rcases hnone with ⟨_, _, -, -, _, -, hcontra⟩ | ⟨hcomma, -, rfl⟩
        · simp at hcontra
        · exact .last hfirst fun hhead => hcomma _ hhead rfl
    | cons hsome _ ih =>
        rcases hsome with ⟨t, T', rfl, rfl, a, ha, heq⟩ | ⟨-, hcontra, -⟩
        · obtain rfl := Option.some.inj heq
          exact .more hfirst (ih _ _ ha)
        · simp at hcontra
  · intro hitems
    induction hitems with
    | last ha hK => exact ⟨_, _, ha, [], .nil (.inr ⟨fun t ht heq => hK (heq ▸ ht), rfl, rfl⟩), rfl⟩
    | more ha _ ih =>
        obtain ⟨first, M, hfirst, rest, hrest, rfl⟩ := ih
        exact ⟨_, _, ha, first :: rest,
          .cons (.inl ⟨_, _, rfl, rfl, first, hfirst, rfl⟩) hrest, rfl⟩

/-- A reading between parentheses, which are not part of its value. -/
theorem parenthesized {inner : Parser α} (h : Denotes ctx inner D) :
    Denotes ctx (Parser.parenthesized inner) fun T v K =>
      ∃ M, T = .lparen :: M ∧ D M v (.rparen :: K) := by
  refine (expect_behind .lparen (by simp) (h.bind fun v =>
    expect_behind .rparen (by simp) (pure v))).congr fun T v K _ => ?_
  constructor
  · rintro ⟨t, M, rfl, rfl, v, M', hD, t, K, rfl, rfl, rfl, rfl⟩
    exact ⟨M, rfl, hD⟩
  · rintro ⟨M, rfl, hD⟩
    exact ⟨.lparen, M, rfl, rfl, v, _, hD, .rparen, K, rfl, rfl, rfl, rfl⟩

section

variable (htrailing : ctx.options.trailingCommas = false) {item : Parser α}
  (h : Denotes ctx item D) (hl : Local (Follow StatementEnd) item)

include htrailing h hl

/-- Items and the commas between them, where no comma may end a list. -/
theorem commaSeparated : Denotes ctx (Parser.commaSeparated item) (Items D) :=
  (commaSeparatedWith h hl).of_run fun c => by
    rw [Parser.commaSeparated, bind_run (read_ok.mpr ⟨rfl, rfl⟩), htrailing]

/-- Items up to a closing token, of which there may be none. -/
theorem commaSeparatedUntil {close : Token} (hclose : close ≠ .eof) :
    Denotes ctx (Parser.commaSeparatedUntil close item) fun T items K =>
      (T.head? = some close ∧ items = [] ∧ K = T) ∨ (T.head? ≠ some close ∧ Items D T items K) := by
  -- without trailing commas the list is empty only if the closing token is next
  have hrun : ∀ {c : Cursor} {T : List Token}, c.Holds T →
      Parser.commaSeparatedUntil close item ctx c =
        if T.head? = some close then .ok [] c else Parser.commaSeparated item ctx c := by
    intro c T hc
    have hpeek : c.peek.token = close ↔ T.head? = some close := by
      rw [hc.peek]
      cases T with
      | nil => simpa using hclose.symm
      | cons t T => simp
    rw [Parser.commaSeparatedUntil, bind_run (peek_ok.mpr ⟨rfl, rfl⟩)]
    by_cases hhead : T.head? = some close
    · rw [if_pos (hpeek.mpr hhead), if_pos hhead]
      rfl
    · rw [if_neg (mt hpeek.mp hhead), if_neg hhead, bind_run (read_ok.mpr ⟨rfl, rfl⟩),
        bind_run (get_ok.mpr ⟨rfl, rfl⟩), htrailing]
      simp
  have hitems := commaSeparated htrailing h hl
  constructor
  · intro c T v c' hc hok
    rw [hrun hc] at hok
    split at hok
    · rename_i hhead
      obtain ⟨rfl, rfl⟩ := EStateM.Result.ok.inj hok
      exact ⟨T, hc, .inl ⟨hhead, rfl, rfl⟩⟩
    · rename_i hhead
      obtain ⟨K, hK, hD⟩ := hitems.sound hc hok
      exact ⟨K, hK, .inr ⟨hhead, hD⟩⟩
  · rintro c T v K hc (⟨hhead, rfl, rfl⟩ | ⟨hhead, hD⟩)
    · exact ⟨c, by rw [hrun hc, if_pos hhead], hc⟩
    · obtain ⟨c', hok, hK⟩ := hitems.complete hc hD
      exact ⟨c', by rw [hrun hc, if_neg hhead, hok], hK⟩

end

end Denotes

end SchemaSql
