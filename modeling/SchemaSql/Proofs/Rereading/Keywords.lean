import SchemaSql.Proofs.Rereading.Echoes

/-! # Echoes of single tokens and keywords

    A keyword is printed in capitals, a sign as it is.  A reader that looks for one and does not
    find it does not find it in the print either, since what stands there looks the same. -/

namespace SchemaSql

open Cursor SchemaSql.Parser

variable {α β : Type} {ctx : Context} {T T' K N N' : List Token} {t : Token} {n : Nat}
  {k : Keyword} {ks : List Keyword}

theorem Token.IsSign.isWord {s : Token} (hs : s.IsSign) : s.isWord = false := by
  cases s <;> first | rfl | exact hs.elim

/-- The same token stands in front of both lists. -/
def Facing (t : Token) : TokenRel := fun T T' => ∃ U U', T = t :: U ∧ T' = t :: U'

/-- Two places in front of the same sign look alike to every reader. -/
theorem Facing.shadows {s : Token} (hs : s.IsSign) (h : Facing s T T') : Shadows n T T' := by
  obtain ⟨U, U', rfl, rfl⟩ := h
  exact .sign hs.isWord

/-! ## Words with a keyword -/

/-- A word that is read back has its keyword only without quotes. -/
theorem Token.Lucid.bareKeyword? {d : Dialect} {u : Bool} (h : t.Lucid d u)
    (hk : t.keyword? = some k) : t.bareKeyword? = some k := by
  cases t with
  | word w =>
      have hw := h.proper w rfl
      cases hq : w.quote with
      | none =>
          rw [Token.bareKeyword?, hq]
          exact hk
      | some q =>
          rw [Token.keyword?, hw, hq] at hk
          simp [Word.of] at hk
  | _ => cases hk

theorem Token.keyword?_of_bare (h : t.bareKeyword? = some k) : t.keyword? = some k := by
  rw [← keyword?_role, role_ofKeyword h, keyword?_role]
  exact Expr.keyword?_ofKeyword k

/-- A word of the text is seen as the keyword that the printer writes for it. -/
theorem Token.Lucid.role_keyword {d : Dialect} {u : Bool} (h : t.Lucid d u)
    (hk : t.keyword? = some k) : t.role = (Token.ofKeyword k).role :=
  Token.role_ofKeyword (h.bareKeyword? hk)

/-- What is still to be read of a text is read back, token by token. -/
theorem Context.Source.coming {c : Cursor} (h : ctx.Source c.rest) :
    ∀ t ∈ c.coming, t.Lucid ctx.dialect ctx.options.unescape := by
  intro t ht
  obtain ⟨hmem, hblank⟩ := List.mem_filter.mp ht
  obtain ⟨l, hl, rfl⟩ := List.mem_map.mp hmem
  have hl' : l.token.isWhitespace = false := by simpa using hblank
  exact h.lucid l hl hl'

/-- A list whose solid tokens start with `t` starts with blanks around `t`. -/
theorem solid_split {S : List Token} (h : solid N = t :: S) :
    ∃ N₁ N₂, N = N₁ ++ N₂ ∧ solid N₁ = [t] ∧ solid N₂ = S := by
  induction N with
  | nil => simp at h
  | cons x N ih =>
      cases hx : x.isWhitespace with
      | true =>
          obtain ⟨N₁, N₂, rfl, h₁, h₂⟩ := ih (by simpa [hx] using h)
          exact ⟨x :: N₁, N₂, rfl, by simpa [hx] using h₁, h₂⟩
      | false =>
          obtain ⟨rfl, hS⟩ : x = t ∧ solid N = S := by simpa [hx] using h
          exact ⟨[x], N, rfl, by simp [hx], hS⟩

/-- Blanks alone leave what stands behind them. -/
theorem Cursor.Faces.of_blanks {d : Cursor} (h : d.Faces (N ++ K)) (hN : solid N = []) :
    d.Faces K := by
  refine ⟨h.overrun, ?_⟩
  have hblank : ∀ t ∈ N, t.isWhitespace = true := by simpa [solid] using hN
  rw [h.rest, List.dropWhile_append_of_pos hblank]

/-! ## Readers that look at one token -/

/-- What is done with a token that was taken does not change what is looked at. -/
theorem Looks.map {p : Parser α} {take : Located → Option α} {pass : Option α}
    (h : Looks p take pass) (g : α → β) :
    Looks (g <$> p) (fun l => (take l).map g) (pass.map g) := by
  intro ctx c v c'
  rw [map_ok]
  constructor
  · rintro ⟨a, ha, rfl⟩
    rcases (h ctx c a c').mp ha with ⟨ht, hc⟩ | ⟨ht, hpass, hc⟩
    · exact .inl ⟨by simp [ht], hc⟩
    · exact .inr ⟨by simp [ht], by simp [hpass], hc⟩
  · rintro (⟨ht, hc⟩ | ⟨ht, hpass, hc⟩)
    · obtain ⟨a, ha, rfl⟩ := Option.map_eq_some_iff.mp ht
      exact ⟨a, (h ctx c a c').mpr (.inl ⟨ha, hc⟩), rfl⟩
    · obtain ⟨a, ha, rfl⟩ := Option.map_eq_some_iff.mp hpass
      exact ⟨a, (h ctx c a c').mpr (.inr ⟨Option.map_eq_none_iff.mp ht, ha, hc⟩), rfl⟩

namespace Echoes

variable {p q : Parser α} {F : α → List Token → Prop} {R : α → TokenRel} {S : TokenRel}

/-- A reader that takes a token with the value that it has for the printed one, or passes. -/
theorem looks {take : Located → Option α} {pass : Option α} (h : Looks p take pass)
    (heof : take .eof = none) (W : α → List Token) {Q : TokenRel}
    (htake : ∀ l v, l.token.Lucid ctx.dialect ctx.options.unescape → take l = some v →
      pass ≠ some v ∧ ∃ t, solid (W v) = [t] ∧ (∀ l', l'.token = t → take l' = some v) ∧
        ∀ T T', Q T T' → S (l.token :: T) (t :: T'))
    (hpass : ∀ T T' l l', S T T' → frontOf T = l.token → frontOf T' = l'.token →
      take l = none → take l' = none) :
    Echoes ctx p
      (fun v P => (pass = some v ∧ P = []) ∨ (pass ≠ some v ∧ P = W v ∧ ∃ l, take l = some v))
      (fun v T T' => (pass = some v → S T T') ∧ (pass ≠ some v → Q T T')) S := by
  intro c v c' hoverrun hsource hrun
  -- either the reader takes the next token or it passes over it
  rcases (h ctx c v c').mp hrun with ⟨hv, rfl⟩ | ⟨hnone, hv, rfl⟩
  · cases hc : c.rest with
    | nil =>
        rw [peek_eq, hc] at hv
        exact absurd (heof.symm.trans hv) (by simp)
    | cons l w =>
        obtain ⟨hl, hoverrun1, hrest1, hahead1⟩ := next_of_cons hoverrun hc
        rw [← next_fst, hl] at hv
        -- the token taken is one of the source, so its print is read as the same token
        have hlucid := hsource.lucid l (by simp [hc]) (c.clean_rest l (by simp [hc]))
        obtain ⟨hne, t, ht, hsame, hahead⟩ := htake l v hlucid hv
        refine ⟨hoverrun1, ?_, W v, .inr ⟨hne, rfl, l, hv⟩, fun K hK => ⟨?_, fun d hd => ?_⟩⟩
        · rw [hrest1]
          exact (List.dropWhile_suffix _).trans (List.suffix_cons l w)
        · rw [coming_of_cons hc, solid_append, ht, ← hahead1]
          exact hahead _ _ (hK.2 hne)
        · obtain ⟨hpeek, hfaces⟩ := hd.next ht
          exact ⟨d.next.2, (h ctx d v _).mpr (.inl ⟨hsame d.peek hpeek, rfl⟩), hfaces⟩
  · refine ⟨hoverrun, List.suffix_refl _, [], .inl ⟨hv, rfl⟩, fun K hK => ⟨hK.1 hv, fun d hd =>
      ⟨d, (h ctx d v d).mpr (.inr ⟨?_, hv, rfl⟩), hd⟩⟩⟩
    have hahead : d.coming = solid K := hd.coming
    exact hpass _ _ c'.peek d.peek (hK.1 hv) (frontOf_coming c') (by rw [← hahead, frontOf_coming])
      hnone

/-- The role of a token decides whether it is taken. -/
theorem of_looks {take : Located → Option α} {pass : Option α} (h : Looks p take pass)
    (heof : take .eof = none) (W : α → List Token) {Q : TokenRel}
    (htake : ∀ l v, l.token.Lucid ctx.dialect ctx.options.unescape → take l = some v →
      pass ≠ some v ∧ ∃ t, solid (W v) = [t] ∧ (∀ l', l'.token = t → take l' = some v) ∧
        ∀ T T', Q T T' → S (l.token :: T) (t :: T'))
    (hpass : ∀ l l', l.token.role = l'.token.role → take l = none → take l' = none)
    (hS : ∀ T T', S T T' → Shadows 1 T T') :
    Echoes ctx p
      (fun v P => (pass = some v ∧ P = []) ∨ (pass ≠ some v ∧ P = W v ∧ ∃ l, take l = some v))
      (fun v T T' => (pass = some v → S T T') ∧ (pass ≠ some v → Q T T')) S := by
  refine looks h heof W htake fun T T' l l' hT hl hl' => hpass l l' ?_
  rw [← hl, ← hl']
  exact (hS T T' hT).front

/-! ### Signs -/

section

variable {s : Token} (hs : s.IsSign) (hN : solid N = [s])

include hs hN

/-- A sign that may stand next, where it does not stand in the print alone. -/
theorem accept_of (hfacing : ∀ T T', S (s :: T) (s :: T'))
    (hS : ∀ T T', S T T' → frontOf T' = s → frontOf T = s) :
    Echoes ctx (Parser.accept s) (fun b P => P = if b then N else [])
      (fun b => if b then Anything else S) S := by
  have hne : s ≠ .eof := by
    rintro rfl
    exact hs
  refine (looks (W := fun _ => N) (Q := Anything) (S := S) (accept_looks s)
    (if_neg fun h => hne h.symm) (fun l v _ hv => ?_) (fun T T' l l' hT hl hl' hnone => ?_)).mono
    (fun b P h => ?_) (fun b T T' h => ?_) fun _ _ h => h
  · split at hv
    · next hl =>
      obtain rfl := Option.some.inj hv
      exact ⟨by simp, s, hN, fun l' hl' => if_pos hl', fun T T' _ => hl ▸ hfacing T T'⟩
    · cases hv
  · rw [if_neg]
    have hne : l.token ≠ s := fun h => by simp [h] at hnone
    exact fun h => hne (hl ▸ hS T T' hT (hl'.trans h))
  · cases b <;> simp_all
  · cases b <;> simp_all

/-- A sign that may stand next. -/
theorem accept : Echoes ctx (Parser.accept s) (fun b P => P = if b then N else [])
    (fun b => if b then Anything else Shadows (n + 1)) (Shadows (n + 1)) :=
  accept_of hs hN (fun _ _ => .sign hs.isWord) fun T T' h hfront =>
    (Token.eq_sign_of_role (h.mono (by omega) : Shadows 1 T T').front hs).mpr hfront

/-- A test for a sign. -/
theorem accept_test (hp : Echoes ctx p (fun v P => F v (N ++ P)) R Anything)
    (hq : Echoes ctx q F R (Shadows (n + 1))) :
    Echoes ctx (Parser.accept s >>= fun b => if b then p else q) F R (Shadows (n + 1)) := by
  refine (accept hs hN).bind fun b P hP => ?_
  subst hP
  cases b with
  | true => exact hp
  | false => exact hq

/-- A sign that has to stand next, in front of what is related in its own way. -/
theorem expect_of {Q : TokenRel} (hfacing : ∀ T T', Q T T' → S (s :: T) (s :: T'))
    (hS : ∀ T T', S T T' → Shadows 1 T T') :
    Echoes ctx ((fun _ => ()) <$> Parser.expect s) (fun _ P => P = N) (fun _ => Q) S := by
  have hne : s ≠ .eof := by
    rintro rfl
    exact hs
  refine (of_looks (W := fun _ => N) (Q := Q) (S := S)
    ((expect_looks s).map fun _ => ()) (by simp [Located.eof, hne.symm]) (fun l v _ hv => ?_)
    (fun l l' hrole hnone => ?_) hS).mono
    (fun _ P h => by simp_all) (fun _ T T' h => by simpa using h) fun _ _ h => h
  · by_cases hl : l.token = s
    · exact ⟨by simp, s, hN, fun l' hl' => by simp [hl'], fun T T' h => hl ▸ hfacing T T' h⟩
    · simp [hl] at hv
  · have hl : l.token ≠ s := fun h => by simp [h] at hnone
    have hl' : l'.token ≠ s := fun h => hl ((Token.eq_sign_of_role hrole hs).mpr h)
    simp [hl']

/-- A sign that has to stand next. -/
theorem expect : Echoes ctx ((fun _ => ()) <$> Parser.expect s) (fun _ P => P = N)
    (fun _ => Anything) (Facing s) :=
  expect_of hs hN (fun T T' _ => ⟨T, T', rfl, rfl⟩) fun _ _ h => h.shadows hs

end

/-- A reader behind one whose value it does not use. -/
theorem after {p : Parser β} {Q : TokenRel}
    (hp : Echoes ctx ((fun _ => ()) <$> p) (fun _ P => P = N) (fun _ => Q) S)
    (hq : Echoes ctx q (fun v P => F v (N ++ P)) R Q) :
    Echoes ctx (p >>= fun _ => q) F R S := by
  have hbind : (p >>= fun _ => q) = ((fun _ => ()) <$> p) >>= fun _ => q := by simp
  rw [hbind]
  refine hp.bind fun _ P hP => ?_
  subst hP
  exact hq

/-- A reader behind a sign. -/
theorem expect_behind {s : Token} (hs : s.IsSign) (hN : solid N = [s])
    (hq : Echoes ctx q (fun v P => F v (N ++ P)) R Anything) :
    Echoes ctx (Parser.expect s >>= fun _ => q) F R (Shadows n) :=
  (after (expect hs hN) hq).front fun _ _ h => h.shadows hs

/-- A token that may be missing is printed. -/
theorem added {p : Parser β} {γ : Type} {take : Located → Option β} {pass : Option β}
    (h : Looks p take pass) (heof : take .eof = none) (hN : solid N = [t])
    (ht : ∀ l : Located, l.token = t → take l ≠ none) {q : Parser γ} {F : γ → List Token → Prop}
    {R : γ → TokenRel} (hq : Echoes ctx q (fun v P => F v (N ++ P)) R S) :
    Echoes ctx (p >>= fun _ => q) F R Anything := by
  intro c v c' hoverrun hsource hrun
  obtain ⟨b, c1, hb, hrun⟩ := bind_ok.mp hrun
  obtain ⟨hoverrun1, hrest1⟩ : c1.overrun = 0 ∧ c1.rest <:+ c.rest := by
    rcases (h ctx c b c1).mp hb with ⟨hv, rfl⟩ | ⟨-, -, rfl⟩
    · cases hc : c.rest with
      | nil =>
          rw [peek_eq, hc] at hv
          exact nomatch heof.symm.trans hv
      | cons l w =>
          obtain ⟨-, hoverrun1, hrest1, -⟩ := next_of_cons hoverrun hc
          refine ⟨hoverrun1, ?_⟩
          rw [hrest1]
          exact (List.dropWhile_suffix _).trans (List.suffix_cons l w)
    · exact ⟨hoverrun, List.suffix_refl _⟩
  obtain ⟨hoverrun', hrest, P, hP, hreplay⟩ :=
    hq c1 v c' hoverrun1 (hsource.mono hrest1.isInfix) hrun
  refine ⟨hoverrun', hrest.trans hrest1, N ++ P, hP, fun K hK => ⟨trivial, fun d hd => ?_⟩⟩
  rw [List.append_assoc] at hd
  obtain ⟨hpeek, hfaces⟩ := hd.next hN
  obtain ⟨b', hb'⟩ := Option.ne_none_iff_exists'.mp (ht d.peek hpeek)
  obtain ⟨d', hd', hfaces'⟩ := (hreplay K hK).2 d.next.2 hfaces
  exact ⟨d', bind_ok.mpr ⟨b', d.next.2, (h ctx d b' _).mpr (.inl ⟨hb', rfl⟩), hd'⟩, hfaces'⟩

/-! ### Keywords -/

/-- A keyword that is ahead in the print was ahead in the text. -/
theorem keyword_of_shadows (h : Shadows (n + 1) T T') :
    (frontOf T').keyword? = some k → (frontOf T).keyword? = some k := by
  rw [Token.keyword?_of_role h.front]
  exact id

section

variable (hN : solid N = [.ofKeyword k])

include hN

/-- A keyword that may stand next, where it does not stand in the print alone. -/
theorem acceptKeyword_of {Q : TokenRel}
    (htaken : ∀ t T T', t.Lucid ctx.dialect ctx.options.unescape → t.keyword? = some k →
      Q T T' → S (t :: T) (.ofKeyword k :: T'))
    (hS : ∀ T T', S T T' → (frontOf T').keyword? = some k → (frontOf T).keyword? = some k) :
    Echoes ctx (Parser.acceptKeyword k) (fun b P => P = if b then N else [])
      (fun b => if b then Q else S) S := by
  refine (looks (W := fun _ => N) (Q := Q) (S := S) (acceptWord_looks (some k)) rfl
    (fun l v hl hv => ?_) (fun T T' l l' hT hl hl' hnone => ?_)).mono (fun b P h => ?_)
    (fun b T T' h => ?_) fun _ _ h => h
  -- the word is taken: whatever its spelling, its print is the keyword itself
  · split at hv
    · next hk =>
      obtain rfl := Option.some.inj hv
      refine ⟨by simp, _, hN, fun l' hl' => if_pos ?_, fun T T' h =>
        htaken _ _ _ hl (Denotes.hasKeyword_iff.mp hk) h⟩
      rw [Denotes.hasKeyword_iff, hl']
      exact Expr.keyword?_ofKeyword k
    · cases hv
  -- it is passed over: the printed text has no such keyword in front either
  · have hk : l.token.keyword? ≠ some k := fun h => by
      simp [Denotes.hasKeyword_iff.mpr h] at hnone
    refine if_neg fun hk' => hk (hl ▸ hS T T' hT ?_)
    rw [hl']
    exact Denotes.hasKeyword_iff.mp hk'
  · cases b <;> simp_all
  · cases b <;> simp_all

/-- A keyword that may stand next. -/
theorem acceptKeyword : Echoes ctx (Parser.acceptKeyword k) (fun b P => P = if b then N else [])
    (fun b => if b then Shadows n else Shadows (n + 1)) (Shadows (n + 1)) :=
  acceptKeyword_of hN (fun _ _ _ ht hk h => .cons (ht.role_keyword hk) h)
    fun _ _ => keyword_of_shadows

/-- A test for a keyword that does not stand in the print alone. -/
theorem keyword_test_of {Q : TokenRel}
    (htaken : ∀ t T T', t.Lucid ctx.dialect ctx.options.unescape → t.keyword? = some k →
      Q T T' → S (t :: T) (.ofKeyword k :: T'))
    (hS : ∀ T T', S T T' → (frontOf T').keyword? = some k → (frontOf T).keyword? = some k)
    (hp : Echoes ctx p (fun v P => F v (N ++ P)) R Q) (hq : Echoes ctx q F R S) :
    Echoes ctx (Parser.acceptKeyword k >>= fun b => if b then p else q) F R S := by
  refine (acceptKeyword_of hN htaken hS).bind fun b P hP => ?_
  subst hP
  cases b with
  | true => exact hp
  | false => exact hq

/-- A test for a keyword. -/
theorem keyword_test (hp : Echoes ctx p (fun v P => F v (N ++ P)) R (Shadows n))
    (hq : Echoes ctx q F R (Shadows (n + 1))) :
    Echoes ctx (Parser.acceptKeyword k >>= fun b => if b then p else q) F R
      (Shadows (n + 1)) :=
  keyword_test_of hN (fun _ _ _ ht hk h => .cons (ht.role_keyword hk) h)
    (fun _ _ => keyword_of_shadows) hp hq

/-- A keyword that has to stand next, in front of what is related in its own way. -/
theorem expectKeyword_of {Q : TokenRel}
    (htaken : ∀ t T T', t.Lucid ctx.dialect ctx.options.unescape → t.keyword? = some k →
      Q T T' → S (t :: T) (.ofKeyword k :: T'))
    (hS : ∀ T T', S T T' → Shadows 1 T T') :
    Echoes ctx ((fun _ => ()) <$> Parser.expectKeyword k) (fun _ P => P = N) (fun _ => Q) S := by
  refine (of_looks (W := fun _ => N) (Q := Q) (S := S)
    ((expectWord_looks (some k)).map fun _ => ()) rfl (fun l v hl hv => ?_)
    (fun l l' hrole hnone => ?_) hS).mono
    (fun _ P h => by simp_all) (fun _ T T' h => by simpa using h) fun _ _ h => h
  · by_cases hk : hasKeyword (some k) l = true
    · have hword := Denotes.hasKeyword_iff.mp hk
      refine ⟨by simp, _, hN, fun l' hl' => ?_, fun T T' => htaken _ _ _ hl hword⟩
      have hl'' : hasKeyword (some k) l' = true := by
        rw [Denotes.hasKeyword_iff, hl']
        exact Expr.keyword?_ofKeyword k
      simp [hl'']
    · simp [hk] at hv
  · have hl : ¬ hasKeyword (some k) l = true := fun h => by simp [h] at hnone
    rw [Denotes.hasKeyword_iff, Token.keyword?_of_role hrole, ← Denotes.hasKeyword_iff] at hl
    simp [hl]

/-- A keyword that has to stand next. -/
theorem expectKeyword : Echoes ctx ((fun _ => ()) <$> Parser.expectKeyword k) (fun _ P => P = N)
    (fun _ => Shadows n) (Shadows (n + 1)) :=
  expectKeyword_of hN (fun _ _ _ ht hk h => .cons (ht.role_keyword hk) h)
    fun _ _ h => h.mono (by omega)

/-- A reader behind a keyword. -/
theorem keyword_behind (hq : Echoes ctx q (fun v P => F v (N ++ P)) R (Shadows n)) :
    Echoes ctx (Parser.expectKeyword k >>= fun _ => q) F R (Shadows (n + 1)) :=
  after (expectKeyword hN) hq

end

/-- A word that is known by its spelling. -/
theorem acceptSpelling {s : String} {Q : TokenRel} (hN : solid N = [t])
    (ht : spelled s { token := t } = true)
    (htaken : ∀ t' T T', spelled s { token := t' } = true → Q T T' → S (t' :: T) (t :: T'))
    (hS : ∀ T T', S T T' → spelled s { token := frontOf T' } = true →
      spelled s { token := frontOf T } = true) :
    Echoes ctx (Parser.acceptSpelling s) (fun b P => P = if b then N else [])
      (fun b => if b then Q else S) S := by
  refine (looks (W := fun _ => N) (Q := Q) (S := S) (acceptSpelling_looks s) rfl
    (fun l v hl hv => ?_) (fun T T' l l' hT hl hl' hnone => ?_)).mono (fun b P h => ?_)
    (fun b T T' h => ?_) fun _ _ h => h
  · split at hv
    · next hspelled =>
      obtain rfl := Option.some.inj hv
      refine ⟨by simp, t, hN, fun l' hl' => if_pos ?_, fun T T' h => htaken _ _ _ hspelled h⟩
      rw [spelled, hl']
      exact ht
    · cases hv
  · refine if_neg fun hspelled => ?_
    have hfront : spelled s { token := frontOf T } = true := hS T T' hT (by rwa [hl'])
    rw [hl] at hfront
    have hfound : spelled s l = true := hfront
    simp [hfound] at hnone
  · cases b <;> simp_all
  · cases b <;> simp_all

/-! ### One of several keywords -/

section

variable {W : Keyword → List Token} (hW : ∀ k ∈ ks, solid (W k) = [.ofKeyword k])

include hW

/-- A keyword that was read is one of those that were looked for, and is printed as itself. -/
theorem oneOf_taken {l : Located} (hl : l.token.Lucid ctx.dialect ctx.options.unescape)
    (hk : (keywordOf (ks.map some) l).join = some k) : k ∈ ks ∧ ∃ t, solid (W k) = [t] ∧
      (∀ l' : Located, l'.token = t → (keywordOf (ks.map some) l').join = some k) ∧
        ∀ T T', Shadows n T T' → Shadows (n + 1) (l.token :: T) (t :: T') := by
  obtain ⟨hword, hmem⟩ := Denotes.keywordOf_join.mp hk
  refine ⟨hmem, _, hW k hmem, fun l' hl' => ?_, fun T T' h => .cons (hl.role_keyword hword) h⟩
  rw [Denotes.keywordOf_join, hl']
  exact ⟨Expr.keyword?_ofKeyword k, hmem⟩

omit hW in
/-- Where the text has none of the keywords, a token that looks alike has none. -/
theorem oneOf_passed {l l' : Located} (hrole : l.token.role = l'.token.role)
    (hnone : (keywordOf (ks.map some) l).join = none) :
    (keywordOf (ks.map some) l').join = none := by
  rw [Option.eq_none_iff_forall_ne_some] at hnone ⊢
  intro k hk
  rw [Denotes.keywordOf_join, ← Token.keyword?_of_role hrole] at hk
  exact hnone k (Denotes.keywordOf_join.mpr hk)

/-- One of several keywords that may stand next. -/
theorem acceptOneOf : Echoes ctx (Parser.acceptOneOf ks)
    (fun o P => P = o.elim [] W ∧ ∀ k, o = some k → k ∈ ks)
    (fun o => if o.isSome then Shadows n else Shadows (n + 1)) (Shadows (n + 1)) := by
  refine (of_looks (W := fun o => o.elim [] W) (Q := Shadows n) (S := Shadows (n + 1))
    (acceptOneOf_looks ks) rfl (fun l o hl ho => ?_) (fun l l' hrole hnone => ?_)
    fun T T' h => h.mono (by omega)).mono (fun o P h => ?_) (fun o T T' h => ?_) fun _ _ h => h
  · obtain ⟨k, hk, rfl⟩ := Option.map_eq_some_iff.mp ho
    obtain ⟨-, t, ht, hsame, hahead⟩ := oneOf_taken (n := n) hW hl hk
    exact ⟨by simp, t, ht, fun l' hl' => by simp [hsame l' hl'], hahead⟩
  · rw [Option.map_eq_none_iff] at hnone ⊢
    exact oneOf_passed hrole hnone
  · rcases h with ⟨ho, rfl⟩ | ⟨ho, rfl, l, hl⟩
    · obtain rfl := Option.some.inj ho
      exact ⟨rfl, nofun⟩
    · refine ⟨rfl, ?_⟩
      rintro k rfl
      obtain ⟨k', hk', heq⟩ := Option.map_eq_some_iff.mp hl
      obtain rfl := Option.some.inj heq
      exact (Denotes.keywordOf_join.mp hk').2
  · cases o <;> simp_all

/-- One of several keywords that has to stand next. -/
theorem expectOneOf : Echoes ctx (Parser.expectOneOf ks) (fun k P => P = W k ∧ k ∈ ks)
    (fun _ => Shadows n) (Shadows (n + 1)) := by
  refine (of_looks (W := W) (Q := Shadows n) (S := Shadows (n + 1)) (expectOneOf_looks ks) rfl
    (fun l k hl hk => ?_) (fun l l' hrole hnone => oneOf_passed hrole hnone)
    fun T T' h => h.mono (by omega)).mono (fun k P h => ?_) (fun k T T' h => by simpa using h)
    fun _ _ h => h
  · obtain ⟨-, t, ht, hsame, hahead⟩ := oneOf_taken (n := n) hW hl hk
    exact ⟨by simp, t, ht, hsame, hahead⟩
  · obtain ⟨-, rfl, l, hl⟩ : none ≠ some k ∧ P = W k ∧ _ := by simpa using h
    exact ⟨rfl, (Denotes.keywordOf_join.mp hl).2⟩

end

/-! ### Several keywords in a row -/

/-- Keywords that have to stand next. -/
theorem expectKeywords (hN : solid N = ks.map Token.ofKeyword) :
    Echoes ctx (Parser.expectKeywords ks) (fun _ P => P = N) (fun _ => Shadows n)
      (Shadows (n + ks.length)) := by
  induction ks generalizing N with
  | nil =>
      have hblank : ∀ t ∈ N, t.isWhitespace = true := by simpa [solid] using hN
      have hpure : Echoes ctx (Pure.pure ()) (fun _ P => P = []) (fun _ => Shadows n)
          (Shadows n) := pure rfl fun _ _ h => h
      refine (hpure.pad (fun _ => N) fun _ => hblank).print ?_
      rintro _ P ⟨P', hP, rfl⟩
      simp [hP]
  | cons k ks ih =>
      obtain ⟨N₁, N₂, rfl, hk, hks⟩ := solid_split hN
      exact (expectKeyword hk).bind fun _ P hP => hP ▸ (ih hks).print fun _ P' hP' => by rw [hP']

/-- The keywords at the start of what is ahead. -/
theorem acceptKeywords_coming (ctx : Context) (ks : List Keyword) {c : Cursor}
    (hc : c.overrun = 0) :
    match dropWords ks c.coming with
    | some M => ∃ c', Parser.acceptKeywords ks ctx c = .ok true c' ∧ c'.overrun = 0 ∧
        c'.rest <:+ c.rest ∧ c'.coming = M
    | none => Parser.acceptKeywords ks ctx c = .ok false c := by
  have hwords := acceptWords_run (ks.map some) ctx (at_rest hc)
  have hsolid := takeWords_solid ks c.clean_rest
  rw [solidTokens_eq] at hsolid
  rw [coming, ← hsolid]
  cases htake : takeWords (ks.map some) c.rest with
  | none =>
      rw [htake] at hwords
      exact hwords
  | some taken =>
      rw [htake] at hwords
      obtain ⟨c', hrun, hat⟩ := hwords
      -- the words taken are a beginning of what is left
      obtain ⟨-, used, hused, -⟩ := takeWords_split c.clean_rest htake
      refine ⟨c', hrun, hat.overrun, ?_, ?_⟩
      · rw [hat.rest, hused]
        exact List.suffix_append _ _
      · rw [coming, hat.rest, ← solidTokens_eq]

/-- Printed keywords are taken. -/
theorem acceptKeywords_faces (hN : solid N = ks.map Token.ofKeyword) {d : Cursor}
    (hd : d.Faces (N ++ K)) :
    ∃ d', Parser.acceptKeywords ks ctx d = .ok true d' ∧ d'.Faces K := by
  -- when every word is there the position saved at the start is not needed
  suffices hall : ∃ d', ((ks.map some).map acceptWord).allM id ctx d = .ok true d' ∧
      d'.Faces K by
    obtain ⟨d', hrun, hK⟩ := hall
    exact ⟨d', bind_ok.mpr ⟨d, d, get_ok.mpr ⟨rfl, rfl⟩, bind_ok.mpr ⟨true, d', hrun,
      pure_ok.mpr ⟨rfl, rfl⟩⟩⟩, hK⟩
  induction ks generalizing N d with
  | nil => exact ⟨d, rfl, hd.of_blanks (by simpa using hN)⟩
  | cons k ks ih =>
      obtain ⟨N₁, N₂, rfl, hk, hks⟩ := solid_split hN
      rw [List.append_assoc] at hd
      obtain ⟨hpeek, hfaces⟩ := hd.next hk
      obtain ⟨d', hrun, hK⟩ := ih hks hfaces
      have hword : acceptWord (some k) ctx d = .ok true d.next.2 := by
        rw [acceptWord_run, if_pos]
        rw [Denotes.hasKeyword_iff, hpeek]
        exact Expr.keyword?_ofKeyword k
      refine ⟨d', ?_, hK⟩
      rw [List.map_cons, List.map_cons, List.allM_cons]
      exact bind_ok.mpr ⟨true, d.next.2, hword, hrun⟩

/-- Keywords that are not there are not in the print. -/
theorem dropWords_none (h : Shadows (n + ks.length) T T') (hnone : dropWords ks T = none) :
    dropWords ks T' = none := by
  induction ks generalizing T T' with
  | nil => cases hnone
  | cons k ks ih =>
      rw [List.length_cons, ← Nat.add_assoc] at h
      cases T' with
      | nil => rfl
      | cons t' T' =>
          cases T with
          | nil => simp at h
          | cons t T =>
              obtain ⟨hrole, htail⟩ := shadows_cons.mp h
              rw [dropWords, ← Token.keyword?_of_role hrole]
              by_cases hk : t.keyword? = some k
              -- the role of the token behind is kept because `t` is a word
              · have hword : t.isWord = true := by
                  cases t <;> first | rfl | cases hk
                rw [dropWords, if_pos hk] at hnone
                rw [if_pos hk]
                exact ih (htail hword) hnone
              · rw [if_neg hk]

/-- Keywords that were read look like those that are printed. -/
theorem shadows_dropWords {M : List Token}
    (hlucid : ∀ t ∈ T, t.Lucid ctx.dialect ctx.options.unescape) (h : dropWords ks T = some M)
    (hM : Shadows n M T') : Shadows (n + ks.length) T (ks.map Token.ofKeyword ++ T') := by
  induction ks generalizing T with
  | nil =>
      obtain rfl := Option.some.inj h
      exact hM
  | cons k ks ih =>
      cases T with
      | nil => cases h
      | cons t T =>
          by_cases hk : t.keyword? = some k
          · rw [dropWords, if_pos hk] at h
            obtain ⟨ht, hT⟩ := List.forall_mem_cons.mp hlucid
            exact .cons (ht.role_keyword hk) (ih hT h)
          · simp [dropWords, hk] at h

/-- Keywords that may stand next, where they do not stand in the print alone. -/
theorem acceptKeywords_of {Q : TokenRel} (hN : solid N = ks.map Token.ofKeyword)
    (htaken : ∀ T M T', (∀ t ∈ T, t.Lucid ctx.dialect ctx.options.unescape) →
      dropWords ks T = some M → Q M T' → S T (ks.map Token.ofKeyword ++ T'))
    (hS : ∀ T T', S T T' → dropWords ks T = none → dropWords ks T' = none) :
    Echoes ctx (Parser.acceptKeywords ks) (fun b P => P = if b then N else [])
      (fun b => if b then Q else S) S := by
  intro c b c' hoverrun hsource hrun
  have hwords := acceptKeywords_coming ctx ks hoverrun
  cases hdrop : dropWords ks c.coming with
  | none =>
      rw [hdrop] at hwords
      obtain ⟨rfl, rfl⟩ := EStateM.Result.ok.inj (hwords.symm.trans hrun)
      refine ⟨hoverrun, List.suffix_refl _, [], rfl, fun K hK => ⟨hK, fun d hd => ⟨d, ?_, hd⟩⟩⟩
      have hd' := acceptKeywords_coming ctx ks hd.overrun
      have hnone : dropWords ks d.coming = none := by
        rw [hd.coming]
        exact hS _ _ hK hdrop
      rwa [hnone] at hd'
  | some M =>
      rw [hdrop] at hwords
      -- all words are there, and their print has them again
      obtain ⟨c1, hrun', hoverrun1, hsuffix, hM⟩ := hwords
      obtain ⟨rfl, rfl⟩ := EStateM.Result.ok.inj (hrun'.symm.trans hrun)
      refine ⟨hoverrun1, hsuffix, N, rfl, fun K hK => ⟨?_, fun d hd =>
        acceptKeywords_faces hN hd⟩⟩
      rw [solid_append, hN]
      exact htaken _ _ _ hsource.coming hdrop (hM ▸ hK)

/-- Keywords that may stand next. -/
theorem acceptKeywords (hN : solid N = ks.map Token.ofKeyword) :
    Echoes ctx (Parser.acceptKeywords ks) (fun b P => P = if b then N else [])
      (fun b => if b then Shadows n else Shadows (n + ks.length)) (Shadows (n + ks.length)) :=
  acceptKeywords_of hN (fun _ _ _ => shadows_dropWords) fun _ _ => dropWords_none

/-- A test for keywords that do not stand in the print alone. -/
theorem keywords_test_of {Q : TokenRel} (hN : solid N = ks.map Token.ofKeyword)
    (htaken : ∀ T M T', (∀ t ∈ T, t.Lucid ctx.dialect ctx.options.unescape) →
      dropWords ks T = some M → Q M T' → S T (ks.map Token.ofKeyword ++ T'))
    (hS : ∀ T T', S T T' → dropWords ks T = none → dropWords ks T' = none)
    (hp : Echoes ctx p (fun v P => F v (N ++ P)) R Q) (hq : Echoes ctx q F R S) :
    Echoes ctx (Parser.acceptKeywords ks >>= fun b => if b then p else q) F R S := by
  refine (acceptKeywords_of hN htaken hS).bind fun b P hP => ?_
  subst hP
  cases b with
  | true => exact hp
  | false => exact hq

/-- A test for keywords. -/
theorem keywords_test (hN : solid N = ks.map Token.ofKeyword)
    (hp : Echoes ctx p (fun v P => F v (N ++ P)) R (Shadows n))
    (hq : Echoes ctx q F R (Shadows (n + ks.length))) :
    Echoes ctx (Parser.acceptKeywords ks >>= fun b => if b then p else q) F R
      (Shadows (n + ks.length)) :=
  keywords_test_of hN (fun _ _ _ => shadows_dropWords) (fun _ _ => dropWords_none) hp hq

/-! ### Looking at a keyword -/

/-- A reader that looks at a keyword takes nothing. -/
theorem peekKeyword : Echoes ctx (Parser.peekKeyword k) (fun _ P => P = [])
    (fun _ => Shadows (n + 1)) (Shadows (n + 1)) := by
  refine .peek (fun l l' hrole => ?_) (fun l => ?_) fun _ _ h => h.mono (by omega)
  · obtain ⟨t, loc⟩ := l
    obtain ⟨t', loc'⟩ := l'
    have hkeyword : t.keyword? = t'.keyword? := Token.keyword?_of_role hrole
    have hword : t.isWord = t'.isWord := Token.isWord_of_role hrole
    cases t <;> cases t' <;> first | rfl | (cases hword; done) | skip
    next w w' =>
      have hkeyword : w.keyword = w'.keyword := hkeyword
      simp only [hkeyword]
  · obtain ⟨t, loc⟩ := l
    cases t <;> exact .pure rfl fun _ _ h => h

/-- Where the keyword stood matters to errors alone. -/
theorem keyword?_test {p : Located → Parser α} (hN : solid N = [.ofKeyword k])
    (hsame : ∀ l l' d v d', p l ctx d = .ok v d' → p l' ctx d = .ok v d')
    (hp : ∀ l, Echoes ctx (p l) (fun v P => F v (N ++ P)) R (Shadows n))
    (hq : Echoes ctx q F R (Shadows (n + 1))) :
    Echoes ctx (Parser.acceptKeyword? k >>= fun o => match o with | none => q | some l => p l)
      F R (Shadows (n + 1)) := by
  refine (keyword_test hN (hp .eof) hq).of_runs fun c v c' => ?_
  have htest : (Parser.acceptKeyword k >>= fun b => if b then p .eof else q) =
      Parser.acceptKeyword? k >>= fun o => if o.isSome then p .eof else q := by
    simp [Parser.acceptKeyword, acceptWord, Parser.acceptKeyword?]
  rw [htest, bind_ok, bind_ok]
  refine exists_congr fun o => exists_congr fun c1 => and_congr_right fun _ => ?_
  cases o with
  | none => rfl
  | some l => exact ⟨hsame _ _ _ _ _, hsame _ _ _ _ _⟩

end Echoes

end SchemaSql
