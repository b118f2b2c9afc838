import SchemaSql.Proofs.Denotation
import SchemaSql.Proofs.Rereading.Tokens

/-! # Echoes — a reader in front of its own print

    A reader gave a value; what was read is then written in another way and read once more.  The
    second run goes through the same steps as the first one if each of them finds what it looks
    for.  What a step takes is what the first run took, or a keyword of the printer's own; what
    it only looks at is behind, and that is printed by the readers that follow.

    * `Token.role` is what readers see of a token without taking it, and `Shadows n` says that
      two lists of tokens look the same to a reader that looks at `n` tokens, but not behind a
      token that is no word.
    * `Echoes ctx p F R S` is what a reader does: it gives a value `v` and there are tokens and
      blanks `P`, the print of `v` by `F`, that `p` reads as `v` wherever what stands behind
      them is related by `R` to what stood behind the tokens that were read.  Then the print is
      related by `S` to the tokens that were read, which is what readers in front look at.

    There is one rule for each way of putting readers together. -/

namespace SchemaSql

open Cursor SchemaSql.Parser

/-! ## What readers look at -/

namespace Token

/-- What readers see of a token that they do not take: its spelling does not matter. -/
def role : Token → Token
  | .word w => .word { w with value := "" }
  | .number _ _ => .number "" false
  | t => t

/-- Whether a token is a word. -/
def isWord : Token → Bool
  | .word _ => true
  | _ => false

variable {t t' : Token}

@[simp] theorem keyword?_role (t : Token) : t.role.keyword? = t.keyword? := by cases t <;> rfl

@[simp] theorem bareKeyword?_role (t : Token) : t.role.bareKeyword? = t.bareKeyword? := by
  cases t <;> rfl

@[simp] theorem isWord_role (t : Token) : t.role.isWord = t.isWord := by cases t <;> rfl

/-- A sign is seen as itself, and nothing else is. -/
theorem role_eq_sign {s : Token} (hs : s.IsSign) : t.role = s ↔ t = s := by
  cases t with
  | word w =>
      exact iff_of_false (fun h => by subst h; exact hs) (fun h => by subst h; exact hs)
  | number digits long =>
      exact iff_of_false (fun h => by subst h; exact hs) (fun h => by subst h; exact hs)
  | _ => rfl

/-- Two tokens with one role are the same sign or none is that sign. -/
theorem eq_sign_of_role (h : t.role = t'.role) {s : Token} (hs : s.IsSign) : t = s ↔ t' = s := by
  rw [← role_eq_sign hs, h, role_eq_sign hs]

theorem keyword?_of_role (h : t.role = t'.role) : t.keyword? = t'.keyword? := by
  rw [← keyword?_role, h, keyword?_role]

theorem bareKeyword?_of_role (h : t.role = t'.role) : t.bareKeyword? = t'.bareKeyword? := by
  rw [← bareKeyword?_role, h, bareKeyword?_role]

theorem isWord_of_role (h : t.role = t'.role) : t.isWord = t'.isWord := by
  rw [← isWord_role, h, isWord_role]

/-- A keyword has the same role however it is written. -/
theorem role_ofKeyword {k : Keyword} (h : t.bareKeyword? = some k) :
    t.role = (ofKeyword k).role := by
  cases t with
  | word w =>
      obtain ⟨value, quote, keyword⟩ := w
      cases quote with
      | some q => simp [bareKeyword?] at h
      | none =>
          obtain rfl : keyword = some k := h
          have hword : (Word.of k.name none).keyword = some k := Word.keyword_of_name k
          rw [ofKeyword, role, role, hword]
          rfl
  | _ => simp [bareKeyword?] at h

end Token

/-- What a reader that looks at `n` tokens sees; it does not look behind a token that is no
    word. -/
def outlook : Nat → List Token → List Token
  | 0, _ => []
  | _, [] => []
  | n + 1, t :: T => t.role :: if t.isWord then outlook n T else []

/-- A relation between two lists of tokens. -/
abbrev TokenRel := List Token → List Token → Prop

/-- The two lists look the same to a reader that looks at `n` tokens. -/
def Shadows (n : Nat) : TokenRel := fun T T' => outlook n T = outlook n T'

variable {T T' U U' P : List Token} {t t' : Token} {m n : Nat}

@[simp] theorem shadows_zero : Shadows 0 T T' := by simp [Shadows, outlook]

/-- Every list of tokens looks like itself, however many tokens are looked at. -/
theorem Shadows.refl (n : Nat) (T : List Token) : Shadows n T T := rfl

/-- The first tokens are seen alike, and what stands behind them is seen behind words only. -/
theorem shadows_cons : Shadows (n + 1) (t :: T) (t' :: T') ↔
    t.role = t'.role ∧ (t.isWord = true → Shadows n T T') := by
  simp only [Shadows, outlook, List.cons.injEq, and_congr_right_iff]
  intro hrole
  rw [Token.isWord_of_role hrole]
  cases t'.isWord <;> simp

/-- Where one list is at its end a reader sees that the other is. -/
@[simp] theorem shadows_nil_left : Shadows (n + 1) [] T ↔ T = [] := by
  cases T <;> simp [Shadows, outlook]

@[simp] theorem shadows_nil_right : Shadows (n + 1) T [] ↔ T = [] := by
  cases T <;> simp [Shadows, outlook]

/-- Who looks at fewer tokens sees no more difference. -/
theorem Shadows.mono (h : Shadows n T T') (hm : m ≤ n) : Shadows m T T' := by
  induction n generalizing m T T' with
  | zero =>
      obtain rfl : m = 0 := by omega
      exact h
  | succ n ih =>
      cases m with
      | zero => exact shadows_zero
      | succ m =>
          cases T with
          | nil => simp_all
          | cons t T =>
              cases T' with
              | nil => simp at h
              | cons t' T' =>
                  rw [shadows_cons] at h ⊢
                  exact ⟨h.1, fun hword => ih (h.2 hword) (by omega)⟩

/-- The first token, or the end. -/
def frontOf (T : List Token) : Token := T.head?.getD .eof

@[simp] theorem frontOf_nil : frontOf [] = .eof := rfl

@[simp] theorem frontOf_cons : frontOf (t :: T) = t := rfl

/-- Looking at one token is seeing the role of the first. -/
theorem Shadows.front (h : Shadows (n + 1) T T') : (frontOf T).role = (frontOf T').role := by
  cases T with
  | nil => simp_all
  | cons t T =>
      cases T' with
      | nil => simp at h
      | cons t' T' => exact (shadows_cons.mp h).1

/-- Behind a token that was taken, or in front of which a keyword was written anew. -/
theorem Shadows.cons (hrole : t.role = t'.role) (h : Shadows n T T') :
    Shadows (n + 1) (t :: T) (t' :: T') := shadows_cons.mpr ⟨hrole, fun _ => h⟩

/-- Behind tokens that were taken. -/
theorem Shadows.append (P : List Token) (h : Shadows n T T') :
    Shadows (n + P.length) (P ++ T) (P ++ T') := by
  induction P with
  | nil => exact h
  | cons t P ih => exact .cons rfl ih

/-- Nobody looks behind a token that is no word. -/
theorem Shadows.of_role (hrole : t.role = t'.role) (ht : t.isWord = false) :
    Shadows n (t :: T) (t' :: T') := by
  cases n with
  | zero => exact shadows_zero
  | succ n => exact shadows_cons.mpr ⟨hrole, fun h => absurd h (by simp [ht])⟩

/-- Behind a sign nothing is looked at. -/
theorem Shadows.sign (ht : t.isWord = false) : Shadows n (t :: T) (t :: T') := .of_role rfl ht

/-! ## Cursors -/

namespace Cursor

/-- The tokens that are left, without blanks. -/
def coming (c : Cursor) : List Token := solid (c.rest.map Located.token)

/-- These tokens and blanks are left; blanks in front do not count. -/
structure Faces (c : Cursor) (T : List Token) : Prop where
  overrun : c.overrun = 0
  rest    : c.rest.map Located.token = T.dropWhile Token.isWhitespace

theorem solid_dropWhile (T : List Token) :
    solid (T.dropWhile Token.isWhitespace) = solid T := by
  induction T with
  | nil => rfl
  | cons t T ih => by_cases ht : t.isWhitespace <;> simp [ht, ih]

theorem Faces.coming {c : Cursor} (h : c.Faces T) : c.coming = solid T := by
  rw [Cursor.coming, h.rest, solid_dropWhile]

/-- A blank is told from its token alone. -/
theorem map_dropWhile (w : List Located) :
    (w.dropWhile Located.isWhitespace).map Located.token =
      (w.map Located.token).dropWhile Token.isWhitespace := by
  induction w with
  | nil => rfl
  | cons l w ih =>
      by_cases hl : l.isWhitespace
      · have hl' : l.token.isWhitespace = true := hl
        simp [hl, hl', ih]
      · have hl' : ¬ l.token.isWhitespace = true := hl
        simp [hl, hl']

/-- The first token that is left is no blank. -/
theorem coming_of_cons {c : Cursor} {l : Located} {w : List Located} (h : c.rest = l :: w) :
    c.coming = l.token :: solid (w.map Located.token) := by
  have hl : l.isWhitespace = false := c.clean_rest l (by simp [h])
  have hl' : l.token.isWhitespace = false := hl
  simp [coming, h, hl']

theorem frontOf_solid {w : List Located} (h : Clean w) :
    frontOf (solid (w.map Located.token)) = (headOf w).token := by
  cases w with
  | nil => rfl
  | cons l w =>
      have hl : l.token.isWhitespace = false := clean_cons.mp h
      simp [hl, headOf]

/-- The first of the coming tokens is the one that is looked at. -/
theorem frontOf_coming (c : Cursor) : frontOf c.coming = c.peek.token := by
  rw [coming, frontOf_solid c.clean_rest, peek_eq]

/-- Taking a token leaves what stands behind it. -/
theorem next_of_cons {c : Cursor} {l : Located} {w : List Located} (hoverrun : c.overrun = 0)
    (h : c.rest = l :: w) : c.next.1 = l ∧ c.next.2.overrun = 0 ∧
      c.next.2.rest = w.dropWhile Located.isWhitespace ∧
      c.next.2.coming = solid (w.map Located.token) := by
  have hnext := next_of_rest_cons h
  have hrest : c.next.2.rest = w.dropWhile Located.isWhitespace := by rw [hnext]; rfl
  refine ⟨by rw [hnext], by rw [hnext]; exact hoverrun, hrest, ?_⟩
  rw [coming, hrest, map_dropWhile, solid_dropWhile]

/-- So it does in front of a printed token, with the blanks around it. -/
theorem Faces.next {d : Cursor} {P K : List Token} (h : d.Faces (P ++ K))
    (hP : solid P = [t]) : d.peek.token = t ∧ d.next.2.Faces K := by
  -- the print is one solid token among blanks
  obtain ⟨front, back, rfl, hfront, ht, hback⟩ : ∃ front back, P = front ++ t :: back ∧
      (∀ x ∈ front, x.isWhitespace = true) ∧ t.isWhitespace = false ∧
      ∀ x ∈ back, x.isWhitespace = true := by
    clear h
    induction P with
    | nil => simp at hP
    | cons x P ih =>
        cases hx : x.isWhitespace with
        | true =>
            obtain ⟨front, back, rfl, hfront, ht, hback⟩ := ih (by simpa [hx] using hP)
            exact ⟨x :: front, back, rfl, by simpa [hx] using hfront, ht, hback⟩
        | false =>
            have hsolid : x = t ∧ solid P = [] := by simpa [hx] using hP
            obtain ⟨rfl, hnil⟩ := hsolid
            exact ⟨[], P, rfl, by simp, hx, by simpa [solid] using hnil⟩
  have hrest := h.rest
  rw [List.append_assoc, List.dropWhile_append_of_pos hfront, List.cons_append,
    List.dropWhile_cons_of_neg (by simp [ht])] at hrest
  obtain ⟨l, w, hd, rfl, hw⟩ := List.map_eq_cons_iff.mp hrest
  obtain ⟨hl, hoverrun, hnext, -⟩ := next_of_cons h.overrun hd
  refine ⟨by rw [← next_fst, hl], hoverrun, ?_⟩
  rw [hnext, map_dropWhile, hw, List.dropWhile_append_of_pos hback]

end Cursor

/-! ## Readers -/

variable {α β : Type} {ctx : Context}

/-- The reader reads the print of its value as it read the tokens of the text.  `F` says what
    the print of a value is; `R` relates what is left in both runs, and `S` what is ahead. -/
def Echoes (ctx : Context) (p : Parser α) (F : α → List Token → Prop) (R : α → TokenRel)
    (S : TokenRel) : Prop :=
  ∀ c v c', c.overrun = 0 → ctx.Source c.rest → p ctx c = .ok v c' →
    c'.overrun = 0 ∧ c'.rest <:+ c.rest ∧ ∃ P, F v P ∧
      ∀ K, R v c'.coming (solid K) → S c.coming (solid (P ++ K)) ∧
        ∀ d : Cursor, d.Faces (P ++ K) → ∃ d', p ctx d = .ok v d' ∧ d'.Faces K

/-- The relation that says nothing. -/
abbrev Anything : TokenRel := fun _ _ => True

namespace Echoes

variable {p : Parser α} {f : α → Parser β} {F F' : α → List Token → Prop}
  {G : β → List Token → Prop} {R R' : α → TokenRel} {Q : β → TokenRel} {S S' : TokenRel}

/-- Less may be said of the print and of the tokens in front, and more asked of those behind. -/
theorem mono (h : Echoes ctx p F R S) (hF : ∀ v P, F v P → F' v P)
    (hR : ∀ v T T', R' v T T' → R v T T') (hS : ∀ T T', S T T' → S' T T') :
    Echoes ctx p F' R' S' := by
  intro c v c' hoverrun hsource hrun
  obtain ⟨hoverrun', hrest, P, hP, hreplay⟩ := h c v c' hoverrun hsource hrun
  refine ⟨hoverrun', hrest, P, hF v P hP, fun K hK => ?_⟩
  obtain ⟨hahead, hrun'⟩ := hreplay K (hR v _ _ hK)
  exact ⟨hS _ _ hahead, hrun'⟩

/-- The print may be described in another way. -/
theorem print (h : Echoes ctx p F R S) (hF : ∀ v P, F v P → F' v P) : Echoes ctx p F' R S :=
  h.mono hF (fun _ _ _ h => h) fun _ _ h => h

/-- What is left may be related more closely. -/
theorem behind (h : Echoes ctx p F R S) (hR : ∀ v T T', R' v T T' → R v T T') :
    Echoes ctx p F R' S := h.mono (fun _ _ h => h) hR fun _ _ h => h

/-- What is ahead may be related less closely. -/
theorem front (h : Echoes ctx p F R S) (hS : ∀ T T', S T T' → S' T T') : Echoes ctx p F R S' :=
  h.mono (fun _ _ h => h) (fun _ _ _ h => h) hS

/-- Readers with the same values read the same prints. -/
theorem of_runs {q : Parser α} (h : Echoes ctx q F R S)
    (hruns : ∀ c v c', p ctx c = .ok v c' ↔ q ctx c = .ok v c') : Echoes ctx p F R S := by
  simpa only [Echoes, hruns] using h

/-- A reader that gives no value has nothing to print. -/
theorem of_fails (hp : Fails p) : Echoes ctx p F R S :=
  fun c v c' _ _ hrun => absurd hrun (hp ctx c v c')

theorem throw (e : ParseError) : Echoes ctx (throw e : Parser α) F R S :=
  of_fails fun _ _ _ _ => throw_ne_ok

/-- A reader that stays where it is, with a value that the context decides. -/
theorem of_still {a : α} (hp : ∀ c v c', p ctx c = .ok v c' → a = v ∧ c = c')
    (hrun : ∀ d, p ctx d = .ok a d) (hF : F a []) (hS : ∀ T T', R a T T' → S T T') :
    Echoes ctx p F R S := by
  intro c v c' hoverrun _ h
  obtain ⟨rfl, rfl⟩ := hp c v c' h
  exact ⟨hoverrun, List.suffix_refl _, [], hF, fun K hK => ⟨hS _ _ hK, fun d hd =>
    ⟨d, hrun d, hd⟩⟩⟩

/-- A value that is given without reading is printed as nothing, so what is behind is what is ahead.
    -/
theorem pure {a : α} (hF : F a []) (hS : ∀ T T', R a T T' → S T T') :
    Echoes ctx (pure a) F R S :=
  of_still (fun _ _ _ => pure_ok.mp) (fun _ => pure_ok.mpr ⟨rfl, rfl⟩) hF hS

/-- A reader that asks for the settings. -/
theorem read {f : Settings → Parser α} (hf : Echoes ctx (f ctx.toSettings) F R S) :
    Echoes ctx (MonadReader.read >>= f) F R S := hf

/-- A reader that asks how many levels are left. -/
theorem remaining {f : Nat → Parser α} (hf : Echoes ctx (f ctx.depth) F R S) :
    Echoes ctx (Parser.remaining >>= f) F R S := hf

/-- One reader after the other: the print of the second stands behind that of the first, which
    looks at it. -/
theorem bind (hp : Echoes ctx p F R S)
    (hf : ∀ a P, F a P → Echoes ctx (f a) (fun v P' => G v (P ++ P')) Q (R a)) :
    Echoes ctx (p >>= f) G Q S := by
  intro c v c' hoverrun hsource hrun
  obtain ⟨a, c1, ha, hv⟩ := bind_ok.mp hrun
  obtain ⟨hoverrun1, hrest1, P, hP, hreplay⟩ := hp c a c1 hoverrun hsource ha
  obtain ⟨hoverrun', hrest', P', hP', hreplay'⟩ :=
    hf a P hP c1 v c' hoverrun1 (hsource.mono hrest1.isInfix) hv
  refine ⟨hoverrun', hrest'.trans hrest1, P ++ P', hP', fun K hK => ?_⟩
  obtain ⟨hahead', hrun'⟩ := hreplay' K hK
  obtain ⟨hahead, hrun⟩ := hreplay (P' ++ K) hahead'
  rw [List.append_assoc]
  refine ⟨hahead, fun d hd => ?_⟩
  obtain ⟨d1, hd1, hfaces⟩ := hrun d hd
  obtain ⟨d', hd', hfaces'⟩ := hrun' d1 hfaces
  exact ⟨d', bind_ok.mpr ⟨a, d1, hd1, hd'⟩, hfaces'⟩

/-- A reader whose value changes nothing about the print. -/
theorem map {g : α → β} (hp : Echoes ctx p (fun a => G (g a)) (fun a => Q (g a)) S) :
    Echoes ctx (g <$> p) G Q S := by
  intro c v c' hoverrun hsource hrun
  obtain ⟨a, ha, rfl⟩ := map_ok.mp hrun
  obtain ⟨hoverrun', hrest, P, hP, hreplay⟩ := hp c a c' hoverrun hsource ha
  refine ⟨hoverrun', hrest, P, hP, fun K hK => ?_⟩
  obtain ⟨hahead, hrun'⟩ := hreplay K hK
  refine ⟨hahead, fun d hd => ?_⟩
  obtain ⟨d', hd', hfaces⟩ := hrun' d hd
  exact ⟨d', map_ok.mpr ⟨a, hd', rfl⟩, hfaces⟩

/-- A choice that does not depend on the tokens is made in the same way again. -/
theorem ite {b : Prop} [Decidable b] {q : Parser α} (hp : b → Echoes ctx p F R S)
    (hq : ¬ b → Echoes ctx q F R S) : Echoes ctx (if b then p else q) F R S := by
  split
  · next h => exact hp h
  · next h => exact hq h

/-- The print is read with the levels with which the text was read. -/
theorem descend (hp : ∀ depth, Echoes { ctx with depth } p F R S) :
    Echoes ctx (Parser.descend p) F R S := by
  intro c v c' hoverrun hsource hrun
  obtain ⟨depth, hdepth, hrun⟩ := descend_ok.mp hrun
  obtain ⟨hoverrun', hrest, P, hP, hreplay⟩ :=
    hp depth c v c' hoverrun (hsource.depth depth) hrun
  refine ⟨hoverrun', hrest, P, hP, fun K hK => ?_⟩
  obtain ⟨hahead, hrun'⟩ := hreplay K hK
  refine ⟨hahead, fun d hd => ?_⟩
  obtain ⟨d', hd', hfaces⟩ := hrun' d hd
  exact ⟨d', descend_ok.mpr ⟨depth, hdepth, hd'⟩, hfaces⟩

/-- Blanks may be written in front, as the value asks for. -/
theorem pad (b : α → List Token) (hb : ∀ v, ∀ t ∈ b v, t.isWhitespace = true)
    (hp : Echoes ctx p F R S) :
    Echoes ctx p (fun v P => ∃ P', P = b v ++ P' ∧ F v P') R S := by
  intro c v c' hoverrun hsource hrun
  obtain ⟨hoverrun', hrest, P, hP, hreplay⟩ := hp c v c' hoverrun hsource hrun
  have hnil : solid (b v) = [] := List.filter_eq_nil_iff.mpr fun t ht => by simp [hb v t ht]
  refine ⟨hoverrun', hrest, b v ++ P, ⟨P, rfl, hP⟩, fun K hK => ?_⟩
  obtain ⟨hahead, hrun'⟩ := hreplay K hK
  refine ⟨by simpa [hnil] using hahead, fun d hd => hrun' d ⟨hd.overrun, ?_⟩⟩
  rw [hd.rest, List.append_assoc, List.dropWhile_append_of_pos (hb v)]

/-- A space in front. -/
theorem spaced (hp : Echoes ctx p F R S) :
    Echoes ctx p (fun v P => ∃ P', P = .space :: P' ∧ F v P') R S :=
  (hp.pad (fun _ => [.space]) (by simp)).print fun v P ⟨P', hP, hF⟩ => ⟨P', hP, hF⟩

/-! ### Looking at the next token -/

/-- A reader that looks at the next token without taking it, and goes on by its role. -/
theorem peek {k : Located → Parser α}
    (hk : ∀ l l', l.token.role = l'.token.role → k l = k l')
    (h : ∀ l, Echoes ctx (k l) F R S) (hS : ∀ T T', S T T' → Shadows 1 T T') :
    Echoes ctx (Parser.peek >>= k) F R S := by
  intro c v c' hoverrun hsource hrun
  rw [bind_run (peek_ok.mpr ⟨rfl, rfl⟩)] at hrun
  obtain ⟨hoverrun', hrest, P, hP, hreplay⟩ := h c.peek c v c' hoverrun hsource hrun
  refine ⟨hoverrun', hrest, P, hP, fun K hK => ?_⟩
  obtain ⟨hahead, hrun'⟩ := hreplay K hK
  refine ⟨hahead, fun d hd => ?_⟩
  rw [bind_run (peek_ok.mpr ⟨rfl, rfl⟩)]
  have hrole := (hS _ _ hahead).front
  rw [frontOf_coming, ← hd.coming, frontOf_coming] at hrole
  rw [← hk c.peek d.peek hrole]
  exact hrun' d hd

/-- A reader that takes the next token and goes on as it does for the printed one. -/
theorem next {k : Located → Parser α} (N : Token → List Token)
    (h : ∀ l, l.token.Lucid ctx.dialect ctx.options.unescape → Fails (k l) ∨
      ∃ t, solid (N l.token) = [t] ∧
        (∀ l', l'.token = t → ∀ d v d', k l ctx d = .ok v d' → k l' ctx d = .ok v d') ∧
        Echoes ctx (k l) (fun v P => F v (N l.token ++ P)) R
          fun T T' => S (l.token :: T) (t :: T'))
    (heof : Fails (k .eof)) : Echoes ctx (Parser.next >>= k) F R S := by
  intro c v c' hoverrun hsource hrun
  rw [bind_run (next_run ctx c)] at hrun
  cases hc : c.rest with
  | nil =>
      rw [peek_eq, hc] at hrun
      exact absurd hrun (heof ctx c.next.2 v c')
  | cons l w =>
      obtain ⟨hl, hoverrun1, hrest1, hahead1⟩ := next_of_cons hoverrun hc
      rw [← next_fst, hl] at hrun
      have hsuffix : c.next.2.rest <:+ l :: w := by
        rw [hrest1]
        exact (List.dropWhile_suffix _).trans (List.suffix_cons l w)
      rw [hc] at hsource
      have hlucid := hsource.head (c.clean_rest l (by simp [hc]))
      -- `k` fails on this token, or it prints as a token on which `k` does the same
      rcases h l hlucid with hfails | ⟨t, ht, hsame, hecho⟩
      · exact absurd hrun (hfails ctx c.next.2 v c')
      obtain ⟨hoverrun', hrest', P, hP, hreplay⟩ :=
        hecho c.next.2 v c' hoverrun1 (hsource.mono hsuffix.isInfix) hrun
      refine ⟨hoverrun', hrest'.trans hsuffix, N l.token ++ P, hP, fun K hK => ?_⟩
      obtain ⟨hahead, hrun'⟩ := hreplay K hK
      refine ⟨?_, fun d hd => ?_⟩
      · rw [coming_of_cons hc, List.append_assoc, solid_append, ht, ← hahead1]
        exact hahead
      · rw [List.append_assoc] at hd
        obtain ⟨hpeek, hfaces⟩ := hd.next ht
        obtain ⟨d', hd', hfaces'⟩ := hrun' d.next.2 hfaces
        rw [bind_run (next_run ctx d)]
        exact ⟨d', hsame d.peek hpeek _ _ _ hd', hfaces'⟩

/-- A reader that takes the next token and makes its value of it. -/
theorem take {k : Located → Parser α} (take : Token → Option α) (N : Token → List Token)
    (hk : ∀ l v, take l.token = some v → k l ctx = (Pure.pure v : Parser α) ctx)
    (hfails : ∀ l, take l.token = none → Fails (k l)) (heof : take .eof = none)
    (h : ∀ t v, t.Lucid ctx.dialect ctx.options.unescape → take t = some v → F v (N t) ∧
      ∃ t', solid (N t) = [t'] ∧ take t' = some v ∧ ∀ T T', R v T T' → S (t :: T) (t' :: T')) :
    Echoes ctx (Parser.next >>= k) F R S := by
  refine next N (fun l hl => ?_) (hfails .eof heof)
  cases hv : take l.token with
  | none => exact .inl (hfails l hv)
  | some v =>
      obtain ⟨hF, t', ht', htake, hahead⟩ := h _ v hl hv
      have hrun : ∀ l', take l'.token = some v → ∀ d, k l' ctx d = .ok v d := fun l' hl' d =>
        (congrFun (hk l' v hl') d).trans (pure_ok.mpr ⟨rfl, rfl⟩)
      refine .inr ⟨t', ht', fun l' hl' d a d' ha => ?_, ?_⟩
      · rw [hrun l hv] at ha
        obtain ⟨rfl, rfl⟩ := EStateM.Result.ok.inj ha
        exact hrun l' (by rwa [hl']) _
      · refine of_still (a := v) (fun c a c' ha => ?_) (hrun l hv) (by simpa using hF)
          (hahead)
        rw [hrun l hv] at ha
        exact EStateM.Result.ok.inj ha

/-! ### Putting a token back -/

/-- A reader that looks at a token and puts it back. -/
theorem put_back (hp : Echoes ctx p F R S) :
    Echoes ctx (do let _ ← Parser.next; back; p) F R S := by
  intro c v c' hoverrun hsource hrun
  rw [bind_run (next_run ctx c), bind_run (a := ()) (back_ok.mpr rfl)] at hrun
  have hback : ∀ d : Cursor, d.overrun = 0 → d.next.2.back.overrun = 0 ∧
      d.next.2.back.rest = d.rest := fun d hd => by
    have hat := (at_rest hd).next_back
    exact ⟨hat.overrun, hat.rest⟩
  obtain ⟨hoverrun1, hrest1⟩ := hback c hoverrun
  obtain ⟨hoverrun', hrest, P, hP, hreplay⟩ := hp _ v c' hoverrun1 (hrest1 ▸ hsource) hrun
  refine ⟨hoverrun', hrest1 ▸ hrest, P, hP, fun K hK => ?_⟩
  obtain ⟨hahead, hrun'⟩ := hreplay K hK
  rw [coming, hrest1] at hahead
  refine ⟨hahead, fun d hd => ?_⟩
  obtain ⟨hoverrun2, hrest2⟩ := hback d hd.overrun
  rw [bind_run (next_run ctx d), bind_run (a := ()) (back_ok.mpr rfl)]
  exact hrun' _ ⟨hoverrun2, hrest2 ▸ hd.rest⟩

/-- A reader that goes one of two ways, as what is ahead tells. -/
theorem split_of {A C : TokenRel} {p q r : Parser α} (B : List Token → Prop)
    (hpq : ∀ c, B c.coming → p ctx c = q ctx c)
    (hpr : ∀ c, ¬ B c.coming → p ctx c = r ctx c)
    (hq : Echoes ctx q F R A) (hr : Echoes ctx r F R C)
    (hA : ∀ T T', B T → A T T' → S T T' ∧ B T')
    (hC : ∀ T T', ¬ B T → C T T' → S T T' ∧ ¬ B T') : Echoes ctx p F R S := by
  intro c v c' hoverrun hsource hrun
  -- the printed text has the same things coming, so it takes the same branch
  by_cases hB : B c.coming
  · rw [hpq c hB] at hrun
    obtain ⟨hoverrun', hrest, P, hP, hreplay⟩ := hq c v c' hoverrun hsource hrun
    refine ⟨hoverrun', hrest, P, hP, fun K hK => ?_⟩
    obtain ⟨hahead, hrun'⟩ := hreplay K hK
    obtain ⟨hS, hB'⟩ := hA _ _ hB hahead
    refine ⟨hS, fun d hd => ?_⟩
    rw [hpq d (hd.coming ▸ hB')]
    exact hrun' d hd
  · rw [hpr c hB] at hrun
    obtain ⟨hoverrun', hrest, P, hP, hreplay⟩ := hr c v c' hoverrun hsource hrun
    refine ⟨hoverrun', hrest, P, hP, fun K hK => ?_⟩
    obtain ⟨hahead, hrun'⟩ := hreplay K hK
    obtain ⟨hS, hB'⟩ := hC _ _ hB hahead
    refine ⟨hS, fun d hd => ?_⟩
    rw [hpr d (hd.coming ▸ hB')]
    exact hrun' d hd

/-- A reader that goes one of two ways, as the next token tells. -/
theorem split {A C : TokenRel} {p q r : Parser α} (B : Token → Prop)
    (hpq : ∀ c, B c.peek.token → p ctx c = q ctx c)
    (hpr : ∀ c, ¬ B c.peek.token → p ctx c = r ctx c)
    (hq : Echoes ctx q F R A) (hr : Echoes ctx r F R C)
    (hA : ∀ T T', B (frontOf T) → A T T' → S T T' ∧ B (frontOf T'))
    (hC : ∀ T T', ¬ B (frontOf T) → C T T' → S T T' ∧ ¬ B (frontOf T')) : Echoes ctx p F R S :=
  split_of (fun T => B (frontOf T)) (fun c hB => hpq c (frontOf_coming c ▸ hB))
    (fun c hB => hpr c (frontOf_coming c ▸ hB)) hq hr hA hC

end Echoes

end SchemaSql
