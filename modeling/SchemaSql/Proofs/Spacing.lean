import SchemaSql.Proofs.Comparison.Statements

/-! # Spacing — blanks, comments and places do not matter

    A run of blanks and comments may be exchanged for another, and all tokens may be moved to
    other places: the statements that are read stay the same, and so does the class of an error.

    * `shape` is a list of tokens without places, in which every run of blanks is one gap; two
      lists with one shape differ in nothing else (`Respaced`);
    * what the parser does with the tokens in front and behind a cursor keeps shapes equal,
      text that is captured as it is written included (`ofTokens_congr`);
    * `spacing` compares runs by the shapes around their cursors. -/

namespace SchemaSql

open Cursor SchemaSql.Parser

/-! ## Shapes -/

/-- One gap in front, however many stand there. -/
def gapped : List (Option Token) → List (Option Token)
  | none :: s => none :: s
  | s => none :: s

/-- The tokens without their places, and a gap for each run of blanks and comments. -/
def shape : List Located → List (Option Token)
  | [] => []
  | t :: w => if t.isWhitespace then gapped (shape w) else some t.token :: shape w

theorem gapped_gapped (s : List (Option Token)) : gapped (gapped s) = gapped s := by
  rcases s with _ | ⟨_ | t, s⟩ <;> rfl

/-- A blank in front makes a gap, or belongs to the one that is there. -/
theorem shape_blank {t : Located} (h : t.isWhitespace = true) (w : List Located) :
    shape (t :: w) = gapped (shape w) := if_pos h

theorem shape_solid {t : Located} (h : t.isWhitespace = false) (w : List Located) :
    shape (t :: w) = some t.token :: shape w := if_neg (by simp [h])

/-- A run of blanks is a gap. -/
theorem shape_blanks {b : List Located} (hne : b ≠ []) (hb : ∀ t ∈ b, t.isWhitespace = true)
    (w : List Located) : shape (b ++ w) = gapped (shape w) := by
  induction b with
  | nil => exact absurd rfl hne
  | cons t b ih =>
      rw [List.cons_append, shape_blank (hb t (by simp))]
      cases b with
      | nil => rfl
      | cons t' b => rw [ih (by simp) fun t ht => hb t (by simp [ht]), gapped_gapped]

/-- What stands at the start of a list of tokens: nothing, a token, or a run of blanks. -/
theorem shape_cases (w : List Located) : w = [] ∨
    (∃ t w', w = t :: w' ∧ t.isWhitespace = false) ∨
    ∃ b w', w = b ++ w' ∧ b ≠ [] ∧ (∀ t ∈ b, t.isWhitespace = true) ∧ Clean w' := by
  cases w with
  | nil => exact .inl rfl
  | cons t w =>
      by_cases ht : t.isWhitespace
      · refine .inr (.inr ⟨(t :: w).takeWhile Located.isWhitespace,
          (t :: w).dropWhile Located.isWhitespace, List.takeWhile_append_dropWhile.symm, ?_,
          fun t ht => List.mem_takeWhile_imp ht, clean_dropWhile _⟩)
        simp [ht]
      · exact .inr (.inl ⟨t, w, rfl, by simpa using ht⟩)

/-- Where no blank comes first there is no gap to join. -/
theorem gapped_shape {w : List Located} (h : Clean w) : gapped (shape w) = none :: shape w := by
  cases w with
  | nil => rfl
  | cons t w =>
      rw [shape_solid (clean_cons.mp h)]
      rfl

/-- The two lists differ in the places of their tokens and in their runs of blanks only. -/
inductive Respaced : List Located → List Located → Prop where
  | nil : Respaced [] []
  | solid {t t' w w'} (htok : t.token = t'.token) (ht : t.isWhitespace = false)
      (rest : Respaced w w') : Respaced (t :: w) (t' :: w')
  | blanks {b b' w w'} (hne : b ≠ []) (hne' : b' ≠ []) (hb : ∀ t ∈ b, t.isWhitespace = true)
      (hb' : ∀ t ∈ b', t.isWhitespace = true) (hw : Clean w) (hw' : Clean w')
      (rest : Respaced w w') : Respaced (b ++ w) (b' ++ w')

/-- Every token leaves something in the shape, and a blank its gap. -/
theorem shape_ne_nil {t : Located} {w : List Located} : shape (t :: w) ≠ [] := by
  by_cases ht : t.isWhitespace
  · rw [shape_blank ht]
    rcases shape w with _ | ⟨_ | t, s⟩ <;> simp [gapped]
  · simp [shape_solid (by simpa using ht)]

theorem shape_eq_nil {w : List Located} : shape w = [] ↔ w = [] := by
  cases w with
  | nil => simp [shape]
  | cons t w => simp [shape_ne_nil]

/-- Lists of one shape are such lists. -/
theorem respaced_of_shape {u u' : List Located} (h : shape u = shape u') : Respaced u u' := by
  induction hn : u.length using Nat.strong_induction_on generalizing u u' with
  | _ n ih =>
      subst hn
      rcases shape_cases u with rfl | ⟨t, w, rfl, ht⟩ | ⟨b, w, rfl, hne, hb, hw⟩
      · cases u' with
        | nil => exact .nil
        | cons t' w' => exact absurd h.symm shape_ne_nil
      · rcases shape_cases u' with rfl | ⟨t', w', rfl, ht'⟩ | ⟨b', w', rfl, hne', hb', hw'⟩
        · exact absurd h shape_ne_nil
        · rw [shape_solid ht, shape_solid ht'] at h
          obtain ⟨htok, hrest⟩ := List.cons.inj h
          exact .solid (Option.some.inj htok) ht (ih _ (by simp) hrest rfl)
        · simp [shape_solid ht, shape_blanks hne' hb', gapped_shape hw'] at h
      · rw [shape_blanks hne hb, gapped_shape hw] at h
        rcases shape_cases u' with rfl | ⟨t', w', rfl, ht'⟩ | ⟨b', w', rfl, hne', hb', hw'⟩
        · simp [shape] at h
        · simp [shape_solid ht'] at h
        · rw [shape_blanks hne' hb', gapped_shape hw'] at h
          -- a run of blanks is dropped as a whole, so the induction is on the length
          have hlt : w.length < (b ++ w).length := by
            rw [List.length_append]
            exact Nat.lt_add_of_pos_left (List.length_pos_of_ne_nil hne)
          exact .blanks hne hne' hb hb' hw hw' (ih _ hlt (List.cons.inj h).2 rfl)

/-- Whether a token is a blank does not depend on where it stands. -/
theorem isWhitespace_congr {t t' : Located} (h : t.token = t'.token) :
    t.isWhitespace = t'.isWhitespace := by rw [Located.isWhitespace, Located.isWhitespace, h]

/-- Tokens at other places have the same shape. -/
theorem shape_congr {u u' : List Located} (h : u.map Located.token = u'.map Located.token) :
    shape u = shape u' := by
  induction u generalizing u' with
  | nil =>
      obtain rfl := List.map_eq_nil_iff.mp h.symm
      rfl
  | cons t u ih =>
      obtain ⟨t', u', rfl, ht, hu⟩ := List.map_eq_cons_iff.mp h.symm
      rw [shape, shape, ih hu.symm, isWhitespace_congr ht, ht]

/-- The blanks in front of a text that starts with none are all its leading blanks. -/
theorem takeWhile_append_clean {b w : List Located} (hb : ∀ t ∈ b, t.isWhitespace = true)
    (hw : Clean w) : (b ++ w).takeWhile Located.isWhitespace = b := by
  rw [List.takeWhile_append_of_pos hb]
  cases w with
  | nil => simp
  | cons t w => simp [clean_cons.mp hw]

/-! ## Lists of one shape -/

namespace Respaced

variable {u u' w w' : List Located}

/-- Texts of one shape have one shape also with respaced texts in front of them. -/
theorem append (h : Respaced u u') (hw : shape w = shape w') :
    shape (u ++ w) = shape (u' ++ w') := by
  induction h with
  | nil => exact hw
  | solid htok ht _ ih =>
      rw [List.cons_append, List.cons_append, shape_solid ht,
        shape_solid (isWhitespace_congr htok ▸ ht), htok, ih]
  | blanks hne hne' hb hb' _ _ _ ih =>
      rw [List.append_assoc, List.append_assoc, shape_blanks hne hb, shape_blanks hne' hb', ih]

/-- Respaced texts have one shape. -/
theorem shape_eq (h : Respaced u u') : shape u = shape u' := by
  simpa using h.append (rfl : shape [] = shape [])

/-- The tokens that were read are kept the last first, and are respaced that way too. -/
theorem reverse (h : Respaced u u') : shape u.reverse = shape u'.reverse := by
  induction h with
  | nil => rfl
  | solid htok ht _ ih =>
      rw [List.reverse_cons, List.reverse_cons]
      refine (respaced_of_shape ih).append ?_
      rw [shape_solid ht, shape_solid (isWhitespace_congr htok ▸ ht), htok]
  | @blanks b b' w w' hne hne' hb hb' _ _ _ ih =>
      have hgap : ∀ b : List Located, b ≠ [] → (∀ t ∈ b, t.isWhitespace = true) →
          shape b.reverse = [none] := fun b hne hb => by
        have := shape_blanks (b := b.reverse) (by simpa using hne)
          (fun t ht => hb t (by simpa using ht)) []
        rwa [List.append_nil] at this
      rw [List.reverse_append, List.reverse_append]
      exact (respaced_of_shape ih).append (by rw [hgap b hne hb, hgap b' hne' hb'])

/-- Blanks do not count in front of a token. -/
theorem nthSolid (h : Respaced u u') (n : Nat) :
    (Cursor.nthSolid n u).token = (Cursor.nthSolid n u').token := by
  have hblanks : ∀ (b w : List Located), (∀ t ∈ b, t.isWhitespace = true) →
      ∀ n, Cursor.nthSolid n (b ++ w) = Cursor.nthSolid n w := fun b w hb n => by
    rw [← nthSolid_dropWhile, List.dropWhile_append_of_pos fun t ht => hb t ht,
      nthSolid_dropWhile]
  induction h generalizing n with
  | nil => rfl
  | solid htok ht _ ih =>
      have ht' := isWhitespace_congr htok ▸ ht
      cases n with
      | zero => simpa [Cursor.nthSolid, ht, ht'] using htok
      | succ n => simpa [Cursor.nthSolid, ht, ht'] using ih n
  | blanks _ _ hb hb' _ _ _ ih =>
      rw [hblanks _ _ hb, hblanks _ _ hb']
      exact ih n

/-- The first token is the same in both lists, or a blank in both. -/
theorem head (h : Respaced u u') : (headOf u).token = (headOf u').token ∨
    ((headOf u).isWhitespace = true ∧ (headOf u').isWhitespace = true) := by
  cases h with
  | nil => exact .inl rfl
  | solid htok => exact .inl htok
  | @blanks b b' w w' hne hne' hb hb' =>
      obtain ⟨t, b, rfl⟩ := List.exists_cons_of_ne_nil hne
      obtain ⟨t', b', rfl⟩ := List.exists_cons_of_ne_nil hne'
      exact .inr ⟨hb t (by simp), hb' t' (by simp)⟩

/-- The blanks in front, and what stands behind them. -/
theorem span (h : Respaced u u') :
    shape (u.takeWhile Located.isWhitespace) = shape (u'.takeWhile Located.isWhitespace) ∧
      Respaced (u.dropWhile Located.isWhitespace) (u'.dropWhile Located.isWhitespace) := by
  cases h with
  | nil => exact ⟨rfl, .nil⟩
  | @solid t t' w w' htok ht rest =>
      have ht' := isWhitespace_congr htok ▸ ht
      simp only [List.takeWhile_cons, List.dropWhile_cons, ht, ht']
      exact ⟨rfl, .solid htok ht rest⟩
  | @blanks b b' w w' hne hne' hb hb' hw hw' rest =>
      rw [takeWhile_append_clean hb hw, takeWhile_append_clean hb' hw',
        dropWhile_append_clean hb hw, dropWhile_append_clean hb' hw']
      refine ⟨?_, rest⟩
      simpa [hne, hne'] using (shape_blanks hne hb []).trans (shape_blanks hne' hb' []).symm

/-! ### Text that is captured -/

/-- Captured text has one space for a run of blanks, whichever blanks they are. -/
theorem push (h : Respaced u u') (text : CapturedText) :
    (u.map Located.token).foldl CapturedText.push text
      = (u'.map Located.token).foldl CapturedText.push text := by
  -- a run of blanks leaves one gap, however long it is
  have hblanks : ∀ b : List Located, b ≠ [] → (∀ t ∈ b, t.isWhitespace = true) → ∀ text,
      (b.map Located.token).foldl CapturedText.push text
        = { text with gap := !text.reversed.isEmpty } := by
    intro b hne hb
    induction b with
    | nil => exact absurd rfl hne
    | cons t b ih =>
        intro text
        have ht : ∀ text : CapturedText, text.push t.token
            = { text with gap := !text.reversed.isEmpty } := fun text => by
          have ht := hb t (by simp)
          cases heq : t.token <;>
            simp [Located.isWhitespace, heq, Token.isWhitespace] at ht ⊢
          rfl
        rw [List.map_cons, List.foldl_cons, ht]
        cases b with
        | nil => rfl
        | cons t' b => rw [ih (by simp) fun t ht => hb t (by simp [ht])]
  induction h generalizing text with
  | nil => rfl
  | solid htok _ _ ih =>
      rw [List.map_cons, List.map_cons, List.foldl_cons, List.foldl_cons, htok, ih]
  | blanks hne hne' hb hb' _ _ _ ih =>
      rw [List.map_append, List.map_append, List.foldl_append, List.foldl_append,
        hblanks _ hne hb, hblanks _ hne' hb', ih]

/-- Captured text has one space for each gap, so it is the same. -/
theorem ofTokens (h : Respaced u u') :
    CapturedText.ofTokens (u.map Located.token) = CapturedText.ofTokens (u'.map Located.token) := by
  rw [CapturedText.ofTokens, CapturedText.ofTokens, h.push]

theorem ofTokens_cons (h : Respaced u u') (token : Token) :
    CapturedText.ofTokens (token :: u.map Located.token)
      = CapturedText.ofTokens (token :: u'.map Located.token) := by
  rw [CapturedText.ofTokens, CapturedText.ofTokens, List.foldl_cons, List.foldl_cons, h.push]

/-- Front parts of the two lists, of one shape and with one shape behind them. -/
structure Cut (u u' g g' : List Located) : Prop where
  front : shape g = shape g'
  rest  : shape (u.drop g.length) = shape (u'.drop g'.length)

namespace Cut

variable {g g' : List Located}

/-- Nothing has been taken from either text. -/
theorem nil (h : Respaced u u') : Cut u u' [] [] := ⟨rfl, h.shape_eq⟩

/-- The same token is taken from both texts. -/
theorem solid {t t' : Located} (htok : t.token = t'.token) (ht : t.isWhitespace = false)
    (h : Cut w w' g g') : Cut (t :: w) (t' :: w') (t :: g) (t' :: g') := by
  refine ⟨?_, h.rest⟩
  rw [shape_solid ht, shape_solid (isWhitespace_congr htok ▸ ht), htok, h.front]

/-- A run of blanks is taken from each text, whatever is in it. -/
theorem blanks {b b' : List Located} (hne : b ≠ []) (hne' : b' ≠ [])
    (hb : ∀ t ∈ b, t.isWhitespace = true) (hb' : ∀ t ∈ b', t.isWhitespace = true)
    (h : Cut w w' g g') : Cut (b ++ w) (b' ++ w') (b ++ g) (b' ++ g') := by
  constructor
  · rw [shape_blanks hne hb, shape_blanks hne' hb', h.front]
  · rw [List.length_append, List.length_append, List.drop_length_add_append,
      List.drop_length_add_append, h.rest]

end Cut

/-- A group ends with the same token in both lists, or in neither. -/
theorem groupTokens (h : Respaced u u') (inner : Nat) :
    Option.Rel (Cut u u') (Parser.groupTokens inner u) (Parser.groupTokens inner u') := by
  -- one more token or run of blanks in front of both groups
  have hmap : ∀ {w w' u u' : List Located} {f f' : List Located → List Located}
      {o o' : Option (List Located)}, (∀ g g', Cut w w' g g' → Cut u u' (f g) (f' g')) →
      Option.Rel (Cut w w') o o' → Option.Rel (Cut u u') (o.map f) (o'.map f') := by
    intro w w' u u' f f' o o' hf h
    cases h with
    | none => exact .none
    | some h => exact .some (hf _ _ h)
  induction h generalizing inner with
  | nil => exact .none
  | @solid t t' w w' htok ht rest ih =>
      have hcons : ∀ n, Option.Rel (Cut (t :: w) (t' :: w'))
          ((t :: ·) <$> Parser.groupTokens n w) ((t' :: ·) <$> Parser.groupTokens n w') :=
        fun n => hmap (fun _ _ => .solid htok ht) (ih n)
      simp only [Parser.groupTokens, ← htok]
      split
      · exact .none
      · exact hcons _
      -- the closing parenthesis is the last token of the group, or closes one inside it
      · cases inner with
        | zero => exact .some (.solid htok ht (.nil rest))
        | succ inner => exact hcons _
      · exact hcons _
  | blanks hne hne' hb hb' _ _ _ ih =>
      rw [groupTokens_blanks hb, groupTokens_blanks hb']
      exact hmap (fun _ _ => .blanks hne hne' hb hb') (ih inner)

/-- A value ends in front of the same token in both lists. -/
theorem valueTokens (h : Respaced u u') (inner : Nat) :
    Cut u u' (Parser.valueTokens inner u) (Parser.valueTokens inner u') := by
  induction h generalizing inner with
  | nil => exact .nil .nil
  | @solid t t' w w' htok ht rest ih =>
      have hstop : Cut (t :: w) (t' :: w') [] [] := .nil (.solid htok ht rest)
      simp only [Parser.valueTokens, ← htok]
      split
      · exact hstop
      · exact hstop
      · exact .solid htok ht (ih _)
      · cases inner with
        | zero => exact hstop
        | succ inner => exact .solid htok ht (ih _)
      · cases inner with
        | zero => exact hstop
        | succ inner => exact .solid htok ht (ih _)
      · exact .solid htok ht (ih _)
  | blanks hne hne' hb hb' _ _ _ ih =>
      rw [valueTokens_blanks hb, valueTokens_blanks hb']
      exact .blanks hne hne' hb hb' (ih inner)

end Respaced

/-! ## Cursors -/

/-- Two cursors with the same shapes in front of them and behind them. -/
structure Spaced (c d : Cursor) : Prop where
  overrun  : c.overrun = 0
  overrun' : d.overrun = 0
  read     : shape c.read = shape d.read
  unread   : shape c.unread = shape d.unread

/-- Stepping back over a token, and the blanks behind it. -/
theorem Respaced.backFrom {r r' u u' : List Located} (h : Respaced r r')
    (hu : shape u = shape u') : Spaced (backFrom r u) (backFrom r' u') := by
  -- blanks are put back in front of the token that is
  have hblanks : ∀ (b r u : List Located), (∀ t ∈ b, t.isWhitespace = true) →
      Cursor.backFrom (b ++ r) u = Cursor.backFrom r (b.reverse ++ u) := by
    intro b r u hb
    induction b generalizing u with
    | nil => rfl
    | cons t b ih =>
        rw [List.cons_append, Cursor.backFrom, if_pos (hb t (by simp)),
          ih _ fun t ht => hb t (by simp [ht])]
        simp
  induction h generalizing u u' with
  | nil => exact ⟨rfl, rfl, rfl, hu⟩
  | @solid t t' w w' htok ht rest =>
      have ht' := isWhitespace_congr htok ▸ ht
      simp only [Cursor.backFrom, ht, ht']
      refine ⟨rfl, rfl, rest.shape_eq, ?_⟩
      show shape (t :: u) = shape (t' :: u')
      rw [shape_solid ht, shape_solid ht', htok, hu]
  | @blanks b b' w w' hne hne' hb hb' _ _ _ ih =>
      rw [hblanks _ _ _ hb, hblanks _ _ _ hb']
      refine ih ?_
      have hrev : ∀ {b : List Located}, (∀ t ∈ b, t.isWhitespace = true) →
          ∀ t ∈ b.reverse, t.isWhitespace = true := fun hb t ht => hb t (by simpa using ht)
      rw [shape_blanks (by simpa using hne) (hrev hb),
        shape_blanks (by simpa using hne') (hrev hb'), hu]

namespace Spaced

variable {c d : Cursor}

theorem rest (h : Spaced c d) : Respaced c.rest d.rest := (respaced_of_shape h.unread).span.2

/-- Tokens that are looked at are counted without blanks, so they are the same. -/
theorem peekNth (h : Spaced c d) (n : Nat) : (c.peekNth n).token = (d.peekNth n).token :=
  (respaced_of_shape h.unread).nthSolid n

theorem peek (h : Spaced c d) : c.peek.token = d.peek.token := h.peekNth 0

/-- The two texts end together. -/
theorem rest_nil (h : Spaced c d) : c.rest = [] ↔ d.rest = [] := by
  rw [← shape_eq_nil, h.rest.shape_eq, shape_eq_nil]

/-- The next token is taken with the blanks in front of it, and leaves like places. -/
theorem next (h : Spaced c d) (hne : c.rest ≠ []) : Spaced c.next.2 d.next.2 := by
  obtain ⟨t, w, hc⟩ := List.exists_cons_of_ne_nil hne
  obtain ⟨t', w', hd⟩ := List.exists_cons_of_ne_nil (mt h.rest_nil.mpr hne)
  have ht : t.isWhitespace = false := clean_cons.mp (hc ▸ c.clean_rest)
  have ht' : t'.isWhitespace = false := clean_cons.mp (hd ▸ d.clean_rest)
  have hrest := h.rest.shape_eq
  rw [hc, hd, shape_solid ht, shape_solid ht'] at hrest
  obtain ⟨htok, hw⟩ := List.cons.inj hrest
  rw [next_of_rest_cons hc, next_of_rest_cons hd]
  refine ⟨h.overrun, h.overrun', ?_, hw⟩
  show shape (t :: _) = shape (t' :: _)
  rw [shape_solid ht, shape_solid ht', htok]
  have hblanks := (respaced_of_shape (respaced_of_shape h.unread).span.1).reverse
  rw [(respaced_of_shape hblanks).append h.read]

/-- Reading a token that is no blank, where the cursor stands right in front of it. -/
theorem nextRaw (h : Spaced c d) {t : Located} {w : List Located} (hc : c.unread = t :: w)
    (ht : t.isWhitespace = false) : ∃ t' w', d.unread = t' :: w' ∧ t.token = t'.token ∧
      Spaced ⟨t :: c.read, w, c.overrun⟩ ⟨t' :: d.read, w', d.overrun⟩ := by
  have hu := h.unread
  rw [hc, shape_solid ht] at hu
  rcases shape_cases d.unread with hd | ⟨t', w', hd, ht'⟩ | ⟨b, w', hd, hne, hb, hw'⟩
  · simp [hd, shape] at hu
  · rw [hd, shape_solid ht'] at hu
    obtain ⟨htok, hw⟩ := List.cons.inj hu
    refine ⟨t', w', hd, Option.some.inj htok, h.overrun, h.overrun', ?_, hw⟩
    show shape (t :: c.read) = shape (t' :: d.read)
    rw [shape_solid ht, shape_solid ht', htok, h.read]
  · simp [hd, shape_blanks hne hb, gapped_shape hw'] at hu

/-- Reading the end and putting it back makes the blanks in front of it tokens that were read. -/
theorem undo (h : Spaced c d) (hnil : c.rest = []) :
    Spaced c.next.2.back d.next.2.back := by
  have hback : ∀ c : Cursor, c.overrun = 0 → c.rest = [] →
      c.next.2.back = ⟨c.unread.reverse ++ c.read, [], 0⟩ := fun c h0 hnil => by
    rw [Cursor.rest] at hnil
    rw [Cursor.next, nextFrom_eq, hnil, h0]
    rfl
  rw [hback c h.overrun hnil, hback d h.overrun' (h.rest_nil.mp hnil)]
  exact ⟨rfl, rfl, (respaced_of_shape (respaced_of_shape h.unread).reverse).append h.read, rfl⟩

/-- Putting a token back puts back the blanks behind it. -/
theorem back (h : Spaced c d) : Spaced c.back d.back := by
  rw [Cursor.back, Cursor.back, h.overrun, h.overrun']
  exact (respaced_of_shape h.read).backFrom h.unread

/-- Going on behind front parts of one shape. -/
theorem skip (h : Spaced c d) {g g' : List Located} (hcut : Respaced.Cut c.unread d.unread g g')
    (hg : c.unread.take g.length = g) (hg' : d.unread.take g'.length = g') :
    Spaced (c.skip g.length) (d.skip g'.length) := by
  refine ⟨h.overrun, h.overrun', ?_, hcut.rest⟩
  show shape ((c.unread.take g.length).reverse ++ c.read) = shape (_ ++ d.read)
  rw [hg, hg']
  exact (respaced_of_shape (respaced_of_shape hcut.front).reverse).append h.read

end Spaced

/-! ## The comparison -/

/-- Runs with the same shapes around their cursors: they give the same value, or errors of one
    class. -/
def spacing : Comparison where
  cursors := Spaced
  tokens t t' := t.token = t'.token
  levels := Eq
  errors e o := ∃ f, o = some f ∧ e.kind = f.kind

namespace spacing

/-- Errors about tokens in like places are of one class. -/
theorem refuses (what : String) (t t' : Located) :
    spacing.errors (.expected what t) (some (.expected what t')) := ⟨_, rfl, rfl⟩

/-- The text of a value is captured alike, since gaps are captured as one space. -/
theorem value : spacing.Steady valueText := by
  intro ctx ctx' c d hctx (hc : Spaced c d)
  have hfront : ∀ c : Cursor, c.unread.take (valueTokens 0 c.unread).length
      = valueTokens 0 c.unread := fun c => by
    obtain ⟨-, tail, hw, -⟩ := valueTokens_front 0 c.unread
    conv => lhs; arg 2; rw [hw]
    rw [List.take_left]
  have hcut := (respaced_of_shape hc.unread).valueTokens 0
  have hskip := hc.skip hcut (hfront c) (hfront d)
  rw [valueText, bind_run (get_ok.mpr ⟨rfl, rfl⟩), bind_run (get_ok.mpr ⟨rfl, rfl⟩),
    bind_run (modify_ok (v := ⟨⟩).mpr rfl), bind_run (modify_ok (v := ⟨⟩).mpr rfl),
    ← (respaced_of_shape hcut.front).ofTokens]
  dsimp only
  split
  · exact .error (refuses _ _ _)
  · exact .ok rfl hskip

/-- The text of a group is captured alike, its parentheses included. -/
theorem group : spacing.Steady groupText := by
  intro ctx ctx' c d hctx (hc : Spaced c d)
  -- a group is what is skipped behind it
  have hfront : ∀ {w g : List Located}, groupTokens 0 w = some g → w.take g.length = g := by
    intro w g hg
    obtain ⟨tail, rfl, -⟩ := groupTokens_front hg
    rw [List.take_left]
  rw [groupText_run, groupText_run, ← hc.peek]
  split
  · rename_i hlp
    have hnext : Spaced c.next.2 d.next.2 := hc.next fun hnil => by
      rw [peek_eq, hnil] at hlp
      exact absurd hlp (by simp [headOf, Located.eof])
    have hgroup := (respaced_of_shape hnext.unread).groupTokens 0
    generalize hg : groupTokens 0 c.next.2.unread = g at hgroup ⊢
    generalize hg' : groupTokens 0 d.next.2.unread = g' at hgroup ⊢
    cases hgroup with
    | none => exact .error (refuses _ _ _)
    | some hcut =>
        exact .ok ((respaced_of_shape hcut.front).ofTokens_cons _)
          (hnext.skip hcut (hfront hg) (hfront hg'))
  · exact .error (refuses _ _ _)

/-- No part of a hyphenated name is a blank. -/
theorem hyphenPart_blank {t : Located} (ht : t.isWhitespace = true) :
    Ident.hyphenPart t = none := by
  cases heq : t.token <;> simp [Located.isWhitespace, heq, Token.isWhitespace] at ht
  simp [Ident.hyphenPart, heq]

theorem hyphenPart_head {w w' : List Located} (h : Respaced w w') :
    Ident.hyphenPart (headOf w) = Ident.hyphenPart (headOf w') := by
  rcases h.head with heq | ⟨ht, ht'⟩
  · simp only [Ident.hyphenPart, heq]
  · rw [hyphenPart_blank ht, hyphenPart_blank ht']

/-- A hyphenated name ends at a gap in both texts, or at the same token. -/
theorem noHyphen_iff {w w' : List Located} (h : Respaced w w') :
    Ident.NoHyphen w ↔ Ident.NoHyphen w' := by
  have hblank : ∀ {w : List Located}, (headOf w).isWhitespace = true → Ident.NoHyphen w :=
    fun ht heq => by simp [Located.isWhitespace, heq, Token.isWhitespace] at ht
  rcases h.head with heq | ⟨ht, ht'⟩
  · rw [Ident.NoHyphen, Ident.NoHyphen, heq]
  · exact iff_of_true (hblank ht) (hblank ht')

/-- A hyphen and what belongs to it stand next to each other in both runs. -/
theorem hyphen (name : String) : spacing.Steady (Ident.parseHyphenated name) := by
  intro ctx ctx' c d hctx (hc : Spaced c d)
  by_cases hno : Ident.NoHyphen c.unread
  · rw [Ident.parseHyphenated_none hno,
      Ident.parseHyphenated_none ((noHyphen_iff (respaced_of_shape hc.unread)).mp hno)]
    exact .ok rfl hc
  obtain ⟨m, w, hw, hm⟩ := Ident.hyphen_of_not_noHyphen hno
  obtain ⟨m', w', hw', htok, hnext⟩ :=
    hc.nextRaw hw (by simp [Located.isWhitespace, hm, Token.isWhitespace])
  rw [Ident.parseHyphenated_some hw hm, Ident.parseHyphenated_some hw' (htok ▸ hm),
    Ident.afterHyphen, Ident.afterHyphen, ← hyphenPart_head (respaced_of_shape hnext.unread)]
  cases hpart : Ident.hyphenPart (headOf w) with
  | none => exact .error (refuses _ _ _)
  | some part =>
      cases w with
      | nil => simp [Ident.hyphenPart, headOf, Located.eof] at hpart
      | cons t w =>
          -- a blank behind the hyphen is an error in both texts, so the part is solid
          have ht : t.isWhitespace = false := by
            by_contra ht
            rw [hyphenPart_blank (by simpa [headOf] using ht)] at hpart
            exact absurd hpart (by simp)
          obtain ⟨t', v', rfl, -, hlast⟩ := hnext.nextRaw rfl ht
          exact .ok rfl hlast

end spacing

instance : spacing.Lawful where
  overrun h := ⟨h.overrun, h.overrun'⟩
  peekNth h := h.peekNth
  ends h := h.rest_nil
  next h := h.next
  undo h := h.undo
  back h := h.back
  token h := h
  refuses f hf _ := ⟨_, rfl, by rw [hf, hf]⟩
  cut h := by
    obtain ⟨f, hf, -⟩ := h
    exact absurd hf (by simp)
  group := spacing.group
  value := spacing.value

instance : spacing.Dialectal where
  ident := Ident.parse_steady_of_hyphens (fun _ _ h => h) spacing.hyphen
  pipes h := .inl (congrArg Dialect.pipeOperators h)
  synonyms h := .inl (congrArg Dialect.synonyms h)

instance : spacing.Listing where
  trailing h := congrArg Options.trailingCommas h

instance : spacing.Nesting where
  levels {n m} h := by
    obtain rfl : n = m := h
    cases n with
    | zero => exact .inl ⟨rfl, .inl rfl⟩
    | succ n => exact .inr ⟨n, n, rfl, rfl, rfl⟩
  limit := ⟨_, rfl, rfl⟩

/-! ## Whole texts -/

namespace Statement

/-- Texts of one shape are read as the same statements, or refused with errors of one class. -/
theorem parseAll_spacing (ctx : Context) {u u' : List Located} (h : shape u = shape u') :
    (parseAll.runTokens ctx u).mapError ParseError.kind
      = (parseAll.runTokens ctx u').mapError ParseError.kind := by
  have hstart : Spaced (.ofTokens u) (.ofTokens u') := ⟨rfl, rfl, rfl, h⟩
  have hruns := parseAll_steady (K := spacing) ctx ctx _ _ ⟨rfl, rfl, rfl⟩ hstart
  rw [runTokens, runTokens]
  generalize parseAll ctx (.ofTokens u) = r at hruns ⊢
  generalize parseAll ctx (.ofTokens u') = r' at hruns ⊢
  rcases hruns with ⟨rfl, -⟩ | ⟨f, hf, hkind⟩ | ⟨f, hf, -⟩
  · rfl
  · obtain rfl := Option.some.inj hf
    exact congrArg Except.error hkind
  · exact absurd hf (by simp)

/-- A query with one space, and with a comment and a line break further down in a text. -/
theorem selectTokens_spacing : let u := selectTokens "1"
    let u' : List Located := [⟨.word ⟨"SELECT", none, some .select⟩, ⟨3, 1⟩⟩,
      ⟨.whitespace (.blockComment " one "), ⟨3, 7⟩⟩, ⟨.whitespace .newline, ⟨3, 16⟩⟩,
      ⟨.number "1" false, ⟨4, 1⟩⟩]
    shape u = shape u' ∧
      (parseAll.runTokens { dialect := .generic } u').mapError ParseError.kind
        = .ok [selectNumber "1"] := by
  intro u u'
  have h : shape u = shape u' := by decide
  exact ⟨h, (parseAll_spacing { dialect := .generic } h).symm.trans rfl⟩

end Statement

end SchemaSql
