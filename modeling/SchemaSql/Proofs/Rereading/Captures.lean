import SchemaSql.Proofs.Rereading.Loops

/-! # Echoes of captured text

    Captured text is printed as it is.  Its tokens are the condensed ones of the text, and a
    reader that captures them again finds the same end: blanks open and close no group. -/

namespace SchemaSql

open Cursor SchemaSql.Parser

variable {ctx : Context} {n : Nat} {left : Token} {gap : Bool} {ts : List Token}

/-! ## Condensed tokens -/

/-- Condensing takes nothing away from condensed tokens. -/
theorem condensedBehind_condensedBehind (left : Token) (gap : Bool) (ts : List Token) :
    condensedBehind left false (condensedBehind left gap ts) = condensedBehind left gap ts := by
  fun_induction condensedBehind left gap ts with
  | case1 => rfl
  | case2 left gap t ts hblank ih => exact ih
  | case3 left gap t ts hblank hspace ih =>
      rw [condensedBehind, if_pos isWhitespace_space, condensedBehind, if_neg hblank,
        if_pos ⟨rfl, hspace.2⟩, ih]
  | case4 left gap t ts hblank hspace ih =>
      rw [condensedBehind, if_neg hblank, if_neg (by simp), ih]

/-- Blanks in front are left out as they are behind a parenthesis. -/
theorem condensed_eq (gap : Bool) (ts : List Token) :
    condensed ts = condensedBehind .lparen gap ts := by
  induction ts generalizing gap with
  | nil => rfl
  | cons t ts ih => simp [condensed, condensedBehind, ← ih]

/-- Blanks that are made one space each stay as they are. -/
theorem condensed_condensed (ts : List Token) : condensed (condensed ts) = condensed ts := by
  rw [condensed_eq false (condensed ts), condensed_eq false ts, condensedBehind_condensedBehind]

/-- Condensed tokens do not start with a blank. -/
theorem dropWhile_condensed (ts K : List Token) (h : condensed ts ≠ []) :
    (condensed ts ++ K).dropWhile Token.isWhitespace = condensed ts ++ K := by
  induction ts with
  | nil => exact absurd rfl h
  | cons t ts ih =>
      rw [condensed] at h ⊢
      split at h <;> rename_i hblank
      · rw [if_pos hblank]
        exact ih h
      · rw [if_neg hblank, List.cons_append, List.dropWhile_cons_of_neg hblank]

/-! ## Where captured text ends -/

/-- A located list whose tokens are condensed starts with a space or with the first of them. -/
theorem map_eq_condensedBehind_cons {t : Token} (ht : ¬ t.isWhitespace = true)
    {w' : List Located} (h : w'.map Located.token = condensedBehind left gap (t :: ts)) :
    ∃ b l v, w' = b ++ l :: v ∧ (∀ x ∈ b, x.isWhitespace = true) ∧ l.token = t ∧
      v.map Located.token = condensedBehind t false ts := by
  rw [condensedBehind, if_neg ht] at h
  split at h
  · obtain ⟨x, w1, rfl, hx, h⟩ := List.map_eq_cons_iff.mp h
    obtain ⟨l, v, rfl, hl, h⟩ := List.map_eq_cons_iff.mp h
    exact ⟨[x], l, v, rfl, by simp [Located.isWhitespace, hx], hl, h⟩
  · obtain ⟨l, v, rfl, hl, h⟩ := List.map_eq_cons_iff.mp h
    exact ⟨[], l, v, rfl, by simp, hl, h⟩

/-- A group ends where it did. -/
theorem groupTokens_condensed {inner : Nat} {w group : List Located}
    (h : groupTokens inner w = some group) (left : Token) (gap : Bool) {w' : List Located}
    (hw : w'.map Located.token = condensedBehind left gap (group.map Located.token))
    (r : List Located) : groupTokens inner (w' ++ r) = some w' := by
  induction w generalizing inner group left gap w' with
  | nil => simp [groupTokens] at h
  | cons t w ih =>
      -- a blank is dropped and the depth kept; any other token is found again behind at most one
      -- space
      have hstep : ∀ m, (t :: ·) <$> groupTokens m w = some group →
          (∀ l u, l.token = t.token → groupTokens inner (l :: u) = (l :: ·) <$> groupTokens m u) →
          (t.token.isWhitespace = true → m = inner) →
          groupTokens inner (w' ++ r) = some w' := by
        intro m hsome heq hsame
        rw [Option.map_eq_map, Option.map_eq_some_iff] at hsome
        obtain ⟨g, hg, rfl⟩ := hsome
        rw [List.map_cons] at hw
        by_cases hblank : t.token.isWhitespace = true
        · obtain rfl := hsame hblank
          rw [condensedBehind, if_pos hblank] at hw
          exact ih hg left true hw
        · obtain ⟨b, l, v, rfl, hb, hl, hv⟩ := map_eq_condensedBehind_cons hblank hw
          rw [List.append_assoc, groupTokens_blanks hb, List.cons_append, heq l _ hl,
            ih hg _ _ hv]
          rfl
      cases htok : t.token with
      | eof => simp [groupTokens, htok] at h
      | lparen =>
          simp only [groupTokens, htok] at h
          exact hstep (inner + 1) h (fun l u hl => by simp only [groupTokens, hl, htok])
            (by simp [htok])
      | rparen =>
          cases inner with
          | zero =>
              simp only [groupTokens, htok] at h
              obtain rfl := Option.some.inj h
              obtain ⟨b, l, v, rfl, hb, hl, hv⟩ :=
                map_eq_condensedBehind_cons (by simp [htok]) hw
              -- the closing parenthesis ends both groups
              obtain rfl : v = [] := by simpa [condensedBehind] using hv
              rw [List.append_assoc, groupTokens_blanks hb]
              simp [groupTokens, hl, htok]
          | succ inner =>
              simp only [groupTokens, htok] at h
              exact hstep inner h (fun l u hl => by simp only [groupTokens, hl, htok])
                (by simp [htok])
      | _ =>
          simp only [groupTokens, htok] at h
          exact hstep inner h (fun l u hl => by simp only [groupTokens, hl, htok])
            fun _ => rfl

/-- So does a value, whatever blanks stand behind it. -/
theorem valueTokens_condensed {k m : Nat} {w : List Located}
    (hdepth : parenDepth k (valueTokens k w) = some m) (left : Token) (gap : Bool)
    {w' b r : List Located}
    (hw : w'.map Located.token = condensedBehind left gap ((valueTokens k w).map Located.token))
    (hb : ∀ t ∈ b, t.isWhitespace = true) (hr : EndsValue m r) :
    valueTokens k (w' ++ (b ++ r)) = w' ++ b := by
  -- the blanks behind the value are part of what is captured, up to the token that ends it
  have hend : valueTokens m (b ++ r) = b := by
    rw [valueTokens_blanks hb, hr.nil_of_ends, List.append_nil]
  induction w generalizing k left gap w' with
  | nil =>
      obtain rfl : w' = [] := by simpa [valueTokens, condensedBehind] using hw
      obtain rfl : k = m := by simpa [valueTokens, parenDepth] using hdepth
      exact hend
  | cons t w ih =>
      -- where the first value ends nothing is printed, so the second one ends as well
      have hstop : EndsValue k (t :: w) → valueTokens k (w' ++ (b ++ r)) = w' ++ b := by
        intro hends
        rw [hends.nil_of_ends] at hw hdepth
        obtain rfl : w' = [] := by simpa [condensedBehind] using hw
        obtain rfl : k = m := by simpa [parenDepth] using hdepth
        exact hend
      -- a blank is dropped and the depth kept; any other token is found again behind at most one
      -- space
      have hstep : ∀ k',
          (∀ l u, l.token = t.token → valueTokens k (l :: u) = l :: valueTokens k' u) →
          (∀ u, parenDepth k (t :: u) = parenDepth k' u) →
          (t.token.isWhitespace = true → k' = k) →
          valueTokens k (w' ++ (b ++ r)) = w' ++ b := by
        intro k' hvalue hdepth' hsame
        rw [hvalue t w rfl] at hw hdepth
        rw [hdepth'] at hdepth
        rw [List.map_cons] at hw
        by_cases hblank : t.token.isWhitespace = true
        · obtain rfl := hsame hblank
          rw [condensedBehind, if_pos hblank] at hw
          exact ih hdepth left true hw
        · obtain ⟨b', l, v, rfl, hb', hl, hv⟩ := map_eq_condensedBehind_cons hblank hw
          rw [List.append_assoc, valueTokens_blanks hb', List.cons_append, hvalue l _ hl,
            ih hdepth _ _ hv, List.append_assoc, List.cons_append]
      cases htok : t.token with
      | eof => exact hstop (.inl (.inl htok))
      | semicolon => exact hstop (.inl (.inr htok))
      | lparen =>
          exact hstep (k + 1) (fun l u hl => by simp only [valueTokens, hl, htok])
            (fun u => by simp only [parenDepth, htok]) (by simp [htok])
      | rparen =>
          cases k with
          | zero => exact hstop (.inr ⟨rfl, .inr htok⟩)
          | succ k =>
              exact hstep k (fun l u hl => by simp only [valueTokens, hl, htok])
                (fun u => by simp only [parenDepth, htok]) (by simp [htok])
      | comma =>
          cases k with
          | zero => exact hstop (.inr ⟨rfl, .inl htok⟩)
          | succ k =>
              exact hstep (k + 1) (fun l u hl => by simp only [valueTokens, hl, htok])
                (fun u => by simp only [parenDepth, htok]) fun _ => rfl
      | _ =>
          exact hstep k (fun l u hl => by simp only [valueTokens, hl, htok])
            (fun u => by simp only [parenDepth, htok]) fun _ => rfl

/-- Where a value ends is told by what readers see of a token, not by its spelling. -/
theorem Parser.EndsValue.of_role {m : Nat} {w w' : List Located} (h : EndsValue m w)
    (hrole : (headOf w).token.role = (headOf w').token.role) : EndsValue m w' := by
  have heof : (headOf w).token = .eof → (headOf w').token = .eof := by
    intro h
    rw [h] at hrole
    revert hrole
    cases (headOf w').token <;> simp [Token.role]
  have hsign : ∀ s : Token, s.IsSign → (headOf w).token = s → (headOf w').token = s :=
    fun s hs => (Token.eq_sign_of_role hrole hs).mp
  rcases h with (h | h) | ⟨hm, h | h⟩
  · exact .inl (.inl (heof h))
  · exact .inl (.inr (hsign _ trivial h))
  · exact .inr ⟨hm, .inl (hsign _ trivial h)⟩
  · exact .inr ⟨hm, .inr (hsign _ trivial h)⟩

/-- Blanks behind captured text are not part of it. -/
theorem CapturedText.ofTokens_trailing (ts b : List Token)
    (hb : ∀ t ∈ b, t.isWhitespace = true) : ofTokens (ts ++ b) = ofTokens ts := by
  rw [ofTokens, ofTokens, List.foldl_append]
  generalize ts.foldl push {} = captured
  induction b generalizing captured with
  | nil => rfl
  | cons t b ih =>
      obtain ⟨ht, hb⟩ := List.forall_mem_cons.mp hb
      rw [List.foldl_cons, ih hb]
      cases t <;> first | (cases ht; done) | rfl

/-! ## The readers -/

variable {part : List Located}

/-- The tokens that were captured are read back, the blanks aside. -/
theorem Context.Source.lucid_map (h : ctx.Source part) :
    ∀ t ∈ part.map Located.token, t.isWhitespace = false →
      t.Lucid ctx.dialect ctx.options.unescape := by
  intro t ht hblank
  obtain ⟨l, hl, rfl⟩ := List.mem_map.mp ht
  exact h.lucid l hl hblank

/-- What is captured from condensed tokens is what was captured before. -/
theorem Context.Source.ofTokens_condensed (h : ctx.Source part) :
    CapturedText.ofTokens (condensed (part.map Located.token)) =
      CapturedText.ofTokens (part.map Located.token) := by
  have hcondensed : ∀ t ∈ condensed (part.map Located.token), t.isWhitespace = false →
      t.EndsApart := by
    intro t ht hblank
    have hsolid : t ∈ solid (condensed (part.map Located.token)) :=
      List.mem_filter.mpr ⟨ht, by simp [hblank]⟩
    rw [solid_condensed] at hsolid
    exact (h.lucid_map t (List.mem_filter.mp hsolid).1 hblank).endsApart
  rw [CapturedText.ofTokens_eq hcondensed, condensed_condensed,
    CapturedText.ofTokens_eq fun t ht hblank => (h.lucid_map t ht hblank).endsApart]

variable [ctx.dialect.Regular]

/-- The condensed tokens of a part of a text make up the text that is captured from it. -/
theorem Context.Source.prints_captured (h : ctx.Source part) :
    Prints ctx (CapturedText.ofTokens (part.map Located.token))
      (condensed (part.map Located.token)) :=
  .intro (CapturedText.ofTokens_eq fun t ht hblank => (h.lucid_map t ht hblank).endsApart).symm
    fun _ hQ hlegible => legible_condensed
      (fun t ht hblank => (h.lucid_map t ht hblank).spelled) h.chain (fun t => hQ.stopsAt t)
      hlegible

namespace Parser

/-- A captured group is printed with its parentheses, and their number decides where it ends, so
    nothing behind it matters. -/
theorem groupText_echoes : Echoes ctx groupText (fun text P => Prints ctx text P)
    (fun _ => Anything) (Shadows n) := by
  intro c text c' hoverrun hsource hrun
  obtain ⟨hparen, group, hgroup, rfl, rfl⟩ := groupText_ok.mp hrun
  cases hc : c.rest with
  | nil =>
      rw [peek_eq, hc] at hparen
      exact nomatch hparen
  | cons l w =>
      have hl : l.token = .lparen := by rwa [peek_eq, hc] at hparen
      have hnext := next_of_rest_cons hc
      rw [hnext] at hgroup ⊢
      obtain ⟨tail, rfl, -⟩ := groupTokens_front hgroup
      rw [hc] at hsource
      have hpart : ctx.Source (l :: group) := hsource.mono ⟨[], tail, by simp⟩
      -- the text starts with the parenthesis, and the group behind it is condensed
      have hcondensed : condensed ((l :: group).map Located.token)
          = .lparen :: condensedBehind .lparen false (group.map Located.token) := by
        simp [condensed, hl]
      have hprints := hpart.prints_captured
      have htext := hpart.ofTokens_condensed
      rw [hcondensed] at hprints htext
      rw [List.map_cons, hl] at hprints htext
      have hskip : ∀ {o : Nat} {read g k : List Located},
          ((⟨read, g ++ k, o⟩ : Cursor).skip g.length).rest = k.dropWhile Located.isWhitespace :=
        fun {_ _ g k} => by rw [rest, skip, List.drop_left]
      refine ⟨hoverrun, ?_, _, hprints, fun K _ => ⟨?_, fun d hd => ?_⟩⟩
      · rw [hskip]
        exact ((List.dropWhile_suffix _).trans (List.suffix_append _ _)).trans
          (List.suffix_cons l _)
      · rw [coming_of_cons hc, hl]
        simpa using Shadows.sign rfl
      · have hrest := hd.rest
        rw [List.cons_append, List.dropWhile_cons_of_neg (by simp)] at hrest
        obtain ⟨l', w', hd', hl', hw'⟩ := List.map_eq_cons_iff.mp hrest
        -- the cursor that faces the print has the condensed group in front of the rest
        obtain ⟨g, k, rfl, hg, hk⟩ := List.map_eq_append_iff.mp hw'
        have hnext' := next_of_rest_cons hd'
        refine ⟨_, groupText_ok.mpr ⟨?_, g, ?_, rfl, ?_⟩, ?_, ?_⟩
        · rw [peek_eq, hd']
          exact hl'
        · rw [hnext']
          exact groupTokens_condensed hgroup _ _ hg k
        · rw [hg, htext]
        · rw [hnext']
          exact hd.overrun
        · rw [hnext', hskip, map_dropWhile, hk]

/-- What stands behind a value is the same sign in both runs. -/
theorem valueText_echoes : Echoes ctx valueText (fun text P => Prints ctx text P)
    (fun _ => Shadows (n + 1)) (Shadows (n + 1)) := by
  intro c text c' hoverrun hsource hrun
  obtain ⟨hoverrun', hused, hne, htext⟩ := valueText_run hoverrun hrun
  obtain ⟨m, tail, hw, hdepth, hends, -⟩ := valueTokens_front 0 c.rest
  obtain rfl : tail = c'.rest := List.append_cancel_left (hw.symm.trans hused)
  generalize hvalue : valueTokens 0 c.rest = value at *
  have hpart : ctx.Source value := hsource.mono ⟨[], c'.rest, by simp [← hused]⟩
  have hprints := hpart.prints_captured
  have hcaptured := hpart.ofTokens_condensed
  rw [← htext] at hprints hcaptured
  refine ⟨hoverrun', hused ▸ List.suffix_append _ _, _, hprints, fun K hK => ⟨?_, fun d hd => ?_⟩⟩
  · rw [coming, hused, List.map_append, solid_append, solid_append, solid_condensed]
    exact (hK.append _).mono (Nat.le_add_right _ _)
  · have hnil : condensed (value.map Located.token) ≠ [] := by
      intro hnil
      rw [hnil] at hcaptured
      rw [← hcaptured] at hne
      exact absurd hne (by decide)
    have hrest := hd.rest
    rw [dropWhile_condensed _ _ hnil] at hrest
    obtain ⟨w', k, hd', hw', hk⟩ := List.map_eq_append_iff.mp hrest
    -- the blanks behind the value belong to it, and change nothing
    obtain ⟨b, r, hbr, hb, hr⟩ : ∃ b r, k = b ++ r ∧ (∀ t ∈ b, t.isWhitespace = true) ∧
        r = k.dropWhile Located.isWhitespace :=
      ⟨_, _, List.takeWhile_append_dropWhile.symm, fun _ => List.mem_takeWhile_imp, rfl⟩
    have hclean : Clean r := hr ▸ clean_dropWhile _
    have hKr : solid K = solid (r.map Located.token) := by
      rw [← hk, hr, map_dropWhile, solid_dropWhile]
    have hrole := hK.front
    rw [hKr, frontOf_solid hclean, coming, frontOf_solid c'.clean_rest] at hrole
    have hends' : EndsValue m r := hends.of_role hrole
    rw [hbr] at hd'
    have hread : valueTokens 0 (w' ++ (b ++ r)) = w' ++ b :=
      valueTokens_condensed (w := c.rest) (hvalue ▸ hdepth) .lparen false
        (by rw [hw', hvalue, condensed_eq]) hb hends'
    have hagain : CapturedText.ofTokens ((w' ++ b).map Located.token) = text := by
      rw [List.map_append, CapturedText.ofTokens_trailing, hw', hcaptured]
      intro t ht
      obtain ⟨x, hx, rfl⟩ := List.mem_map.mp ht
      exact hb x hx
    have hsplit : d.rest = valueTokens 0 d.rest ++ r := by
      rw [hd', hread, List.append_assoc]
    obtain ⟨d', hrun', hat⟩ := valueText_at ctx (at_rest hd.overrun) hsplit hclean
      (by rw [hd', hread, hagain, hne])
    rw [hd', hread, hagain] at hrun'
    refine ⟨d', hrun', hat.overrun, ?_⟩
    rw [hat.rest, hr, map_dropWhile, hk]

end Parser

end SchemaSql
