import SchemaSql.Proofs.Locality.Loops

/-! # Locality of captured text

    A group in parentheses ends with its own closing parenthesis, so it is local everywhere.
    A value ends in front of a comma or closing parenthesis that is not its own, or where the
    statement ends: it is local where a comma is never the end. -/

namespace SchemaSql

open Cursor

variable {R : Rel}

namespace Parser

/-! ## Groups -/

/-- A group is a front part of the tokens, and does not depend on what stands behind. -/
theorem groupTokens_front {inner : Nat} {w group : List Located}
    (h : groupTokens inner w = some group) :
    ∃ tail, w = group ++ tail ∧ ∀ r, groupTokens inner (group ++ r) = some group := by
  induction w generalizing inner group with
  | nil => simp [groupTokens] at h
  | cons t w ih =>
      -- every arm takes `t` and goes on at a depth that depends on `t` only
      have hstep : ∀ n, (t :: ·) <$> groupTokens n w = some group →
          (∀ u, groupTokens inner (t :: u) = (t :: ·) <$> groupTokens n u) →
          ∃ tail, t :: w = group ++ tail ∧
            ∀ r, groupTokens inner (group ++ r) = some group := by
        intro n hsome heq
        rw [Option.map_eq_map, Option.map_eq_some_iff] at hsome
        obtain ⟨g, hg, rfl⟩ := hsome
        obtain ⟨tail, rfl, hreplay⟩ := ih hg
        refine ⟨tail, rfl, fun r => ?_⟩
        rw [List.cons_append, heq, hreplay r]
        rfl
      cases htok : t.token with
      | eof => simp [groupTokens, htok] at h
      | lparen =>
          simp only [groupTokens, htok] at h
          exact hstep (inner + 1) h fun u => by simp only [groupTokens, htok]
      | rparen =>
          cases inner with
          | zero =>
              simp only [groupTokens, htok] at h
              obtain rfl := Option.some.inj h
              exact ⟨w, rfl, fun r => by simp [groupTokens, htok]⟩
          | succ inner =>
              simp only [groupTokens, htok] at h
              exact hstep inner h fun u => by simp only [groupTokens, htok]
      | _ =>
          simp only [groupTokens, htok] at h
          exact hstep inner h fun u => by simp only [groupTokens, htok]

/-- Blanks in front of a group are captured with it and change nothing else. -/
theorem groupTokens_blanks {b : List Located} (hb : ∀ t ∈ b, t.isWhitespace = true)
    (w : List Located) (inner : Nat) :
    groupTokens inner (b ++ w) = (groupTokens inner w).map (b ++ ·) := by
  induction b with
  | nil => simp
  | cons t b ih =>
      have ht : t.isWhitespace = true := hb t (by simp)
      have hrec := ih fun t ht => hb t (by simp [ht])
      cases heq : t.token <;> simp [Located.isWhitespace, heq, Token.isWhitespace] at ht
      simp only [List.cons_append, groupTokens, heq, hrec, Option.map_eq_map, Option.map_map]
      rfl

/-- What reading a group does. -/
theorem groupText_run (ctx : Context) (c : Cursor) : groupText ctx c =
    if c.peek.token = .lparen then
      match groupTokens 0 c.next.2.unread with
      | some group => .ok (CapturedText.ofTokens (.lparen :: group.map Located.token))
          (c.next.2.skip group.length)
      | none => .error (.expected ")" c.next.2.nextEof.1) c.next.2.nextEof.2
    else .error (.expected Token.lparen.text c.peek) c := by
  simp only [groupText, Parser.bind_apply, expect_run]
  by_cases h : c.peek.token = .lparen
  · simp only [if_pos h]
    show (match groupTokens 0 c.next.2.unread with
      | some group => _
      | none => _ : Parser String) ctx c.next.2 = _
    cases groupTokens 0 c.next.2.unread <;> rfl
  · simp only [if_neg h]

/-- What a successful reading of a group did. -/
theorem groupText_ok {ctx : Context} {c c' : Cursor} {text : String} :
    groupText ctx c = .ok text c' ↔ c.peek.token = .lparen ∧ ∃ group,
      groupTokens 0 c.next.2.unread = some group ∧ c' = c.next.2.skip group.length ∧
      text = CapturedText.ofTokens (.lparen :: group.map Located.token) := by
  rw [groupText_run]
  split
  · rename_i h
    cases groupTokens 0 c.next.2.unread with
    | none => simp
    | some group => simp [h, eq_comm, and_comm]
  · rename_i h
    simp [h]

/-- The closing parenthesis of a group is found in what is read, so nothing behind it matters. -/
theorem groupText_local [Lookahead R] : Local R groupText := by
  intro ctx c text c' h0 h
  obtain ⟨hlp, group, hg, rfl, rfl⟩ := groupText_ok.mp h
  cases hw : c.rest with
  | nil =>
      rw [peek_eq, hw] at hlp
      exact absurd hlp (by simp [headOf, Located.eof])
  | cons t w =>
      have hat : c.At (t :: w) := ⟨h0, hw⟩
      have hnext : ∀ {d : Cursor} {u : List Located}, d.At (t :: u) → d.next.2.unread = u :=
        fun hd => by rw [next_of_rest_cons hd.rest]
      rw [hnext hat] at hg
      obtain ⟨tail, rfl, hreplay⟩ := groupTokens_front hg
      -- wherever the group stands, skipping it leads to what is behind it
      have hskip : ∀ {d : Cursor} {u : List Located}, d.At (t :: (group ++ u)) →
          (d.next.2.skip group.length).At (u.dropWhile Located.isWhitespace) := by
        intro d u hd
        refine ⟨hd.next.2.overrun, ?_⟩
        show (d.next.2.unread.drop group.length).dropWhile _ = _
        rw [hnext hd, List.drop_left]
      refine ⟨(hskip hat).overrun, t :: (group ++ tail.takeWhile Located.isWhitespace), ?_,
        fun r hr d hd => ⟨d.next.2.skip group.length, ?_, ?_⟩⟩
      · rw [(hskip hat).rest, List.cons_append, List.append_assoc,
          List.takeWhile_append_dropWhile]
      · rw [List.cons_append, List.append_assoc] at hd
        refine groupText_ok.mpr ⟨?_, group, ?_, rfl, rfl⟩
        · rw [hd.peek]
          rw [hat.peek] at hlp
          exact hlp
        · rw [hnext hd, hreplay]
      · rw [List.cons_append, List.append_assoc] at hd
        have := hskip hd
        rwa [dropWhile_append_clean (fun t ht => List.mem_takeWhile_imp ht)
          (Lookahead.clean hr (Cursor.clean_rest _))] at this

/-- A group has its closing parenthesis at least. -/
theorem groupText_reads [Lookahead R] : Reads R groupText := by
  refine ⟨groupText_local, fun ctx c text c' h0 h _ => ?_⟩
  obtain ⟨hlp, group, -, rfl, -⟩ := groupText_ok.mp h
  cases hw : c.rest with
  | nil =>
      rw [peek_eq, hw] at hlp
      exact absurd hlp (by simp [headOf, Located.eof])
  | cons t w =>
      have hle := rest_length_le (c.next.2.skip group.length)
      have hdrop : (c.next.2.skip group.length).unread = w.drop group.length := by
        rw [next_of_rest_cons hw]
        rfl
      rw [hdrop, List.length_drop] at hle
      rw [List.length_cons]
      omega

/-! ## Values -/

/-- Blanks in front of a value are captured with it and change nothing else. -/
theorem valueTokens_blanks {b : List Located} (hb : ∀ t ∈ b, t.isWhitespace = true)
    (w : List Located) (inner : Nat) :
    valueTokens inner (b ++ w) = b ++ valueTokens inner w := by
  induction b with
  | nil => rfl
  | cons t b ih =>
      have ht : t.isWhitespace = true := hb t (by simp)
      have hrec := ih fun t ht => hb t (by simp [ht])
      cases heq : t.token <;> simp [Located.isWhitespace, heq, Token.isWhitespace] at ht
      simp [valueTokens, heq, hrec]

/-- The number of groups open behind these tokens, `n` being open in front of them; none if
    one is closed that was never opened. -/
def parenDepth : (n : Nat) → List Located → Option Nat
  | n, [] => some n
  | n, t :: w =>
    match t.token with
    | .lparen => parenDepth (n + 1) w
    | .rparen => match n with
      | 0 => none
      | n + 1 => parenDepth n w
    | _ => parenDepth n w

/-- The depth behind two texts is that of the second, started at that of the first. -/
theorem parenDepth_append (n : Nat) (u v : List Located) :
    parenDepth n (u ++ v) = (parenDepth n u).bind (parenDepth · v) := by
  induction u generalizing n with
  | nil => rfl
  | cons t u ih =>
      rw [List.cons_append]
      cases htok : t.token with
      | rparen => cases n <;> simp [parenDepth, htok, ih]
      | _ => simp [parenDepth, htok, ih]

/-- Groups that are open around a text stay open behind it. -/
theorem parenDepth_add {n m : Nat} {u : List Located} (h : parenDepth n u = some m) (k : Nat) :
    parenDepth (n + k) u = some (m + k) := by
  induction u generalizing n with
  | nil =>
      obtain rfl : n = m := by simpa [parenDepth] using h
      rfl
  | cons t u ih =>
      cases htok : t.token with
      | lparen =>
          simp only [parenDepth, htok] at h ⊢
          rw [Nat.add_right_comm]
          exact ih h
      | rparen =>
          cases n with
          -- the depth does not fall below 0
          | zero => simp [parenDepth, htok] at h
          | succ n =>
              simp only [parenDepth, htok, Nat.add_right_comm n 1 k] at h ⊢
              exact ih h
      | _ =>
          simp only [parenDepth, htok] at h ⊢
          exact ih h

/-- A value with `n` groups open ends in front of these tokens. -/
def EndsValue (n : Nat) (w : List Located) : Prop :=
  ((headOf w).token = .eof ∨ (headOf w).token = .semicolon) ∨
    n = 0 ∧ ((headOf w).token = .comma ∨ (headOf w).token = .rparen)

/-- Where a value ends there is nothing left of it to read. -/
theorem EndsValue.nil_of_ends {n : Nat} {w : List Located} (h : EndsValue n w) :
    valueTokens n w = [] := by
  cases w with
  | nil => rfl
  | cons t w =>
      have htok : headOf (t :: w) = t := rfl
      rw [EndsValue, htok] at h
      rcases h with (h | h) | ⟨rfl, h | h⟩ <;> simp [valueTokens, h]

/-- A value does not end at a blank. -/
theorem EndsValue.clean {n : Nat} {w : List Located} (h : EndsValue n w) : Clean w := by
  cases w with
  | nil => exact clean_nil
  | cons t w =>
      have htok : headOf (t :: w) = t := rfl
      rw [EndsValue, htok] at h
      rcases h with (h | h) | ⟨-, h | h⟩ <;>
        simp [Located.isWhitespace, h, Token.isWhitespace]

/-- A value is a front part of the tokens, and ends there in front of all that ends it. -/
theorem valueTokens_front (n : Nat) (w : List Located) :
    ∃ m tail, w = valueTokens n w ++ tail ∧ parenDepth n (valueTokens n w) = some m ∧
      EndsValue m tail ∧
      ∀ r, EndsValue m r → valueTokens n (valueTokens n w ++ r) = valueTokens n w := by
  induction w generalizing n with
  | nil => exact ⟨n, [], rfl, rfl, .inl (.inl rfl), fun r hr => hr.nil_of_ends⟩
  | cons t w ih =>
      -- the value ends in front of `t` and is empty
      have hstop : EndsValue n (t :: w) → ∃ m tail,
          t :: w = valueTokens n (t :: w) ++ tail ∧
          parenDepth n (valueTokens n (t :: w)) = some m ∧ EndsValue m tail ∧
          ∀ r, EndsValue m r →
            valueTokens n (valueTokens n (t :: w) ++ r) = valueTokens n (t :: w) := by
        intro hends
        rw [hends.nil_of_ends]
        exact ⟨n, t :: w, rfl, rfl, hends, fun r hr => hr.nil_of_ends⟩
      -- the value has `t` in it and goes on at the depth behind `t`
      have hstep : ∀ k, (∀ u, valueTokens n (t :: u) = t :: valueTokens k u) →
          (∀ u, parenDepth n (t :: u) = parenDepth k u) → ∃ m tail,
          t :: w = valueTokens n (t :: w) ++ tail ∧
          parenDepth n (valueTokens n (t :: w)) = some m ∧ EndsValue m tail ∧
          ∀ r, EndsValue m r →
            valueTokens n (valueTokens n (t :: w) ++ r) = valueTokens n (t :: w) := by
        intro k hvalue hdepth
        obtain ⟨m, tail, hw, hm, hends, hreplay⟩ := ih k
        refine ⟨m, tail, ?_, ?_, hends, fun r hr => ?_⟩
        · rw [hvalue, List.cons_append, ← hw]
        · rw [hvalue, hdepth, hm]
        · rw [hvalue, List.cons_append, hvalue, hreplay r hr]
      cases htok : t.token with
      | eof => exact hstop (.inl (.inl htok))
      | semicolon => exact hstop (.inl (.inr htok))
      | lparen =>
          exact hstep (n + 1) (fun u => by simp only [valueTokens, htok])
            fun u => by simp only [parenDepth, htok]
      | rparen =>
          cases n with
          | zero => exact hstop (.inr ⟨rfl, .inr htok⟩)
          | succ n =>
              exact hstep n (fun u => by simp only [valueTokens, htok])
                fun u => by simp only [parenDepth, htok]
      | comma =>
          cases n with
          | zero => exact hstop (.inr ⟨rfl, .inl htok⟩)
          | succ n =>
              exact hstep (n + 1) (fun u => by simp only [valueTokens, htok])
                fun u => by simp only [parenDepth, htok]
      | _ =>
          exact hstep n (fun u => by simp only [valueTokens, htok])
            fun u => by simp only [parenDepth, htok]

end Parser

namespace CapturedText

/-- Blanks in front of captured text are not part of it. -/
theorem ofTokens_blanks (b ts : List Token) (hb : ∀ t ∈ b, t.isWhitespace = true) :
    ofTokens (b ++ ts) = ofTokens ts := by
  induction b with
  | nil => rfl
  | cons t b ih =>
      have ht := hb t (by simp)
      have hrec := ih fun t ht => hb t (by simp [ht])
      cases t <;> simp [Token.isWhitespace] at ht
      exact hrec

end CapturedText

namespace Parser

/-- What a successful reading of a value did. -/
theorem valueText_ok {ctx : Context} {c c' : Cursor} {text : String} :
    valueText ctx c = .ok text c' ↔ text.isEmpty = false ∧
      c' = c.skip (valueTokens 0 c.unread).length ∧
      text = CapturedText.ofTokens ((valueTokens 0 c.unread).map Located.token) := by
  rw [valueText, bind_ok]
  constructor
  · rintro ⟨cur, c1, hget, h⟩
    obtain ⟨rfl, rfl⟩ := get_ok.mp hget
    obtain ⟨_, c2, hmod, h⟩ := bind_ok.mp h
    obtain rfl := modify_ok.mp hmod
    rcases ite_ok.mp h with ⟨-, h⟩ | ⟨hne, h⟩
    · obtain ⟨_, c3, -, h⟩ := bind_ok.mp h
      obtain ⟨_, c4, h, -⟩ := bind_ok.mp h
      exact absurd h expected_ne_ok
    · obtain ⟨rfl, rfl⟩ := pure_ok.mp h
      exact ⟨by simpa using hne, rfl, rfl⟩
  · rintro ⟨hne, rfl, rfl⟩
    refine ⟨c, c, get_ok.mpr ⟨rfl, rfl⟩, bind_ok.mpr ⟨(), _, modify_ok.mpr rfl, ?_⟩⟩
    exact ite_ok.mpr (.inr ⟨by simp [hne], pure_ok.mpr ⟨rfl, rfl⟩⟩)

/-- The tokens of a value, without the blanks in front. -/
theorem valueTokens_unread (c : Cursor) : valueTokens 0 c.unread =
    c.unread.takeWhile Located.isWhitespace ++ valueTokens 0 c.rest := by
  conv => lhs; rw [c.unread_eq]
  exact valueTokens_blanks (fun t ht => List.mem_takeWhile_imp ht) _ _

/-- The same, read off what is left. -/
theorem valueText_at (ctx : Context) {c : Cursor} {w tail : List Located} (hc : c.At w)
    (hw : w = valueTokens 0 w ++ tail) (hclean : Clean tail)
    (hne : (CapturedText.ofTokens ((valueTokens 0 w).map Located.token)).isEmpty = false) :
    ∃ c', valueText ctx c
      = .ok (CapturedText.ofTokens ((valueTokens 0 w).map Located.token)) c' ∧ c'.At tail := by
  have htext : CapturedText.ofTokens ((valueTokens 0 c.unread).map Located.token)
      = CapturedText.ofTokens ((valueTokens 0 w).map Located.token) := by
    rw [valueTokens_unread, hc.rest, List.map_append]
    refine CapturedText.ofTokens_blanks _ _ fun t ht => ?_
    obtain ⟨a, ha, rfl⟩ := List.mem_map.mp ht
    exact List.mem_takeWhile_imp (p := Located.isWhitespace) ha
  refine ⟨_, valueText_ok.mpr ⟨hne, rfl, htext.symm⟩, hc.overrun, ?_⟩
  show (c.unread.drop (valueTokens 0 c.unread).length).dropWhile _ = tail
  have hunread : c.unread = valueTokens 0 c.unread ++ tail := by
    calc c.unread = c.unread.takeWhile Located.isWhitespace ++ w := hc.rest ▸ c.unread_eq
      _ = c.unread.takeWhile Located.isWhitespace ++ valueTokens 0 w ++ tail := by
          rw [List.append_assoc, ← hw]
      _ = valueTokens 0 c.unread ++ tail := by rw [valueTokens_unread, hc.rest]
  conv => lhs; arg 2; arg 2; rw [hunread]
  rw [List.drop_left, dropWhile_of_clean hclean]

/-- The value is the text of all tokens up to where it ends, and there are some. -/
theorem valueText_run {ctx : Context} {c c' : Cursor} {text : String} (h0 : c.overrun = 0)
    (h : valueText ctx c = .ok text c') :
    c'.overrun = 0 ∧ c.rest = valueTokens 0 c.rest ++ c'.rest ∧ text.isEmpty = false ∧
      text = CapturedText.ofTokens ((valueTokens 0 c.rest).map Located.token) := by
  obtain ⟨m, tail, hw, -, hends, -⟩ := valueTokens_front 0 c.rest
  obtain ⟨hne, -, htext⟩ := valueText_ok.mp h
  have htext' : text = CapturedText.ofTokens ((valueTokens 0 c.rest).map Located.token) := by
    rw [htext, valueTokens_unread, List.map_append]
    refine CapturedText.ofTokens_blanks _ _ fun t ht => ?_
    obtain ⟨a, ha, rfl⟩ := List.mem_map.mp ht
    exact List.mem_takeWhile_imp (p := Located.isWhitespace) ha
  obtain ⟨c1, hrun, hat⟩ :=
    valueText_at ctx (at_rest h0) hw hends.clean (htext' ▸ hne)
  obtain ⟨-, rfl⟩ := EStateM.Result.ok.inj (h.symm.trans hrun)
  exact ⟨hat.overrun, by rw [hat.rest]; exact hw, hne, htext'⟩

/-- A value replays in front of all that ends it. -/
theorem valueText_replay {ctx : Context} {c c' : Cursor} {text : String} (h0 : c.overrun = 0)
    (h : valueText ctx c = .ok text c') : c'.overrun = 0 ∧ ∃ used m,
      c.rest = used ++ c'.rest ∧ parenDepth 0 used = some m ∧ EndsValue m c'.rest ∧
      ∀ r, EndsValue m r → ∀ d : Cursor, d.At (used ++ r) →
        ∃ d', valueText ctx d = .ok text d' ∧ d'.At r := by
  obtain ⟨h1, hused, hne, htext⟩ := valueText_run h0 h
  obtain ⟨m, tail, hw, hm, hends, hreplay⟩ := valueTokens_front 0 c.rest
  obtain rfl : tail = c'.rest := List.append_cancel_left (hw.symm.trans hused)
  refine ⟨h1, valueTokens 0 c.rest, m, hused, hm, hends, fun r hr d hd => ?_⟩
  have hvalue := hreplay r hr
  obtain ⟨d', hd', hat⟩ := valueText_at ctx hd (by rw [hvalue]) hr.clean
    (by rw [hvalue, ← htext]; exact hne)
  rw [hvalue, ← htext] at hd'
  exact ⟨d', hd', hat⟩

/-- Where a comma is never the end, both rests end a value at the same token. -/
theorem valueText_local [CommaAware R] : Local R valueText := by
  intro ctx c text c' h0 h
  obtain ⟨h1, used, m, hused, -, hends, hreplay⟩ := valueText_replay h0 h
  refine ⟨h1, used, hused, fun r hr => hreplay r ?_⟩
  rcases CommaAware.mark hr with heq | ⟨-, hm⟩
  · rwa [EndsValue, ← heq]
  · exact .inl hm

theorem valueText_reads [CommaAware R] : Reads R valueText := by
  refine ⟨valueText_local, fun ctx c text c' h0 h _ => ?_⟩
  obtain ⟨-, hused, hne, htext⟩ := valueText_run h0 h
  rw [hused, List.length_append]
  cases hv : valueTokens 0 c.rest with
  | nil =>
      rw [hv] at htext
      subst htext
      exact absurd hne (by decide)
  | cons t v =>
      rw [List.length_cons]
      omega

end Parser

end SchemaSql
