import SchemaSql.Proofs.Levels.Comparisons

/-! # Two runs in one text

    Whatever is read or put back, a cursor stays between the tokens of one text.  `inText`
    compares two runs at one place of a text, in dialects and with options that may differ, and
    with what is known of the tokens of that text.  The readers that capture text see nothing
    but tokens (`groupText_tokens`, `valueText_tokens`), so they end alike in it. -/

namespace SchemaSql

open Cursor SchemaSql.Parser Comparison

/-! ## The tokens of a text -/

namespace Cursor

/-- Reading changes nothing about the tokens there are. -/
theorem tokens_next (c : Cursor) : c.next.2.tokens = c.tokens := by
  have hfrom : ∀ unread read, (nextFrom c.overrun read unread).2.tokens
      = read.reverse ++ unread := by
    intro unread
    induction unread with
    | nil => exact fun _ => rfl
    | cons t unread ih =>
        intro read
        rw [nextFrom]
        split
        · rw [ih]
          simp
        · simp [tokens]
  exact hfrom _ _

/-- Nor does reading several tokens at once. -/
theorem tokens_skip (c : Cursor) (n : Nat) : (c.skip n).tokens = c.tokens := by
  simp [skip, tokens, List.append_assoc]

/-- What is looked at is one of the tokens, or the end. -/
theorem peekNth_mem (c : Cursor) (n : Nat) : c.peekNth n ∈ c.tokens ∨ c.peekNth n = .eof := by
  have hsolid : ∀ w n, nthSolid n w ∈ w ∨ nthSolid n w = .eof := by
    intro w
    induction w with
    | nil => exact fun n => .inr (by cases n <;> rfl)
    | cons t w ih =>
        intro n
        have hrest : ∀ m, nthSolid m w ∈ t :: w ∨ nthSolid m w = .eof := fun m =>
          (ih m).imp_left (List.mem_cons_of_mem t)
        cases n with
        | zero =>
            rw [nthSolid]
            split
            · exact hrest 0
            · exact .inl (by simp)
        | succ n =>
            rw [nthSolid]
            split
            · exact hrest (n + 1)
            · exact hrest n
  exact (hsolid c.unread n).imp_left (List.mem_append_right _)

/-- The token that was read stands directly in front of what is left. -/
theorem tokens_read {c : Cursor} (h : c.rest ≠ []) :
    ∃ before, c.tokens = before ++ c.peek :: c.next.2.unread := by
  obtain ⟨t, w, hrest⟩ := List.exists_cons_of_ne_nil h
  refine ⟨((c.unread.takeWhile Located.isWhitespace).reverse ++ c.read).reverse, ?_⟩
  rw [← tokens_next, peek_eq, hrest, next_of_rest_cons hrest, tokens, List.reverse_cons,
    List.append_assoc]
  rfl

end Cursor

/-- Capturing a group leaves the text as it is. -/
theorem groupText_tokens {ctx : Context} {c c' : Cursor} {text : String}
    (h : groupText ctx c = .ok text c') : c'.tokens = c.tokens := by
  rw [groupText_run] at h
  split at h
  · split at h
    · obtain ⟨-, rfl⟩ := EStateM.Result.ok.inj h
      rw [tokens_skip, tokens_next]
    · exact absurd h (by simp)
  · exact absurd h (by simp)

/-- Capturing a value leaves the text as it is. -/
theorem valueText_tokens {ctx : Context} {c c' : Cursor} {text : String}
    (h : valueText ctx c = .ok text c') : c'.tokens = c.tokens := by
  obtain ⟨-, rfl, -⟩ := valueText_ok.mp h
  exact tokens_skip _ _

theorem parseHyphenated_tokens {name : String} {ctx : Context} {c c' : Cursor}
    {o : Option String} (h : Ident.parseHyphenated name ctx c = .ok o c') :
    c'.tokens = c.tokens := by
  rcases Ident.parseHyphenated_ok.mp h with ⟨-, -, rfl⟩ | ⟨m, t, w, part, hunread, -, -, -, rfl⟩
  · rfl
  · simp [Cursor.tokens, hunread]

/-! ## The comparison -/

/-- Two runs at one place of a text, all of whose tokens are fit. -/
def inText (u : List Located) (fit : Located → Prop) (dialects : Dialect → Dialect → Prop)
    (options : Options → Options → Prop) : Comparison where
  cursors c d := Same c d ∧ c.tokens = u
  tokens t t' := t = t' ∧ fit t
  levels := Eq
  errors e o := o = some e
  dialects := dialects
  options := options

namespace inText

variable {u : List Located} {fit : Located → Prop} {dialects : Dialect → Dialect → Prop}
  {options : Options → Options → Prop}

/-- What does not ask for its context does the same in one text. -/
theorem plain {α : Type} {p : Parser α} (hp : Plain p)
    (htokens : ∀ {ctx c v c'}, p ctx c = .ok v c' → c'.tokens = c.tokens) :
    (inText u fit dialects options).Steady p :=
  hp.steady And.left (fun hc hrun => ⟨⟨rfl, hp.overrun hc.1.overrun hrun⟩,
    (htokens hrun).trans hc.2⟩) fun _ => rfl

/-- The primitive readers look at the tokens of the text and at its end. -/
theorem lawful (heof : fit .eof) (hfit : ∀ t ∈ u, fit t) :
    (inText u fit dialects options).Lawful where
  overrun hc := ⟨hc.1.overrun, hc.1.eq ▸ hc.1.overrun⟩
  peekNth {c d} hc n := by
    obtain ⟨⟨rfl, -⟩, rfl⟩ := hc
    refine ⟨rfl, ?_⟩
    rcases peekNth_mem c n with hmem | heq
    · exact hfit _ hmem
    · exact heq ▸ heof
  ends hc := by rw [hc.1.eq]
  next hc hne := ⟨hc.1.next hne, (tokens_next _).trans hc.2⟩
  undo hc _ := ⟨hc.1.undo, (tokens_back _).trans ((tokens_next _).trans hc.2)⟩
  back hc := ⟨hc.1.back, (tokens_back _).trans hc.2⟩
  token ht := congrArg Located.token ht.1
  refuses f _ ht := congrArg some (congrArg f ht.1).symm
  cut he := absurd he (by simp [inText])
  group := plain groupText_plain groupText_tokens
  value := plain valueText_plain valueText_tokens

theorem nesting (h : (inText u fit dialects options).Dialectal) :
    (inText u fit dialects options).Nesting where
  toDialectal := h
  levels {n m} hlevels := by
    obtain rfl : n = m := hlevels
    cases n with
    | zero => exact .inl ⟨rfl, .inl rfl⟩
    | succ n => exact .inr ⟨n, n, rfl, rfl, rfl⟩
  limit := rfl

end inText

end SchemaSql
