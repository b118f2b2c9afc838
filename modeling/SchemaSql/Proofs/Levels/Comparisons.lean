import SchemaSql.Proofs.Comparison.Statements

/-! # Two runs at one place with different limits

    * `deeper` compares a run with one that has more levels left: either the first is cut short
      by its limit, or both end in the same way.
    * `unlimited` compares runs with any limits, of readers that know no levels: they never end
      because of the limit.

    The readers that see blanks neither ask for their context nor fail for the limit
    (`Plain`). -/

namespace SchemaSql

open Cursor SchemaSql.Parser Comparison

/-! ## One place -/

/-- Cursors that are the same, and have not run over the end. -/
structure Same (c d : Cursor) : Prop where
  eq      : c = d
  overrun : c.overrun = 0

namespace Same

variable {c d : Cursor}

theorem next (h : Same c d) (hne : c.rest ≠ []) : Same c.next.2 d.next.2 := by
  obtain ⟨t, w, hc⟩ := List.exists_cons_of_ne_nil hne
  exact ⟨by rw [h.eq], (At.next ⟨h.overrun, hc⟩).2.overrun⟩

theorem undo (h : Same c d) : Same c.next.2.back d.next.2.back :=
  ⟨by rw [h.eq], (at_rest h.overrun).next_back.overrun⟩

/-- One token is put back in both runs. -/
theorem back (h : Same c d) : Same c.back d.back := by
  refine ⟨by rw [h.eq], ?_⟩
  rw [back_of_overrun_zero h.overrun]
  exact (backFrom_eq _ _).2.2

end Same

/-- Two runs at one place, which may have different limits and end in the same way; `errors`
    says what else may happen when the first ends with an error. -/
def onward (levels : Nat → Nat → Prop) (errors : ParseError → Option ParseError → Prop) :
    Comparison where
  cursors := Same
  tokens  := Eq
  levels  := levels
  errors  := errors

/-- A reader that does not ask for its context, and whose errors are about tokens. -/
structure Plain {α : Type} (p : Parser α) : Prop where
  context : ∀ ctx ctx', p ctx = p ctx'
  overrun : ∀ {ctx c v c'}, c.overrun = 0 → p ctx c = .ok v c' → c'.overrun = 0
  error   : ∀ {ctx c e c'}, p ctx c = .error e c' → e.kind = .syntactic

/-- A group is captured without asking for the context, and its end may be missing. -/
theorem groupText_plain : Plain groupText where
  context _ _ := funext fun c => by rw [groupText_run, groupText_run]
  overrun h0 h := (groupText_local (R := Follow StatementEnd) _ _ _ _ h0 h).1
  error h := by
    rw [groupText_run] at h
    split at h
    · split at h
      · exact absurd h (by simp)
      · obtain ⟨rfl, -⟩ := EStateM.Result.error.inj h
        rfl
    · obtain ⟨rfl, -⟩ := EStateM.Result.error.inj h
      rfl

/-- A value is captured without asking for the context, and may be missing. -/
theorem valueText_plain : Plain valueText where
  context ctx ctx' := funext fun c => by
    rw [valueText, bind_run (get_ok.mpr ⟨rfl, rfl⟩), bind_run (get_ok.mpr ⟨rfl, rfl⟩),
      bind_run (modify_ok (v := ⟨⟩).mpr rfl), bind_run (modify_ok (v := ⟨⟩).mpr rfl)]
    dsimp only
    split <;> rfl
  overrun h0 h := (valueText_local (R := Follow StatementEnd) _ _ _ _ h0 h).1
  error h := by
    rw [valueText, bind_run (get_ok.mpr ⟨rfl, rfl⟩), bind_run (modify_ok (v := ⟨⟩).mpr rfl)] at h
    dsimp only at h
    split at h
    · obtain ⟨rfl, -⟩ := EStateM.Result.error.inj h
      rfl
    · exact absurd h pure_ne_error

/-- Parts of a hyphenated name are read without asking for the context. -/
theorem parseHyphenated_plain (name : String) : Plain (Ident.parseHyphenated name) where
  context ctx ctx' := funext fun c => by
    by_cases hno : Ident.NoHyphen c.unread
    · rw [Ident.parseHyphenated_none hno, Ident.parseHyphenated_none hno]
    · obtain ⟨m, w, hw, hm⟩ := Ident.hyphen_of_not_noHyphen hno
      rw [Ident.parseHyphenated_some hw hm, Ident.parseHyphenated_some hw hm, Ident.afterHyphen]
      cases Ident.hyphenPart (headOf w) <;> rfl
  overrun {_ c _ _} h0 h := by
    rcases Ident.parseHyphenated_ok.mp h with ⟨-, -, rfl⟩ | ⟨m, t, w, part, -, -, -, -, rfl⟩
    · exact h0
    · exact h0
  error {_ c _ _} h := by
    by_cases hno : Ident.NoHyphen c.unread
    · rw [Ident.parseHyphenated_none hno] at h
      exact absurd h (by simp)
    · obtain ⟨m, w, hw, hm⟩ := Ident.hyphen_of_not_noHyphen hno
      rw [Ident.parseHyphenated_some hw hm, Ident.afterHyphen] at h
      cases hpart : Ident.hyphenPart (headOf w) with
      | some part =>
          rw [hpart] at h
          exact absurd h pure_ne_error
      | none =>
        rw [hpart] at h
        obtain ⟨rfl, -⟩ := EStateM.Result.error.inj h
        rfl

/-- Such a reader ends alike in two runs at one place, if what it leaves behind it is a place
    that is like itself. -/
theorem Plain.steady {K : Comparison} {α : Type} {p : Parser α} (h : Plain p)
    (hsame : ∀ {c d}, K.cursors c d → Same c d)
    (hafter : ∀ {ctx c v c'}, K.cursors c c → p ctx c = .ok v c' → K.cursors c' c')
    (hkeep : ∀ {e : ParseError}, e.kind = .syntactic → K.errors e (some e)) : K.Steady p := by
  intro ctx ctx' c d _ hc
  obtain rfl := (hsame hc).eq
  rw [h.context ctx' ctx]
  cases hrun : p ctx c with
  | ok v c' => exact .ok rfl (hafter hc hrun)
  | error e c' => exact .error (hkeep (h.error hrun))

variable {levels : Nat → Nat → Prop} {errors : ParseError → Option ParseError → Prop}

/-- What does not ask for its context does the same under every limit. -/
theorem onward.plain {α : Type} {p : Parser α} (h : Plain p)
    (hkeep : ∀ {e : ParseError}, e.kind = .syntactic → errors e (some e)) :
    (onward levels errors).Steady p :=
  h.steady id (fun hc hrun => ⟨rfl, h.overrun hc.overrun hrun⟩) hkeep

/-- The primitive readers know no levels, and their errors are about tokens. -/
theorem onward.lawful (hcut : ∀ {e}, errors e none → ∀ o, errors e o)
    (hkeep : ∀ {e : ParseError}, e.kind = .syntactic → errors e (some e)) :
    (onward levels errors).Lawful where
  overrun h := ⟨h.overrun, h.eq ▸ h.overrun⟩
  peekNth h n := by
    obtain ⟨rfl, -⟩ := h
    exact rfl
  ends h := by rw [h.eq]
  next h := h.next
  undo h _ := h.undo
  back h := h.back
  token h := congrArg Located.token h
  refuses f hf h := by
    obtain rfl := h
    exact hkeep (hf _)
  cut := hcut
  group := onward.plain groupText_plain hkeep
  value := onward.plain valueText_plain hkeep

/-- The dialect is the same in both runs. -/
theorem onward.dialectal (hcut : ∀ {e}, errors e none → ∀ o, errors e o)
    (hkeep : ∀ {e : ParseError}, e.kind = .syntactic → errors e (some e)) :
    (onward levels errors).Dialectal where
  toLawful := onward.lawful hcut hkeep
  ident :=
    have : (onward levels errors).Lawful := onward.lawful hcut hkeep
    Ident.parse_steady_of_hyphens (fun _ _ h => h) fun name =>
      onward.plain (parseHyphenated_plain name) hkeep
  pipes h := .inl (congrArg Dialect.pipeOperators h)
  synonyms h := .inl (congrArg Dialect.synonyms h)

theorem onward.listing : (onward levels errors).Listing where
  trailing h := congrArg Options.trailingCommas h

/-! ## More levels -/

/-- Runs of which the second has at least as many levels left: the first may end because it has
    no more. -/
def deeper : Comparison :=
  onward (· ≤ ·) fun e o => e = .recursionLimitExceeded ∨ o = some e

instance : deeper.Nesting where
  toDialectal := onward.dialectal (fun h _ => .inl (h.resolve_right (by simp))) fun _ => .inr rfl
  levels {n m} h := by
    cases n with
    | zero => exact .inl ⟨rfl, .inr (.inl rfl)⟩
    | succ n =>
        have hm : n + 1 ≤ m := h
        exact .inr ⟨n, m - 1, rfl, by omega, by show n ≤ m - 1; omega⟩
  limit := .inl rfl

instance : deeper.Listing := onward.listing

/-- Runs that never end because of the limit, whatever it is. -/
def unlimited : Comparison :=
  onward (fun _ _ => True) fun e o => e ≠ .recursionLimitExceeded ∧ o = some e

instance : unlimited.Dialectal :=
  onward.dialectal (fun h => absurd h.2 (by simp)) fun {e} he =>
    ⟨fun h => by simp [h, ParseError.kind] at he, rfl⟩

instance : unlimited.Listing := onward.listing

end SchemaSql
