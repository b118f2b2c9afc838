import SchemaSql.Proofs.Levels.Bound

/-! # Levels of nesting — the limit is a threshold

    For every text there is a number of levels below which it is refused because the nesting is
    too deep, and from which on the limit makes no difference.  That higher limits change
    nothing is a comparison of two runs (`parseAll_deeper`); that some limit is high enough is a
    bound by the number of tokens (`parseAll_spared`). -/

namespace SchemaSql

open Cursor SchemaSql.Parser Comparison

/-! ## The threshold -/

namespace Parser

/-- What a step gave. -/
def Step.outcome {α : Type} : EStateM.Result ParseError State α → Except ParseError α
  | .ok v _ => .ok v
  | .error e _ => .error e

/-- The counter of a reader that starts with `levels` levels left: the limit is where it starts
    from, and where it ends, with a value or with an error. -/
theorem step_ofTokens {α : Type} (p : Parser α) (settings : Settings) (u : List Located)
    (levels : Nat) :
    Step.outcome (p.step settings ⟨.ofTokens u, levels⟩) =
      p.runTokens { settings with depth := levels } u ∧
    (Step.final (p.step settings ⟨.ofTokens u, levels⟩)).remaining = levels := by
  refine ⟨?_, p.restores settings ⟨.ofTokens u, levels⟩⟩
  rw [runTokens, run]
  cases p.step settings ⟨.ofTokens u, levels⟩ <;> rfl

end Parser

namespace Statement

/-- With more levels a text is read in the same way, unless the limit was what it was refused
    for. -/
theorem parseAll_deeper (ctx : Context) (u : List Located) {n m : Nat} (h : n ≤ m)
    (hn : parseAll.runTokens { ctx with depth := n } u ≠ .error .recursionLimitExceeded) :
    parseAll.runTokens { ctx with depth := m } u
      = parseAll.runTokens { ctx with depth := n } u := by
  have hruns := parseAll_steady (K := deeper) { ctx with depth := n } { ctx with depth := m }
    (.ofTokens u) (.ofTokens u) ⟨rfl, rfl, h⟩ ⟨rfl, rfl⟩
  rw [runTokens] at hn
  rw [runTokens, runTokens]
  generalize parseAll { ctx with depth := n } (.ofTokens u) = r at hruns hn ⊢
  generalize parseAll { ctx with depth := m } (.ofTokens u) = s at hruns ⊢
  -- both runs give one value, or one error unless the first has run out of levels
  rcases hruns with ⟨rfl, -⟩ | ⟨rfl | heq⟩ | ⟨rfl | heq⟩
  · rfl
  · exact absurd rfl hn
  · obtain rfl := Option.some.inj heq
    rfl
  · exact absurd rfl hn
  · exact absurd heq (by simp)

/-- Below some number of levels, which is at most two more than the number of tokens, a text is
    refused for its depth; from there on the limit makes no difference.  However the text ends,
    the counter of levels is back at the limit. -/
theorem parseAll_threshold (ctx : Context) (u : List Located) :
    ∃ D ≤ solids u + 2,
      (∀ n < D, parseAll.runTokens { ctx with depth := n } u = .error .recursionLimitExceeded) ∧
      (∃ r, r ≠ .error .recursionLimitExceeded ∧
        ∀ n ≥ D, parseAll.runTokens { ctx with depth := n } u = r) ∧
      ∀ n, Step.outcome (parseAll.step ctx.toSettings ⟨.ofTokens u, n⟩) =
          parseAll.runTokens { ctx with depth := n } u ∧
        (Step.final (parseAll.step ctx.toSettings ⟨.ofTokens u, n⟩)).remaining = n := by
  -- every level is paid for by a token, up to the statement's own and one more
  have hbound : parseAll.runTokens { ctx with depth := solids u + 2 } u
      ≠ .error .recursionLimitExceeded := by
    have hstart : solids (ofTokens u).rest ≤ solids u := (solids_dropWhile u).le
    have hspared : Spared { ctx with depth := solids u + 2 } (solids u) parseAll :=
      parseAll_spared le_rfl
    rw [runTokens]
    cases hrun : parseAll { ctx with depth := solids u + 2 } (.ofTokens u) with
    | ok v c' => simp
    | error e c' =>
        rintro ⟨⟩
        exact hspared _ rfl hstart c' hrun
  classical
  -- the threshold is the least limit under which the text is not refused for its depth
  have hex : ∃ n, parseAll.runTokens { ctx with depth := n } u ≠ .error .recursionLimitExceeded :=
    ⟨_, hbound⟩
  refine ⟨Nat.find hex, Nat.find_min' hex hbound, fun n hn => not_not.mp (Nat.find_min hex hn),
    ⟨_, Nat.find_spec hex, fun n hn => parseAll_deeper ctx u hn (Nat.find_spec hex)⟩,
    fun n => parseAll.step_ofTokens ctx.toSettings u n⟩

end Statement

end SchemaSql
