import SchemaSql.Parser.Step

/-! # The counter of levels — every level that is taken is given back

    Statements, queries, expressions and data types share one counter, and each takes a level
    from it while it is read.  A step `Restores` the counter if it leaves as many levels as it
    found, with a value or with an error:

    * each operation restores the counter if the steps that it is put together from do
      (`Restores.bind`, `Restores.recover`); the one that takes a level gives it back on both
      ways out of its body (`guarded_succ`, `Restores.guarded`);
    * by induction on how a step is built, so does every reader (`Built.restores`,
      `Parser.restores`), and none can keep a level for itself (`not_built_takeLevel`). -/

namespace SchemaSql.Parser

variable {α β : Type}

namespace Step

/-! ## Holding a level -/

/-- If no level is left, the body does not run. -/
theorem guarded_zero (body : Step α) (settings : Settings) (c : Cursor) :
    guarded body settings ⟨c, 0⟩ = .error .recursionLimitExceeded ⟨c, 0⟩ := rfl

/-- Otherwise it runs with one level less, and the level is given back behind it, with its value
    or with its error. -/
theorem guarded_succ (body : Step α) (settings : Settings) (c : Cursor) (levels : Nat) :
    guarded body settings ⟨c, levels + 1⟩ =
      match body settings ⟨c, levels⟩ with
      | .ok a state => .ok a { state with remaining := state.remaining + 1 }
      | .error e state => .error e { state with remaining := state.remaining + 1 } := by
  show (Prod.fst <$> tryFinally' (body settings) fun _ => giveBack settings) ⟨c, levels⟩ = _
  simp only [tryFinally', Functor.map, EStateM.map]
  cases body settings ⟨c, levels⟩ <;> rfl

/-! ## One operation -/

/-- The state that a step ended in, with a value or with an error. -/
def final : EStateM.Result ParseError State α → State
  | .ok _ state => state
  | .error _ state => state

/-- However the step ends, as many levels are left as in front of it. -/
def Restores (p : Step α) : Prop :=
  ∀ settings state, (final (p settings state)).remaining = state.remaining

namespace Restores

theorem pure (a : α) : Restores (Pure.pure a) := fun _ _ => rfl

/-- An error leaves the counter as it is. -/
theorem throw (e : ParseError) : Restores (MonadExcept.throw e : Step α) := fun _ _ => rfl

theorem read : Restores (MonadReader.read : Step Settings) := fun _ _ => rfl

theorem remaining : Restores Step.remaining := fun _ _ => rfl

/-- The operations on the place do not reach the counter. -/
theorem move (f : Cursor → α × Cursor) : Restores (Step.move f) := fun _ _ => rfl

/-- Two steps that restore the counter do so one behind the other, and if the first ends in an error
    then the second is not run. -/
theorem bind {p : Step α} {f : α → Step β} (hp : p.Restores) (hf : ∀ a, (f a).Restores) :
    Restores (p >>= f) := by
  intro settings state
  have hp := hp settings state
  simp only [Bind.bind, ReaderT.bind, EStateM.bind]
  cases hrun : p settings state with
  | ok a state' => exact (hf a settings state').trans (by simpa [hrun, final] using hp)
  | error e state' => simpa [hrun, final] using hp

/-- A handler starts at the counter that the failed step has restored. -/
theorem recover {p : Step α} {handler : ParseError → Step α} (hp : p.Restores)
    (hh : ∀ e, (handler e).Restores) : Restores (p.recover handler) := by
  intro settings state
  have hp := hp settings state
  rw [Step.recover]
  cases hrun : p settings state with
  | ok a state' => simpa [hrun, final] using hp
  | error e state' => exact (hh e settings state').trans (by simpa [hrun, final] using hp)

/-- What the body restores to one level less, the level that is given back completes. -/
theorem guarded {body : Step α} (h : body.Restores) : Restores (Step.guarded body) := by
  rintro settings ⟨c, levels⟩
  cases levels with
  | zero => rw [guarded_zero]; rfl
  | succ levels =>
      have hbody := h settings ⟨c, levels⟩
      rw [guarded_succ]
      cases hrun : body settings ⟨c, levels⟩ with
      | ok a state => simpa [hrun, final] using hbody
      | error e state => simpa [hrun, final] using hbody

end Restores

/-! ## Whole readers -/

/-- By induction on how the step is put together, with the lemma of each operation. -/
theorem Built.restores {p : Step α} (h : Built p) : p.Restores := by
  induction h with
  | pure a => exact .pure a
  | bind _ _ first rest => exact first.bind rest
  | throw e => exact .throw e
  | recover _ _ inside handled => exact inside.recover handled
  | read => exact .read
  | remaining => exact .remaining
  | move f => exact .move f
  | guarded _ inside => exact inside.guarded

/-- A level that is taken and not given back is missing, so no reader takes one and keeps it. -/
theorem not_built_takeLevel : ¬ takeLevel.Built := fun h =>
  absurd (h.restores { dialect := .generic } ⟨.ofTokens [], 1⟩) (by decide)

end Step

/-- Whatever a reader does, the levels that it started with are left behind it. -/
theorem restores (p : Parser α) : p.step.Restores := p.built.restores

end SchemaSql.Parser
