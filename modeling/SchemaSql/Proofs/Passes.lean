/-! # Passes — a list gone through by a step that may stop

    A walk tells a visitor of one report after the other, and a printer offers a sink one piece
    after the other.  Both go through a list with a step that has a state and may fail, and a
    failing step ends the pass.

    * `Pass.Takes` says that the step takes a list, and what becomes of its state; a pass then
      goes through (`Takes.run`), or ends at the next element (`Takes.stopped`).
    * `Pass.watched` is the same step, which also keeps what it was given.
    * `Pass.taken_or_stopped`: there is no third way for a pass to end. -/

namespace SchemaSql

namespace Pass

variable {α ε σ : Type} {f : α → EStateM ε σ Unit}

/-- The step takes the elements one after the other, from the one state to the other. -/
inductive Takes (f : α → EStateM ε σ Unit) : List α → σ → σ → Prop where
  | nil (s : σ) : Takes f [] s s
  | cons {x : α} {l : List α} {s mid last : σ} :
      f x s = .ok () mid → Takes f l mid last → Takes f (x :: l) s last

/-- A pass whose step takes everything goes through. -/
theorem Takes.run {l : List α} {s last : σ} (h : Takes f l s last) :
    l.forM f s = .ok () last := by
  induction h with
  | nil s => rfl
  | @cons x l s mid last hx _ ih =>
      show EStateM.bind (f x) (fun _ => l.forM f) s = _
      simp only [EStateM.bind, hx, ih]

/-- A pass whose step fails ends there. -/
theorem Takes.stopped {before : List α} {s mid last : σ} {x : α} {e : ε}
    (h : Takes f before s mid) (hx : f x mid = .error e last) (after : List α) :
    (before ++ x :: after).forM f s = .error e last := by
  induction h with
  | nil s =>
      show EStateM.bind (f x) (fun _ => after.forM f) s = _
      simp only [EStateM.bind, hx]
  | @cons y l s _ _ hy _ ih =>
      show EStateM.bind (f y) (fun _ => (l ++ x :: after).forM f) s = _
      simp only [EStateM.bind, hy, ih hx]

/-- A step that also keeps the elements it was given, the one it failed on included. -/
def watched (f : α → EStateM ε σ Unit) (x : α) : EStateM ε (σ × List α) Unit :=
  fun (s, seen) =>
    match f x s with
    | .ok _ s => .ok () (s, seen ++ [x])
    | .error e s => .error e (s, seen ++ [x])

/-- Watching a step does not change what it takes. -/
theorem Takes.watched {l : List α} {s last : σ} (h : Takes f l s last) (seen : List α) :
    Takes (Pass.watched f) l (s, seen) (last, seen ++ l) := by
  induction h generalizing seen with
  | nil s =>
      rw [List.append_nil]
      exact .nil _
  | @cons x l s mid last hx _ ih =>
      have hstep : Pass.watched f x (s, seen) = .ok () (mid, seen ++ [x]) := by
        simp only [Pass.watched, hx]
      have hrest := ih (seen ++ [x])
      rw [List.append_assoc] at hrest
      exact .cons hstep hrest

/-- A pass whose step takes everything is given everything. -/
theorem watched_taken {l : List α} {s last : σ} (h : Takes f l s last) (seen : List α) :
    l.forM (watched f) (s, seen) = .ok () (last, seen ++ l) :=
  (h.watched seen).run

/-- A pass whose step fails is given nothing behind the element it fails on. -/
theorem watched_stopped {before after : List α} {x : α} {e : ε} {s mid last : σ}
    (h : Takes f before s mid) (hx : f x mid = .error e last) (seen : List α) :
    (before ++ x :: after).forM (watched f) (s, seen) =
      .error e (last, seen ++ (before ++ [x])) := by
  have hstep : watched f x (mid, seen ++ before) =
      .error e (last, seen ++ (before ++ [x])) := by
    simp only [watched, hx, List.append_assoc]
  exact (h.watched seen).stopped hstep after

/-- A step takes a list, or there is a first element that it fails on. -/
theorem taken_or_stopped (f : α → EStateM ε σ Unit) (l : List α) (s : σ) :
    (∃ last, Takes f l s last) ∨
      ∃ before x after mid e last, l = before ++ x :: after ∧ Takes f before s mid ∧
        f x mid = .error e last := by
  induction l generalizing s with
  | nil => exact .inl ⟨s, .nil s⟩
  | cons x l ih =>
      cases hx : f x s with
      | error e last => exact .inr ⟨[], x, l, s, e, last, rfl, .nil s, hx⟩
      | ok _ mid =>
          rcases ih mid with ⟨last, h⟩ | ⟨before, y, after, mid', e, last, rfl, h, hy⟩
          · exact .inl ⟨last, .cons hx h⟩
          · exact .inr ⟨x :: before, y, after, mid', e, last, rfl, .cons hx h, hy⟩

end Pass

end SchemaSql
