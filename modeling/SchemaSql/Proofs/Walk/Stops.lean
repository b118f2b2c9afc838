import SchemaSql.Proofs.Passes
import SchemaSql.Proofs.Walk

/-! # Stops — walks nest, and a walk that is stopped is over

    The reports of a walk through statements come in pairs, one that enters a node and one that
    leaves it, and two pairs are either apart or one inside the other.  A visitor that stops the
    walk is told of nothing more.

    * `Bracketing` says what the pairs are, by the indexes of the reports.
    * `Balanced.bracketing` finds the pairs of reports that are balanced.
    * `Statement.walkAll_eq` turns a walk through statements into a pass over its reports.
    * `Statement.walkAll_stops` is the result. -/

namespace SchemaSql

/-! ## The pairs of balanced reports -/

/-- Two pairs of indexes are apart, or one lies inside the other. -/
def Clear (p q : Nat × Nat) : Prop :=
  p.2 < q.1 ∨ q.2 < p.1 ∨ (p.1 < q.1 ∧ q.2 < p.2) ∨ (q.1 < p.1 ∧ p.2 < q.2)

/-- Reports, the first of which has the index `i`, in pairs of one that enters a node and one
    that leaves it. -/
structure Bracketing (i : Nat) (events : List Event) (pairs : List (Nat × Nat)) : Prop where
  /-- The two reports of a pair enter and leave the same node. -/
  matched : ∀ p ∈ pairs, ∃ n before inside after,
    events = before ++ .enter n :: inside ++ .leave n :: after ∧
      i + before.length = p.1 ∧ p.1 + inside.length + 1 = p.2
  /-- Every report belongs to one pair, and to no other. -/
  covers  : (pairs.flatMap fun p => [p.1, p.2]).Perm (List.range' i events.length)
  nested  : pairs.Pairwise Clear

namespace Bracketing

variable {i : Nat} {events : List Event} {pairs : List (Nat × Nat)}

/-- A pair lies among the reports. -/
theorem bounds (h : Bracketing i events pairs) :
    ∀ p ∈ pairs, i ≤ p.1 ∧ p.1 < p.2 ∧ p.2 < i + events.length := by
  intro p hp
  obtain ⟨n, before, inside, after, heq, hi, hj⟩ := h.matched p hp
  have hlen : events.length = before.length + (inside.length + 1) + (after.length + 1) := by
    rw [heq, List.length_append, List.length_append, List.length_cons, List.length_cons]
  omega

/-- Reports of what is inside a node and of what is behind it, with those of the node itself. -/
theorem node {inside rest : List Event} {within behind : List (Nat × Nat)} (n : Node)
    (h : Bracketing (i + 1) inside within)
    (h' : Bracketing (i + inside.length + 2) rest behind) :
    Bracketing i (.enter n :: inside ++ .leave n :: rest)
      ((i, i + inside.length + 1) :: within ++ behind) where
  matched := by
    intro p hp
    simp only [List.cons_append, List.mem_cons, List.mem_append] at hp
    rcases hp with rfl | hp | hp
    · exact ⟨n, [], inside, rest, rfl, rfl, rfl⟩
    · obtain ⟨n', before, inner, after, rfl, hi, hj⟩ := h.matched p hp
      refine ⟨n', .enter n :: before, inner, after ++ .leave n :: rest, by simp, ?_, hj⟩
      rw [List.length_cons]; omega
    · obtain ⟨n', before, inner, after, rfl, hi, hj⟩ := h'.matched p hp
      refine ⟨n', .enter n :: inside ++ .leave n :: before, inner, after, by simp, ?_, hj⟩
      rw [List.length_append, List.length_cons, List.length_cons]; omega
  covers := by
    -- the indices are the two of the node, those inside and those behind
    have hrange : List.range' i (Event.enter n :: inside ++ Event.leave n :: rest).length =
        i :: (List.range' (i + 1) inside.length ++
          (i + inside.length + 1) :: List.range' (i + inside.length + 2) rest.length) := by
      have hlen : (Event.enter n :: inside ++ Event.leave n :: rest).length =
          (inside.length + (rest.length + 1)) + 1 := by simp
      have hmid : i + 1 + inside.length = i + inside.length + 1 := by omega
      rw [hlen, List.range'_succ, ← List.range'_append_1, hmid, List.range'_succ]
    rw [hrange]
    simp only [List.cons_append, List.flatMap_cons, List.flatMap_append, List.nil_append]
    exact ((List.Perm.append h.covers h'.covers).cons _ |>.trans List.perm_middle.symm).cons _
  nested := by
    simp only [List.cons_append, List.pairwise_cons, List.pairwise_append, List.mem_append]
    refine ⟨?_, h.nested, h'.nested, ?_⟩
    -- the node encloses the pairs inside it and stands in front of those behind it
    · rintro q (hq | hq)
      · have hb := h.bounds q hq
        exact .inr (.inr (.inl ⟨by simp only; omega, by simp only; omega⟩))
      · have hb := h'.bounds q hq
        exact .inl (by simp only; omega)
    · intro p hp q hq
      have hb := h.bounds p hp
      have hb' := h'.bounds q hq
      exact .inl (by omega)

end Bracketing

/-- Balanced reports pair each one that enters with the one that leaves the same node. -/
theorem Balanced.bracketing {events : List Event} (h : Balanced events) (i : Nat) :
    ∃ pairs, Bracketing i events pairs := by
  induction h generalizing i with
  | nil => exact ⟨[], by simp, by simp, .nil⟩
  | node n _ _ ih ih' =>
      obtain ⟨within, hwithin⟩ := ih (i + 1)
      obtain ⟨behind, hbehind⟩ := ih' _
      exact ⟨_, hwithin.node n hbehind⟩

/-- One walk behind another is balanced if each of them is. -/
theorem Balanced.append {P Q : List Event} (hP : Balanced P) (hQ : Balanced Q) :
    Balanced (P ++ Q) := by
  induction hP with
  | nil => exact hQ
  | node n hinside _ _ ih =>
      rw [List.append_assoc, List.cons_append]
      exact .node n hinside ih

/-! ## A walk through statements -/

namespace Statement

/-- A walk through statements is a pass over the reports of their outlines. -/
theorem walkAll_outlines {m : Type → Type} [Monad m] [LawfulMonad m] (visit : Event → m Unit)
    (statements : List Statement) :
    walkAll visit statements = forM (statements.flatMap fun s => s.outline.events) visit := by
  induction statements with
  | nil => rfl
  | cons s statements ih =>
      rw [List.flatMap_cons, List.forM_append, ← s.walk_eq, ← ih]
      rfl

/-- The reports of a list of statements are those of their outlines. -/
theorem traceAll_outlines (statements : List Statement) :
    traceAll statements = statements.flatMap fun s => s.outline.events := by
  rw [traceAll, walkAll_outlines, Event.recorded_forM]

/-- A walk through statements tells the visitor of everything it reports, in order. -/
theorem walkAll_eq {m : Type → Type} [Monad m] [LawfulMonad m] (visit : Event → m Unit)
    (statements : List Statement) :
    walkAll visit statements = (traceAll statements).forM visit := by
  rw [walkAll_outlines, traceAll_outlines]
  rfl

/-- All that is entered in a list of statements is left in it. -/
theorem traceAll_balanced (statements : List Statement) : Balanced (traceAll statements) := by
  rw [traceAll_outlines]
  induction statements with
  | nil => exact .nil
  | cons s statements ih => exact s.outline.events_balanced.append ih

/-- The reports of a walk are properly nested.  A visitor that stops the walk at one of them
    has been told of the reports up to this one and ends the walk with its result; one that
    does not stop is told of all of them. -/
theorem walkAll_stops (statements : List Statement) :
    (∃ pairs, Bracketing 0 (traceAll statements) pairs) ∧
      ∀ {σ β : Type} (visit : Event → EStateM β σ Unit) (s : σ),
        (∀ (k : Nat) (event : Event) (mid last : σ) (b : β), 1 ≤ k →
          (traceAll statements)[k - 1]? = some event →
          Pass.Takes visit ((traceAll statements).take (k - 1)) s mid →
          visit event mid = .error b last →
          walkAll (Pass.watched visit) statements (s, []) =
            .error b (last, (traceAll statements).take k)) ∧
        (∀ last : σ, Pass.Takes visit (traceAll statements) s last →
          walkAll (Pass.watched visit) statements (s, []) =
            .ok () (last, traceAll statements)) := by
  refine ⟨(traceAll_balanced statements).bracketing 0, fun visit s => ⟨?_, ?_⟩⟩
  · intro k event mid last b hk hevent htakes hstop
    obtain ⟨k, rfl⟩ : ∃ n, k = n + 1 := ⟨k - 1, by omega⟩
    rw [Nat.add_sub_cancel] at hevent htakes
    obtain ⟨hlt, hget⟩ := List.getElem?_eq_some_iff.mp hevent
    -- the events up to the one that stops the walk, and the rest
    have hsplit : traceAll statements = (traceAll statements).take k ++ event ::
        (traceAll statements).drop (k + 1) := by
      rw [← hget, ← List.drop_eq_getElem_cons hlt, List.take_append_drop]
    have htake : (traceAll statements).take (k + 1) =
        (traceAll statements).take k ++ [event] := by
      rw [List.take_add_one, hevent]
      rfl
    rw [walkAll_eq, hsplit, Pass.watched_stopped htakes hstop, ← hsplit, htake, List.nil_append]
  · intro last htakes
    rw [walkAll_eq, Pass.watched_taken htakes, List.nil_append]

/-- `FROM t; FROM u`, walked through by a visitor that counts and stops at the second report. -/
theorem walkAll_second :
    let query (name : String) : Statement := .query { body := .from { name := .simple name } }
    let visit : Event → EStateM String Nat Unit := fun _ n =>
      if n = 1 then .error "second" n else .ok () (n + 1)
    walkAll (Pass.watched visit) [query "t", query "u"] (0, []) =
      .error "second" (1, [.enter (.statement (query "t")), .enter (.relation (.simple "t"))]) :=
  ((walkAll_stops _).2 _ 0).1 2 (.enter (.relation (.simple "t"))) 1 1 "second" (by decide) rfl
    (.cons rfl (.nil 1)) rfl

end Statement

end SchemaSql
