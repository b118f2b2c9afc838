import SchemaSql.Proofs.Walk.Printed

/-! # Walks — complete, and in the order of the text

    A walk through a statement meets everything that the statement stores once, and its nodes
    lie in the statement's text as they lie in the walk.

    * `Statement.walk_eq` turns a walk into a pass over the reports of the statement's outline.
    * `Statement.walk_pick` forgets the reports on which nothing happens.
    * `Statement.walk_complete` is the result. -/

namespace SchemaSql

section

variable {m : Type → Type} [Monad m] [LawfulMonad m]

/-- A walk visits the reports of the outline and nothing else. -/
theorem Statement.walk_eq (visit : Event → m Unit) (s : Statement) :
    s.walk visit = forM s.outline.events visit :=
  (s.outlines visit).walk.symm

/-- Where nothing happens when a node is left, only the nodes are passed over. -/
theorem Outline.forM_entered {visit : Event → m Unit} (h : ∀ n, visit (.leave n) = pure ())
    (a : Outline) : forM a.events visit = forM a.nodes fun n => visit (.enter n) := by
  induction a with
  | nil => rfl
  | text s rest ih => exact ih
  | node n inside rest ih ih' => simp [events, nodes, ih, ih', h]

/-- Going through what was picked is going through all and passing over the rest. -/
theorem forM_filterMap {α β : Type} (pick : α → Option β) (f : β → m Unit) (l : List α) :
    forM (l.filterMap pick) f = forM l fun x => (pick x).forM f := by
  induction l with
  | nil => rfl
  | cons x l ih => cases h : pick x <;> simp [h, ih]

/-- A walk on which something happens when some of the nodes are entered, and nothing else. -/
theorem Statement.walk_pick {β : Type} {pick : Node → Option β} {f : β → m Unit}
    {visit : Event → m Unit} (s : Statement) (hs : pick (.statement s) = none)
    (enter : ∀ n, visit (.enter n) = (pick n).forM f)
    (leave : ∀ n, visit (.leave n) = pure ()) :
    s.walk visit = (s.contents.filterMap pick).forM f := by
  have hnodes : s.outline.nodes = .statement s :: s.contents := (s.outlines visit).nodes
  rw [s.walk_eq, Outline.forM_entered leave, hnodes, List.forM_eq_forM, forM_filterMap,
    List.forM_cons, enter, hs]
  simp [enter]

end

/-- What is recorded of reports when everything is. -/
theorem Event.recorded_forM (events : List Event) :
    Event.recorded (forM events (Event.record some none)) = (events, false) := by
  have hrecord : ∀ acc : List Event,
      (forM events (Event.record some none) : EStateM Unit (List Event) Unit) acc =
        .ok () (events.reverse ++ acc) := by
    induction events with
    | nil => exact fun _ => rfl
    | cons event events ih =>
        intro acc
        rw [List.reverse_cons, List.append_assoc]
        exact ih (event :: acc)
  rw [Event.recorded, hrecord]
  simp

/-- A walk that records everything records the reports of the statement's outline. -/
theorem Statement.trace_eq (s : Statement) : s.trace = s.outline.events := by
  rw [Statement.trace, s.walk_eq, Event.recorded_forM]

/-- A walk calls back once for everything that is stored, and there is a chart of its nodes in
    the text of the statement. -/
theorem Statement.walk_complete {m : Type → Type} [Monad m] [LawfulMonad m] (s : Statement) :
    (∀ f : Expr → m Unit, s.visitExpressions f = s.exprs.forM f) ∧
      (∀ f : ObjectName → m Unit, s.visitRelations f = s.relations.forM f) ∧
        ∃ visits, Chart s.trace s.text visits := by
  refine ⟨fun f => ?_, fun f => ?_, s.outline.visits 0 0, ?_⟩
  · exact s.walk_pick rfl (fun n => by cases n <;> rfl) fun _ => rfl
  · exact s.walk_pick rfl (fun n => by cases n <;> rfl) fun _ => rfl
  · -- the text and the reports of the outline are the statement's
    have h := s.outlines (m := Id) fun _ => pure ()
    rw [s.trace_eq, Statement.text, ← h.flat]
    exact Outline.chart h.spread

/-- `ALTER TABLE t ADD CHECK (a)`, looked at until the first expression. -/
theorem Statement.walk_check :
    (alter { table := .simple "t", clauses := [.addConstraint (.check none (.ident ⟨"a", none⟩))] }
      ).visitExpressions (fun e => (Except.error e.text : Except String Unit)) = .error "a" := by
  rw [(walk_complete _).1]
  rfl

end SchemaSql
