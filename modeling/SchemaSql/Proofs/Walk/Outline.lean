import Mathlib.Data.List.Pairwise
import SchemaSql.Walk

/-! # Outlines — a text and a walk in one

    An outline is a text in which the nodes of a walk are marked.  What is left when the marks
    are forgotten is the text; what is left when the text is forgotten are the reports of a
    walk.  So the place of a node in the one can be compared with its place in the other.

    * `Outline.flat`, `Outline.events` and `Outline.nodes` are what is left.
    * `Outline.visits` are the nodes with the places where they start and end in both.
    * `Outline.Spread` says that the text around the nodes keeps them apart, and
      `Outline.visits_placed` is what it is for: two nodes then lie in the text as they lie in
      the walk.
    * `Chart` says all of this of a list of reports and a text, without an outline. -/

namespace SchemaSql

/-- A text with the nodes of a walk in it. -/
inductive Outline where
  | nil
  | text (s : String) (rest : Outline)
  | node (n : Node) (inside rest : Outline)

/-- A node, the indexes of the reports that enter and leave it, and the places in the text
    where its own text starts and stops. -/
structure Visit where
  node  : Node
  enter : Nat
  leave : Nat
  start : Nat
  stop  : Nat

/-- Reports of a walk in which all that is entered is left again. -/
inductive Balanced : List Event → Prop where
  | nil : Balanced []
  | node (n : Node) {inside rest : List Event} :
      Balanced inside → Balanced rest → Balanced (.enter n :: inside ++ .leave n :: rest)

namespace Event

/-- The nodes that are entered, with the indexes of these reports, the first of which is `i`. -/
def entrances (i : Nat) : List Event → List (Node × Nat)
  | [] => []
  | .enter n :: rest => (n, i) :: entrances (i + 1) rest
  | .leave _ :: rest => entrances (i + 1) rest

/-- The indexes of the second reports go on behind the first. -/
theorem entrances_append (P Q : List Event) (i : Nat) :
    entrances i (P ++ Q) = entrances i P ++ entrances (i + P.length) Q := by
  induction P generalizing i with
  | nil => simp [entrances]
  | cons event P ih =>
      have hlen : i + (P.length + 1) = i + 1 + P.length := by omega
      cases event <;> simp [entrances, ih, hlen]

end Event

namespace Visit

/-- The walk reports `w` between the reports that enter and leave `v`. -/
def Reports (v w : Visit) : Prop := v.enter < w.enter ∧ w.leave < v.leave

/-- The text of `v` has the text of `w` in it. -/
def Covers (v w : Visit) : Prop := v.start ≤ w.start ∧ w.stop ≤ v.stop

/-- The two nodes lie in the text as they lie in the walk. -/
def Agree (v w : Visit) : Prop := (v.Covers w ↔ v.Reports w) ∧ (w.Covers v ↔ w.Reports v)

instance : Std.Symm Agree := ⟨fun _ _ h => ⟨h.2, h.1⟩⟩

/-- Of two nodes, where the second one can lie: inside the first one and shorter than it, or
    behind it and apart from it. -/
def Placed (v w : Visit) : Prop :=
  (v.Reports w ∧ v.Covers w ∧ w.stop + v.start < v.stop + w.start) ∨
    (v.leave < w.enter ∧ v.stop < w.start)

end Visit

namespace Outline

/-- One outline behind another. -/
protected def append : Outline → Outline → Outline
  | .nil, b => b
  | .text s rest, b => .text s (rest.append b)
  | .node n inside rest, b => .node n inside (rest.append b)

instance : Append Outline := ⟨Outline.append⟩

/-- The text without the marks. -/
def flat : Outline → String
  | .nil => ""
  | .text s rest => s ++ rest.flat
  | .node _ inside rest => inside.flat ++ rest.flat

/-- The reports of a walk through the nodes. -/
def events : Outline → List Event
  | .nil => []
  | .text _ rest => rest.events
  | .node n inside rest => .enter n :: inside.events ++ .leave n :: rest.events

/-- The nodes, each in front of those inside it. -/
def nodes : Outline → List Node
  | .nil => []
  | .text _ rest => rest.nodes
  | .node n inside rest => n :: inside.nodes ++ rest.nodes

/-- The nodes and where they are, if the reports start with the index `i` and the text starts
    at `t`. -/
def visits (i t : Nat) : Outline → List Visit
  | .nil => []
  | .text s rest => rest.visits i (t + s.length)
  | .node n inside rest =>
    ⟨n, i, i + inside.events.length + 1, t, t + inside.flat.length⟩
      :: inside.visits (i + 1) t
      ++ rest.visits (i + inside.events.length + 2) (t + inside.flat.length)

/-- How much of the text belongs to no node. -/
def own : Outline → Nat
  | .nil => 0
  | .text s rest => s.length + rest.own
  | .node _ _ rest => rest.own

/-- There is text in front of the first node, if there is a node. -/
def Opens : Outline → Prop
  | .nil => True
  | .text s rest => s ≠ "" ∨ rest.Opens
  | .node .. => False

/-- Every node has its own text inside, more of it than the nodes inside it, and text keeps it
    apart from the nodes behind it. -/
def Spread : Outline → Prop
  | .nil => True
  | .text _ rest => rest.Spread
  | .node n inside rest =>
    (inside.flat = n.text ∧ (0 < inside.own ∨ inside.nodes = []) ∧ inside.Spread)
      ∧ rest.Opens ∧ rest.Spread

/-- A text without nodes. -/
def plain (s : String) : Outline := .text s .nil

/-- A node and its outline. -/
def mark (n : Node) (inside : Outline) : Outline := .node n inside .nil

/-- A text and an outline, or nothing. -/
def optional (s : String) : Option Outline → Outline
  | some a => .text s a
  | none => .nil

/-- Outlines one after the other. -/
def joined : List Outline → Outline
  | [] => .nil
  | a :: rest => a ++ joined rest

/-- Outlines with a text between two of them. -/
def separated (separator : String) : List Outline → Outline
  | [] => .nil
  | [a] => a
  | a :: rest => a ++ .text separator (separated separator rest)

variable {a b : Outline} {s : String} {n : Node}

attribute [local simp] flat events nodes own visits

/-! ## Two outlines one behind the other -/

@[simp] theorem nil_append (b : Outline) : nil ++ b = b := rfl

@[simp] theorem text_append (s : String) (a b : Outline) : text s a ++ b = text s (a ++ b) := rfl

@[simp] theorem node_append (n : Node) (i a b : Outline) : node n i a ++ b = node n i (a ++ b) :=
  rfl

/-- One text stands behind the other. -/
@[simp] theorem flat_append (a b : Outline) : (a ++ b).flat = a.flat ++ b.flat := by
  induction a with
  | nil => simp
  | text s rest ih => simp [ih, String.append_assoc]
  | node n inside rest _ ih => simp [ih, String.append_assoc]

/-- One walk is taken behind the other. -/
@[simp] theorem events_append (a b : Outline) : (a ++ b).events = a.events ++ b.events := by
  induction a with
  | nil => rfl
  | text s rest ih => simp [ih]
  | node n inside rest _ ih => simp [ih]

@[simp] theorem nodes_append (a b : Outline) : (a ++ b).nodes = a.nodes ++ b.nodes := by
  induction a with
  | nil => rfl
  | text s rest ih => simp [ih]
  | node n inside rest _ ih => simp [ih]

@[simp] theorem own_append (a b : Outline) : (a ++ b).own = a.own + b.own := by
  induction a with
  | nil => simp
  | text s rest ih => simp [ih, Nat.add_assoc]
  | node n inside rest _ ih => simp [ih]

/-- A text in front is text that belongs to no node. -/
theorem own_text (hs : s ≠ "") (a : Outline) : 0 < (text s a).own := by
  have hlen : s.length ≠ 0 := by simpa [String.length_eq_zero_iff] using hs
  simp only [own]
  omega

theorem own_behind (a : Outline) (h : 0 < b.own) : 0 < (a ++ b).own := by
  rw [own_append]
  omega

/-- What belongs to no node is part of the text. -/
theorem own_le (a : Outline) : a.own ≤ a.flat.length := by
  induction a with
  | nil => simp
  | text s rest ih => simpa using ih
  | node n inside rest _ ih => simp only [own, flat, String.length_append]; omega

/-- Without a node in the first outline, text comes first if it does in the second. -/
theorem Opens.append (ha : a.Opens) (hb : b.Opens) : (a ++ b).Opens := by
  induction a with
  | nil => exact hb
  | text s rest ih =>
      rcases ha with hs | hrest
      · exact .inl hs
      · exact .inr (ih hrest)
  | node n inside rest _ _ => exact ha.elim

theorem opens_optional (hs : s ≠ "") (a? : Option Outline) : (optional s a?).Opens := by
  cases a? with
  | none => trivial
  | some a => exact .inl hs

theorem opens_unless (hs : s ≠ "") (empty : Bool) (a : Outline) :
    (if empty then nil else text s a).Opens := by
  cases empty
  · exact .inl hs
  · trivial

/-- Two outlines stay spread where text keeps the second one's nodes from those of the first. -/
theorem Spread.append (ha : a.Spread) (hb : b.Spread) (opens : b.Opens) : (a ++ b).Spread := by
  induction a with
  | nil => exact hb
  | text s rest ih => exact ih ha
  | node n inside rest _ ih =>
      obtain ⟨hn, hopens, hrest⟩ := ha
      exact ⟨hn, hopens.append opens, ih hrest⟩

/-! ## The places of the nodes -/

/-- Each node of an outline is entered and left around those inside it. -/
theorem events_balanced (a : Outline) : Balanced a.events := by
  induction a with
  | nil => exact .nil
  | text s rest ih => exact ih
  | node n inside rest ih ih' => exact .node n ih ih'

/-- The visits are the reports that enter nodes, in their order. -/
theorem visits_entered (a : Outline) (i t : Nat) :
    (a.visits i t).map (fun v => (v.node, v.enter)) = Event.entrances i a.events := by
  induction a generalizing i t with
  | nil => rfl
  | text s rest ih => exact ih i _
  | node n inside rest ih ih' =>
      have hlen : i + 1 + inside.events.length + 1 = i + inside.events.length + 2 := by omega
      simp [Event.entrances, Event.entrances_append, ih, ih', hlen]

/-- There is one visit for each node. -/
theorem visits_nodes (a : Outline) (i t : Nat) :
    (a.visits i t).map Visit.node = a.nodes := by
  induction a generalizing i t with
  | nil => rfl
  | text s rest ih => exact ih i _
  | node n inside rest ih ih' => simp [ih, ih']

/-- Nodes lie inside the text and the reports; what is text of no node is missing in each. -/
theorem visits_bounds (h : a.Spread) (i t : Nat) : ∀ v ∈ a.visits i t,
    (i ≤ v.enter ∧ v.enter < v.leave ∧ v.leave < i + a.events.length) ∧
      (t ≤ v.start ∧ v.start ≤ v.stop ∧ v.stop ≤ t + a.flat.length) ∧
      v.stop + a.own ≤ v.start + a.flat.length := by
  induction a generalizing i t with
  | nil => simp
  | text s rest ih =>
      intro v hv
      obtain ⟨hreports, htext, hown⟩ := ih h _ _ v hv
      simp only [events, flat, own, String.length_append]
      omega
  | node n inside rest ih ih' =>
      obtain ⟨⟨-, -, hinside⟩, -, hrest⟩ := h
      -- the text of a node is its inside, so what it owns is at most that long
      have hlen := rest.own_le
      intro v hv
      simp only [visits, List.cons_append, List.mem_cons, List.mem_append] at hv
      simp only [events, flat, own, String.length_append, List.length_cons, List.length_append]
      rcases hv with rfl | hv | hv
      · simp only
        omega
      · obtain ⟨hreports, htext, hown⟩ := ih hinside _ _ v hv
        omega
      · obtain ⟨hreports, htext, hown⟩ := ih' hrest _ _ v hv
        omega

/-- Where text comes first, every node starts behind the start of the text. -/
theorem visits_opens (h : a.Spread) (opens : a.Opens) (i t : Nat) :
    ∀ v ∈ a.visits i t, t < v.start := by
  induction a generalizing i t with
  | nil => simp
  | text s rest ih =>
      intro v hv
      have hbounds := visits_bounds (a := rest) h i _ v hv
      rcases opens with hs | hrest
      · have hlen : s.length ≠ 0 := by simpa [String.length_eq_zero_iff] using hs
        omega
      · have hstart := ih h hrest i _ v hv
        omega
  | node n inside rest _ _ => exact opens.elim

/-- In the order of the walk, each node is inside an earlier one or behind it. -/
theorem visits_placed (h : a.Spread) (i t : Nat) : (a.visits i t).Pairwise Visit.Placed := by
  induction a generalizing i t with
  | nil => exact .nil
  | text s rest ih => exact ih h i _
  | node n inside rest ih ih' =>
      obtain ⟨⟨hn, hown, hinside⟩, hopens, hrest⟩ := h
      simp only [visits, List.cons_append, List.pairwise_cons, List.pairwise_append,
        List.mem_append]
      refine ⟨?_, ih hinside _ _, ih' hrest _ _, ?_⟩
      · rintro w (hw | hw)
        · -- a node inside this one, which is shorter by the text that is this one's own
          have hbounds := visits_bounds hinside _ _ w hw
          have hpos : 0 < inside.own := by
            rcases hown with hpos | hnone
            · exact hpos
            · have hmem := List.mem_map_of_mem (f := Visit.node) hw
              rw [visits_nodes, hnone] at hmem
              exact absurd hmem (by simp)
          refine .inl ⟨⟨?_, ?_⟩, ⟨?_, ?_⟩, ?_⟩ <;> simp only <;> omega
        -- a node behind this one starts where this one has ended
        · have hbounds := visits_bounds hrest _ _ w hw
          have hstart := visits_opens hrest hopens _ _ w hw
          refine .inr ⟨?_, ?_⟩ <;> simp only <;> omega
      · -- one node inside this one and one behind it
        intro v hv w hw
        have hv' := visits_bounds hinside _ _ v hv
        have hw' := visits_bounds hrest _ _ w hw
        have hstart := visits_opens hrest hopens _ _ w hw
        exact .inr ⟨by omega, by omega⟩

/-- The reports of a node, with the reports between them. -/
theorem visits_reported (a : Outline) (i t : Nat) : ∀ v ∈ a.visits i t,
    ∃ before inside after,
      a.events = before ++ .enter v.node :: inside ++ .leave v.node :: after ∧ Balanced inside ∧
        i + before.length = v.enter ∧ v.enter + inside.length + 1 = v.leave := by
  induction a generalizing i t with
  | nil => simp
  | text s rest ih => exact fun v hv => ih i _ v hv
  | node n inside rest ih ih' =>
      intro v hv
      simp only [visits, List.cons_append, List.mem_cons, List.mem_append] at hv
      rcases hv with rfl | hv | hv
      · exact ⟨[], inside.events, rest.events, rfl, inside.events_balanced, rfl, rfl⟩
      · obtain ⟨before, within, after, heq, hbal, hi, hj⟩ := ih _ _ v hv
        refine ⟨.enter n :: before, within, after ++ .leave n :: rest.events, ?_, hbal, ?_, hj⟩
        · simp [heq]
        · rw [List.length_cons]; omega
      · obtain ⟨before, within, after, heq, hbal, hi, hj⟩ := ih' _ _ v hv
        refine ⟨.enter n :: inside.events ++ .leave n :: before, within, after, ?_, hbal, ?_, hj⟩
        · simp [heq]
        · rw [List.length_append, List.length_cons, List.length_cons]; omega

/-- The text of a node, where it stands. -/
theorem visits_printed (h : a.Spread) (i t : Nat) : ∀ v ∈ a.visits i t,
    ∃ before after, a.flat = before ++ v.node.text ++ after ∧
      t + before.length = v.start ∧ v.start + v.node.text.length = v.stop := by
  induction a generalizing i t with
  | nil => simp
  | text s rest ih =>
      intro v hv
      obtain ⟨before, after, heq, hs, hlen⟩ := ih h i _ v hv
      refine ⟨s ++ before, after, ?_, ?_, hlen⟩
      · simp [heq, String.append_assoc]
      · rw [String.length_append]; omega
  | node n inside rest ih ih' =>
      obtain ⟨⟨hn, -, hinside⟩, -, hrest⟩ := h
      intro v hv
      simp only [visits, List.cons_append, List.mem_cons, List.mem_append] at hv
      -- the node itself, a node inside it, or one behind it
      rcases hv with rfl | hv | hv
      · exact ⟨"", rest.flat, by simp [hn], rfl, by simp [hn]⟩
      · obtain ⟨before, after, heq, hs, hlen⟩ := ih hinside _ _ v hv
        exact ⟨before, after ++ rest.flat, by simp [heq, String.append_assoc], hs, hlen⟩
      · obtain ⟨before, after, heq, hs, hlen⟩ := ih' hrest _ _ v hv
        refine ⟨inside.flat ++ before, after, ?_, ?_, hlen⟩
        · simp [heq, String.append_assoc]
        · rw [String.length_append]; omega

end Outline

/-! ## Charts -/

/-- The nodes of a walk with their places in it and in a text. -/
structure Chart (trace : List Event) (sql : String) (visits : List Visit) : Prop where
  /-- There is a visit for each report that enters a node, in the order of these reports. -/
  entered  : visits.map (fun v => (v.node, v.enter)) = Event.entrances 0 trace
  /-- All that is entered between the two reports of a node is left between them. -/
  reported : ∀ v ∈ visits, ∃ before inside after,
    trace = before ++ .enter v.node :: inside ++ .leave v.node :: after ∧ Balanced inside ∧
      before.length = v.enter ∧ v.enter + inside.length + 1 = v.leave
  /-- The text of a node stands in its place. -/
  printed  : ∀ v ∈ visits, ∃ before after, sql = before ++ v.node.text ++ after ∧
    before.length = v.start ∧ v.start + v.node.text.length = v.stop
  /-- The places in the text start in the order of the walk. -/
  ordered  : visits.Pairwise fun v w => v.start ≤ w.start
  /-- One place is inside another if the one node is reported between the other's reports. -/
  nested   : ∀ v ∈ visits, ∀ w ∈ visits, v ≠ w → (v.Covers w ↔ v.Reports w)

/-- The visits of an outline are a chart of what it reports and of its text. -/
theorem Outline.chart {a : Outline} (h : a.Spread) : Chart a.events a.flat (a.visits 0 0) where
  entered := a.visits_entered 0 0
  reported v hv := by simpa using a.visits_reported 0 0 v hv
  printed v hv := by simpa using visits_printed h 0 0 v hv
  ordered := by
    refine (visits_placed h 0 0).imp_of_mem fun hv hw hplaced => ?_
    have hbounds := visits_bounds h 0 0 _ hv
    rcases hplaced with ⟨-, hcovers, -⟩ | ⟨-, hbehind⟩
    · exact hcovers.1
    · omega
  nested := by
    have hagree : (a.visits 0 0).Pairwise Visit.Agree := by
      refine (visits_placed h 0 0).imp_of_mem fun hv hw hplaced => ?_
      have hv' := visits_bounds h 0 0 _ hv
      have hw' := visits_bounds h 0 0 _ hw
      simp only [Visit.Placed, Visit.Covers, Visit.Reports] at hplaced
      simp only [Visit.Agree, Visit.Covers, Visit.Reports]
      omega
    intro v hv w hw hne
    exact (hagree.forall hv hw hne).1

end SchemaSql
