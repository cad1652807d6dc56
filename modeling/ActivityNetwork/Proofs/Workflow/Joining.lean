import ActivityNetwork.Proofs.Workflow.Order

/-!
# What unions put together

`w.Joins ws` says that the workflow `w` consists of what the workflows of the list consist of:
their leaves and their arcs, and no others.  In what order they were united, in which groups and
how often, cannot be told from this.

It cannot be told from the chart either.  The frontiers of a well-made workflow follow from its
places and links, so a well-made workflow has one possible chart once its leaves and arcs are
known (`Joins.chart_eq`).
-/

namespace ActivityNetwork

open Relation

namespace Chart

theorem ext_fields {a b : Chart} (hNodes : a.nodes = b.nodes) (hArcs : a.arcs = b.arcs)
    (hEntries : a.entries = b.entries) (hExits : a.exits = b.exits) : a = b := by
  cases a
  cases b
  cases hNodes
  cases hArcs
  cases hEntries
  cases hExits
  rfl

/-- Nodes and arcs leave no choice for the frontiers. -/
theorem Framed.eq_of_same {a b : Chart} (ha : a.Framed) (hb : b.Framed)
    (hNodes : a.nodes = b.nodes) (hArcs : a.arcs = b.arcs) : a = b := by
  have hPlaces : a.places = b.places := congrArg (Prod.fst '' ·) hNodes
  have hLink : ∀ x y, a.Link x y ↔ b.Link x y := by
    intro x y
    rw [Link, Link, hArcs]
  refine ext_fields hNodes hArcs (Set.ext fun x => ?_) (Set.ext fun x => ?_)
  · simp only [ha.entries, hb.entries, hPlaces, hLink]
  · simp only [ha.exits, hb.exits, hPlaces, hLink]

end Chart

namespace Workflow

/-- The leaves and arcs of `w` are those of the listed workflows. -/
structure Joins (w : Workflow) (ws : List Workflow) : Prop where
  leaves : ∀ leaf : Workflow, leaf.LeafOf w ↔ ∃ v ∈ ws, leaf.LeafOf v
  arcs : ∀ e, e ∈ w.chart.arcs ↔ ∃ v ∈ ws, e ∈ v.chart.arcs

/-- Some workflow of the list has a link from `x` to `y`. -/
def LinkAmong (ws : List Workflow) (x y : Place) : Prop :=
  ∃ v ∈ ws, v.chart.Link x y

variable {u v w : Workflow} {xs ys : List Workflow} {x y : Place}

theorem joins_self (w : Workflow) : w.Joins [w] := by
  constructor <;> simp

theorem joins_overlap (id : WorkflowId) (hFirst : u.Joins xs) (hSecond : v.Joins ys) :
    (overlap id u v).Joins (xs ++ ys) where
  leaves := by
    intro leaf
    rw [leafOf_overlap, hFirst.leaves, hSecond.leaves]
    simp only [List.mem_append, or_and_right, exists_or]
  arcs := by
    intro e
    have hArcs : e ∈ (overlap id u v).chart.arcs ↔ e ∈ u.chart.arcs ∨ e ∈ v.chart.arcs := Iff.rfl
    rw [hArcs, hFirst.arcs, hSecond.arcs]
    simp only [List.mem_append, or_and_right, exists_or]

theorem Joins.link_iff (hJoins : w.Joins xs) : w.chart.Link x y ↔ LinkAmong xs x y := by
  constructor
  · intro hLink
    obtain ⟨e, he, hEnds⟩ := hLink
    obtain ⟨v, hv, hArc⟩ := (hJoins.arcs e).1 he
    exact ⟨v, hv, e, hArc, hEnds⟩
  · intro hLink
    obtain ⟨v, hv, e, hArc, hEnds⟩ := hLink
    exact ⟨e, (hJoins.arcs e).2 ⟨v, hv, hArc⟩, hEnds⟩

theorem Joins.acyclic_iff (hJoins : w.Joins xs) :
    Acyclic w.chart.Link ↔ Acyclic (LinkAmong xs) := by
  constructor
  · exact fun hAcyclic => hAcyclic.mono fun _ _ => hJoins.link_iff.2
  · exact fun hAcyclic => hAcyclic.mono fun _ _ => hJoins.link_iff.1

/-- More workflows can only add cycles. -/
theorem acyclic_of_subset (hSub : xs ⊆ ys) (hAcyclic : Acyclic (LinkAmong ys)) :
    Acyclic (LinkAmong xs) := by
  refine hAcyclic.mono fun x y hLink => ?_
  obtain ⟨v, hv, h⟩ := hLink
  exact ⟨v, hSub hv, h⟩

theorem Joins.of_same (hJoins : w.Joins xs) (hSame : ∀ v, v ∈ xs ↔ v ∈ ys) : w.Joins ys where
  leaves := by simpa only [hSame] using hJoins.leaves
  arcs := by simpa only [hSame] using hJoins.arcs

/-- What is put together decides the chart. -/
theorem Joins.chart_eq (hu : u.Joins xs) (hv : v.Joins xs) (hMadeU : u.WellMade)
    (hMadeV : v.WellMade) : u.chart = v.chart := by
  refine hMadeU.framed.eq_of_same hMadeV.framed (Set.ext fun n => ?_) (Set.ext fun e => ?_)
  · obtain ⟨x, kind⟩ := n
    rw [mem_nodes_chart, mem_nodes_chart (w := v)]
    simp only [hu.leaves, hv.leaves]
  · rw [hu.arcs, hv.arcs]

end Workflow

end ActivityNetwork
