import ActivityNetwork.Network.Basic
import ActivityNetwork.Proofs.Network.Paths
import ActivityNetwork.Proofs.Workflow.Inside
import Mathlib.Data.Set.Image

/-!
# Charts

The chart of a workflow is what its network means, without numbers and without order.  The
places of a chart belong to the leaves of the workflow: one where an activity begins, one
where it ends, and a single one for a marker.  Everything else are sets, built by plain
recursion over the workflow.

Three `iff`s say what a chart consists of, whatever the shape of the workflow: its nodes
(`mem_nodes_chart`) and places (`mem_places_chart`) are those of the leaves, and its arcs
(`mem_arcs_chart`) are the activities of the leaves together with, for each sequence inside,
the links from the exits of its first side to the entries of the second.
-/

namespace ActivityNetwork

/-- A place that a leaf has in every network it is part of. -/
inductive Place where
  /-- Where an activity begins. -/
  | entry (leaf : WorkflowId)
  /-- Where an activity ends. -/
  | exit (leaf : WorkflowId)
  /-- The only place of a marker. -/
  | marker (leaf : WorkflowId)
  deriving DecidableEq, Repr

namespace Place

/-- The leaf to which the place belongs. -/
def leaf : Place → WorkflowId
  | entry leaf => leaf
  | exit leaf => leaf
  | marker leaf => leaf

end Place

/-- An edge between places. -/
structure Arc where
  source : Place
  target : Place
  kind : EdgeKind

/-- Nodes with their kinds, arcs, and the places at which execution begins and ends. -/
structure Chart where
  nodes : Set (Place × NodeKind)
  arcs : Set Arc
  entries : Set Place
  exits : Set Place

namespace Chart

/-- The places of the nodes. -/
def places (c : Chart) : Set Place :=
  Prod.fst '' c.nodes

/-- An arc leads from `x` to `y`. -/
def Link (c : Chart) (x y : Place) : Prop :=
  ∃ e ∈ c.arcs, e.source = x ∧ e.target = y

/-- One activity. -/
def activity (leaf : WorkflowId) (name : String) (duration : Duration) : Chart where
  nodes := {(.entry leaf, .boundary), (.exit leaf, .boundary)}
  arcs := {⟨.entry leaf, .exit leaf, .activity name duration⟩}
  entries := {.entry leaf}
  exits := {.exit leaf}

/-- One marker. -/
def marker (leaf : WorkflowId) (kind : NodeKind) : Chart where
  nodes := {(.marker leaf, kind)}
  arcs := ∅
  entries := {.marker leaf}
  exits := {.marker leaf}

/-- Both charts, with an arc from every exit of `a` to every entry of `b`. -/
def inSequence (a b : Chart) : Chart where
  nodes := a.nodes ∪ b.nodes
  arcs := a.arcs ∪ b.arcs ∪ { e | ∃ x ∈ a.exits, ∃ y ∈ b.entries, e = ⟨x, y, .dependency⟩ }
  entries := a.entries
  exits := b.exits

/-- Both charts, without the entries that an arc enters and the exits that an arc leaves. -/
def overlaid (a b : Chart) : Chart where
  nodes := a.nodes ∪ b.nodes
  arcs := a.arcs ∪ b.arcs
  entries := (a.entries ∪ b.entries) \ (Arc.target '' (a.arcs ∪ b.arcs))
  exits := (a.exits ∪ b.exits) \ (Arc.source '' (a.arcs ∪ b.arcs))

theorem places_inSequence (a b : Chart) : (a.inSequence b).places = a.places ∪ b.places :=
  Set.image_union ..

theorem places_overlaid (a b : Chart) : (a.overlaid b).places = a.places ∪ b.places :=
  Set.image_union ..

end Chart

namespace Workflow

/-- The chart of a workflow. -/
def chart : Workflow → Chart
  | activity id name duration => .activity id name duration
  | request id resource => .marker id (.request resource)
  | release id resource => .marker id (.release resource)
  | seq _ first second => first.chart.inSequence second.chart
  | overlap _ first second => first.chart.overlaid second.chart
  | holding _ _ _ expansion => expansion.chart

/-- The place of a leaf at which it is entered. -/
def entryPlace : Workflow → Place
  | activity id .. => .entry id
  | leaf => .marker leaf.id

/-- The place of a leaf at which it is left. -/
def exitPlace : Workflow → Place
  | activity id .. => .exit id
  | leaf => .marker leaf.id

variable {w leaf first second : Workflow} {x y : Place} {e : Arc} {kind : NodeKind}

theorem leaf_entryPlace (w : Workflow) : w.entryPlace.leaf = w.id := by
  cases w <;> rfl

theorem leaf_exitPlace (w : Workflow) : w.exitPlace.leaf = w.id := by
  cases w <;> rfl

/-! ## Nodes -/

theorem mem_nodes_chart :
    (x, kind) ∈ w.chart.nodes ↔
      ∃ leaf : Workflow, leaf.LeafOf w ∧ (x, kind) ∈ leaf.chart.nodes := by
  induction w with
  | activity id name duration => simp [leafOf_of_isLeaf (w := activity id name duration) rfl]
  | request id resource => simp [leafOf_of_isLeaf (w := request id resource) rfl]
  | release id resource => simp [leafOf_of_isLeaf (w := release id resource) rfl]
  | seq id first second ihFirst ihSecond =>
      simp only [leafOf_seq, or_and_right, exists_or, ← ihFirst, ← ihSecond]
      rfl
  | overlap id first second ihFirst ihSecond =>
      simp only [leafOf_overlap, or_and_right, exists_or, ← ihFirst, ← ihSecond]
      rfl
  | holding id process resources expansion _ ihExpansion =>
      simp only [leafOf_holding]
      exact ihExpansion

theorem mem_places_of_isLeaf (hLeaf : leaf.isLeaf = true) :
    x ∈ leaf.chart.places ↔ x = leaf.entryPlace ∨ x = leaf.exitPlace := by
  rcases isLeaf_cases hLeaf with
    ⟨id, name, duration, rfl⟩ | ⟨id, resource, rfl⟩ | ⟨id, resource, rfl⟩
  · simp [chart, Chart.places, Chart.activity, entryPlace, exitPlace, eq_comm]
  · simp [chart, Chart.places, Chart.marker, entryPlace, exitPlace, Workflow.id]
  · simp [chart, Chart.places, Chart.marker, entryPlace, exitPlace, Workflow.id]

theorem mem_places_chart :
    x ∈ w.chart.places ↔
      ∃ leaf : Workflow, leaf.LeafOf w ∧ (x = leaf.entryPlace ∨ x = leaf.exitPlace) := by
  constructor
  · intro hPlaces
    obtain ⟨⟨x, kind⟩, hNode, rfl⟩ := hPlaces
    obtain ⟨leaf, hLeaf, hOwn⟩ := mem_nodes_chart.1 hNode
    exact ⟨leaf, hLeaf, (mem_places_of_isLeaf hLeaf.1).1 ⟨_, hOwn, rfl⟩⟩
  · intro hFound
    obtain ⟨leaf, hLeaf, hPlace⟩ := hFound
    obtain ⟨⟨x, kind⟩, hOwn, rfl⟩ := (mem_places_of_isLeaf hLeaf.1).2 hPlace
    exact ⟨_, mem_nodes_chart.2 ⟨leaf, hLeaf, hOwn⟩, rfl⟩

/-- The places of different leaves are different. -/
theorem leaf_of_mem_places (hLeaf : leaf.isLeaf = true) (hx : x ∈ leaf.chart.places) :
    x.leaf = leaf.id := by
  rcases (mem_places_of_isLeaf hLeaf).1 hx with rfl | rfl
  · exact leaf_entryPlace leaf
  · exact leaf_exitPlace leaf

theorem entryPlace_mem (hLeaf : leaf.LeafOf w) : leaf.entryPlace ∈ w.chart.places :=
  mem_places_chart.2 ⟨leaf, hLeaf, Or.inl rfl⟩

theorem exitPlace_mem (hLeaf : leaf.LeafOf w) : leaf.exitPlace ∈ w.chart.places :=
  mem_places_chart.2 ⟨leaf, hLeaf, Or.inr rfl⟩

/-- In a coherent workflow a place marks one thing only. -/
theorem Coherent.kind_unique (hCoherent : w.Coherent) {other : NodeKind}
    (hKind : (x, kind) ∈ w.chart.nodes) (hOther : (x, other) ∈ w.chart.nodes) : kind = other := by
  obtain ⟨u, hu, hOwnU⟩ := mem_nodes_chart.1 hKind
  obtain ⟨v, hv, hOwnV⟩ := mem_nodes_chart.1 hOther
  have hIdU : x.leaf = u.id := leaf_of_mem_places hu.1 ⟨_, hOwnU, rfl⟩
  have hIdV : x.leaf = v.id := leaf_of_mem_places hv.1 ⟨_, hOwnV, rfl⟩
  have hEq : u = v := hCoherent u v hu.2 hv.2 (hIdU.symm.trans hIdV)
  subst hEq
  rcases isLeaf_cases hu.1 with
    ⟨id, name, duration, rfl⟩ | ⟨id, resource, rfl⟩ | ⟨id, resource, rfl⟩
  · -- Both places of an activity are boundaries.
    simp only [chart, Chart.activity, Set.mem_insert_iff, Set.mem_singleton_iff,
      Prod.mk.injEq] at hOwnU hOwnV
    rcases hOwnU with ⟨-, rfl⟩ | ⟨-, rfl⟩ <;> rcases hOwnV with ⟨-, rfl⟩ | ⟨-, rfl⟩ <;> rfl
  · simp only [chart, Chart.marker, Set.mem_singleton_iff, Prod.mk.injEq] at hOwnU hOwnV
    exact hOwnU.2.trans hOwnV.2.symm
  · simp only [chart, Chart.marker, Set.mem_singleton_iff, Prod.mk.injEq] at hOwnU hOwnV
    exact hOwnU.2.trans hOwnV.2.symm

/-- A coherent workflow has one leaf for a place. -/
theorem Coherent.leaf_unique (hCoherent : w.Coherent) {u v : Workflow} (hu : u.LeafOf w)
    (hv : v.LeafOf w) (hxu : x = u.entryPlace ∨ x = u.exitPlace)
    (hxv : x = v.entryPlace ∨ x = v.exitPlace) : u = v := by
  have hIdU : x.leaf = u.id :=
    leaf_of_mem_places hu.1 ((mem_places_of_isLeaf hu.1).2 hxu)
  have hIdV : x.leaf = v.id :=
    leaf_of_mem_places hv.1 ((mem_places_of_isLeaf hv.1).2 hxv)
  exact hCoherent u v hu.2 hv.2 (hIdU.symm.trans hIdV)

theorem finite_places (w : Workflow) : w.chart.places.Finite := by
  apply Set.Finite.image
  induction w with
  | activity id name duration => exact (Set.finite_singleton _).insert _
  | request id resource => exact Set.finite_singleton _
  | release id resource => exact Set.finite_singleton _
  | seq id first second ihFirst ihSecond => exact ihFirst.union ihSecond
  | overlap id first second ihFirst ihSecond => exact ihFirst.union ihSecond
  | holding id process resources expansion _ ihExpansion => exact ihExpansion

/-! ## Frontiers -/

/-- Only the places at which leaves are entered can be entries. -/
theorem entryPlace_of_mem_entries (h : x ∈ w.chart.entries) :
    ∃ leaf : Workflow, leaf.LeafOf w ∧ x = leaf.entryPlace := by
  induction w with
  | activity id name duration => exact ⟨_, ⟨rfl, .self⟩, h⟩
  | request id resource => exact ⟨_, ⟨rfl, .self⟩, h⟩
  | release id resource => exact ⟨_, ⟨rfl, .self⟩, h⟩
  | seq id first second ihFirst _ =>
      obtain ⟨leaf, hLeaf, hx⟩ := ihFirst h
      exact ⟨leaf, leafOf_seq.2 (Or.inl hLeaf), hx⟩
  | overlap id first second ihFirst ihSecond =>
      rcases h.1 with hFirst | hSecond
      · obtain ⟨leaf, hLeaf, hx⟩ := ihFirst hFirst
        exact ⟨leaf, leafOf_overlap.2 (Or.inl hLeaf), hx⟩
      · obtain ⟨leaf, hLeaf, hx⟩ := ihSecond hSecond
        exact ⟨leaf, leafOf_overlap.2 (Or.inr hLeaf), hx⟩
  | holding id process resources expansion _ ihExpansion =>
      obtain ⟨leaf, hLeaf, hx⟩ := ihExpansion h
      exact ⟨leaf, leafOf_holding.2 hLeaf, hx⟩

/-- Only the places at which leaves are left can be exits. -/
theorem exitPlace_of_mem_exits (h : x ∈ w.chart.exits) :
    ∃ leaf : Workflow, leaf.LeafOf w ∧ x = leaf.exitPlace := by
  induction w with
  | activity id name duration => exact ⟨_, ⟨rfl, .self⟩, h⟩
  | request id resource => exact ⟨_, ⟨rfl, .self⟩, h⟩
  | release id resource => exact ⟨_, ⟨rfl, .self⟩, h⟩
  | seq id first second _ ihSecond =>
      obtain ⟨leaf, hLeaf, hx⟩ := ihSecond h
      exact ⟨leaf, leafOf_seq.2 (Or.inr hLeaf), hx⟩
  | overlap id first second ihFirst ihSecond =>
      rcases h.1 with hFirst | hSecond
      · obtain ⟨leaf, hLeaf, hx⟩ := ihFirst hFirst
        exact ⟨leaf, leafOf_overlap.2 (Or.inl hLeaf), hx⟩
      · obtain ⟨leaf, hLeaf, hx⟩ := ihSecond hSecond
        exact ⟨leaf, leafOf_overlap.2 (Or.inr hLeaf), hx⟩
  | holding id process resources expansion _ ihExpansion =>
      obtain ⟨leaf, hLeaf, hx⟩ := ihExpansion h
      exact ⟨leaf, leafOf_holding.2 hLeaf, hx⟩

/-! ## Arcs -/

/-- The link that a sequence inside `w` sets between its sides. -/
def Bridges (w : Workflow) (e : Arc) : Prop :=
  ∃ id first second, (seq id first second).Inside w ∧
    ∃ x ∈ first.chart.exits, ∃ y ∈ second.chart.entries, e = ⟨x, y, .dependency⟩

theorem mem_arcs_chart :
    e ∈ w.chart.arcs ↔
      (∃ leaf : Workflow, leaf.LeafOf w ∧ e ∈ leaf.chart.arcs) ∨ w.Bridges e := by
  induction w with
  | activity id name duration =>
      simp [Bridges, leafOf_of_isLeaf (w := activity id name duration) rfl,
        inside_of_isLeaf (w := activity id name duration) rfl]
  | request id resource =>
      simp [Bridges, leafOf_of_isLeaf (w := request id resource) rfl,
        inside_of_isLeaf (w := request id resource) rfl]
  | release id resource =>
      simp [Bridges, leafOf_of_isLeaf (w := release id resource) rfl,
        inside_of_isLeaf (w := release id resource) rfl]
  | seq id first second ihFirst ihSecond =>
      have hArcs : e ∈ (seq id first second).chart.arcs ↔
          (e ∈ first.chart.arcs ∨ e ∈ second.chart.arcs) ∨
            ∃ x ∈ first.chart.exits, ∃ y ∈ second.chart.entries, e = ⟨x, y, .dependency⟩ :=
        Iff.rfl
      have hBridges : (seq id first second).Bridges e ↔
          (∃ x ∈ first.chart.exits, ∃ y ∈ second.chart.entries, e = ⟨x, y, .dependency⟩) ∨
            first.Bridges e ∨ second.Bridges e := by
        simp only [Bridges, inside_seq, or_and_right, exists_or, seq.injEq]
        refine or_congr_left ?_
        constructor
        · rintro ⟨_, _, _, ⟨rfl, rfl, rfl⟩, h⟩
          exact h
        · exact fun h => ⟨id, first, second, ⟨rfl, rfl, rfl⟩, h⟩
      rw [hArcs, hBridges, ihFirst, ihSecond]
      simp only [leafOf_seq, or_and_right, exists_or]
      exact (or_congr_left or_or_or_comm).trans (or_assoc.trans (or_congr_right or_comm))
  | overlap id first second ihFirst ihSecond =>
      have hArcs : e ∈ (overlap id first second).chart.arcs ↔
          e ∈ first.chart.arcs ∨ e ∈ second.chart.arcs := Iff.rfl
      have hBridges : (overlap id first second).Bridges e ↔
          first.Bridges e ∨ second.Bridges e := by
        simp [Bridges, inside_overlap, or_and_right, exists_or]
      rw [hArcs, hBridges, ihFirst, ihSecond]
      simp only [leafOf_overlap, or_and_right, exists_or]
      exact or_or_or_comm
  | holding id process resources expansion _ ihExpansion =>
      have hBridges : (holding id process resources expansion).Bridges e ↔ expansion.Bridges e := by
        simp [Bridges, inside_holding]
      rw [hBridges]
      simp only [leafOf_holding]
      exact ihExpansion

/-- The arc of an activity leads through it; a marker has no arc. -/
theorem mem_arcs_of_isLeaf (hLeaf : leaf.isLeaf = true) (he : e ∈ leaf.chart.arcs) :
    e.source = .entry leaf.id ∧ e.target = .exit leaf.id ∧
      leaf.entryPlace = .entry leaf.id ∧ leaf.exitPlace = .exit leaf.id := by
  rcases isLeaf_cases hLeaf with
    ⟨id, name, duration, rfl⟩ | ⟨id, resource, rfl⟩ | ⟨id, resource, rfl⟩
  · obtain rfl : e = ⟨.entry id, .exit id, .activity name duration⟩ := he
    exact ⟨rfl, rfl, rfl, rfl⟩
  · cases he
  · cases he

/-- An activity leads from its entry to its exit; a marker is both at once. -/
theorem link_of_isLeaf (hLeaf : leaf.isLeaf = true) :
    leaf.entryPlace = leaf.exitPlace ∨ leaf.chart.Link leaf.entryPlace leaf.exitPlace := by
  rcases isLeaf_cases hLeaf with
    ⟨id, name, duration, rfl⟩ | ⟨id, resource, rfl⟩ | ⟨id, resource, rfl⟩
  · exact Or.inr ⟨_, rfl, rfl, rfl⟩
  · exact Or.inl rfl
  · exact Or.inl rfl

theorem arcs_mono {v : Workflow} (hInside : v.Inside w) (he : e ∈ v.chart.arcs) :
    e ∈ w.chart.arcs := by
  rw [mem_arcs_chart] at he ⊢
  rcases he with ⟨leaf, hLeaf, hOwn⟩ | ⟨id, first, second, hSeq, h⟩
  · exact Or.inl ⟨leaf, hLeaf.trans hInside, hOwn⟩
  · exact Or.inr ⟨id, first, second, hSeq.trans hInside, h⟩

theorem link_mono {v : Workflow} (hInside : v.Inside w) (h : v.chart.Link x y) :
    w.chart.Link x y := by
  obtain ⟨e, he, hEnds⟩ := h
  exact ⟨e, arcs_mono hInside he, hEnds⟩

/-- The ends of arcs are places. -/
theorem mem_places_of_mem_arcs (he : e ∈ w.chart.arcs) :
    e.source ∈ w.chart.places ∧ e.target ∈ w.chart.places := by
  rcases mem_arcs_chart.1 he with ⟨leaf, hLeaf, hOwn⟩ | ⟨id, first, second, hSeq, x, hx, y, hy, rfl⟩
  · obtain ⟨hSource, hTarget, hEntry, hExit⟩ := mem_arcs_of_isLeaf hLeaf.1 hOwn
    rw [hSource, hTarget, ← hEntry, ← hExit]
    exact ⟨entryPlace_mem hLeaf, exitPlace_mem hLeaf⟩
  · obtain ⟨u, hu, rfl⟩ := exitPlace_of_mem_exits hx
    obtain ⟨v, hv, rfl⟩ := entryPlace_of_mem_entries hy
    exact ⟨exitPlace_mem (hu.trans (Inside.trans (.seqFirst .self) hSeq)),
      entryPlace_mem (hv.trans (Inside.trans (.seqSecond .self) hSeq))⟩

theorem mem_places_of_link (h : w.chart.Link x y) :
    x ∈ w.chart.places ∧ y ∈ w.chart.places := by
  obtain ⟨e, he, rfl, rfl⟩ := h
  exact mem_places_of_mem_arcs he

theorem mem_places_of_mem_entries (h : x ∈ w.chart.entries) : x ∈ w.chart.places := by
  obtain ⟨leaf, hLeaf, rfl⟩ := entryPlace_of_mem_entries h
  exact entryPlace_mem hLeaf

theorem mem_places_of_mem_exits (h : x ∈ w.chart.exits) : x ∈ w.chart.places := by
  obtain ⟨leaf, hLeaf, rfl⟩ := exitPlace_of_mem_exits h
  exact exitPlace_mem hLeaf

end Workflow

end ActivityNetwork
