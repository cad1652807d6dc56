import ActivityNetwork.Proofs.Network.Connectivity
import ActivityNetwork.Proofs.Workflow.Order
import ActivityNetwork.Proofs.Workflow.Rendering

/-!
# What hangs together in a workflow

A chart is cohesive if a walk along its arcs, in whatever direction, joins any two of its places.
The network of a workflow hangs together exactly if its chart is cohesive
(`network_cohesive_iff`).

A sequence is always cohesive (`seq_cohesive`), whatever its sides are like: every place of the
first side leads to an exit, every place of the second comes from an entry, and each exit is linked
with each entry.  Two cohesive workflows overlap in a cohesive one exactly if they have a leaf in
common (`overlap_cohesive_iff`): no arc of a union leads from one side to the other, so a walk can
change sides only at a place of both.
-/

namespace ActivityNetwork

open Relation

namespace Chart

variable {a b c : Chart} {x y : Place}

/-- Some arc has its ends at `x` and `y`. -/
def Adjacent (c : Chart) (x y : Place) : Prop :=
  c.Link x y ∨ c.Link y x

theorem adjacent_overlaid :
    (a.overlaid b).Adjacent x y ↔ a.Adjacent x y ∨ b.Adjacent x y := by
  rw [Adjacent, link_overlaid, link_overlaid]
  exact or_or_or_comm

/-- A walk along arcs, in whatever direction, leads from `x` to `y`. -/
def Connected (c : Chart) : Place → Place → Prop :=
  ReflTransGen c.Adjacent

/-- Any two places are connected. -/
def Cohesive (c : Chart) : Prop :=
  ∀ x ∈ c.places, ∀ y ∈ c.places, c.Connected x y

theorem Connected.symm (h : c.Connected x y) : c.Connected y x := by
  induction h with
  | refl => exact .refl
  | tail _ hStep ih => exact .head (Or.symm hStep) ih

theorem connected_of_link (h : c.Link x y) : c.Connected x y :=
  .single (Or.inl h)

theorem connected_of_path (h : ReflTransGen c.Link x y) : c.Connected x y :=
  ReflTransGen.mono (fun _ _ hLink => Or.inl hLink) _ _ h

/-- It is enough that every place is connected with one and the same. -/
theorem cohesive_of_hub (hHub : ∀ y ∈ c.places, c.Connected x y) : c.Cohesive :=
  fun y hy z hz => (hHub y hy).symm.trans (hHub z hz)

end Chart

namespace Network.Renders

variable {g : Network} {place : Place → NodeId} {c : Chart}

theorem adjacent_iff (hRenders : g.Renders place c) {i j : NodeId} :
    g.Adjacent i j ↔ ∃ x y, c.Adjacent x y ∧ place x = i ∧ place y = j := by
  simp only [Network.Adjacent, Chart.Adjacent, hRenders.link_iff, or_and_right, exists_or]
  refine or_congr_right ?_
  constructor
  · rintro ⟨x, y, hLink, hx, hy⟩
    exact ⟨y, x, hLink, hy, hx⟩
  · rintro ⟨x, y, hLink, hx, hy⟩
    exact ⟨y, x, hLink, hy, hx⟩

theorem connected_of_walk (hRenders : g.Renders place c) {x y : Place} (h : c.Connected x y) :
    g.Connected (place x) (place y) :=
  ReflTransGen.lift place (fun u v hStep => hRenders.adjacent_iff.2 ⟨u, v, hStep, rfl, rfl⟩) _ _ h

/-- A walk through the network runs along the places of a walk through the chart. -/
theorem walk_of_connected (hRenders : g.Renders place c) (hInj : Set.InjOn place c.places)
    (hEnds : ∀ x y, c.Adjacent x y → x ∈ c.places ∧ y ∈ c.places) {x : Place}
    (hx : x ∈ c.places) {j : NodeId} (hWalk : g.Connected (place x) j) :
    ∃ y ∈ c.places, place y = j ∧ c.Connected x y := by
  induction hWalk with
  | refl => exact ⟨x, hx, rfl, .refl⟩
  | tail _ hStep ih =>
      -- The walk goes on from the one place that has the node it has come to.
      obtain ⟨m, hm, rfl, hFront⟩ := ih
      obtain ⟨u, v, hChart, hu, rfl⟩ := hRenders.adjacent_iff.1 hStep
      have hEq : u = m := hInj (hEnds u v hChart).1 hm hu
      exact ⟨v, (hEnds u v hChart).2, rfl, hFront.tail (hEq ▸ hChart)⟩

end Network.Renders

namespace Workflow

variable {w first second : Workflow} {id : WorkflowId} {x y : Place}

theorem mem_places_of_adjacent (h : w.chart.Adjacent x y) :
    x ∈ w.chart.places ∧ y ∈ w.chart.places := by
  rcases h with hLink | hLink
  · exact mem_places_of_link hLink
  · exact (mem_places_of_link hLink).symm

theorem connected_mono {v : Workflow} (hInside : v.Inside w) (h : v.chart.Connected x y) :
    w.chart.Connected x y :=
  ReflTransGen.mono
    (fun _ _ hStep => hStep.imp (link_mono hInside) (link_mono hInside)) _ _ h

/-- The search for disconnected nodes finds none exactly if the chart is cohesive. -/
theorem network_cohesive_iff (hCoherent : w.Coherent) :
    w.network.disconnected = [] ↔ w.chart.Cohesive := by
  have hRenders := network_renders hCoherent
  have hInj := numbering_injOn hCoherent
  rw [Network.disconnected_eq_nil_iff]
  constructor
  · intro hAll x hx y hy
    have hWalk := hAll _ _ (hRenders.mem_keys.2 ⟨x, hx, rfl⟩) (hRenders.mem_keys.2 ⟨y, hy, rfl⟩)
    obtain ⟨z, hz, hEq, hChart⟩ :=
      hRenders.walk_of_connected hInj (fun _ _ => mem_places_of_adjacent) hx hWalk
    exact hInj hz hy hEq ▸ hChart
  · intro hCohesive i j hi hj
    obtain ⟨x, hx, rfl⟩ := hRenders.mem_keys.1 hi
    obtain ⟨y, hy, rfl⟩ := hRenders.mem_keys.1 hj
    exact hRenders.connected_of_walk (hCohesive x hx y hy)

/-- An activity leads from its start to its end, and a marker has one place only. -/
theorem cohesive_of_isLeaf (hLeaf : w.isLeaf = true) : w.chart.Cohesive := by
  refine Chart.cohesive_of_hub (x := w.entryPlace) fun y hy => ?_
  rcases (mem_places_of_isLeaf hLeaf).1 hy with rfl | rfl
  · exact .refl
  · rcases link_of_isLeaf hLeaf with hSame | hLink
    · exact hSame ▸ .refl
    · exact Chart.connected_of_link hLink

/-! ## Sequences -/

/-- A sequence hangs together, even if its sides do not. -/
theorem seq_cohesive (hMade : (seq id first second).WellMade) :
    (seq id first second).chart.Cohesive := by
  have hFirst := hMade.mono (.seqFirst .self)
  have hSecond := hMade.mono (.seqSecond .self)
  -- Neither side is empty: there is an exit to come from and an entry to go to.
  obtain ⟨u, hu⟩ := exists_leafOf first
  obtain ⟨exit, hExit, -⟩ := exists_exit hFirst.chart_acyclic hFirst.framed (exitPlace_mem hu)
  obtain ⟨v, hv⟩ := exists_leafOf second
  obtain ⟨entry, hEntry, -⟩ :=
    exists_entry hSecond.chart_acyclic hSecond.framed (entryPlace_mem hv)
  have hBridge : ∀ x ∈ first.chart.exits, ∀ y ∈ second.chart.entries,
      (seq id first second).chart.Connected x y := fun x hx y hy =>
    Chart.connected_of_link (Chart.link_inSequence.2 (Or.inr ⟨hx, hy⟩))
  refine Chart.cohesive_of_hub (x := entry) fun y hy => ?_
  rw [chart, Chart.places_inSequence] at hy
  rcases hy with hy | hy
  · obtain ⟨last, hLast, hPath⟩ := exists_exit hFirst.chart_acyclic hFirst.framed hy
    have hOut : (seq id first second).chart.Connected y last :=
      connected_mono (.seqFirst .self) (Chart.connected_of_path hPath)
    exact (hBridge last hLast entry hEntry).symm.trans hOut.symm
  · obtain ⟨start, hStart, hPath⟩ := exists_entry hSecond.chart_acyclic hSecond.framed hy
    have hIn : (seq id first second).chart.Connected start y :=
      connected_mono (.seqSecond .self) (Chart.connected_of_path hPath)
    have hAcross := (hBridge exit hExit entry hEntry).symm.trans (hBridge exit hExit start hStart)
    exact hAcross.trans hIn

/-! ## Unions -/

/-- A walk through a union stays on its side as long as it comes to no place of both. -/
theorem exists_shared_of_walk (hWalk : (overlap id first second).chart.Connected x y)
    (hx : x ∈ first.chart.places) (hy : y ∈ second.chart.places) :
    ∃ z ∈ first.chart.places, z ∈ second.chart.places := by
  by_contra hNone
  push Not at hNone
  have hStays : y ∈ first.chart.places := by
    clear hy
    induction hWalk with
    | refl => exact hx
    | tail _ hStep ih =>
        rcases Chart.adjacent_overlaid.1 hStep with hOwn | hOther
        · exact (mem_places_of_adjacent hOwn).2
        · exact absurd (mem_places_of_adjacent hOther).1 (hNone _ ih)
  exact hNone y hStays hy

/-- Two cohesive workflows overlap in a cohesive one exactly if they have a leaf in common. -/
theorem overlap_cohesive_iff (hCoherent : (overlap id first second).Coherent)
    (hFirst : first.chart.Cohesive) (hSecond : second.chart.Cohesive) :
    (overlap id first second).chart.Cohesive ↔
      ∃ leaf : Workflow, leaf.LeafOf first ∧ leaf.LeafOf second := by
  have hPlaces : (overlap id first second).chart.places =
      first.chart.places ∪ second.chart.places := Chart.places_overlaid _ _
  constructor
  · intro hCohesive
    obtain ⟨u, hu⟩ := exists_leafOf first
    obtain ⟨v, hv⟩ := exists_leafOf second
    have hWalk := hCohesive u.entryPlace (hPlaces ▸ Or.inl (entryPlace_mem hu)) v.entryPlace
      (hPlaces ▸ Or.inr (entryPlace_mem hv))
    obtain ⟨z, hzFirst, hzSecond⟩ :=
      exists_shared_of_walk hWalk (entryPlace_mem hu) (entryPlace_mem hv)
    obtain ⟨p, hp, hzp⟩ := mem_places_chart.1 hzFirst
    obtain ⟨q, hq, hzq⟩ := mem_places_chart.1 hzSecond
    -- A place belongs to one leaf only.
    have hSame : p = q := hCoherent.leaf_unique (leafOf_overlap.2 (Or.inl hp))
      (leafOf_overlap.2 (Or.inr hq)) hzp hzq
    exact ⟨p, hp, hSame ▸ hq⟩
  · intro hShared
    obtain ⟨leaf, hLeafFirst, hLeafSecond⟩ := hShared
    refine Chart.cohesive_of_hub (x := leaf.entryPlace) fun y hy => ?_
    rw [hPlaces] at hy
    rcases hy with hy | hy
    · exact connected_mono (.overlapFirst .self) (hFirst _ (entryPlace_mem hLeafFirst) y hy)
    · exact connected_mono (.overlapSecond .self) (hSecond _ (entryPlace_mem hLeafSecond) y hy)

end Workflow

end ActivityNetwork
