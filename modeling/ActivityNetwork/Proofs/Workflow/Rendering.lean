import ActivityNetwork.Proofs.Workflow.Chart
import ActivityNetwork.Proofs.Workflow.Layout
import Mathlib.Data.Set.Function

/-!
# Networks as renderings of charts

A network renders a chart if giving a node id to every place turns the chart into the network:
the same nodes with their kinds, the same edges, the same entries and exits.  When different
places get different ids, paths and cycles are the same on both sides (`Renders.before_iff`,
`Renders.acyclic_iff`), and the two ways to put networks together render the two ways to put
charts together (`Renders.inSequence`, `Renders.overlaid`).

Every layout renders the chart of its workflow (`layout_renders`), and the numbering of a
compilation keeps different places apart (`numbering_injOn`).
-/

namespace ActivityNetwork

open Relation

namespace Arc

/-- The edge that stands for an arc. -/
def edge (place : Place → NodeId) (e : Arc) : Edge :=
  ⟨place e.source, place e.target, e.kind⟩

end Arc

namespace Network

/-- The network is the image of the chart when each place gets the node id it has in `place`. -/
structure Renders (g : Network) (place : Place → NodeId) (c : Chart) : Prop where
  nodes : { n | n ∈ g.nodes.entries } = (fun n => (place n.1, n.2)) '' c.nodes
  edges : { e | e ∈ g.edges } = Arc.edge place '' c.arcs
  entries : { id | id ∈ g.entries } = place '' c.entries
  exits : { id | id ∈ g.exits } = place '' c.exits

namespace Renders

variable {g h : Network} {place : Place → NodeId} {a b c : Chart}

theorem mem_nodes (hRenders : g.Renders place c) {n : NodeId × NodeKind} :
    n ∈ g.nodes.entries ↔ ∃ m ∈ c.nodes, (place m.1, m.2) = n :=
  Set.ext_iff.1 hRenders.nodes n

theorem mem_keys (hRenders : g.Renders place c) {id : NodeId} :
    id ∈ g.nodes.keys ↔ ∃ x ∈ c.places, place x = id := by
  rw [OrderedMap.mem_keys]
  constructor
  · intro hKey
    obtain ⟨kind, hNode⟩ := hKey
    obtain ⟨m, hm, hEq⟩ := hRenders.mem_nodes.1 hNode
    exact ⟨m.1, ⟨m, hm, rfl⟩, congrArg Prod.fst hEq⟩
  · intro hPlace
    obtain ⟨x, ⟨m, hm, rfl⟩, rfl⟩ := hPlace
    exact ⟨m.2, hRenders.mem_nodes.2 ⟨m, hm, rfl⟩⟩

theorem mem_edges (hRenders : g.Renders place c) {e : Edge} :
    e ∈ g.edges ↔ ∃ arc ∈ c.arcs, arc.edge place = e :=
  Set.ext_iff.1 hRenders.edges e

theorem mem_entries (hRenders : g.Renders place c) {id : NodeId} :
    id ∈ g.entries ↔ ∃ x ∈ c.entries, place x = id :=
  Set.ext_iff.1 hRenders.entries id

theorem mem_exits (hRenders : g.Renders place c) {id : NodeId} :
    id ∈ g.exits ↔ ∃ x ∈ c.exits, place x = id :=
  Set.ext_iff.1 hRenders.exits id

theorem link_iff (hRenders : g.Renders place c) {i j : NodeId} :
    g.Link i j ↔ ∃ x y, c.Link x y ∧ place x = i ∧ place y = j := by
  constructor
  · intro hLink
    obtain ⟨e, he, rfl, rfl⟩ := hLink
    obtain ⟨arc, hArc, rfl⟩ := hRenders.mem_edges.1 he
    exact ⟨arc.source, arc.target, ⟨arc, hArc, rfl, rfl⟩, rfl, rfl⟩
  · intro hLink
    obtain ⟨x, y, ⟨arc, hArc, rfl, rfl⟩, rfl, rfl⟩ := hLink
    exact ⟨arc.edge place, hRenders.mem_edges.2 ⟨arc, hArc, rfl⟩, rfl, rfl⟩

/-! ## Paths -/

/-- A path of the network runs along the places of a path of the chart. -/
theorem path_of_before (hRenders : g.Renders place c) (hInj : Set.InjOn place c.places)
    (hEnds : ∀ x y, c.Link x y → x ∈ c.places ∧ y ∈ c.places) {x : Place} (hx : x ∈ c.places)
    {j : NodeId} (hPath : g.Before (place x) j) :
    ∃ y ∈ c.places, place y = j ∧ TransGen c.Link x y := by
  induction hPath with
  | single hStep =>
      obtain ⟨u, v, hLink, hu, rfl⟩ := hRenders.link_iff.1 hStep
      have hEq : u = x := hInj (hEnds u v hLink).1 hx hu
      exact ⟨v, (hEnds u v hLink).2, rfl, .single (hEq ▸ hLink)⟩
  | tail _ hStep ih =>
      -- The path goes on from the one place that has the node `m`.
      obtain ⟨m, hm, rfl, hFront⟩ := ih
      obtain ⟨u, v, hLink, hu, rfl⟩ := hRenders.link_iff.1 hStep
      have hEq : u = m := hInj (hEnds u v hLink).1 hm hu
      exact ⟨v, (hEnds u v hLink).2, rfl, hFront.tail (hEq ▸ hLink)⟩

theorem before_of_path (hRenders : g.Renders place c) {x y : Place}
    (hPath : TransGen c.Link x y) : g.Before (place x) (place y) :=
  TransGen.lift place (fun u v hLink => hRenders.link_iff.2 ⟨u, v, hLink, rfl, rfl⟩) _ _ hPath

theorem before_iff (hRenders : g.Renders place c) (hInj : Set.InjOn place c.places)
    (hEnds : ∀ x y, c.Link x y → x ∈ c.places ∧ y ∈ c.places) {x y : Place} (hx : x ∈ c.places)
    (hy : y ∈ c.places) : g.Before (place x) (place y) ↔ TransGen c.Link x y := by
  refine ⟨fun hPath => ?_, hRenders.before_of_path⟩
  obtain ⟨z, hz, hEq, hChart⟩ := hRenders.path_of_before hInj hEnds hx hPath
  exact hInj hz hy hEq ▸ hChart

theorem acyclic_iff (hRenders : g.Renders place c) (hInj : Set.InjOn place c.places)
    (hEnds : ∀ x y, c.Link x y → x ∈ c.places ∧ y ∈ c.places) :
    Acyclic g.Link ↔ Acyclic c.Link := by
  constructor
  · intro hAcyclic x hCycle
    exact hAcyclic (place x) (hRenders.before_of_path hCycle)
  · intro hAcyclic i hCycle
    obtain ⟨j, hStep, -⟩ := TransGen.head'_iff.1 hCycle
    obtain ⟨x, y, hLink, rfl, -⟩ := hRenders.link_iff.1 hStep
    have hx := (hEnds x y hLink).1
    exact hAcyclic x ((hRenders.before_iff hInj hEnds hx hx).1 hCycle)

/-! ## Putting charts together -/

/-- Where two networks share a node, their charts share the place, and so its kind. -/
theorem nodes_union (hg : g.Renders place a) (hh : h.Renders place b)
    (hInj : Set.InjOn place (a.places ∪ b.places))
    (hKind : ∀ x k l, (x, k) ∈ a.nodes → (x, l) ∈ b.nodes → k = l) :
    { n | n ∈ (g.nodes.union h.nodes).entries } =
      (fun n => (place n.1, n.2)) '' (a.nodes ∪ b.nodes) := by
  rw [Set.image_union, ← hg.nodes, ← hh.nodes]
  ext n
  simp only [OrderedMap.entries_union, List.mem_append, List.mem_filter, decide_eq_true_eq,
    Set.mem_ofPred_eq, Set.mem_union]
  refine ⟨Or.imp_right And.left, ?_⟩
  intro hSide
  rcases hSide with hLeft | hRight
  · exact Or.inl hLeft
  -- A node of both sides is kept with the kind that it has on the first.
  · by_cases hKnown : n.1 ∈ g.nodes.keys
    · obtain ⟨⟨x, k⟩, hx, rfl⟩ := hh.mem_nodes.1 hRight
      obtain ⟨y, ⟨⟨y, l⟩, hy, rfl⟩, hEq⟩ := hg.mem_keys.1 hKnown
      have hxy : y = x := hInj (Or.inl ⟨_, hy, rfl⟩) (Or.inr ⟨_, hx, rfl⟩) hEq
      subst hxy
      have hkl : l = k := hKind _ l k hy hx
      exact Or.inl (hg.mem_nodes.2 ⟨_, hy, by rw [hkl]⟩)
    · exact Or.inr ⟨hRight, hKnown⟩

theorem edges_union (hg : g.Renders place a) (hh : h.Renders place b) :
    { e | e ∈ g.edges.union h.edges } = Arc.edge place '' (a.arcs ∪ b.arcs) := by
  rw [Set.image_union, ← hg.edges, ← hh.edges]
  ext e
  exact OrderedSet.mem_union

theorem inSequence (hg : g.Renders place a) (hh : h.Renders place b)
    (hInj : Set.InjOn place (a.places ∪ b.places))
    (hKind : ∀ x k l, (x, k) ∈ a.nodes → (x, l) ∈ b.nodes → k = l) :
    (g.inSequence h).Renders place (a.inSequence b) where
  nodes := nodes_union hg hh hInj hKind
  edges := by
    show { e | e ∈ (g.edges.union h.edges).union (g.links h) } =
      Arc.edge place '' (a.arcs ∪ b.arcs ∪ _)
    rw [Set.image_union, ← edges_union hg hh]
    ext e
    simp only [Set.mem_ofPred_eq, OrderedSet.mem_union, mem_links, Set.mem_union]
    refine or_congr_right ?_
    constructor
    · intro hBridge
      obtain ⟨i, hi, j, hj, rfl⟩ := hBridge
      obtain ⟨x, hx, rfl⟩ := hg.mem_exits.1 hi
      obtain ⟨y, hy, rfl⟩ := hh.mem_entries.1 hj
      exact ⟨⟨x, y, .dependency⟩, ⟨x, hx, y, hy, rfl⟩, rfl⟩
    · intro hBridge
      obtain ⟨arc, ⟨x, hx, y, hy, rfl⟩, rfl⟩ := hBridge
      exact ⟨place x, hg.mem_exits.2 ⟨x, hx, rfl⟩, place y, hh.mem_entries.2 ⟨y, hy, rfl⟩, rfl⟩
  entries := hg.entries
  exits := hh.exits

/-- An end of an edge is the node of a place exactly if it is that end of an arc. -/
theorem image_diff_ends (hInj : Set.InjOn place c.places) {frontier ends : Set Place}
    (hFrontier : frontier ⊆ c.places) (hEnds : ends ⊆ c.places) :
    place '' (frontier \ ends) = place '' frontier \ place '' ends := by
  have hUnion : Set.InjOn place (frontier ∪ ends) := hInj.mono (Set.union_subset hFrontier hEnds)
  ext i
  constructor
  · intro hKept
    obtain ⟨x, ⟨hx, hNot⟩, rfl⟩ := hKept
    refine ⟨⟨x, hx, rfl⟩, ?_⟩
    intro hEnd
    obtain ⟨y, hy, hEq⟩ := hEnd
    exact hNot (hUnion (Or.inr hy) (Or.inl hx) hEq ▸ hy)
  · intro hKept
    obtain ⟨⟨x, hx, rfl⟩, hNot⟩ := hKept
    exact ⟨x, ⟨hx, fun hEnd => hNot ⟨x, hEnd, rfl⟩⟩, rfl⟩

theorem overlaid (hg : g.Renders place a) (hh : h.Renders place b)
    (hInj : Set.InjOn place (a.overlaid b).places)
    (hKind : ∀ x k l, (x, k) ∈ a.nodes → (x, l) ∈ b.nodes → k = l)
    (hArcs : ∀ e ∈ (a.overlaid b).arcs,
      e.source ∈ (a.overlaid b).places ∧ e.target ∈ (a.overlaid b).places)
    (hEntries : a.entries ∪ b.entries ⊆ (a.overlaid b).places)
    (hExits : a.exits ∪ b.exits ⊆ (a.overlaid b).places) :
    (g.overlaid h).Renders place (a.overlaid b) where
  nodes := nodes_union hg hh (Chart.places_overlaid a b ▸ hInj) hKind
  edges := edges_union hg hh
  entries := by
    have hTargets : Arc.target '' (a.arcs ∪ b.arcs) ⊆ (a.overlaid b).places := by
      rintro _ ⟨e, he, rfl⟩
      exact (hArcs e he).2
    show _ = place '' ((a.entries ∪ b.entries) \ _)
    rw [image_diff_ends hInj hEntries hTargets, Set.image_union, ← hg.entries, ← hh.entries]
    ext i
    simp only [Set.mem_ofPred_eq, mem_entries_overlaid, Set.mem_sdiff, Set.mem_union]
    refine and_congr_right fun _ => ?_
    constructor
    · rintro hFree ⟨x, ⟨arc, hArc, rfl⟩, rfl⟩
      exact hFree (arc.edge place) (hArc.imp (fun hA => hg.mem_edges.2 ⟨arc, hA, rfl⟩)
        fun hB => hh.mem_edges.2 ⟨arc, hB, rfl⟩) rfl
    · rintro hFree e (he | he) rfl
      · obtain ⟨arc, hArc, rfl⟩ := hg.mem_edges.1 he
        exact hFree ⟨arc.target, ⟨arc, Or.inl hArc, rfl⟩, rfl⟩
      · obtain ⟨arc, hArc, rfl⟩ := hh.mem_edges.1 he
        exact hFree ⟨arc.target, ⟨arc, Or.inr hArc, rfl⟩, rfl⟩
  exits := by
    have hSources : Arc.source '' (a.arcs ∪ b.arcs) ⊆ (a.overlaid b).places := by
      rintro _ ⟨e, he, rfl⟩
      exact (hArcs e he).1
    show _ = place '' ((a.exits ∪ b.exits) \ _)
    rw [image_diff_ends hInj hExits hSources, Set.image_union, ← hg.exits, ← hh.exits]
    ext i
    simp only [Set.mem_ofPred_eq, mem_exits_overlaid, Set.mem_sdiff, Set.mem_union]
    refine and_congr_right fun _ => ?_
    constructor
    · rintro hFree ⟨x, ⟨arc, hArc, rfl⟩, rfl⟩
      exact hFree (arc.edge place) (hArc.imp (fun hA => hg.mem_edges.2 ⟨arc, hA, rfl⟩)
        fun hB => hh.mem_edges.2 ⟨arc, hB, rfl⟩) rfl
    · rintro hFree e (he | he) rfl
      · obtain ⟨arc, hArc, rfl⟩ := hg.mem_edges.1 he
        exact hFree ⟨arc.source, ⟨arc, Or.inl hArc, rfl⟩, rfl⟩
      · obtain ⟨arc, hArc, rfl⟩ := hh.mem_edges.1 he
        exact hFree ⟨arc.source, ⟨arc, Or.inr hArc, rfl⟩, rfl⟩

end Renders

end Network

namespace Workflow

/-- The node of a place, where the leaves have the given first nodes. -/
def placeNode (number : WorkflowId → Nat) : Place → NodeId
  | .entry leaf => ⟨number leaf⟩
  | .exit leaf => ⟨number leaf + 1⟩
  | .marker leaf => ⟨number leaf⟩

theorem activity_renders (id : WorkflowId) (name : String) (duration : Duration)
    (number : WorkflowId → Nat) :
    ((activity id name duration).layout number).Renders (placeNode number)
      (activity id name duration).chart where
  nodes := by
    have hNodes : (OrderedMap.ofList [((⟨number id⟩ : NodeId), NodeKind.boundary),
        (⟨number id + 1⟩, .boundary)]).entries =
          [(⟨number id⟩, .boundary), (⟨number id + 1⟩, .boundary)] := by
      have h := OrderedMap.ofList_entries
        ⟨[((⟨number id⟩ : NodeId), NodeKind.boundary), (⟨number id + 1⟩, .boundary)], by
          simp⟩
      rw [h]
    ext n
    show n ∈ (OrderedMap.ofList _).entries ↔ _
    rw [hNodes]
    simp [chart, Chart.activity, placeNode, Set.image_pair]
  edges := by
    ext e
    simp [layout, chart, Network.activity, Chart.activity, Arc.edge, placeNode, Edge.activity,
      ← OrderedSet.mem_toList]
  entries := by
    ext i
    simp [layout, chart, Network.activity, Chart.activity, placeNode, ← OrderedSet.mem_toList]
  exits := by
    ext i
    simp [layout, chart, Network.activity, Chart.activity, placeNode, ← OrderedSet.mem_toList]

theorem marker_renders (id : WorkflowId) (kind : NodeKind) (number : WorkflowId → Nat) :
    (Network.marker ⟨number id⟩ kind).Renders (placeNode number) (Chart.marker id kind) where
  nodes := by
    ext n
    simp [Network.marker, Chart.marker, placeNode]
  edges := by
    ext e
    simp [Network.marker, Chart.marker, ← OrderedSet.mem_toList]
  entries := by
    ext i
    simp [Network.marker, Chart.marker, placeNode, ← OrderedSet.mem_toList]
  exits := by
    ext i
    simp [Network.marker, Chart.marker, placeNode, ← OrderedSet.mem_toList]

/-- A layout that keeps the places of a coherent workflow apart renders its chart. -/
theorem layout_renders {w : Workflow} {number : WorkflowId → Nat} (hCoherent : w.Coherent)
    (hInj : Set.InjOn (placeNode number) w.chart.places) :
    (w.layout number).Renders (placeNode number) w.chart := by
  induction w with
  | activity id name duration => exact activity_renders id name duration number
  | request id resource => exact marker_renders id _ number
  | release id resource => exact marker_renders id _ number
  | seq id first second ihFirst ihSecond =>
      rw [chart, Chart.places_inSequence] at hInj
      refine Network.Renders.inSequence
        (ihFirst (hCoherent.mono (.seqFirst .self)) (hInj.mono Set.subset_union_left))
        (ihSecond (hCoherent.mono (.seqSecond .self)) (hInj.mono Set.subset_union_right)) hInj ?_
      intro x k l hFirst hSecond
      exact hCoherent.kind_unique (x := x) (Or.inl hFirst) (Or.inr hSecond)
  | overlap id first second ihFirst ihSecond =>
      have hPlaces : first.chart.places ∪ second.chart.places =
          (overlap id first second).chart.places := (Chart.places_overlaid _ _).symm
      refine Network.Renders.overlaid
        (ihFirst (hCoherent.mono (.overlapFirst .self))
          (hInj.mono (hPlaces ▸ Set.subset_union_left)))
        (ihSecond (hCoherent.mono (.overlapSecond .self))
          (hInj.mono (hPlaces ▸ Set.subset_union_right))) hInj ?_ ?_ ?_ ?_
      · intro x k l hFirst hSecond
        exact hCoherent.kind_unique (x := x) (Or.inl hFirst) (Or.inr hSecond)
      · intro e he
        exact mem_places_of_mem_arcs (w := overlap id first second) he
      · exact (Set.union_subset_union (fun _ => mem_places_of_mem_entries)
          fun _ => mem_places_of_mem_entries).trans hPlaces.subset
      · exact (Set.union_subset_union (fun _ => mem_places_of_mem_exits)
          fun _ => mem_places_of_mem_exits).trans hPlaces.subset
  | holding id process resources expansion _ ihExpansion =>
      exact ihExpansion (hCoherent.mono (.expansion .self)) hInj

/-- The nodes of a leaf lie between its first node and the first node behind it. -/
theorem placeNode_bounds {leaf : Workflow} {x : Place} (hLeaf : leaf.isLeaf = true)
    (hx : x = leaf.entryPlace ∨ x = leaf.exitPlace) (number : WorkflowId → Nat) :
    number leaf.id ≤ (placeNode number x).index ∧
      (placeNode number x).index < number leaf.id + leaf.width := by
  rcases isLeaf_cases hLeaf with
    ⟨id, name, duration, rfl⟩ | ⟨id, resource, rfl⟩ | ⟨id, resource, rfl⟩
  · rcases hx with rfl | rfl <;> simp only [entryPlace, exitPlace, placeNode, width, Workflow.id]
      <;> omega
  · rcases hx with rfl | rfl <;> simp only [entryPlace, exitPlace, placeNode, width, Workflow.id]
      <;> omega
  · rcases hx with rfl | rfl <;> simp only [entryPlace, exitPlace, placeNode, width, Workflow.id]
      <;> omega

theorem placeNode_injOn_leaf {leaf : Workflow} {x y : Place} (hLeaf : leaf.isLeaf = true)
    (hx : x = leaf.entryPlace ∨ x = leaf.exitPlace) (hy : y = leaf.entryPlace ∨ y = leaf.exitPlace)
    {number : WorkflowId → Nat} (hEq : placeNode number x = placeNode number y) : x = y := by
  rcases isLeaf_cases hLeaf with
    ⟨id, name, duration, rfl⟩ | ⟨id, resource, rfl⟩ | ⟨id, resource, rfl⟩
  · rcases hx with rfl | rfl <;> rcases hy with rfl | rfl <;>
      simp [entryPlace, exitPlace, placeNode] at hEq ⊢
  · rcases hx with rfl | rfl <;> rcases hy with rfl | rfl <;> rfl
  · rcases hx with rfl | rfl <;> rcases hy with rfl | rfl <;> rfl

/-- A compilation gives different nodes to different places. -/
theorem numbering_injOn {w : Workflow} (hCoherent : w.Coherent) :
    Set.InjOn (placeNode w.numbering) w.chart.places := by
  intro x hx y hy hEq
  obtain ⟨u, hu, hxu⟩ := mem_places_chart.1 hx
  obtain ⟨v, hv, hyv⟩ := mem_places_chart.1 hy
  by_cases hSame : u = v
  · subst hSame
    exact placeNode_injOn_leaf hu.1 hxu hyv hEq
  -- The nodes of different leaves lie in ranges that do not meet.
  · have hApart := firstNode_apart ((mem_leaves hCoherent).2 hu) ((mem_leaves hCoherent).2 hv)
      (nodup_leafIds hCoherent) hSame
    have hBoundsX := placeNode_bounds hu.1 hxu w.numbering
    have hBoundsY := placeNode_bounds hv.1 hyv w.numbering
    rw [hEq] at hBoundsX
    simp only [numbering] at hBoundsX hBoundsY
    omega

/-- The network of a coherent workflow renders its chart. -/
theorem network_renders {w : Workflow} (hCoherent : w.Coherent) :
    w.network.Renders (placeNode w.numbering) w.chart := by
  rw [network_eq_layout hCoherent]
  exact layout_renders hCoherent (numbering_injOn hCoherent)

theorem places_mono {v w : Workflow} (hInside : v.Inside w) :
    v.chart.places ⊆ w.chart.places := by
  intro x hx
  obtain ⟨leaf, hLeaf, hPlace⟩ := mem_places_chart.1 hx
  exact mem_places_chart.2 ⟨leaf, hLeaf.trans hInside, hPlace⟩

/-- What a compilation keeps for a part renders the chart of the part, with the same nodes. -/
theorem kept_renders {w part : Workflow} (hCoherent : w.Coherent) (hInside : part.Inside w) :
    ∃ network, w.kept? part = some network ∧
      network.Renders (placeNode w.numbering) part.chart :=
  ⟨_, kept_eq_layout hCoherent hInside, layout_renders (hCoherent.mono hInside)
    ((numbering_injOn hCoherent).mono (places_mono hInside))⟩

theorem network_closed {w : Workflow} (hCoherent : w.Coherent) : w.network.Closed := by
  have hRenders := network_renders hCoherent
  intro e he
  obtain ⟨arc, hArc, rfl⟩ := hRenders.mem_edges.1 he
  obtain ⟨hSource, hTarget⟩ := mem_places_of_mem_arcs hArc
  exact ⟨hRenders.mem_keys.2 ⟨_, hSource, rfl⟩, hRenders.mem_keys.2 ⟨_, hTarget, rfl⟩⟩

theorem network_acyclic_iff {w : Workflow} (hCoherent : w.Coherent) :
    Acyclic w.network.Link ↔ Acyclic w.chart.Link :=
  (network_renders hCoherent).acyclic_iff (numbering_injOn hCoherent) fun _ _ =>
    mem_places_of_link

end Workflow

end ActivityNetwork
