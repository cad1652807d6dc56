import ActivityNetwork.Proofs.Draft.Networks

/-!
# The shape of compiled networks

A scheduler that walks a network of a built workflow meets few situations.  An activity can be
left through its own edge only, and it can be finished through its own edge only; everything else
leads from the end of one leaf to the beginning of another; and no two edges run side by side
(`network_walkable_of_built`).

All of this follows from one case distinction: an edge is the activity of a leaf, or it leads from
the exit of a leaf to the entry of a different one (`WellMade.edge_cases`).
-/

namespace ActivityNetwork

namespace Network

/-- The node marks the request or the release of a resource. -/
def IsMarker (g : Network) (id : NodeId) : Prop :=
  ∃ r, g.kind? id = some (.request r) ∨ g.kind? id = some (.release r)

/-- At most one edge leads from one node to another. -/
def Simple (g : Network) : Prop :=
  ∀ e ∈ g.edges, ∀ f ∈ g.edges, e.source = f.source → e.target = f.target → e = f

variable {g : Network}

theorem mem_activityEdges {e : Edge} :
    e ∈ g.activityEdges ↔ e ∈ g.edges ∧ e.isActivity = true := by
  rw [activityEdges, List.mem_filter, OrderedSet.mem_toList]

theorem mem_dependencyEdges {e : Edge} :
    e ∈ g.dependencyEdges ↔ e ∈ g.edges ∧ e.isActivity = false := by
  rw [dependencyEdges, List.mem_filter, OrderedSet.mem_toList, Edge.isDependency,
    Bool.not_eq_true']

theorem Simple.nodup_successors (hSimple : g.Simple) (id : NodeId) : (g.successors id).Nodup := by
  refine List.Nodup.map_on ?_ (g.edges.nodup.filter _)
  intro e he f hf hTarget
  obtain ⟨heMem, heSource⟩ := List.mem_filter.1 he
  obtain ⟨hfMem, hfSource⟩ := List.mem_filter.1 hf
  have hSource : e.source = f.source :=
    (of_decide_eq_true heSource).trans (of_decide_eq_true hfSource).symm
  exact hSimple e heMem f hfMem hSource hTarget

theorem Simple.nodup_predecessors (hSimple : g.Simple) (id : NodeId) :
    (g.predecessors id).Nodup := by
  refine List.Nodup.map_on ?_ (g.edges.nodup.filter _)
  intro e he f hf hSource
  obtain ⟨heMem, heTarget⟩ := List.mem_filter.1 he
  obtain ⟨hfMem, hfTarget⟩ := List.mem_filter.1 hf
  have hTarget : e.target = f.target :=
    (of_decide_eq_true heTarget).trans (of_decide_eq_true hfTarget).symm
  exact hSimple e heMem f hfMem hSource hTarget

end Network

namespace Workflow

variable {w p leaf : Workflow} {id : WorkflowId} {name : String} {duration : Duration}
  {node : NodeId} {e f : Edge}

/-! ## Nodes and edges of leaves -/

/-- The node of a kind is the node of a place that has this kind. -/
theorem place_of_kind {kind : NodeKind} (hCoherent : w.Coherent)
    (hKind : w.network.kind? node = some kind) :
    ∃ (x : Place) (leaf : Workflow), leaf.LeafOf w ∧ (x, kind) ∈ leaf.chart.nodes ∧
      node = placeNode w.numbering x := by
  have hNode := OrderedMap.find?_eq_some_iff.1 hKind
  obtain ⟨⟨x, k⟩, hPlace, hEq⟩ := (network_renders hCoherent).mem_nodes.1 hNode
  obtain ⟨rfl, rfl⟩ := Prod.mk.inj hEq
  obtain ⟨leaf, hLeaf, hOwn⟩ := mem_nodes_chart.1 hPlace
  exact ⟨x, leaf, hLeaf, hOwn, rfl⟩

theorem kind_of_place {kind : NodeKind} {x : Place} (hCoherent : w.Coherent)
    (hLeaf : leaf.LeafOf w) (hOwn : (x, kind) ∈ leaf.chart.nodes) :
    w.network.kind? (placeNode w.numbering x) = some kind := by
  have hPlace : (x, kind) ∈ w.chart.nodes := mem_nodes_chart.2 ⟨leaf, hLeaf, hOwn⟩
  exact OrderedMap.find?_eq_some_iff.2 ((network_renders hCoherent).mem_nodes.2 ⟨_, hPlace, rfl⟩)

/-- Boundaries are the two places of activities. -/
theorem activity_of_boundary (hCoherent : w.Coherent)
    (hKind : w.network.kind? node = some .boundary) :
    ∃ id name duration, (activity id name duration).LeafOf w ∧
      (node = placeNode w.numbering (.entry id) ∨ node = placeNode w.numbering (.exit id)) := by
  obtain ⟨x, leaf, hLeaf, hOwn, rfl⟩ := place_of_kind hCoherent hKind
  rcases isLeaf_cases hLeaf.1 with
    ⟨id, name, duration, rfl⟩ | ⟨id, resource, rfl⟩ | ⟨id, resource, rfl⟩
  · have hPlace := (mem_places_of_isLeaf hLeaf.1).1 ⟨_, hOwn, rfl⟩
    exact ⟨id, name, duration, hLeaf, hPlace.imp (congrArg _) (congrArg _)⟩
  · cases hOwn
  · cases hOwn

/-- All other nodes are the places of markers. -/
theorem marker_of_kind {kind : NodeKind} (hCoherent : w.Coherent)
    (hKind : w.network.kind? node = some kind) (hNe : kind ≠ .boundary) :
    ∃ m, .marker m ∈ w.chart.places ∧ node = placeNode w.numbering (.marker m) := by
  obtain ⟨x, leaf, hLeaf, hOwn, rfl⟩ := place_of_kind hCoherent hKind
  rcases isLeaf_cases hLeaf.1 with
    ⟨id, name, duration, rfl⟩ | ⟨id, resource, rfl⟩ | ⟨id, resource, rfl⟩
  · simp only [chart, Chart.activity, Set.mem_insert_iff, Set.mem_singleton_iff,
      Prod.mk.injEq] at hOwn
    rcases hOwn with ⟨-, rfl⟩ | ⟨-, rfl⟩ <;> exact absurd rfl hNe
  · exact ⟨id, entryPlace_mem hLeaf, congrArg (placeNode _) (Prod.mk.inj hOwn).1⟩
  · exact ⟨id, entryPlace_mem hLeaf, congrArg (placeNode _) (Prod.mk.inj hOwn).1⟩

/-- The edge of an activity, between the two nodes that a compilation of `w` gives to it. -/
def ownEdge (w : Workflow) (id : WorkflowId) (name : String) (duration : Duration) : Edge :=
  .activity (placeNode w.numbering (.entry id)) (placeNode w.numbering (.exit id)) name duration

theorem ownEdge_mem (hCoherent : w.Coherent) (hLeaf : (activity id name duration).LeafOf w) :
    w.ownEdge id name duration ∈ w.network.activityEdges := by
  have hArc : (⟨.entry id, .exit id, .activity name duration⟩ : Arc) ∈ w.chart.arcs :=
    mem_arcs_chart.2 (Or.inl ⟨_, hLeaf, rfl⟩)
  exact Network.mem_activityEdges.2 ⟨(network_renders hCoherent).mem_edges.2 ⟨_, hArc, rfl⟩, rfl⟩

/-- An edge is the activity of a leaf, or leads from the exit of a leaf to the entry of
another. -/
theorem WellMade.edge_cases (hMade : w.WellMade) (he : e ∈ w.network.edges) :
    (∃ id name duration, (activity id name duration).LeafOf w ∧
        e = w.ownEdge id name duration) ∨
      ∃ p q : Workflow, p.LeafOf w ∧ q.LeafOf w ∧ p ≠ q ∧
        e = .dependency (placeNode w.numbering p.exitPlace)
          (placeNode w.numbering q.entryPlace) := by
  obtain ⟨arc, hArc, rfl⟩ := (network_renders hMade.coherent).mem_edges.1 he
  rcases mem_arcs_chart.1 hArc with ⟨leaf, hLeaf, hOwn⟩ | ⟨seqId, first, second, hSeq, hBridge⟩
  · rcases isLeaf_cases hLeaf.1 with
      ⟨id, name, duration, rfl⟩ | ⟨id, resource, rfl⟩ | ⟨id, resource, rfl⟩
    · obtain rfl : arc = ⟨.entry id, .exit id, .activity name duration⟩ := hOwn
      exact Or.inl ⟨id, name, duration, hLeaf, rfl⟩
    · cases hOwn
    · cases hOwn
  · obtain ⟨x, hx, y, hy, rfl⟩ := hBridge
    obtain ⟨p, hp, rfl⟩ := exitPlace_of_mem_exits hx
    obtain ⟨q, hq, rfl⟩ := entryPlace_of_mem_entries hy
    have hDeclares : w.Declares p q := ⟨seqId, first, second, hSeq, hp, hq⟩
    -- The sides of a sequence share no leaf.
    have hNe : p ≠ q := fun hEq => hMade.apart seqId first second hSeq p hp (hEq ▸ hq)
    exact Or.inr ⟨p, q, hDeclares.leafOf.1, hDeclares.leafOf.2, hNe, rfl⟩

theorem WellMade.activity_cases (hMade : w.WellMade) (he : e ∈ w.network.activityEdges) :
    ∃ id name duration, (activity id name duration).LeafOf w ∧
      e = w.ownEdge id name duration := by
  obtain ⟨hEdge, hActivity⟩ := Network.mem_activityEdges.1 he
  rcases hMade.edge_cases hEdge with hOwn | ⟨p, q, -, -, -, rfl⟩
  · exact hOwn
  · cases hActivity

/-! ## Places apart -/

theorem entryPlace_ne_exit (p : Workflow) (id : WorkflowId) : p.entryPlace ≠ .exit id := by
  cases p <;> simp [entryPlace]

theorem exitPlace_ne_entry (p : Workflow) (id : WorkflowId) : p.exitPlace ≠ .entry id := by
  cases p <;> simp [exitPlace]

theorem place_eq_of_node_eq (hCoherent : w.Coherent) {x y : Place} (hx : x ∈ w.chart.places)
    (hy : y ∈ w.chart.places) (hEq : placeNode w.numbering x = placeNode w.numbering y) : x = y :=
  numbering_injOn hCoherent hx hy hEq

theorem entry_mem (hLeaf : (activity id name duration).LeafOf w) :
    Place.entry id ∈ w.chart.places :=
  entryPlace_mem hLeaf

theorem exit_mem (hLeaf : (activity id name duration).LeafOf w) :
    Place.exit id ∈ w.chart.places :=
  exitPlace_mem hLeaf

/-- An id stands for one activity. -/
theorem ownEdge_eq (hCoherent : w.Coherent) (hLeaf : (activity id name duration).LeafOf w)
    {other : String} {length : Duration} (hOther : (activity id other length).LeafOf w) :
    w.ownEdge id other length = w.ownEdge id name duration := by
  have hSame : activity id other length = activity id name duration :=
    hCoherent _ _ hOther.2 hLeaf.2 rfl
  cases hSame
  rfl

section Edges

variable (hMade : w.WellMade)
include hMade

/-- Nothing but the activity itself leaves the node at which it begins. -/
theorem WellMade.eq_of_source_eq (he : e ∈ w.network.activityEdges) (hf : f ∈ w.network.edges)
    (hSource : f.source = e.source) : f = e := by
  have hCoherent := hMade.coherent
  obtain ⟨id, name, duration, hLeaf, rfl⟩ := hMade.activity_cases he
  rcases hMade.edge_cases hf with ⟨other, label, length, hOther, rfl⟩ | ⟨p, q, hp, -, -, rfl⟩
  · have hPlace := place_eq_of_node_eq hCoherent (entry_mem hOther) (entry_mem hLeaf) hSource
    cases hPlace
    exact ownEdge_eq hCoherent hLeaf hOther
  · have hPlace := place_eq_of_node_eq hCoherent (exitPlace_mem hp) (entry_mem hLeaf) hSource
    exact absurd hPlace (exitPlace_ne_entry p id)

/-- Nothing but the activity itself enters the node at which it ends. -/
theorem WellMade.eq_of_target_eq (he : e ∈ w.network.activityEdges) (hf : f ∈ w.network.edges)
    (hTarget : f.target = e.target) : f = e := by
  have hCoherent := hMade.coherent
  obtain ⟨id, name, duration, hLeaf, rfl⟩ := hMade.activity_cases he
  rcases hMade.edge_cases hf with ⟨other, label, length, hOther, rfl⟩ | ⟨p, q, -, hq, -, rfl⟩
  · have hPlace := place_eq_of_node_eq hCoherent (exit_mem hOther) (exit_mem hLeaf) hTarget
    cases hPlace
    exact ownEdge_eq hCoherent hLeaf hOther
  · have hPlace := place_eq_of_node_eq hCoherent (entryPlace_mem hq) (exit_mem hLeaf) hTarget
    exact absurd hPlace (entryPlace_ne_exit q id)

theorem WellMade.source_ne_target (he : e ∈ w.network.activityEdges)
    (hf : f ∈ w.network.activityEdges) : e.source ≠ f.target := by
  obtain ⟨id, name, duration, hLeaf, rfl⟩ := hMade.activity_cases he
  obtain ⟨other, label, length, hOther, rfl⟩ := hMade.activity_cases hf
  intro hEq
  cases place_eq_of_node_eq hMade.coherent (entry_mem hLeaf) (exit_mem hOther) hEq

/-- Between two nodes there is an activity or a dependency, and only one of them. -/
theorem WellMade.network_simple : w.network.Simple := by
  intro e he f hf hSource hTarget
  rcases hMade.edge_cases he with ⟨id, name, duration, hLeaf, rfl⟩ | ⟨p, q, hp, hq, -, rfl⟩
  · exact (hMade.eq_of_source_eq (ownEdge_mem hMade.coherent hLeaf) hf hSource.symm).symm
  · rcases hMade.edge_cases hf with ⟨id, name, duration, hLeaf, rfl⟩ | ⟨u, v, -, -, -, rfl⟩
    · exact hMade.eq_of_source_eq (ownEdge_mem hMade.coherent hLeaf) he hSource
    · have hEnds : placeNode w.numbering p.exitPlace = placeNode w.numbering u.exitPlace ∧
          placeNode w.numbering q.entryPlace = placeNode w.numbering v.entryPlace :=
        ⟨hSource, hTarget⟩
      rw [hEnds.1, hEnds.2]

/-- A boundary belongs to the activity that begins or ends there, and to no other. -/
theorem WellMade.existsUnique_activity (hKind : w.network.kind? node = some .boundary) :
    ∃! e, e ∈ w.network.activityEdges ∧ (e.source = node ∨ e.target = node) := by
  obtain ⟨id, name, duration, hLeaf, hNode⟩ := activity_of_boundary hMade.coherent hKind
  have hOwn := ownEdge_mem hMade.coherent hLeaf
  refine ⟨_, ⟨hOwn, hNode.imp Eq.symm Eq.symm⟩, ?_⟩
  intro f hAt
  obtain ⟨hf, hEnd⟩ := hAt
  have hEdge := (Network.mem_activityEdges.1 hf).1
  rcases hNode with rfl | rfl <;> rcases hEnd with hEnd | hEnd
  · exact hMade.eq_of_source_eq hOwn hEdge hEnd
  · exact absurd hEnd.symm (hMade.source_ne_target hOwn hf)
  · exact absurd hEnd (hMade.source_ne_target hf hOwn)
  · exact hMade.eq_of_target_eq hOwn hEdge hEnd

/-- No activity begins or ends at a marker. -/
theorem WellMade.marker_apart (hMarker : w.network.IsMarker node)
    (he : e ∈ w.network.activityEdges) : e.source ≠ node ∧ e.target ≠ node := by
  obtain ⟨id, name, duration, hLeaf, rfl⟩ := hMade.activity_cases he
  obtain ⟨r, hKind⟩ := hMarker
  have hPlace : ∃ m, .marker m ∈ w.chart.places ∧ node = placeNode w.numbering (.marker m) := by
    rcases hKind with hKind | hKind
    · exact marker_of_kind hMade.coherent hKind (by simp)
    · exact marker_of_kind hMade.coherent hKind (by simp)
  obtain ⟨m, hm, rfl⟩ := hPlace
  constructor
  · intro hEq
    cases place_eq_of_node_eq hMade.coherent (entry_mem hLeaf) hm hEq
  · intro hEq
    cases place_eq_of_node_eq hMade.coherent (exit_mem hLeaf) hm hEq

end Edges

/-! ## Walking through the network -/

theorem entryNode_cases (hCoherent : w.Coherent) (hLeaf : p.LeafOf w) :
    w.network.IsMarker (placeNode w.numbering p.entryPlace) ∨
      ∃ e ∈ w.network.activityEdges, e.source = placeNode w.numbering p.entryPlace := by
  rcases isLeaf_cases hLeaf.1 with
    ⟨id, name, duration, rfl⟩ | ⟨id, resource, rfl⟩ | ⟨id, resource, rfl⟩
  · exact Or.inr ⟨_, ownEdge_mem hCoherent hLeaf, rfl⟩
  · exact Or.inl ⟨resource, Or.inl (kind_of_place hCoherent hLeaf rfl)⟩
  · exact Or.inl ⟨resource, Or.inr (kind_of_place hCoherent hLeaf rfl)⟩

theorem exitNode_cases (hCoherent : w.Coherent) (hLeaf : p.LeafOf w) :
    w.network.IsMarker (placeNode w.numbering p.exitPlace) ∨
      ∃ e ∈ w.network.activityEdges, e.target = placeNode w.numbering p.exitPlace := by
  rcases isLeaf_cases hLeaf.1 with
    ⟨id, name, duration, rfl⟩ | ⟨id, resource, rfl⟩ | ⟨id, resource, rfl⟩
  · exact Or.inr ⟨_, ownEdge_mem hCoherent hLeaf, rfl⟩
  · exact Or.inl ⟨resource, Or.inl (kind_of_place hCoherent hLeaf rfl)⟩
  · exact Or.inl ⟨resource, Or.inr (kind_of_place hCoherent hLeaf rfl)⟩

/-- What a scheduler meets when it walks through the network of `w`. -/
structure Walkable (w : Workflow) : Prop where
  /-- A boundary is an end of one activity. -/
  boundary : ∀ node, w.network.kind? node = some .boundary →
    ∃! e, e ∈ w.network.activityEdges ∧ (e.source = node ∨ e.target = node)
  /-- Where an activity begins, no other edge leaves. -/
  begin_only : ∀ e ∈ w.network.activityEdges, ∀ f ∈ w.network.edges, f.source = e.source → f = e
  /-- Where an activity ends, no other edge enters. -/
  end_only : ∀ e ∈ w.network.activityEdges, ∀ f ∈ w.network.edges, f.target = e.target → f = e
  /-- A marker is an end of no activity. -/
  marker : ∀ node, w.network.IsMarker node →
    ∀ e ∈ w.network.activityEdges, e.source ≠ node ∧ e.target ≠ node
  /-- A dependency leads from the end of a leaf, which is the end of an activity or a marker, to
  the beginning of another leaf, which is the beginning of an activity or a marker. -/
  dependency : ∀ e ∈ w.network.dependencyEdges,
    (w.network.IsMarker e.source ∨ ∃ f ∈ w.network.activityEdges, f.target = e.source) ∧
      (w.network.IsMarker e.target ∨ ∃ f ∈ w.network.activityEdges, f.source = e.target) ∧
      ∃ p q : Workflow, p.LeafOf w ∧ q.LeafOf w ∧ p ≠ q ∧ w.LeftAt p e.source ∧
        w.EnteredAt q e.target
  /-- No two edges run side by side. -/
  simple : w.network.Simple
  successors : ∀ node, (w.network.successors node).Nodup
  predecessors : ∀ node, (w.network.predecessors node).Nodup

theorem WellMade.dependency_ends (hMade : w.WellMade) (he : e ∈ w.network.dependencyEdges) :
    ∃ p q : Workflow, p.LeafOf w ∧ q.LeafOf w ∧ p ≠ q ∧
      e = .dependency (placeNode w.numbering p.exitPlace) (placeNode w.numbering q.entryPlace) := by
  obtain ⟨hEdge, hDependency⟩ := Network.mem_dependencyEdges.1 he
  rcases hMade.edge_cases hEdge with ⟨id, name, duration, -, rfl⟩ | hLink
  · cases hDependency
  · exact hLink

/-- Whatever is built compiles to a network of this shape. -/
theorem network_walkable_of_built (hBuilt : Built w) : w.Walkable := by
  have hMade := hBuilt.wellMade
  have hCoherent := hMade.coherent
  have hSimple := hMade.network_simple
  constructor
  · exact fun node hKind => hMade.existsUnique_activity hKind
  · exact fun e he f hf hSource => hMade.eq_of_source_eq he hf hSource
  · exact fun e he f hf hTarget => hMade.eq_of_target_eq he hf hTarget
  · exact fun node hMarker e he => hMade.marker_apart hMarker he
  · intro e he
    obtain ⟨p, q, hp, hq, hNe, rfl⟩ := hMade.dependency_ends he
    exact ⟨exitNode_cases hCoherent hp, entryNode_cases hCoherent hq, p, q, hp, hq, hNe,
      leftAt_of_leaf hCoherent hp, enteredAt_of_leaf hCoherent hq⟩
  · exact hSimple
  · exact hSimple.nodup_successors
  · exact hSimple.nodup_predecessors

theorem network_walkable_both :
    Built Sample.both ∧ Sample.both.Walkable ∧
      Sample.both.network.dependencyEdges =
        [.dependency ⟨1⟩ ⟨2⟩, .dependency ⟨3⟩ ⟨4⟩] :=
  ⟨Sample.built_both, network_walkable_of_built Sample.built_both, by decide +kernel⟩

end Workflow

end ActivityNetwork
