import ActivityNetwork.Proofs.Workflow.Rendering

/-!
# Leaves in turn

Where two sides are put together, the lists of a network hold all of the first side and then what
the second side adds.  A list that comes about in this way (`Accrues`) is the lists of the leaves
one after the other, in the order in which the leaves are first met (`Accrues.eq_flatMap`).

This is how the nodes and the activities of a compiled workflow are ordered.  With the numbering
of a compilation they are `inTurn`: each leaf takes its nodes behind those of the leaves before it.
-/

namespace ActivityNetwork

namespace Workflow

variable {w part first second u v leaf : Workflow} {found : List Workflow}

/-! ## Lists that accrue -/

/-- All of the first list, then what the second adds to it. -/
def extend {β : Type} [DecidableEq β] (xs ys : List β) : List β :=
  xs ++ ys.filter (· ∉ xs)

/-- Inside `w`, the list of a composed part is made from the lists of its sides, and different
leaves have nothing in common. -/
structure Accrues {β : Type} [DecidableEq β] (w : Workflow) (content : Workflow → List β) :
    Prop where
  seq : ∀ id first second, (seq id first second).Inside w →
    content (seq id first second) = extend (content first) (content second)
  overlap : ∀ id first second, (overlap id first second).Inside w →
    content (overlap id first second) = extend (content first) (content second)
  holding : ∀ id process resources expansion,
    (holding id process resources expansion).Inside w →
      content (holding id process resources expansion) = content expansion
  apart : ∀ u v : Workflow, u.LeafOf w → v.LeafOf w → u ≠ v → ∀ x ∈ content u, x ∉ content v

theorem mem_collect (h : leaf ∈ part.collect found) : leaf ∈ found ∨ leaf.LeafOf part :=
  (mem_of_mem_foldl_addNew h).imp_right mem_flatten.1

section Accrual

variable {β : Type} [DecidableEq β] {content : Workflow → List β}

theorem extend_nil (xs : List β) : extend [] xs = xs := by
  simp [extend]

theorem extend_of_subset {xs ys : List β} (h : ys ⊆ xs) : extend xs ys = xs := by
  have hNothing : ys.filter (· ∉ xs) = [] :=
    List.filter_eq_nil_iff.2 fun y hy => by simpa using h hy
  rw [extend, hNothing, List.append_nil]

theorem extend_of_apart {xs ys : List β} (h : ∀ y ∈ ys, y ∉ xs) : extend xs ys = xs ++ ys := by
  have hAll : ys.filter (· ∉ xs) = ys := List.filter_eq_self.2 fun y hy => by simpa using h y hy
  rw [extend, hAll]

theorem extend_assoc (xs ys zs : List β) :
    extend xs (extend ys zs) = extend (extend xs ys) zs := by
  simp only [extend, List.filter_append, List.append_assoc, List.filter_filter]
  congr 2
  apply List.filter_congr
  intro x _
  by_cases hKnown : x ∈ xs <;> simp [hKnown]

/-- What a new leaf adds is its whole list, and what a known leaf adds is nothing. -/
theorem Accrues.collect_leaf (hAccrues : w.Accrues content) (hCoherent : w.Coherent)
    (hLeaf : leaf.LeafOf w) (hFound : ∀ u ∈ found, u.LeafOf w) :
    extend (found.flatMap content) (content leaf) = (leaf.collect found).flatMap content := by
  rw [collect_of_isLeaf hLeaf.1, addNew]
  by_cases hKnown : leaf.id ∈ found.map Workflow.id
  · obtain ⟨other, hOther, hId⟩ := List.mem_map.1 hKnown
    have hEq : other = leaf := hCoherent other leaf (hFound other hOther).2 hLeaf.2 hId
    rw [if_pos hKnown, extend_of_subset]
    exact fun x hx => List.mem_flatMap.2 ⟨leaf, hEq ▸ hOther, hx⟩
  · rw [if_neg hKnown, extend_of_apart, List.flatMap_append, List.flatMap_singleton]
    intro x hx hShared
    obtain ⟨other, hOther, hxOther⟩ := List.mem_flatMap.1 hShared
    have hNe : leaf ≠ other := fun hEq => hKnown (hEq ▸ List.mem_map_of_mem hOther)
    exact hAccrues.apart leaf other hLeaf (hFound other hOther) hNe x hx hxOther

/-- A part adds what its new leaves add one by one. -/
theorem Accrues.collect (hAccrues : w.Accrues content) (hCoherent : w.Coherent)
    (hPart : part.Inside w) (hFound : ∀ u ∈ found, u.LeafOf w) :
    extend (found.flatMap content) (content part) = (part.collect found).flatMap content := by
  induction part generalizing found with
  | activity id name duration => exact hAccrues.collect_leaf hCoherent ⟨rfl, hPart⟩ hFound
  | request id resource => exact hAccrues.collect_leaf hCoherent ⟨rfl, hPart⟩ hFound
  | release id resource => exact hAccrues.collect_leaf hCoherent ⟨rfl, hPart⟩ hFound
  | seq id first second ihFirst ihSecond =>
      have hFirst : first.Inside w := Inside.trans (.seqFirst .self) hPart
      have hSecond : second.Inside w := Inside.trans (.seqSecond .self) hPart
      have hBetween : ∀ u ∈ first.collect found, u.LeafOf w := fun u hu =>
        (mem_collect hu).elim (hFound u) fun hLeaf => hLeaf.trans hFirst
      rw [hAccrues.seq id first second hPart, extend_assoc, ihFirst hFirst hFound,
        ihSecond hSecond hBetween, collect_seq]
  | overlap id first second ihFirst ihSecond =>
      have hFirst : first.Inside w := Inside.trans (.overlapFirst .self) hPart
      have hSecond : second.Inside w := Inside.trans (.overlapSecond .self) hPart
      have hBetween : ∀ u ∈ first.collect found, u.LeafOf w := fun u hu =>
        (mem_collect hu).elim (hFound u) fun hLeaf => hLeaf.trans hFirst
      rw [hAccrues.overlap id first second hPart, extend_assoc, ihFirst hFirst hFound,
        ihSecond hSecond hBetween, collect_overlap]
  | holding id process resources expansion _ ihExpansion =>
      rw [hAccrues.holding id process resources expansion hPart]
      exact ihExpansion (Inside.trans (.expansion .self) hPart) hFound

/-- The list of a workflow is the lists of its leaves in turn. -/
theorem Accrues.eq_flatMap (hAccrues : w.Accrues content) (hCoherent : w.Coherent) :
    content w = w.leaves.flatMap content := by
  have hNone : ∀ u ∈ ([] : List Workflow), u.LeafOf w := fun u hu => absurd hu List.not_mem_nil
  have hCollect := hAccrues.collect hCoherent .self hNone
  rw [List.flatMap_nil, extend_nil] at hCollect
  rw [leaves_eq_collect hCoherent, hCollect]

end Accrual

/-! ## Nodes and activities of a layout -/

section Layout

variable {number : WorkflowId → Nat}

/-- A layout that keeps places apart keeps leaves apart. -/
theorem leaf_eq_of_node_eq (hCoherent : w.Coherent)
    (hInj : Set.InjOn (placeNode number) w.chart.places) (hu : u.LeafOf w) (hv : v.LeafOf w)
    {x y : Place} (hx : x ∈ u.chart.places) (hy : y ∈ v.chart.places)
    (hEq : placeNode number x = placeNode number y) : u = v := by
  have hSame : x = y := hInj (places_mono hu.2 hx) (places_mono hv.2 hy) hEq
  subst hSame
  exact hCoherent.leaf_unique hu hv ((mem_places_of_isLeaf hu.1).1 hx)
    ((mem_places_of_isLeaf hv.1).1 hy)

theorem part_renders (hCoherent : w.Coherent)
    (hInj : Set.InjOn (placeNode number) w.chart.places) (hPart : part.Inside w) :
    (part.layout number).Renders (placeNode number) part.chart :=
  layout_renders (hCoherent.mono hPart) (hInj.mono (places_mono hPart))

/-- A node of the second side is known from the first with the kind that it has there. -/
theorem mem_entries_iff_mem_keys (hCoherent : w.Coherent)
    (hInj : Set.InjOn (placeNode number) w.chart.places) (hFirst : first.Inside w)
    (hSecond : second.Inside w) {n : NodeId × NodeKind}
    (hn : n ∈ (second.layout number).nodes.entries) :
    n ∈ (first.layout number).nodes.entries ↔ n.1 ∈ (first.layout number).nodes.keys := by
  refine ⟨fun hMem => OrderedMap.mem_keys.2 ⟨n.2, hMem⟩, fun hKey => ?_⟩
  have hRendersFirst := part_renders hCoherent hInj hFirst
  obtain ⟨⟨x, kind⟩, hx, rfl⟩ := (part_renders hCoherent hInj hSecond).mem_nodes.1 hn
  obtain ⟨y, hy, hEq⟩ := hRendersFirst.mem_keys.1 hKey
  have hSame : y = x := hInj (places_mono hFirst hy) (places_mono hSecond ⟨_, hx, rfl⟩) hEq
  subst hSame
  obtain ⟨⟨y, other⟩, hOther, rfl⟩ := hy
  have hKind : other = kind := by
    obtain ⟨a, ha, hOwnA⟩ := mem_nodes_chart.1 hOther
    obtain ⟨b, hb, hOwnB⟩ := mem_nodes_chart.1 hx
    exact hCoherent.kind_unique (mem_nodes_chart.2 ⟨a, ha.trans hFirst, hOwnA⟩)
      (mem_nodes_chart.2 ⟨b, hb.trans hSecond, hOwnB⟩)
  exact hRendersFirst.mem_nodes.2 ⟨_, hOther, by rw [hKind]⟩

theorem entries_accrue (hCoherent : w.Coherent)
    (hInj : Set.InjOn (placeNode number) w.chart.places) :
    w.Accrues fun part => (part.layout number).nodes.entries := by
  have hSides : ∀ first second : Workflow, first.Inside w → second.Inside w →
      ((first.layout number).nodes.union (second.layout number).nodes).entries =
        extend (first.layout number).nodes.entries (second.layout number).nodes.entries := by
    intro first second hFirst hSecond
    rw [OrderedMap.entries_union, extend]
    congr 1
    apply List.filter_congr
    intro n hn
    simp only [mem_entries_iff_mem_keys hCoherent hInj hFirst hSecond hn]
  constructor
  · exact fun id first second hIn => hSides first second (Inside.trans (.seqFirst .self) hIn)
      (Inside.trans (.seqSecond .self) hIn)
  · exact fun id first second hIn => hSides first second (Inside.trans (.overlapFirst .self) hIn)
      (Inside.trans (.overlapSecond .self) hIn)
  · exact fun _ _ _ _ _ => rfl
  · intro u v hu hv hNe n hnU hnV
    obtain ⟨⟨x, kind⟩, hx, rfl⟩ := (part_renders hCoherent hInj hu.2).mem_nodes.1 hnU
    obtain ⟨⟨y, other⟩, hy, hEq⟩ := (part_renders hCoherent hInj hv.2).mem_nodes.1 hnV
    exact hNe (leaf_eq_of_node_eq hCoherent hInj hu hv ⟨_, hx, rfl⟩ ⟨_, hy, rfl⟩
      (congrArg Prod.fst hEq).symm)

theorem leaf_edges_apart (hCoherent : w.Coherent)
    (hInj : Set.InjOn (placeNode number) w.chart.places) (hu : u.LeafOf w) (hv : v.LeafOf w)
    (hNe : u ≠ v) {e : Edge} (he : e ∈ (u.layout number).edges) : e ∉ (v.layout number).edges := by
  intro heV
  obtain ⟨a, ha, rfl⟩ := (part_renders hCoherent hInj hu.2).mem_edges.1 he
  obtain ⟨b, hb, hEq⟩ := (part_renders hCoherent hInj hv.2).mem_edges.1 heV
  exact hNe (leaf_eq_of_node_eq hCoherent hInj hu hv (mem_places_of_mem_arcs ha).1
    (mem_places_of_mem_arcs hb).1 (congrArg Edge.source hEq).symm)

end Layout

end Workflow

namespace Network

open Workflow

/-- An activity of both sides is listed with the first. -/
theorem filter_activities_union (a b : OrderedSet Edge) :
    (a.union b).toList.filter Edge.isActivity =
      extend (a.toList.filter Edge.isActivity) (b.toList.filter Edge.isActivity) := by
  rw [OrderedSet.toList_union, List.filter_append, extend]
  congr 1
  rw [List.filter_filter, List.filter_filter]
  apply List.filter_congr
  intro e _
  by_cases hActivity : e.isActivity <;> simp [hActivity]

theorem activityEdges_overlaid (a b : Network) :
    (a.overlaid b).activityEdges = extend a.activityEdges b.activityEdges :=
  filter_activities_union a.edges b.edges

/-- The links between two sides are no activities. -/
theorem activityEdges_inSequence (a b : Network) :
    (a.inSequence b).activityEdges = extend a.activityEdges b.activityEdges := by
  have hLinks : (a.links b).toList.filter Edge.isActivity = [] := by
    refine List.filter_eq_nil_iff.2 fun e he => ?_
    obtain ⟨x, -, y, -, rfl⟩ := mem_links.1 he
    simp [Edge.isActivity, Edge.activityName?, Edge.dependency]
  have hAll := filter_activities_union (a.edges.union b.edges) (a.links b)
  rw [hLinks, extend_of_subset (List.nil_subset _)] at hAll
  exact hAll.trans (filter_activities_union a.edges b.edges)

end Network

namespace Workflow

variable {w leaf : Workflow} {number : WorkflowId → Nat}

theorem activityEdges_accrue (hCoherent : w.Coherent)
    (hInj : Set.InjOn (placeNode number) w.chart.places) :
    w.Accrues fun part => (part.layout number).activityEdges where
  seq := fun _ _ _ _ => Network.activityEdges_inSequence _ _
  overlap := fun _ _ _ _ => Network.activityEdges_overlaid _ _
  holding := fun _ _ _ _ _ => rfl
  apart := fun _ _ hu hv hNe _ he heV =>
    leaf_edges_apart hCoherent hInj hu hv hNe (List.mem_of_mem_filter he)
      (List.mem_of_mem_filter heV)

/-! ## Taking nodes in turn -/

/-- The nodes of a leaf whose first node is `n`: both ends of an activity, or a marker. -/
def ownNodes (n : Nat) : Workflow → List (NodeId × NodeKind)
  | activity .. => [(⟨n⟩, .boundary), (⟨n + 1⟩, .boundary)]
  | request _ r => [(⟨n⟩, .request r)]
  | release _ r => [(⟨n⟩, .release r)]
  | _ => []

/-- The activity of a leaf whose first node is `n`. -/
def ownActivities (n : Nat) : Workflow → List Edge
  | activity _ name duration => [.activity ⟨n⟩ ⟨n + 1⟩ name duration]
  | _ => []

/-- What the leaves have, where the first node of the first leaf is `n` and every leaf takes its
nodes behind those of the leaf before it. -/
def inTurn {β : Type} (own : Nat → Workflow → List β) : Nat → List Workflow → List β
  | _, [] => []
  | n, leaf :: rest => own n leaf ++ inTurn own (n + leaf.width) rest

theorem inTurn_eq_flatMap {β : Type} (own : Nat → Workflow → List β) (n : Nat)
    {leaves : List Workflow} (hNodup : (leaves.map Workflow.id).Nodup) :
    inTurn own n leaves = leaves.flatMap fun leaf => own (n + firstNode leaves leaf.id) leaf := by
  induction leaves generalizing n with
  | nil => rfl
  | cons leaf rest ih =>
      rw [List.map_cons, List.nodup_cons] at hNodup
      rw [inTurn, ih _ hNodup.2, List.flatMap_cons, firstNode, if_pos rfl, Nat.add_zero]
      congr 1
      apply List.flatMap_congr
      intro other hOther
      have hNe : leaf.id ≠ other.id := fun hEq => hNodup.1 (hEq ▸ List.mem_map_of_mem hOther)
      rw [firstNode, if_neg hNe, Nat.add_assoc]

theorem entries_of_isLeaf (hLeaf : leaf.isLeaf = true) (number : WorkflowId → Nat) :
    (leaf.layout number).nodes.entries = ownNodes (number leaf.id) leaf := by
  rcases isLeaf_cases hLeaf with
    ⟨id, name, duration, rfl⟩ | ⟨id, resource, rfl⟩ | ⟨id, resource, rfl⟩
  · exact congrArg OrderedMap.entries (OrderedMap.ofList_entries
      ⟨[((⟨number id⟩ : NodeId), NodeKind.boundary), (⟨number id + 1⟩, .boundary)], by simp⟩)
  · rfl
  · rfl

theorem activityEdges_of_isLeaf (hLeaf : leaf.isLeaf = true) (number : WorkflowId → Nat) :
    (leaf.layout number).activityEdges = ownActivities (number leaf.id) leaf := by
  rcases isLeaf_cases hLeaf with
    ⟨id, name, duration, rfl⟩ | ⟨id, resource, rfl⟩ | ⟨id, resource, rfl⟩
  · rfl
  · rfl
  · rfl

/-- A list that accrues in a compilation, with what single leaves contribute to it. -/
theorem Accrues.eq_inTurn {β : Type} [DecidableEq β] {content : Workflow → List β}
    (hAccrues : w.Accrues content) (hCoherent : w.Coherent) (own : Nat → Workflow → List β)
    (hOwn : ∀ leaf : Workflow, leaf.isLeaf = true → content leaf = own (w.numbering leaf.id) leaf) :
    content w = inTurn own 0 w.leaves := by
  rw [hAccrues.eq_flatMap hCoherent, inTurn_eq_flatMap own 0 (nodup_leafIds hCoherent)]
  apply List.flatMap_congr
  intro leaf hLeaf
  rw [hOwn leaf ((mem_leaves hCoherent).1 hLeaf).1, Nat.zero_add]
  rfl

/-- The nodes of a compiled workflow are those of its leaves in turn. -/
theorem network_entries_inTurn (hCoherent : w.Coherent) :
    w.network.nodes.entries = inTurn ownNodes 0 w.leaves := by
  rw [network_eq_layout hCoherent]
  exact (entries_accrue hCoherent (numbering_injOn hCoherent)).eq_inTurn hCoherent ownNodes
    fun leaf hLeaf => entries_of_isLeaf hLeaf w.numbering

/-- The activities of a compiled workflow are those of its leaves in turn. -/
theorem network_activityEdges_inTurn (hCoherent : w.Coherent) :
    w.network.activityEdges = inTurn ownActivities 0 w.leaves := by
  rw [network_eq_layout hCoherent]
  exact (activityEdges_accrue hCoherent (numbering_injOn hCoherent)).eq_inTurn hCoherent
    ownActivities fun leaf hLeaf => activityEdges_of_isLeaf hLeaf w.numbering

/-- Nodes that are taken in turn have consecutive ids. -/
theorem keys_inTurn (n : Nat) {leaves : List Workflow}
    (hLeaves : ∀ leaf ∈ leaves, leaf.isLeaf = true) :
    (inTurn ownNodes n leaves).map Prod.fst =
      (List.range' n (totalWidth leaves)).map NodeId.mk := by
  induction leaves generalizing n with
  | nil => rfl
  | cons leaf rest ih =>
      have hOwn : (ownNodes n leaf).map Prod.fst =
          (List.range' n leaf.width).map NodeId.mk := by
        rcases isLeaf_cases (hLeaves leaf List.mem_cons_self) with
          ⟨id, name, duration, rfl⟩ | ⟨id, resource, rfl⟩ | ⟨id, resource, rfl⟩
        · rfl
        · rfl
        · rfl
      rw [inTurn, totalWidth, List.map_append, hOwn,
        ih _ fun x hx => hLeaves x (List.mem_cons_of_mem _ hx), ← List.map_append,
        List.range'_append_1]

/-- The names of the activities are those of the leaves. -/
theorem names_inTurn (n : Nat) {leaves : List Workflow}
    (hLeaves : ∀ leaf ∈ leaves, leaf.isLeaf = true) :
    (inTurn ownActivities n leaves).filterMap Edge.activityName? =
      leaves.filterMap activityName? := by
  induction leaves generalizing n with
  | nil => rfl
  | cons leaf rest ih =>
      have hRest := ih (n + leaf.width) fun x hx => hLeaves x (List.mem_cons_of_mem _ hx)
      rw [inTurn, List.filterMap_append, hRest, List.filterMap_cons]
      rcases isLeaf_cases (hLeaves leaf List.mem_cons_self) with
        ⟨id, name, duration, rfl⟩ | ⟨id, resource, rfl⟩ | ⟨id, resource, rfl⟩
      · rfl
      · rfl
      · rfl

end Workflow

end ActivityNetwork
