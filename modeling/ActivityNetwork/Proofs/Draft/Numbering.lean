import ActivityNetwork.Proofs.Draft.Networks
import ActivityNetwork.Proofs.Workflow.Succession
import Mathlib.Data.List.Sort

/-!
# The order in which a network lists what it has

The nodes of a compiled workflow are numbered in the order in which they are listed, leaf by leaf.
Its frontiers are listed by ascending ids as well, although a union lists what remains of one side
and then what remains of the other.

The second side of a union may come back to leaves that were met before it, and its frontier then
lists their nodes in any place.  This does no harm, because a union keeps only the frontier nodes
that no edge enters (or leaves), and such a node, if it was met before, is listed with the first
side.  So the invariant is about new nodes only: those behind the leaves that were found before a
part is met (`AscendingFrom`, `WellMade.frontiers_ascend`).  For the whole workflow all nodes are
new.
-/

namespace ActivityNetwork

/-- From the number `n` on, the nodes are listed by ascending ids. -/
def AscendingFrom (n : Nat) (ids : List NodeId) : Prop :=
  (ids.filter (n ≤ ·.index)).Pairwise (·.index < ·.index)

section AscendingFrom

variable {n m : Nat} {ids kept : List NodeId}

theorem ascendingFrom_zero : AscendingFrom 0 ids ↔ ids.Pairwise (·.index < ·.index) := by
  have hAll : ids.filter (0 ≤ ·.index) = ids := List.filter_eq_self.2 fun _ _ => by simp
  rw [AscendingFrom, hAll]

theorem ascendingFrom_singleton (n : Nat) (id : NodeId) : AscendingFrom n [id] :=
  (List.pairwise_singleton _ id).filter _

/-- If what is kept from `n` on lies behind `m`, it is in order from `n` on. -/
theorem AscendingFrom.of_above (hAscending : AscendingFrom m ids) (hKept : kept.Sublist ids)
    (hAbove : ∀ id ∈ kept, n ≤ id.index → m ≤ id.index) : AscendingFrom n kept := by
  have hSelf : (kept.filter (n ≤ ·.index)).filter (m ≤ ·.index) = kept.filter (n ≤ ·.index) := by
    refine List.filter_eq_self.2 fun id hId => ?_
    obtain ⟨hMem, hLe⟩ := List.mem_filter.1 hId
    exact decide_eq_true (hAbove id hMem (of_decide_eq_true hLe))
  rw [AscendingFrom, ← hSelf]
  exact hAscending.sublist ((List.filter_sublist.trans hKept).filter _)

/-- What passes the test on the second side only lies behind the first side. -/
theorem AscendingFrom.union_filter {a b : OrderedSet NodeId} {test : NodeId → Bool}
    (ha : AscendingFrom n a.toList) (hb : AscendingFrom m b.toList)
    (hBelow : ∀ id ∈ a, id.index < m)
    (hAbove : ∀ id ∈ b, id ∉ a → test id = true → n ≤ id.index → m ≤ id.index) :
    AscendingFrom n ((a.union b).filter test).toList := by
  have hAdded : ∀ id ∈ (b.toList.filter (· ∉ a.toList)).filter test,
      n ≤ id.index → m ≤ id.index := by
    intro id hId
    obtain ⟨hMem, hTest⟩ := List.mem_filter.1 hId
    obtain ⟨hSecond, hNew⟩ := List.mem_filter.1 hMem
    exact hAbove id hSecond (of_decide_eq_true hNew) hTest
  rw [AscendingFrom, OrderedSet.toList_filter, OrderedSet.toList_union, List.filter_append,
    List.filter_append, List.pairwise_append]
  refine ⟨?_, ?_, ?_⟩
  · exact ha.of_above List.filter_sublist fun _ _ hLe => hLe
  · exact hb.of_above (List.filter_sublist.trans List.filter_sublist) hAdded
  · intro x hx y hy
    obtain ⟨hMem, hLe⟩ := List.mem_filter.1 hy
    have hFirst : x ∈ a := List.mem_of_mem_filter (List.mem_of_mem_filter hx)
    exact Nat.lt_of_lt_of_le (hBelow x hFirst) (hAdded y hMem (of_decide_eq_true hLe))

/-- Two ascending lists of the same nodes are the same list. -/
theorem eq_of_ascending {xs ys : List NodeId} (hXs : xs.Pairwise (·.index < ·.index))
    (hYs : ys.Pairwise (·.index < ·.index)) (hSame : ∀ id, id ∈ xs ↔ id ∈ ys) : xs = ys := by
  have : Std.Irrefl fun a b : NodeId => a.index < b.index := ⟨fun a => Nat.lt_irrefl a.index⟩
  have : Std.Antisymm fun a b : NodeId => a.index < b.index :=
    ⟨fun a b hLt hGt => absurd hGt (Nat.lt_asymm hLt)⟩
  exact hXs.eq_of_mem_iff hYs hSame

end AscendingFrom

namespace Workflow

variable {w v part leaf first second p q : Workflow} {found : List Workflow} {x : Place}
  {id : NodeId}

/-! ## Nodes that are handed out before a part is met -/

theorem placeNode_lt_iff (hCoherent : w.Coherent) (hPrefix : found <+: w.leaves)
    (hLeaf : leaf.LeafOf w) (hx : x = leaf.entryPlace ∨ x = leaf.exitPlace) :
    (placeNode w.numbering x).index < totalWidth found ↔ leaf ∈ found := by
  obtain ⟨added, hAll⟩ := hPrefix
  have hBounds := placeNode_bounds hLeaf.1 hx w.numbering
  have hNumber : w.numbering leaf.id = firstNode (found ++ added) leaf.id := by
    rw [hAll, numbering]
  have hFoundLeaf : ∀ other ∈ found, other.LeafOf w := fun other hOther =>
    (mem_leaves hCoherent).1 (hAll ▸ List.mem_append_left added hOther)
  constructor
  · intro hLt
    by_contra hNotFound
    have hNew : leaf.id ∉ found.map Workflow.id := by
      intro hKnown
      obtain ⟨other, hOther, hId⟩ := List.mem_map.1 hKnown
      have hEq : other = leaf := hCoherent other leaf (hFoundLeaf other hOther).2 hLeaf.2 hId
      exact hNotFound (hEq ▸ hOther)
    rw [firstNode_append_of_not_mem added hNew] at hNumber
    omega
  · intro hFound
    have hNodup : (found.map Workflow.id).Nodup := by
      have hAllNodup := nodup_leafIds hCoherent
      rw [leafIds, ← hAll, List.map_append] at hAllNodup
      exact (List.nodup_append.1 hAllNodup).1
    rw [firstNode_append_of_mem added (List.mem_map_of_mem hFound)] at hNumber
    have hBelow := firstNode_add_width_le hFound hNodup
    omega

theorem mem_collect_iff (hCoherent : w.Coherent) (hPrefix : part.collect found <+: w.leaves)
    (hLeaf : leaf.LeafOf w) :
    leaf ∈ part.collect found ↔ leaf ∈ found ∨ leaf.LeafOf part := by
  refine ⟨mem_collect, ?_⟩
  intro hMet
  rcases hMet with hOld | hOwn
  · exact (prefix_collect part found).subset hOld
  · have hId : leaf.id ∈ (part.collect found).map Workflow.id :=
      (mem_ids_collect leaf.id part found).2 (Or.inr ⟨leaf, hOwn, rfl⟩)
    obtain ⟨other, hOther, hSame⟩ := List.mem_map.1 hId
    have hOtherLeaf := (mem_leaves hCoherent).1 (hPrefix.subset hOther)
    have hEq : other = leaf := hCoherent other leaf hOtherLeaf.2 hLeaf.2 hSame
    exact hEq ▸ hOther

/-- After a part the nodes handed out are those from before and those of the part. -/
theorem index_lt_collect_iff (hCoherent : w.Coherent) (hPart : part.Inside w)
    (hPrefix : part.collect found <+: w.leaves) (hv : v.Inside w)
    (hId : id ∈ (v.layout w.numbering).nodes.keys) :
    id.index < totalWidth (part.collect found) ↔
      id.index < totalWidth found ∨ id ∈ (part.layout w.numbering).nodes.keys := by
  have hInj := numbering_injOn hCoherent
  obtain ⟨x, hx, rfl⟩ := (part_renders hCoherent hInj hv).mem_keys.1 hId
  obtain ⟨leaf, hLeafV, hPlace⟩ := mem_places_chart.1 hx
  have hLeaf := hLeafV.trans hv
  have hOwn : placeNode w.numbering x ∈ (part.layout w.numbering).nodes.keys ↔
      leaf.LeafOf part := by
    rw [(part_renders hCoherent hInj hPart).mem_keys]
    constructor
    · intro hShared
      obtain ⟨y, hy, hEq⟩ := hShared
      obtain ⟨other, hOther, hOtherPlace⟩ := mem_places_chart.1 hy
      have hSame : y = x := hInj (places_mono hPart hy) (places_mono hv hx) hEq
      subst hSame
      exact hCoherent.leaf_unique hLeaf (hOther.trans hPart) hPlace hOtherPlace ▸ hOther
    · exact fun hLeafPart => ⟨x, mem_places_chart.2 ⟨leaf, hLeafPart, hPlace⟩, rfl⟩
  rw [placeNode_lt_iff hCoherent hPrefix hLeaf hPlace,
    placeNode_lt_iff hCoherent ((prefix_collect part found).trans hPrefix) hLeaf hPlace, hOwn]
  exact mem_collect_iff hCoherent hPrefix hLeaf

theorem index_lt_of_mem_keys (hCoherent : w.Coherent) (hPart : part.Inside w)
    (hPrefix : part.collect found <+: w.leaves)
    (hId : id ∈ (part.layout w.numbering).nodes.keys) :
    id.index < totalWidth (part.collect found) :=
  (index_lt_collect_iff hCoherent hPart hPrefix hPart hId).2 (Or.inr hId)

/-- A new node that the part does not have comes after the part. -/
theorem le_index_of_not_mem_keys (hCoherent : w.Coherent) (hPart : part.Inside w)
    (hPrefix : part.collect found <+: w.leaves) (hv : v.Inside w)
    (hId : id ∈ (v.layout w.numbering).nodes.keys)
    (hOther : id ∉ (part.layout w.numbering).nodes.keys) (hLe : totalWidth found ≤ id.index) :
    totalWidth (part.collect found) ≤ id.index := by
  by_contra hLt
  rcases (index_lt_collect_iff hCoherent hPart hPrefix hv hId).1 (Nat.lt_of_not_le hLt) with
    hOld | hOwn
  · omega
  · exact hOther hOwn

/-! ## Frontiers of parts -/

section Frontiers

variable (hMade : w.WellMade)
include hMade

theorem WellMade.layout_entries_iff (hPart : part.Inside w) :
    id ∈ (part.layout w.numbering).entries ↔ id ∈ (part.layout w.numbering).sources :=
  (part_renders hMade.coherent (numbering_injOn hMade.coherent) hPart).mem_entries_iff_sources
    ((numbering_injOn hMade.coherent).mono (places_mono hPart)) (fun _ _ => mem_places_of_link)
    (hMade.mono hPart).framed id

theorem WellMade.layout_exits_iff (hPart : part.Inside w) :
    id ∈ (part.layout w.numbering).exits ↔ id ∈ (part.layout w.numbering).sinks :=
  (part_renders hMade.coherent (numbering_injOn hMade.coherent) hPart).mem_exits_iff_sinks
    ((numbering_injOn hMade.coherent).mono (places_mono hPart)) (fun _ _ => mem_places_of_link)
    (hMade.mono hPart).framed id

theorem WellMade.mem_keys_of_entry (hPart : part.Inside w)
    (hId : id ∈ (part.layout w.numbering).entries) : id ∈ (part.layout w.numbering).nodes.keys :=
  (Network.mem_sources.1 ((hMade.layout_entries_iff hPart).1 hId)).1

theorem WellMade.mem_keys_of_exit (hPart : part.Inside w)
    (hId : id ∈ (part.layout w.numbering).exits) : id ∈ (part.layout w.numbering).nodes.keys :=
  (Network.mem_sinks.1 ((hMade.layout_exits_iff hPart).1 hId)).1

/-- An entry that a union takes from its second side is no node of the first. -/
theorem WellMade.overlaid_entries_ascend (hFirst : first.Inside w) (hSecond : second.Inside w)
    (hPrefix : first.collect found <+: w.leaves)
    (ihFirst : AscendingFrom (totalWidth found) (first.layout w.numbering).entries.toList)
    (ihSecond : AscendingFrom (totalWidth (first.collect found))
      (second.layout w.numbering).entries.toList) :
    AscendingFrom (totalWidth found)
      ((first.layout w.numbering).overlaid (second.layout w.numbering)).entries.toList := by
  refine ihFirst.union_filter ihSecond ?_ ?_
  · exact fun id hId =>
      index_lt_of_mem_keys hMade.coherent hFirst hPrefix (hMade.mem_keys_of_entry hFirst hId)
  · intro id hId hNotFirst hFree hLe
    refine le_index_of_not_mem_keys hMade.coherent hFirst hPrefix hSecond
      (hMade.mem_keys_of_entry hSecond hId) (fun hKeyFirst => hNotFirst ?_) hLe
    -- Nothing enters the node in the union, so nothing enters it on the first side.
    rw [Bool.not_eq_true', ← Bool.not_eq_true, Network.isTarget_iff] at hFree
    refine (hMade.layout_entries_iff hFirst).2 (Network.mem_sources.2
      ⟨hKeyFirst, fun e he hTarget => hFree ⟨e, ?_, hTarget⟩⟩)
    exact OrderedSet.mem_union.2 (Or.inl he)

/-- An exit that a union takes from its second side is no node of the first. -/
theorem WellMade.overlaid_exits_ascend (hFirst : first.Inside w) (hSecond : second.Inside w)
    (hPrefix : first.collect found <+: w.leaves)
    (ihFirst : AscendingFrom (totalWidth found) (first.layout w.numbering).exits.toList)
    (ihSecond : AscendingFrom (totalWidth (first.collect found))
      (second.layout w.numbering).exits.toList) :
    AscendingFrom (totalWidth found)
      ((first.layout w.numbering).overlaid (second.layout w.numbering)).exits.toList := by
  refine ihFirst.union_filter ihSecond ?_ ?_
  · exact fun id hId =>
      index_lt_of_mem_keys hMade.coherent hFirst hPrefix (hMade.mem_keys_of_exit hFirst hId)
  · intro id hId hNotFirst hFree hLe
    refine le_index_of_not_mem_keys hMade.coherent hFirst hPrefix hSecond
      (hMade.mem_keys_of_exit hSecond hId) (fun hKeyFirst => hNotFirst ?_) hLe
    rw [Bool.not_eq_true', ← Bool.not_eq_true, Network.isSource_iff] at hFree
    refine (hMade.layout_exits_iff hFirst).2 (Network.mem_sinks.2
      ⟨hKeyFirst, fun e he hSource => hFree ⟨e, ?_, hSource⟩⟩)
    exact OrderedSet.mem_union.2 (Or.inl he)

/-- The sides of a sequence share no node, so all exits of the second side are new there. -/
theorem WellMade.seq_exits_ascend {seqId : WorkflowId}
    (hSeq : (seq seqId first second).Inside w) (hPrefix : first.collect found <+: w.leaves)
    (ihSecond : AscendingFrom (totalWidth (first.collect found))
      (second.layout w.numbering).exits.toList) :
    AscendingFrom (totalWidth found) (second.layout w.numbering).exits.toList := by
  have hInj := numbering_injOn hMade.coherent
  have hFirst : first.Inside w := Inside.trans (.seqFirst .self) hSeq
  have hSecond : second.Inside w := Inside.trans (.seqSecond .self) hSeq
  refine ihSecond.of_above (List.Sublist.refl _) fun id hId hLe => ?_
  have hKey := hMade.mem_keys_of_exit hSecond hId
  refine le_index_of_not_mem_keys hMade.coherent hFirst hPrefix hSecond hKey (fun hShared => ?_) hLe
  obtain ⟨x, hx, rfl⟩ := (part_renders hMade.coherent hInj hFirst).mem_keys.1 hShared
  obtain ⟨y, hy, hEq⟩ := (part_renders hMade.coherent hInj hSecond).mem_keys.1 hKey
  have hSame : y = x := hInj (places_mono hSecond hy) (places_mono hFirst hx) hEq
  exact (hMade.mono hSeq).places_apart hx (hSame ▸ hy)

/-- The new nodes in the frontiers of a part are listed by ascending ids. -/
theorem WellMade.frontiers_ascend (hPart : part.Inside w)
    (hPrefix : part.collect found <+: w.leaves) :
    AscendingFrom (totalWidth found) (part.layout w.numbering).entries.toList ∧
      AscendingFrom (totalWidth found) (part.layout w.numbering).exits.toList := by
  induction part generalizing found with
  | activity id name duration =>
      exact ⟨ascendingFrom_singleton _ _, ascendingFrom_singleton _ _⟩
  | request id resource => exact ⟨ascendingFrom_singleton _ _, ascendingFrom_singleton _ _⟩
  | release id resource => exact ⟨ascendingFrom_singleton _ _, ascendingFrom_singleton _ _⟩
  | seq id first second ihFirst ihSecond =>
      rw [collect_seq] at hPrefix
      have hBetween := (prefix_collect second (first.collect found)).trans hPrefix
      have hEntries := (ihFirst (Inside.trans (.seqFirst .self) hPart) hBetween).1
      have hExits := (ihSecond (Inside.trans (.seqSecond .self) hPart) hPrefix).2
      have hLast := hMade.seq_exits_ascend hPart hBetween hExits
      exact ⟨hEntries, hLast⟩
  | overlap id first second ihFirst ihSecond =>
      rw [collect_overlap] at hPrefix
      have hBetween := (prefix_collect second (first.collect found)).trans hPrefix
      have hFirst : first.Inside w := Inside.trans (.overlapFirst .self) hPart
      have hSecond : second.Inside w := Inside.trans (.overlapSecond .self) hPart
      obtain ⟨hEntriesFirst, hExitsFirst⟩ := ihFirst hFirst hBetween
      obtain ⟨hEntriesSecond, hExitsSecond⟩ := ihSecond hSecond hPrefix
      exact ⟨hMade.overlaid_entries_ascend hFirst hSecond hBetween hEntriesFirst hEntriesSecond,
        hMade.overlaid_exits_ascend hFirst hSecond hBetween hExitsFirst hExitsSecond⟩
  | holding id process resources expansion _ ihExpansion =>
      exact ihExpansion (Inside.trans (.expansion .self) hPart) hPrefix

/-- The frontiers of a network are listed by ascending ids. -/
theorem WellMade.network_frontiers_ascend :
    w.network.entries.toList.Pairwise (·.index < ·.index) ∧
      w.network.exits.toList.Pairwise (·.index < ·.index) := by
  have hPrefix : w.collect [] <+: w.leaves := by
    rw [leaves_eq_collect hMade.coherent]
  have hAscend := hMade.frontiers_ascend .self hPrefix
  rw [network_eq_layout hMade.coherent, ← ascendingFrom_zero, ← ascendingFrom_zero]
  exact hAscend

end Frontiers

/-! ## What a network lists -/

/-- The leaves take their nodes in turn, and the network lists what it has in this order. -/
structure NumberedInTurn (w : Workflow) : Prop where
  /-- Two boundaries for each activity and one node for each marker. -/
  nodes : w.network.nodes.entries = inTurn ownNodes 0 w.leaves
  /-- The nodes are counted from zero without a gap. -/
  keys : w.network.nodes.keys.toList = (List.range w.network.order).map NodeId.mk
  /-- One edge for each activity, from its first node to its second. -/
  activities : w.network.activityEdges = inTurn ownActivities 0 w.leaves
  names : w.network.activityEdges.filterMap Edge.activityName? = w.activityNames
  entries : w.network.entries = w.network.sources
  exits : w.network.exits = w.network.sinks
  entries_ascend : w.network.entries.toList.Pairwise (·.index < ·.index)
  exits_ascend : w.network.exits.toList.Pairwise (·.index < ·.index)
  /-- Every leaf is listed, and so has its nodes, once. -/
  once : w.leaves.Nodup ∧ ∀ leaf : Workflow, leaf ∈ w.leaves ↔ leaf.LeafOf w
  /-- What is kept for a leaf are the nodes and the edge that it takes in its turn. -/
  own : ∀ leaf : Workflow, leaf.LeafOf w → ∃ g, w.kept? leaf = some g ∧
    g.nodes.entries = ownNodes (firstNode w.leaves leaf.id) leaf ∧
      g.activityEdges = ownActivities (firstNode w.leaves leaf.id) leaf
  /-- What is kept for different leaves has no node and no edge in common. -/
  apart : ∀ p q : Workflow, p.LeafOf w → q.LeafOf w → p ≠ q →
    ∃ g h, w.kept? p = some g ∧ w.kept? q = some h ∧
      (∀ id ∈ g.nodes.keys, id ∉ h.nodes.keys) ∧ ∀ e ∈ g.edges, e ∉ h.edges

/-- The nodes of a network are those that its leaves take. -/
theorem network_order (hCoherent : w.Coherent) : w.network.order = totalWidth w.leaves := by
  have hLeaves : ∀ leaf ∈ w.leaves, leaf.isLeaf = true := fun leaf hLeaf =>
    ((mem_leaves hCoherent).1 hLeaf).1
  have hLength := congrArg List.length (keys_inTurn 0 hLeaves)
  rw [List.length_map, List.length_map, List.length_range'] at hLength
  rw [Network.order, OrderedMap.size, network_entries_inTurn hCoherent, hLength]

theorem network_keys (hCoherent : w.Coherent) :
    w.network.nodes.keys.toList = (List.range w.network.order).map NodeId.mk := by
  have hLeaves : ∀ leaf ∈ w.leaves, leaf.isLeaf = true := fun leaf hLeaf =>
    ((mem_leaves hCoherent).1 hLeaf).1
  rw [OrderedMap.toList_keys, network_entries_inTurn hCoherent, keys_inTurn 0 hLeaves,
    network_order hCoherent, List.range_eq_range']

theorem leaves_share_nothing (hCoherent : w.Coherent) (hp : p.LeafOf w) (hq : q.LeafOf w)
    (hNe : p ≠ q) :
    ∃ g h, w.kept? p = some g ∧ w.kept? q = some h ∧
      (∀ id ∈ g.nodes.keys, id ∉ h.nodes.keys) ∧ ∀ e ∈ g.edges, e ∉ h.edges := by
  have hInj := numbering_injOn hCoherent
  refine ⟨_, _, kept_eq_layout hCoherent hp.2, kept_eq_layout hCoherent hq.2, ?_, fun e he =>
    leaf_edges_apart hCoherent hInj hp hq hNe he⟩
  intro id hFirst hSecond
  obtain ⟨x, hx, rfl⟩ := (part_renders hCoherent hInj hp.2).mem_keys.1 hFirst
  obtain ⟨y, hy, hEq⟩ := (part_renders hCoherent hInj hq.2).mem_keys.1 hSecond
  exact hNe (leaf_eq_of_node_eq hCoherent hInj hp hq hx hy hEq.symm)

/-- The keys of a network ascend, so whatever is selected from them does. -/
theorem keys_filter_ascend (hCoherent : w.Coherent) (test : NodeId → Bool) :
    (w.network.nodes.keys.filter test).toList.Pairwise (·.index < ·.index) := by
  have hAll : w.network.nodes.keys.toList.Pairwise (·.index < ·.index) := by
    rw [network_keys hCoherent, List.pairwise_map]
    exact List.pairwise_lt_range
  exact hAll.filter test

/-- A built workflow is compiled leaf by leaf, and its frontiers are read off in order. -/
theorem network_numbered_of_built (hBuilt : Built w) : w.NumberedInTurn := by
  have hMade := hBuilt.wellMade
  have hCoherent := hMade.coherent
  have hSound := hMade.network_sound
  obtain ⟨hEntries, hExits⟩ := hMade.network_frontiers_ascend
  have hLeaves : ∀ leaf ∈ w.leaves, leaf.isLeaf = true := fun leaf hLeaf =>
    ((mem_leaves hCoherent).1 hLeaf).1
  constructor
  · exact network_entries_inTurn hCoherent
  · exact network_keys hCoherent
  · exact network_activityEdges_inTurn hCoherent
  · rw [network_activityEdges_inTurn hCoherent]
    exact names_inTurn 0 hLeaves
  · exact OrderedSet.ext_toList
      (eq_of_ascending hEntries (keys_filter_ascend hCoherent _) hSound.entries)
  · exact OrderedSet.ext_toList
      (eq_of_ascending hExits (keys_filter_ascend hCoherent _) hSound.exits)
  · exact hEntries
  · exact hExits
  · exact ⟨(nodup_leafIds hCoherent).of_map _, fun leaf => mem_leaves hCoherent⟩
  · exact fun leaf hLeaf => ⟨_, kept_eq_layout hCoherent hLeaf.2,
      entries_of_isLeaf hLeaf.1 w.numbering, activityEdges_of_isLeaf hLeaf.1 w.numbering⟩
  · exact fun p q hp hq hNe => leaves_share_nothing hCoherent hp hq hNe

theorem network_numbered_both :
    Built Sample.both ∧ Sample.both.NumberedInTurn ∧
      inTurn ownNodes 0 Sample.both.leaves =
        [(⟨0⟩, .boundary), (⟨1⟩, .boundary), (⟨2⟩, .boundary), (⟨3⟩, .boundary),
          (⟨4⟩, .boundary), (⟨5⟩, .boundary)] :=
  ⟨Sample.built_both, network_numbered_of_built Sample.built_both, by decide +kernel⟩

end Workflow

end ActivityNetwork
