import ActivityNetwork.Proofs.Draft.Sequencing
import ActivityNetwork.Proofs.Workflow.Bracketing

/-!
# What holding resources compiles to

A process that holds resources stands between two unions of markers.  Such a union compiles to
nodes without edges: one for each resource, in the order of the list, and each of them an entry and
an exit (`entries_of_marks`, `edges_of_marks`, `frontiers_of_marks`).  The expansion puts the three
networks in sequence, so that the network of the process is numbered on behind the requests, the
releases are numbered on behind the process, and all that is added are links (`encloses_holding`).
-/

namespace ActivityNetwork

/-- `k` consecutive nodes from `n` on. -/
def NodeId.block (n k : Nat) : List NodeId :=
  (List.range' n k).map NodeId.mk

theorem NodeId.map_shift_block (m n k : Nat) : (block n k).map (shift m) = block (m + n) k := by
  rw [block, block, ← List.map_add_range', List.map_map, List.map_map]
  rfl

theorem NodeId.block_ascends (n k : Nat) : (block n k).Pairwise (·.index < ·.index) := by
  rw [block, List.pairwise_map]
  exact List.pairwise_lt_range'

namespace MarkerSort

open Workflow

/-- One node for each resource, numbered from `n` on. -/
def nodesFor (b : MarkerSort) : Nat → List Resource → List (NodeId × NodeKind)
  | _, [] => []
  | n, r :: rest => (⟨n⟩, b.kind r) :: b.nodesFor (n + 1) rest

theorem length_nodesFor (b : MarkerSort) (n : Nat) (resources : List Resource) :
    (b.nodesFor n resources).length = resources.length := by
  induction resources generalizing n with
  | nil => rfl
  | cons r rest ih => rw [nodesFor, List.length_cons, List.length_cons, ih]

theorem map_shift_nodesFor (b : MarkerSort) (m n : Nat) (resources : List Resource) :
    ((b.nodesFor n resources).map fun e => (NodeId.shift m e.1, e.2)) =
      b.nodesFor (m + n) resources := by
  induction resources generalizing n with
  | nil => rfl
  | cons r rest ih =>
      rw [nodesFor, List.map_cons, ih, nodesFor, Nat.add_assoc]
      rfl

variable {b : MarkerSort} {resources : List Resource} {union : Workflow} {leaves : List Workflow}

/-- Markers take one node each. -/
theorem inTurn_markers (n : Nat)
    (hMarkers : List.Forall₂ (fun leaf r => ∃ id, leaf = b.marker id r) leaves resources) :
    inTurn ownNodes n leaves = b.nodesFor n resources := by
  induction hMarkers generalizing n with
  | nil => rfl
  | cons hMarker _ ih =>
      obtain ⟨id, rfl⟩ := hMarker
      rw [inTurn, nodesFor]
      cases b with
      | opening => exact congrArg (List.cons _) (ih (n + 1))
      | closing => exact congrArg (List.cons _) (ih (n + 1))

/-- The leaves of a union of markers are the markers, in the order of the resources. -/
theorem leaves_of_marks (hMarks : b.Marks resources union) (hCoherent : union.Coherent)
    (hNodup : (resources.map Resource.id).Nodup) :
    List.Forall₂ (fun leaf r => ∃ id, leaf = b.marker id r) union.leaves resources := by
  induction hMarks with
  | one id r =>
      rw [leaves_eq_collect hCoherent, collect_of_isLeaf (isLeaf_marker b id r)]
      exact .cons ⟨id, rfl⟩ .nil
  | @more front union hFront id other r ih =>
      have hUnion : union.Coherent := hCoherent.mono (.overlapFirst .self)
      rw [List.map_append, List.nodup_append] at hNodup
      obtain ⟨hNodupFront, -, hApart⟩ := hNodup
      -- A marker with the id of the last one would be for the same resource.
      have hNew : (b.marker other r).id ∉ union.leaves.map Workflow.id := by
        intro hKnown
        obtain ⟨leaf, hListed, hId⟩ := List.mem_map.1 hKnown
        have hLeaf := (mem_leaves hUnion).1 hListed
        have hEq : leaf = b.marker other r :=
          hCoherent _ _ (.overlapFirst hLeaf.2) (.overlapSecond .self) hId
        obtain ⟨m, q, hq, hMarker⟩ := exists_marker_of_leafOf hFront hLeaf
        obtain ⟨-, rfl⟩ := marker_injective (hEq.symm.trans hMarker)
        exact hApart _ (List.mem_map_of_mem hq) _ (by simp) rfl
      have hLeaves : (overlap id union (b.marker other r)).leaves =
          union.leaves ++ [b.marker other r] := by
        rw [leaves_eq_collect hCoherent, collect_overlap, ← leaves_eq_collect hUnion,
          collect_of_isLeaf (isLeaf_marker b other r), addNew, if_neg hNew]
      rw [hLeaves]
      exact List.rel_append (ih hUnion hNodupFront) (.cons ⟨other, rfl⟩ .nil)

theorem layout_edges_of_marks (hMarks : b.Marks resources union) (number : WorkflowId → Nat) :
    (union.layout number).edges = .empty := by
  have hMarker : ∀ id r, ((b.marker id r).layout number).edges = .empty := by
    intro id r
    cases b <;> rfl
  induction hMarks with
  | one id r => exact hMarker id r
  | more _ id other r ih =>
      rw [layout, Network.edges_overlaid, ih, hMarker]
      rfl

section Network

variable (hMarks : b.Marks resources union)
include hMarks

theorem edges_of_marks (hCoherent : union.Coherent) : union.network.edges = .empty := by
  rw [network_eq_layout hCoherent]
  exact layout_edges_of_marks hMarks _

theorem entries_of_marks (hCoherent : union.Coherent) (hNodup : (resources.map Resource.id).Nodup) :
    union.network.nodes.entries = b.nodesFor 0 resources := by
  rw [network_entries_inTurn hCoherent]
  exact inTurn_markers 0 (leaves_of_marks hMarks hCoherent hNodup)

theorem order_of_marks (hCoherent : union.Coherent) (hNodup : (resources.map Resource.id).Nodup) :
    union.network.order = resources.length := by
  rw [Network.order, OrderedMap.size, entries_of_marks hMarks hCoherent hNodup, length_nodesFor]

/-- Without edges every node is an entry and an exit. -/
theorem frontiers_of_marks (hMade : union.WellMade) (hNodup : (resources.map Resource.id).Nodup) :
    union.network.entries.toList = NodeId.block 0 resources.length ∧
      union.network.exits.toList = NodeId.block 0 resources.length := by
  have hKeys : ∀ id, id ∈ NodeId.block 0 resources.length ↔ id ∈ union.network.nodes.keys := by
    intro id
    rw [← OrderedSet.mem_toList, network_keys hMade.coherent,
      order_of_marks hMarks hMade.coherent hNodup, List.range_eq_range', NodeId.block]
  have hNone : ∀ e, e ∉ union.network.edges := by
    intro e
    rw [edges_of_marks hMarks hMade.coherent]
    exact List.not_mem_nil
  obtain ⟨hEntries, hExits⟩ := hMade.network_frontiers_ascend
  refine ⟨eq_of_ascending hEntries (NodeId.block_ascends 0 _) fun id => ?_,
    eq_of_ascending hExits (NodeId.block_ascends 0 _) fun id => ?_⟩
  · rw [OrderedSet.mem_toList, hMade.network_sound.entries, Network.mem_sources, hKeys]
    exact and_iff_left fun e he => absurd he (hNone e)
  · rw [OrderedSet.mem_toList, hMade.network_sound.exits, Network.mem_sinks, hKeys]
    exact and_iff_left fun e he => absurd he (hNone e)

end Network

end MarkerSort

namespace Workflow

open MarkerSort

variable {process requests releases expansion : Workflow} {id outer inner : WorkflowId}
  {resources : List Resource}

/-- The network of a workflow, with its nodes numbered from `n` on. -/
def networkFrom (n : Nat) (w : Workflow) : Network :=
  w.network.rename (NodeId.shift n)

/-- The compilation of `w` is that of `process` behind one request for each resource and before one
release for each, where the last request is released first.  Every request is linked to every entry
of the process, and every exit of the process to every release. -/
structure Encloses (process : Workflow) (resources : List Resource) (w : Workflow) : Prop where
  nodes : w.network.nodes.entries =
    opening.nodesFor 0 resources ++ (process.networkFrom resources.length).nodes.entries ++
      closing.nodesFor (resources.length + process.network.order) resources.reverse
  edges : w.network.edges.toList =
    (process.networkFrom resources.length).edges.toList ++
      ((NodeId.block 0 resources.length).flatMap fun request =>
        (process.networkFrom resources.length).entries.toList.map (Edge.dependency request)) ++
      (process.networkFrom resources.length).exits.toList.flatMap fun exit =>
        (NodeId.block (resources.length + process.network.order) resources.length).map
          (Edge.dependency exit)
  entries : w.network.entries.toList = NodeId.block 0 resources.length
  exits : w.network.exits.toList =
    NodeId.block (resources.length + process.network.order) resources.length

/-- A holding compiles to what its expansion compiles to. -/
theorem network_holding (hCoherent : (holding id process resources expansion).Coherent) :
    (holding id process resources expansion).network = expansion.network := by
  have hExpansion : expansion.Coherent := hCoherent.mono (.expansion .self)
  have hLeaves : (holding id process resources expansion).leaves = expansion.leaves := by
    rw [leaves_eq_collect hCoherent, leaves_eq_collect hExpansion]
    rfl
  rw [network_eq_layout hCoherent, network_eq_layout hExpansion, numbering, numbering, hLeaves]
  rfl

theorem Appends.order {first second w : Workflow} (hAppends : Appends first second w) :
    w.network.order = first.network.order + second.network.order := by
  simp only [Network.order, OrderedMap.size, hAppends.nodes, List.length_append, networkBehind,
    Network.rename, OrderedMap.entries_mapKeys, List.length_map]

theorem encloses_between (hMade : (seq outer (seq inner requests process) releases).WellMade)
    (hNodup : (resources.map Resource.id).Nodup) (hRequests : opening.Marks resources requests)
    (hReleases : closing.Marks resources.reverse releases) :
    Encloses process resources (seq outer (seq inner requests process) releases) := by
  have hFront := hMade.seq_first.appends
  have hWhole := hMade.appends
  have hMadeRequests : requests.WellMade := hMade.seq_first.seq_first
  have hMadeReleases : releases.WellMade := hMade.seq_second
  have hNodupBack : (resources.reverse.map Resource.id).Nodup := by
    rw [List.map_reverse]
    exact List.nodup_reverse.2 hNodup
  have hOrder := order_of_marks hRequests hMadeRequests.coherent hNodup
  obtain ⟨hRequestEntries, hRequestExits⟩ := frontiers_of_marks hRequests hMadeRequests hNodup
  obtain ⟨hReleaseEntries, hReleaseExits⟩ := frontiers_of_marks hReleases hMadeReleases hNodupBack
  rw [List.length_reverse] at hReleaseEntries hReleaseExits
  -- The process begins behind the requests, and the releases begin behind both.
  have hProcess : requests.networkBehind process = process.networkFrom resources.length := by
    rw [networkBehind, hOrder, networkFrom]
  have hBehind : (seq inner requests process).networkBehind releases =
      releases.networkFrom (resources.length + process.network.order) := by
    rw [networkBehind, hFront.order, hOrder, networkFrom]
  have hReleaseNodes :
      (releases.networkFrom (resources.length + process.network.order)).nodes.entries =
        closing.nodesFor (resources.length + process.network.order) resources.reverse := by
    rw [networkFrom, Network.rename, OrderedMap.entries_mapKeys,
      entries_of_marks hReleases hMadeReleases.coherent hNodupBack, map_shift_nodesFor,
      Nat.add_zero]
  constructor
  · rw [hWhole.nodes, hFront.nodes, hProcess, hBehind, hReleaseNodes,
      entries_of_marks hRequests hMadeRequests.coherent hNodup]
  · rw [hWhole.edges, hFront.edges, hFront.exits, hProcess, hBehind, hRequestExits,
      edges_of_marks hRequests hMadeRequests.coherent]
    simp only [networkFrom, Network.rename, OrderedSet.toList_map, hReleaseEntries,
      edges_of_marks hReleases hMadeReleases.coherent, NodeId.map_shift_block]
    simp [OrderedSet.empty]
  · rw [hWhole.entries, hFront.entries, hRequestEntries]
  · rw [hWhole.exits, hBehind, networkFrom, Network.rename, OrderedSet.toList_map, hReleaseExits,
      NodeId.map_shift_block, Nat.add_zero]

theorem encloses_holding (hMade : (holding id process resources expansion).WellMade)
    (hNodup : (resources.map Resource.id).Nodup) (hExpands : Expands process resources expansion) :
    Encloses process resources (holding id process resources expansion) := by
  have hNetwork := network_holding hMade.coherent
  have hMadeExpansion : expansion.WellMade := hMade.mono (.expansion .self)
  have hEncloses : Encloses process resources expansion := by
    cases hExpands with
    | between outer inner hRequests hReleases =>
        exact encloses_between hMadeExpansion hNodup hRequests hReleases
  constructor
  · rw [hNetwork, hEncloses.nodes]
  · rw [hNetwork, hEncloses.edges]
  · rw [hNetwork, hEncloses.entries]
  · rw [hNetwork, hEncloses.exits]

end Workflow

end ActivityNetwork
