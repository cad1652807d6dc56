import ActivityNetwork.Proofs.Network.Deadlock

/-!
# The outcomes of ordering a network

Ordering a network has one of three outcomes.  An edge end that is no node is reported, and it is
the first one (`FirstMissing`).  Where all edge ends are nodes, the network has an order unless it
has a directed cycle, and then what the cycle holds up is listed.  `topologicalOrder_cases` says
once what the three outcomes are and when each comes about; the rest is read off there.
-/

namespace ActivityNetwork

open Relation

namespace Network

/-- The first edge end that is no node, edges in their order and the source before the target. -/
def FirstMissing (g : Network) (id : NodeId) : Prop :=
  ∃ before e after, g.edges.toList = before ++ e :: after ∧
    (∀ f ∈ before, f.source ∈ g.nodes.keys ∧ f.target ∈ g.nodes.keys) ∧
    (id = e.source ∧ e.source ∉ g.nodes.keys ∨
      id = e.target ∧ e.source ∈ g.nodes.keys ∧ e.target ∉ g.nodes.keys)

variable {g : Network} {id : NodeId}

/-! ## Edge ends that are no nodes -/

/-- Of the two ends of an edge the source is looked at first. -/
theorem find?_ends_eq_some_iff {e : Edge} :
    [e.source, e.target].find? (· ∉ g.nodes.keys) = some id ↔
      id = e.source ∧ e.source ∉ g.nodes.keys ∨
        id = e.target ∧ e.source ∈ g.nodes.keys ∧ e.target ∉ g.nodes.keys := by
  by_cases hSource : e.source ∈ g.nodes.keys
  · by_cases hTarget : e.target ∈ g.nodes.keys
    · simp [hSource, hTarget]
    · simp [hSource, hTarget, eq_comm]
  · simp [hSource, eq_comm]

theorem find?_endpoints_eq_some_iff :
    g.endpoints.find? (· ∉ g.nodes.keys) = some id ↔ g.FirstMissing id := by
  rw [endpoints, List.find?_flatMap, List.findSome?_eq_some_iff, FirstMissing]
  refine exists_congr fun before => exists_congr fun e => exists_congr fun after => ?_
  rw [find?_ends_eq_some_iff, and_comm (b := ∀ f ∈ before, _)]
  refine and_congr_right fun _ => and_congr_left fun _ => ?_
  simp

theorem not_closed_iff :
    ¬ g.Closed ↔ ∃ e ∈ g.edges, e.source ∉ g.nodes.keys ∨ e.target ∉ g.nodes.keys := by
  simp only [Closed, not_forall, exists_prop, not_and_or]

theorem FirstMissing.not_closed (hMissing : g.FirstMissing id) : ¬ g.Closed := by
  intro hClosed
  rw [← find?_endpoints_eq_some_iff, find?_endpoints_eq_none_iff.2 hClosed] at hMissing
  cases hMissing

theorem exists_firstMissing (hOpen : ¬ g.Closed) : ∃ id, g.FirstMissing id := by
  cases hFind : g.endpoints.find? (· ∉ g.nodes.keys) with
  | none => exact absurd (find?_endpoints_eq_none_iff.1 hFind) hOpen
  | some id => exact ⟨id, find?_endpoints_eq_some_iff.1 hFind⟩

/-! ## What is listed and what is left -/

/-- A complete list has every node once. -/
theorem listed_perm (hClosed : g.Closed) (hAcyclic : Acyclic g.Link) :
    (Sorting.final g).listed.Perm g.nodes.keys.toList := by
  have hSound := Sorting.sound_final hClosed
  have hNodup := (List.nodup_append.1 hSound.nodup).1
  rw [List.perm_ext_iff_of_nodup hNodup g.nodes.keys.nodup]
  intro id
  exact ⟨hSound.listed id, (listed_complete_iff_acyclic hClosed).2 hAcyclic id⟩

/-- In a complete list every edge runs forward. -/
theorem listed_forward (hClosed : g.Closed) (hAcyclic : Acyclic g.Link) {e : Edge}
    (he : e ∈ g.edges) :
    (Sorting.final g).listed.idxOf e.source < (Sorting.final g).listed.idxOf e.target := by
  have hSound := Sorting.sound_final hClosed
  have hTarget := (listed_complete_iff_acyclic hClosed).2 hAcyclic _ (hClosed e he).2
  -- The source stands among the nodes before the target, and the target is listed only once.
  obtain ⟨before, after, hSplit⟩ := List.append_of_mem hTarget
  have hSource : e.source ∈ before :=
    hSound.ordered before e.target after hSplit _ (mem_predecessors_iff_link.2 ⟨e, he, rfl, rfl⟩)
  have hLater : e.target ∉ before := by
    intro hEarly
    have hNodup := (List.nodup_append.1 hSound.nodup).1
    rw [hSplit, List.nodup_append] at hNodup
    exact hNodup.2.2 _ hEarly _ List.mem_cons_self rfl
  rw [hSplit, List.idxOf_append_of_mem hSource, List.idxOf_append_of_notMem hLater]
  have hBound := List.idxOf_lt_length_iff.2 hSource
  omega

/-- What is left over stands in the order of the nodes. -/
theorem blocked_sublist (hClosed : g.Closed) :
    (Sorting.final g).blocked.Sublist g.nodes.keys.toList := by
  have hKeys := (Sorting.sound_final hClosed).keys
  rw [← hKeys]
  exact List.filter_sublist.map Prod.fst

/-- A cycle leaves something over. -/
theorem blocked_ne_nil (hClosed : g.Closed) (hCyclic : ¬ Acyclic g.Link) :
    (Sorting.final g).blocked ≠ [] := by
  rw [Acyclic, not_forall] at hCyclic
  obtain ⟨id, hCycle⟩ := hCyclic
  exact List.ne_nil_of_mem ((mem_blocked_final_iff hClosed).2 (heldUp_of_cycle (not_not.1 hCycle)))

/-! ## The outcomes -/

theorem topologicalOrder_of_missing (hMissing : g.FirstMissing id) :
    g.topologicalOrder = .error (.notFound "Node" id.text) := by
  rw [topologicalOrder, find?_endpoints_eq_some_iff.2 hMissing]

theorem topologicalOrder_of_acyclic (hClosed : g.Closed) (hAcyclic : Acyclic g.Link) :
    g.topologicalOrder = .ok (Sorting.final g).listed := by
  have hLength := (Sorting.listed_complete_iff hClosed).2
    ((listed_complete_iff_acyclic hClosed).2 hAcyclic)
  rw [topologicalOrder, find?_endpoints_eq_none_iff.2 hClosed]
  exact if_pos hLength

theorem topologicalOrder_of_cyclic (hClosed : g.Closed) (hCyclic : ¬ Acyclic g.Link) :
    g.topologicalOrder = .error (.cycle (Sorting.final g).blocked) := by
  have hLength : (Sorting.final g).listed.length ≠ g.order := by
    rw [Ne, Sorting.listed_complete_iff hClosed, listed_complete_iff_acyclic hClosed]
    exact hCyclic
  rw [topologicalOrder, find?_endpoints_eq_none_iff.2 hClosed]
  exact if_neg hLength

/-- The three outcomes, and when each comes about. -/
theorem topologicalOrder_cases (g : Network) :
    (∃ id, g.FirstMissing id ∧ g.topologicalOrder = .error (.notFound "Node" id.text)) ∨
    (g.Closed ∧ Acyclic g.Link ∧ g.topologicalOrder = .ok (Sorting.final g).listed) ∨
    (g.Closed ∧ ¬ Acyclic g.Link ∧
      g.topologicalOrder = .error (.cycle (Sorting.final g).blocked)) := by
  by_cases hClosed : g.Closed
  · by_cases hAcyclic : Acyclic g.Link
    · exact .inr (.inl ⟨hClosed, hAcyclic, topologicalOrder_of_acyclic hClosed hAcyclic⟩)
    · exact .inr (.inr ⟨hClosed, hAcyclic, topologicalOrder_of_cyclic hClosed hAcyclic⟩)
  · obtain ⟨id, hMissing⟩ := exists_firstMissing hClosed
    exact .inl ⟨id, hMissing, topologicalOrder_of_missing hMissing⟩

theorem topologicalOrder_eq_notFound_iff {kind name : String} :
    g.topologicalOrder = .error (.notFound kind name) ↔
      kind = "Node" ∧ ∃ id, g.FirstMissing id ∧ name = id.text := by
  constructor
  · intro hReport
    obtain ⟨id, hMissing, hOrder⟩ | ⟨_, _, hOrder⟩ | ⟨_, _, hOrder⟩ := topologicalOrder_cases g
    all_goals
      rw [hOrder] at hReport
      cases hReport
    exact ⟨rfl, id, hMissing, rfl⟩
  · rintro ⟨rfl, id, hMissing, rfl⟩
    exact topologicalOrder_of_missing hMissing

theorem topologicalOrder_eq_ok_iff {order : List NodeId} :
    g.topologicalOrder = .ok order ↔
      g.Closed ∧ Acyclic g.Link ∧ order = (Sorting.final g).listed := by
  constructor
  · intro hReport
    obtain ⟨_, _, hOrder⟩ | ⟨hClosed, hAcyclic, hOrder⟩ | ⟨_, _, hOrder⟩ :=
      topologicalOrder_cases g
    all_goals
      rw [hOrder] at hReport
      cases hReport
    exact ⟨hClosed, hAcyclic, rfl⟩
  · rintro ⟨hClosed, hAcyclic, rfl⟩
    exact topologicalOrder_of_acyclic hClosed hAcyclic

theorem topologicalOrder_eq_cycle_iff {nodes : List NodeId} :
    g.topologicalOrder = .error (.cycle nodes) ↔
      g.Closed ∧ ¬ Acyclic g.Link ∧ nodes = (Sorting.final g).blocked := by
  constructor
  · intro hReport
    obtain ⟨_, _, hOrder⟩ | ⟨_, _, hOrder⟩ | ⟨hClosed, hCyclic, hOrder⟩ :=
      topologicalOrder_cases g
    all_goals
      rw [hOrder] at hReport
      cases hReport
    exact ⟨hClosed, hCyclic, rfl⟩
  · rintro ⟨hClosed, hCyclic, rfl⟩
    exact topologicalOrder_of_cyclic hClosed hCyclic

/-- Ordering is correct on every network.  An edge end that is no node is reported, and it is the
first one; otherwise a network without directed cycles has every node listed once, with every
edge running forward; otherwise exactly what the cycles hold up is reported, in the order of the
nodes. -/
theorem topologicalOrder_correct (g : Network) :
    ((∃ kind name, g.topologicalOrder = .error (.notFound kind name)) ↔
      ∃ e ∈ g.edges, e.source ∉ g.nodes.keys ∨ e.target ∉ g.nodes.keys) ∧
    (∀ kind name, g.topologicalOrder = .error (.notFound kind name) →
      kind = "Node" ∧ ∃ id, g.FirstMissing id ∧ name = id.text) ∧
    ((∃ order, g.topologicalOrder = .ok order) ↔ g.Closed ∧ Acyclic g.Link) ∧
    (∀ order, g.topologicalOrder = .ok order →
      order.Perm g.nodes.keys.toList ∧
        ∀ e ∈ g.edges, order.idxOf e.source < order.idxOf e.target) ∧
    ((∃ nodes, g.topologicalOrder = .error (.cycle nodes)) ↔ g.Closed ∧ ¬ Acyclic g.Link) ∧
    ∀ nodes, g.topologicalOrder = .error (.cycle nodes) →
      nodes ≠ [] ∧ nodes.Sublist g.nodes.keys.toList ∧ ∀ id, id ∈ nodes ↔ g.HeldUp id := by
  refine ⟨?_, ?_, ?_, ?_, ?_, ?_⟩
  · rw [← not_closed_iff]
    constructor
    · rintro ⟨kind, name, hReport⟩
      obtain ⟨-, id, hMissing, -⟩ := topologicalOrder_eq_notFound_iff.1 hReport
      exact hMissing.not_closed
    · intro hOpen
      obtain ⟨id, hMissing⟩ := exists_firstMissing hOpen
      exact ⟨_, _, topologicalOrder_of_missing hMissing⟩
  · exact fun kind name => topologicalOrder_eq_notFound_iff.1
  · simp [topologicalOrder_eq_ok_iff]
  · intro order hReport
    obtain ⟨hClosed, hAcyclic, rfl⟩ := topologicalOrder_eq_ok_iff.1 hReport
    exact ⟨listed_perm hClosed hAcyclic, fun e he => listed_forward hClosed hAcyclic he⟩
  · simp [topologicalOrder_eq_cycle_iff]
  · intro nodes hReport
    obtain ⟨hClosed, hCyclic, rfl⟩ := topologicalOrder_eq_cycle_iff.1 hReport
    exact ⟨blocked_ne_nil hClosed hCyclic, blocked_sublist hClosed,
      fun id => mem_blocked_final_iff hClosed⟩

/-- Node 3 lies on no cycle, but it waits for one, and node 4 waits for nothing. -/
example : topologicalOrder ⟨.ofList [(⟨4⟩, .boundary), (⟨3⟩, .boundary), (⟨2⟩, .boundary),
      (⟨1⟩, .boundary)], .ofList [.dependency ⟨1⟩ ⟨2⟩, .dependency ⟨2⟩ ⟨1⟩, .dependency ⟨2⟩ ⟨3⟩],
      .empty, .empty⟩ = .error (.cycle [⟨3⟩, ⟨2⟩, ⟨1⟩]) := by
  decide +kernel

end Network

end ActivityNetwork
