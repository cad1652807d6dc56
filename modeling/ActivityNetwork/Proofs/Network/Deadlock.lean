import ActivityNetwork.Proofs.Network.Sorting

/-!
# What a cycle holds up

Sorting a network that has a cycle gets stuck before the end.  The nodes that are left over are
not only those on a cycle: whatever a cycle leads to waits for it in vain
(`mem_blocked_final_iff`).  So a report made from the left-over nodes (`mem_cycle_iff`) may point
at a node that is merely downstream.
-/

namespace ActivityNetwork

open Relation

namespace Network

/-- The node lies on a directed cycle, or a cycle leads to it. -/
def HeldUp (g : Network) (id : NodeId) : Prop :=
  ∃ c, g.Before c c ∧ ReflTransGen g.Link c id

/-- The activity lies on a directed cycle. -/
def OnCycle (g : Network) (e : Edge) : Prop :=
  e ∈ g.activityEdges ∧ ReflTransGen g.Link e.target e.source

/-- The first activity that cannot start because of a cycle. -/
def FirstHeldUp (g : Network) (e : Edge) : Prop :=
  ∃ before after, g.activityEdges = before ++ e :: after ∧ g.HeldUp e.source ∧
    ∀ f ∈ before, ¬ g.HeldUp f.source

variable {g : Network} {a b id : NodeId}

theorem heldUp_of_cycle (hCycle : g.Before id id) : g.HeldUp id :=
  ⟨id, hCycle, .refl⟩

theorem HeldUp.link (hHeld : g.HeldUp a) (hLink : g.Link a b) : g.HeldUp b := by
  obtain ⟨c, hCycle, hPath⟩ := hHeld
  exact ⟨c, hCycle, hPath.tail hLink⟩

/-- Something leads to every node that is held up. -/
theorem HeldUp.exists_before (hHeld : g.HeldUp id) : ∃ c, g.Before c c ∧ g.Before c id := by
  obtain ⟨c, hCycle, hPath⟩ := hHeld
  exact ⟨c, hCycle, TransGen.trans_left hCycle hPath⟩

theorem HeldUp.mem_keys (hHeld : g.HeldUp id) (hClosed : g.Closed) : id ∈ g.nodes.keys := by
  obtain ⟨c, -, hPath⟩ := hHeld.exists_before
  obtain ⟨last, -, hLast⟩ := TransGen.tail'_iff.1 hPath
  exact (hClosed.of_link hLast).2

theorem OnCycle.heldUp {e : Edge} (hCycle : g.OnCycle e) : g.HeldUp e.source := by
  obtain ⟨hActivity, hBack⟩ := hCycle
  have hLink : g.Link e.source e.target := ⟨e, List.mem_of_mem_filter hActivity, rfl, rfl⟩
  exact heldUp_of_cycle (TransGen.head' hLink hBack)

/-- Whatever is listed stands behind all that leads to it, which no node on a cycle can. -/
theorem not_listed_of_heldUp (hClosed : g.Closed) (hHeld : g.HeldUp id) :
    id ∉ (Sorting.final g).listed := by
  intro hListed
  have hSound := Sorting.sound_final hClosed
  obtain ⟨c, hCycle, hPath⟩ := hHeld.exists_before
  -- The node of the cycle is listed before `id`, and so before itself.
  obtain ⟨before, after, hSplit⟩ := List.append_of_mem hListed
  obtain ⟨front, back, rfl⟩ := List.append_of_mem (hSound.mem_of_before hPath before after hSplit)
  have hSplitFront : (Sorting.final g).listed = front ++ c :: (back ++ id :: after) := by
    simpa using hSplit
  have hFront := hSound.mem_of_before hCycle front _ hSplitFront
  have hNodup := (List.nodup_append.1 hSound.nodup).1
  rw [hSplitFront, List.nodup_append] at hNodup
  exact hNodup.2.2 c hFront c List.mem_cons_self rfl

/-- In the end no node waits for listed nodes only. -/
theorem exists_pred_not_listed (hClosed : g.Closed) (hNode : id ∈ g.nodes.keys)
    (hNew : id ∉ (Sorting.final g).listed) :
    ∃ p, g.Link p id ∧ p ∉ (Sorting.final g).listed := by
  by_contra hNone
  push Not at hNone
  have hSound := Sorting.sound_final hClosed
  have hPreds : ∀ p ∈ g.predecessors id, p ∈ (Sorting.final g).listed :=
    fun p hp => hNone p (mem_predecessors_iff_link.1 hp)
  have hQueue : id ∈ (Sorting.final g).queue := by
    refine (hSound.queue id).2 ⟨hNode, ?_, hNew⟩
    rw [hSound.waiting id hNode, openEdges_eq_zero_iff.2 hPreds]
  rw [Sorting.queue_final hClosed] at hQueue
  cases hQueue

/-- Nodes that are left over wait for each other, and a finite number of nodes cannot do so
without a cycle. -/
theorem heldUp_of_not_listed (hClosed : g.Closed) (hNode : id ∈ g.nodes.keys)
    (hNew : id ∉ (Sorting.final g).listed) : g.HeldUp id := by
  by_contra hFree
  let left : Set NodeId :=
    { x | x ∈ g.nodes.keys ∧ x ∉ (Sorting.final g).listed ∧ ¬ g.HeldUp x }
  have hFinite : left.Finite := g.finite_nodes.subset fun _ hx => hx.1
  have hAcyclic : Acyclic fun x y => g.Link x y ∧ x ∈ left := by
    intro x hCycle
    obtain ⟨y, hStep, -⟩ := TransGen.head'_iff.1 hCycle
    exact hStep.2.2.2 (heldUp_of_cycle (TransGen.mono (fun _ _ h => h.1) _ _ hCycle))
  obtain ⟨x, ⟨hxNode, hxNew, hxFree⟩, hFirst⟩ :=
    hAcyclic.exists_minimal hFinite ⟨id, hNode, hNew, hFree⟩
  obtain ⟨p, hLink, hpNew⟩ := exists_pred_not_listed hClosed hxNode hxNew
  have hp : p ∈ left := ⟨(hClosed.of_link hLink).1, hpNew, fun hHeld => hxFree (hHeld.link hLink)⟩
  exact hFirst p hp ⟨hLink, hp⟩

/-- When sorting ends, exactly the held-up nodes still wait for something. -/
theorem mem_blocked_final_iff (hClosed : g.Closed) :
    id ∈ (Sorting.final g).blocked ↔ g.HeldUp id := by
  have hSound := Sorting.sound_final hClosed
  have hMem : id ∈ (Sorting.final g).blocked ↔
      ∃ n, (Sorting.final g).waiting.find? id = some n ∧ 0 < n := by
    simp only [Sorting.blocked, List.mem_map, List.mem_filter, decide_eq_true_eq, Prod.exists,
      exists_and_right, exists_eq_right, OrderedMap.find?_eq_some_iff]
  rw [hMem]
  constructor
  · intro hWaits
    obtain ⟨n, hFind, hPos⟩ := hWaits
    have hNode : id ∈ g.nodes.keys := by
      rw [← hSound.keys, OrderedMap.mem_keys]
      exact ⟨n, OrderedMap.find?_eq_some_iff.1 hFind⟩
    refine heldUp_of_not_listed hClosed hNode fun hListed => ?_
    -- A listed node waits for nothing any more.
    have hZero := openEdges_eq_zero_iff.2 fun p hp => hSound.pred_listed hListed hp
    rw [hSound.waiting id hNode, hZero, Option.some.injEq] at hFind
    omega
  · intro hHeld
    have hNode := hHeld.mem_keys hClosed
    obtain ⟨p, hLink, hNew⟩ :=
      exists_pred_not_listed hClosed hNode (not_listed_of_heldUp hClosed hHeld)
    refine ⟨_, hSound.waiting id hNode, Nat.pos_of_ne_zero fun hZero => ?_⟩
    exact hNew (openEdges_eq_zero_iff.1 hZero p (mem_predecessors_iff_link.2 hLink))

/-- A reported cycle lists exactly the held-up nodes. -/
theorem mem_cycle_iff (hClosed : g.Closed) {nodes : List NodeId}
    (hReport : g.topologicalOrder = .error (.cycle nodes)) : id ∈ nodes ↔ g.HeldUp id := by
  rw [topologicalOrder, find?_endpoints_eq_none_iff.2 hClosed] at hReport
  by_cases hLength : (Sorting.final g).listed.length = g.order
  · simp [hLength] at hReport
  · simp only [hLength, if_false, Except.error.injEq, Fault.cycle.injEq] at hReport
    rw [← hReport]
    exact mem_blocked_final_iff hClosed

end Network

end ActivityNetwork
