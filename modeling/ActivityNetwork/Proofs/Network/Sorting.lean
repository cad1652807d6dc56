import ActivityNetwork.Network.TopologicalOrder
import ActivityNetwork.Proofs.Network.Paths
import Mathlib.Data.List.Count
import Mathlib.Data.List.Basic
import Mathlib.Data.List.Perm.Subperm

/-!
# Correctness of the topological order

`Sorting.Sound` ties the table of waiting counts, the queue and the list of a sorting under way
to the edges of the network: the count of a node is the number of edges that enter it from
nodes not listed yet, parallel edges counted one by one; the queue holds the nodes with count
zero that are not listed; and every listed node stands behind all its predecessors.

A step keeps the invariant (`Sorting.Sound.step`), so it holds in the final state, where the
queue is empty.  From there: a network whose edge ends are nodes has a topological order
exactly when it has no directed cycle (`topologicalOrder_ok_iff_acyclic`).
-/

namespace ActivityNetwork

open Relation

namespace Network

/-- How many edges enter the node from nodes that are not listed. -/
def openEdges (g : Network) (listed : List NodeId) (id : NodeId) : Nat :=
  (g.predecessors id).countP (· ∉ listed)

/-- The edges from `a` to `b` are counted alike at both ends. -/
theorem count_successors (g : Network) (a b : NodeId) :
    (g.successors a).count b = (g.predecessors b).count a := by
  simp only [successors, predecessors, List.count, List.countP_map, List.countP_filter]
  apply List.countP_congr
  intro e _
  simp [and_comm]

theorem openEdges_eq_zero_iff {g : Network} {listed : List NodeId} {id : NodeId} :
    g.openEdges listed id = 0 ↔ ∀ p ∈ g.predecessors id, p ∈ listed := by
  simp [openEdges, List.countP_eq_zero]

/-- Listing one more node closes the edges that leave it. -/
theorem openEdges_concat (g : Network) (id : NodeId) {listed : List NodeId} {x : NodeId}
    (hNew : x ∉ listed) :
    g.openEdges (listed ++ [x]) id + (g.successors x).count id = g.openEdges listed id := by
  rw [count_successors, openEdges, openEdges]
  induction g.predecessors id with
  | nil => rfl
  | cons p rest ih =>
      by_cases hEq : p = x
      · subst hEq
        simp [hNew] at ih ⊢
        omega
      · simp [List.countP_cons, hEq] at ih ⊢
        omega

end Network

namespace Sorting

open Network

/-! ## Settling edges -/

theorem keys_settle (s : Sorting) (id : NodeId) :
    (s.settle id).waiting.keys = s.waiting.keys := by
  unfold settle
  split
  · rename_i remaining hFind
    rw [OrderedMap.keys_insert]
    apply OrderedSet.ext_toList
    have hMem : id ∈ s.waiting.keys :=
      OrderedMap.mem_keys.2 ⟨_, OrderedMap.find?_eq_some_iff.1 hFind⟩
    rw [OrderedSet.toList_insert, if_pos hMem]
  · rfl

theorem listed_settle (s : Sorting) (id : NodeId) : (s.settle id).listed = s.listed := by
  unfold settle
  split <;> rfl

theorem settle_of_waiting {s : Sorting} {id : NodeId} {remaining : Nat}
    (h : s.waiting.find? id = some (remaining + 1)) :
    s.settle id = { s with
      waiting := s.waiting.insert id remaining
      queue := if remaining = 0 then s.queue ++ [id] else s.queue } := by
  rw [settle, h]

/-- Settling an edge lowers one count. -/
theorem find?_settle {s : Sorting} {c : NodeId} {remaining : Nat}
    (h : s.waiting.find? c = some (remaining + 1)) (id : NodeId) :
    (s.settle c).waiting.find? id = if id = c then some remaining else s.waiting.find? id := by
  rw [settle_of_waiting h]
  exact OrderedMap.find?_insert ..

/-- Each node has at least as many open edges as the list settles. -/
def Enough (s : Sorting) (cs : List NodeId) : Prop :=
  ∀ c ∈ cs, ∃ n, s.waiting.find? c = some n ∧ cs.count c ≤ n

/-- The edge that is settled first is among those counted, so the count is not zero yet. -/
theorem Enough.head {s : Sorting} {c : NodeId} {rest : List NodeId}
    (hEnough : s.Enough (c :: rest)) :
    ∃ remaining, s.waiting.find? c = some (remaining + 1) ∧ rest.count c ≤ remaining := by
  obtain ⟨n, hFind, hCount⟩ := hEnough c List.mem_cons_self
  rw [List.count_cons_self] at hCount
  obtain ⟨remaining, rfl⟩ : ∃ remaining, n = remaining + 1 := ⟨n - 1, by omega⟩
  exact ⟨remaining, hFind, by omega⟩

/-- When the first edge is settled, enough is left for the others. -/
theorem Enough.settle {s : Sorting} {c : NodeId} {rest : List NodeId}
    (hEnough : s.Enough (c :: rest)) : (s.settle c).Enough rest := by
  obtain ⟨remaining, hFind, hCount⟩ := hEnough.head
  intro x hx
  rw [find?_settle hFind]
  by_cases hEq : x = c
  · subst hEq
    exact ⟨remaining, if_pos rfl, hCount⟩
  · obtain ⟨m, hm, hLe⟩ := hEnough x (List.mem_cons_of_mem c hx)
    rw [List.count_cons_of_ne (Ne.symm hEq)] at hLe
    exact ⟨m, by rw [if_neg hEq, hm], hLe⟩

/-- Settling a list of edges lowers each count by the number of its edges, and appends to the
queue, once each, the nodes whose last open edges these were. -/
theorem foldl_settle (cs : List NodeId) {s : Sorting} (hEnough : s.Enough cs) :
    (cs.foldl settle s).waiting.keys = s.waiting.keys ∧
      (cs.foldl settle s).listed = s.listed ∧
      (∀ id, (cs.foldl settle s).waiting.find? id =
        (s.waiting.find? id).map (· - cs.count id)) ∧
      ∃ freed : List NodeId, (cs.foldl settle s).queue = s.queue ++ freed ∧ freed.Nodup ∧
        ∀ id, id ∈ freed ↔ id ∈ cs ∧ s.waiting.find? id = some (cs.count id) := by
  induction cs generalizing s with
  | nil => exact ⟨rfl, rfl, by simp, [], by simp, List.nodup_nil, by simp⟩
  | cons c rest ih =>
      obtain ⟨remaining, hFind, hCount⟩ := hEnough.head
      obtain ⟨hKeys, hListed, hFindRest, freed, hQueue, hNodup, hFreed⟩ := ih hEnough.settle
      rw [List.foldl_cons]
      refine ⟨hKeys.trans (keys_settle s c), hListed.trans (listed_settle s c), ?_, ?_⟩
      · intro id
        rw [hFindRest, find?_settle hFind]
        by_cases hEq : id = c
        · subst hEq
          rw [if_pos rfl, hFind, List.count_cons_self]
          simp only [Option.map_some, Option.some.injEq]
          omega
        · rw [if_neg hEq, List.count_cons_of_ne (Ne.symm hEq)]
      -- If this was the last edge to `c`, no later edge leads there and frees it again.
      · have hNotFreed : remaining = 0 → c ∉ freed := by
          intro hZero hMem
          have hPos : 0 < rest.count c := List.count_pos_iff.2 ((hFreed c).1 hMem).1
          omega
        refine ⟨(if remaining = 0 then [c] else []) ++ freed, ?_, ?_, ?_⟩
        · rw [hQueue, settle_of_waiting hFind]
          by_cases hZero : remaining = 0 <;> simp [hZero]
        · by_cases hZero : remaining = 0
          · rw [if_pos hZero, List.singleton_append, List.nodup_cons]
            exact ⟨hNotFreed hZero, hNodup⟩
          · rw [if_neg hZero]
            exact hNodup
        · intro id
          rw [List.mem_append, hFreed, find?_settle hFind]
          by_cases hEq : id = c
          · subst hEq
            rw [if_pos rfl, hFind, List.count_cons_self]
            have hCountPos : id ∈ rest ↔ 0 < rest.count id := List.count_pos_iff.symm
            by_cases hZero : remaining = 0
            · simp only [hZero, if_pos, true_or, List.mem_cons, true_and, Option.some.injEq,
                true_iff]
              omega
            · simp only [if_neg hZero, List.not_mem_nil, false_or, List.mem_cons, true_or,
                true_and, Option.some.injEq, hCountPos]
              omega
          · have hNone : id ∉ (if remaining = 0 then [c] else []) := by
              split <;> simp [hEq]
            rw [if_neg hEq, List.count_cons_of_ne (Ne.symm hEq), List.mem_cons]
            simp only [hNone, false_or, hEq]

/-! ## The invariant -/

/-- What holds of a sorting between two nodes. -/
structure Sound (g : Network) (s : Sorting) : Prop where
  keys : s.waiting.keys = g.nodes.keys
  waiting : ∀ id ∈ g.nodes.keys, s.waiting.find? id = some (g.openEdges s.listed id)
  queue : ∀ id, id ∈ s.queue ↔
    id ∈ g.nodes.keys ∧ s.waiting.find? id = some 0 ∧ id ∉ s.listed
  nodup : (s.listed ++ s.queue).Nodup
  listed : ∀ id ∈ s.listed, id ∈ g.nodes.keys
  ordered : ∀ (before : List NodeId) (id : NodeId) (after : List NodeId),
    s.listed = before ++ id :: after → ∀ p ∈ g.predecessors id, p ∈ before

theorem sound_start (g : Network) : Sound g (start g) where
  keys := OrderedMap.keys_mapValues ..
  waiting := by
    intro id hNode
    obtain ⟨kind, hKind⟩ := OrderedMap.mem_keys.1 hNode
    show (g.nodes.mapValues _).find? id = _
    rw [OrderedMap.find?_mapValues, OrderedMap.find?_eq_some_iff.2 hKind]
    simp [openEdges, start]
  queue := by
    intro id
    rw [mem_queue_start]
    refine and_congr_right fun hNode => ?_
    obtain ⟨kind, hKind⟩ := OrderedMap.mem_keys.1 hNode
    show _ ↔ (g.nodes.mapValues _).find? id = some 0 ∧ id ∉ []
    rw [OrderedMap.find?_mapValues, OrderedMap.find?_eq_some_iff.2 hKind]
    simp
  nodup := by
    show ([] ++ (start g).queue).Nodup
    have hNodup := (g.nodes.mapValues fun id _ => (g.predecessors id).length).nodup
    exact hNodup.sublist (List.filter_sublist.map Prod.fst)
  listed := by simp [start]
  ordered := by simp [start]

namespace Sound

variable {g : Network} {s : Sorting}

/-- The predecessors of a listed node are listed. -/
theorem pred_listed (hSound : Sound g s) {id p : NodeId} (hListed : id ∈ s.listed)
    (hPred : p ∈ g.predecessors id) : p ∈ s.listed := by
  obtain ⟨before, after, hSplit⟩ := List.append_of_mem hListed
  have hBefore := hSound.ordered before id after hSplit p hPred
  rw [hSplit]
  exact List.mem_append_left _ hBefore

/-- The predecessors of a node in the queue are listed. -/
theorem pred_of_queue (hSound : Sound g s) {id p : NodeId} (hQueue : id ∈ s.queue)
    (hPred : p ∈ g.predecessors id) : p ∈ s.listed := by
  obtain ⟨hNode, hZero, -⟩ := (hSound.queue id).1 hQueue
  rw [hSound.waiting id hNode, Option.some.injEq] at hZero
  exact openEdges_eq_zero_iff.1 hZero p hPred

end Sound

/-- What a step does that lists `x`: each count sinks by the number of edges from `x`, and the
nodes for which these were the last open edges join the queue. -/
structure Lists (g : Network) (s next : Sorting) (x : NodeId) (rest freed : List NodeId) :
    Prop where
  keys : next.waiting.keys = s.waiting.keys
  listed : next.listed = s.listed ++ [x]
  waiting : ∀ id, next.waiting.find? id =
    (s.waiting.find? id).map (· - (g.successors x).count id)
  queue : next.queue = rest ++ freed
  nodup_freed : freed.Nodup
  mem_freed : ∀ id, id ∈ freed ↔
    id ∈ g.successors x ∧ s.waiting.find? id = some ((g.successors x).count id)

/-- Whatever was ever put into the queue is listed or still in it, in the order in which it was
put there.  A step only adds to this. -/
theorem Lists.queued {g : Network} {s next : Sorting} {x : NodeId} {rest freed : List NodeId}
    (hLists : Lists g s next x rest freed) (hQueue : s.queue = x :: rest) :
    next.listed ++ next.queue = s.listed ++ s.queue ++ freed := by
  rw [hLists.listed, hLists.queue, hQueue]
  simp

namespace Sound

variable {g : Network} {s next : Sorting} {x : NodeId} {rest freed : List NodeId}

theorem mem_queue_of_cons (hQueue : s.queue = x :: rest) : x ∈ s.queue :=
  hQueue ▸ List.mem_cons_self

theorem not_listed_of_cons (hSound : Sound g s) (hQueue : s.queue = x :: rest) : x ∉ s.listed :=
  ((hSound.queue x).1 (mem_queue_of_cons hQueue)).2.2

theorem child_of_closed (hClosed : g.Closed) {c : NodeId} (hChild : c ∈ g.successors x) :
    c ∈ g.nodes.keys :=
  (hClosed.of_link (mem_successors_iff_link.1 hChild)).2

/-- Every edge that leaves the first node of the queue is still counted at its target. -/
theorem enough_successors (hSound : Sound g s) (hClosed : g.Closed) (hQueue : s.queue = x :: rest) :
    s.Enough (g.successors x) := by
  intro c hChild
  have hOpen := openEdges_concat g c (hSound.not_listed_of_cons hQueue)
  exact ⟨_, hSound.waiting c (child_of_closed hClosed hChild), by omega⟩

/-- A step with a queue that is not empty lists the first node of the queue. -/
theorem step_lists (hSound : Sound g s) (hClosed : g.Closed) (hQueue : s.queue = x :: rest) :
    ∃ freed, Lists g s (s.step g) x rest freed := by
  obtain ⟨hKeys, hListed, hFind, freed, hFreedQueue, hNodup, hFreed⟩ :=
    foldl_settle (g.successors x) (s := { s with queue := rest, listed := s.listed ++ [x] })
      (hSound.enough_successors hClosed hQueue)
  rw [step_of_queue_cons g hQueue]
  exact ⟨freed, hKeys, hListed, hFind, hFreedQueue, hNodup, hFreed⟩

/-- A child of the node that is listed has an open edge until then: it is neither listed nor
that node itself. -/
theorem child_fresh (hSound : Sound g s) (hQueue : s.queue = x :: rest) {c : NodeId}
    (hChild : c ∈ g.successors x) : c ∉ s.listed ++ [x] := by
  intro hMem
  have hNew := hSound.not_listed_of_cons hQueue
  have hPred : x ∈ g.predecessors c :=
    mem_predecessors_iff_link.2 (mem_successors_iff_link.1 hChild)
  rcases List.mem_append.1 hMem with hOld | hSelf
  · exact hNew (hSound.pred_listed hOld hPred)
  · rw [List.mem_singleton] at hSelf
    subst hSelf
    exact hNew (hSound.pred_of_queue (mem_queue_of_cons hQueue) hPred)

/-- What stays in the queue is not listed by the step. -/
theorem rest_fresh (hSound : Sound g s) (hQueue : s.queue = x :: rest) {id : NodeId}
    (hRest : id ∈ rest) : id ∈ s.queue ∧ id ∉ s.listed ++ [x] := by
  have hidQueue : id ∈ s.queue := hQueue ▸ List.mem_cons_of_mem x hRest
  refine ⟨hidQueue, fun hMem => ?_⟩
  have hNodup := hSound.nodup
  rw [hQueue, List.nodup_append, List.nodup_cons] at hNodup
  rcases List.mem_append.1 hMem with hOld | hSelf
  · exact ((hSound.queue id).1 hidQueue).2.2 hOld
  · rw [List.mem_singleton] at hSelf
    exact hNodup.2.1.1 (hSelf ▸ hRest)

theorem waiting_of_lists (hSound : Sound g s) (hQueue : s.queue = x :: rest)
    (hLists : Lists g s next x rest freed) {id : NodeId} (hNode : id ∈ g.nodes.keys) :
    next.waiting.find? id = some (g.openEdges next.listed id) := by
  have hOpen := openEdges_concat g id (hSound.not_listed_of_cons hQueue)
  rw [hLists.waiting, hSound.waiting id hNode, hLists.listed, Option.map_some,
    Option.some.injEq]
  omega

theorem queue_of_lists (hSound : Sound g s) (hClosed : g.Closed) (hQueue : s.queue = x :: rest)
    (hLists : Lists g s next x rest freed) (id : NodeId) :
    id ∈ next.queue ↔
      id ∈ g.nodes.keys ∧ next.waiting.find? id = some 0 ∧ id ∉ next.listed := by
  rw [hLists.queue, hLists.listed, List.mem_append, hLists.mem_freed]
  constructor
  · intro hMem
    rcases hMem with hRest | ⟨hChild, hLast⟩
    · obtain ⟨hidQueue, hFresh⟩ := hSound.rest_fresh hQueue hRest
      obtain ⟨hNode, hZero, -⟩ := (hSound.queue id).1 hidQueue
      exact ⟨hNode, by rw [hLists.waiting, hZero, Option.map_some, Nat.zero_sub], hFresh⟩
    · refine ⟨child_of_closed hClosed hChild, ?_, hSound.child_fresh hQueue hChild⟩
      rw [hLists.waiting, hLast, Option.map_some, Nat.sub_self]
  · intro hFree
    obtain ⟨hNode, hZero, hFresh⟩ := hFree
    have hOpen := openEdges_concat g id (hSound.not_listed_of_cons hQueue)
    rw [hSound.waiting_of_lists hQueue hLists hNode, hLists.listed, Option.some.injEq] at hZero
    by_cases hCount : (g.successors x).count id = 0
    · -- Not a child of `x`: the node had no open edge before the step either.
      have hidQueue : id ∈ s.queue := by
        refine (hSound.queue id).2 ⟨hNode, ?_, fun h => hFresh (List.mem_append_left _ h)⟩
        rw [hSound.waiting id hNode, Option.some.injEq]
        omega
      rw [hQueue, List.mem_cons] at hidQueue
      exact Or.inl (hidQueue.resolve_left fun hEq => hFresh (by simp [hEq]))
    · refine Or.inr ⟨List.count_pos_iff.1 (by omega), ?_⟩
      rw [hSound.waiting id hNode, Option.some.injEq]
      omega

theorem nodup_of_lists (hSound : Sound g s) (hQueue : s.queue = x :: rest)
    (hLists : Lists g s next x rest freed) : (next.listed ++ next.queue).Nodup := by
  have hNodup := hSound.nodup
  rw [hQueue, List.nodup_append, List.nodup_cons] at hNodup
  obtain ⟨hListedNodup, ⟨-, hRestNodup⟩, -⟩ := hNodup
  rw [hLists.listed, hLists.queue, List.nodup_append, List.nodup_append, List.nodup_append]
  refine ⟨⟨hListedNodup, by simp, ?_⟩, ⟨hRestNodup, hLists.nodup_freed, ?_⟩, ?_⟩
  · intro a ha b hb hab
    rw [List.mem_singleton] at hb
    exact hSound.not_listed_of_cons hQueue (hb ▸ hab ▸ ha)
  · rintro a ha b hb rfl
    -- A node in the queue waits for nothing, a freed one has waited for an edge.
    obtain ⟨hChild, hLast⟩ := (hLists.mem_freed a).1 hb
    have hZero := ((hSound.queue a).1 (hSound.rest_fresh hQueue ha).1).2.1
    have hPos : 0 < (g.successors x).count a := List.count_pos_iff.2 hChild
    rw [hZero, Option.some.injEq] at hLast
    omega
  · rintro a ha b hb rfl
    rcases List.mem_append.1 hb with hRest | hFreed
    · exact (hSound.rest_fresh hQueue hRest).2 ha
    · exact hSound.child_fresh hQueue ((hLists.mem_freed a).1 hFreed).1 ha

theorem ordered_of_lists (hSound : Sound g s) (hQueue : s.queue = x :: rest)
    (hLists : Lists g s next x rest freed) (before : List NodeId) (id : NodeId)
    (after : List NodeId) (hSplit : next.listed = before ++ id :: after) :
    ∀ p ∈ g.predecessors id, p ∈ before := by
  intro p hPred
  rw [hLists.listed] at hSplit
  -- Either `id` is what was listed just now, or the split is one of the list before.
  rcases List.eq_nil_or_concat after with rfl | ⟨middle, last, rfl⟩
  · obtain ⟨rfl, hLast⟩ := List.append_inj' hSplit rfl
    obtain rfl : x = id := by simpa using hLast
    exact hSound.pred_of_queue (mem_queue_of_cons hQueue) hPred
  · have hShorter : s.listed ++ [x] = (before ++ id :: middle) ++ [last] := by
      simpa using hSplit
    obtain ⟨hOld, -⟩ := List.append_inj' hShorter rfl
    exact hSound.ordered before id middle hOld p hPred

/-- Taking the first node of the queue keeps the invariant. -/
theorem step (hSound : Sound g s) (hClosed : g.Closed) : Sound g (s.step g) := by
  cases hQueue : s.queue with
  | nil =>
      rw [step_of_queue_nil g hQueue]
      exact hSound
  | cons x rest =>
      obtain ⟨freed, hLists⟩ := hSound.step_lists hClosed hQueue
      constructor
      · exact hLists.keys.trans hSound.keys
      · exact fun id hNode => hSound.waiting_of_lists hQueue hLists hNode
      · exact hSound.queue_of_lists hClosed hQueue hLists
      · exact hSound.nodup_of_lists hQueue hLists
      · intro id hid
        rw [hLists.listed] at hid
        rcases List.mem_append.1 hid with hOld | hSelf
        · exact hSound.listed id hOld
        · rw [List.mem_singleton] at hSelf
          exact hSelf ▸ ((hSound.queue x).1 (mem_queue_of_cons hQueue)).1
      · exact hSound.ordered_of_lists hQueue hLists

/-- Any number of steps keeps the invariant. -/
theorem run (hSound : Sound g s) (hClosed : g.Closed) (n : Nat) : Sound g (run g n s) := by
  induction n generalizing s with
  | zero => exact hSound
  | succ n ih => exact ih (hSound.step hClosed)

/-- What was put into the queue first stays in front. -/
theorem queued_prefix (hSound : Sound g s) (hClosed : g.Closed) (n : Nat) :
    s.listed ++ s.queue <+: (Sorting.run g n s).listed ++ (Sorting.run g n s).queue := by
  induction n generalizing s with
  | zero => exact List.prefix_refl _
  | succ n ih =>
      refine List.IsPrefix.trans ?_ (ih (hSound.step hClosed))
      cases hQueue : s.queue with
      | nil => rw [step_of_queue_nil g hQueue, hQueue]
      | cons x rest =>
          obtain ⟨freed, hLists⟩ := hSound.step_lists hClosed hQueue
          rw [hLists.queued hQueue, hQueue]
          exact List.prefix_append _ _

/-- A listed node stands behind everything that leads to it. -/
theorem mem_of_before (hSound : Sound g s) {a b : NodeId} (hPath : g.Before a b) :
    ∀ before after, s.listed = before ++ b :: after → a ∈ before := by
  induction hPath with
  | single hStep =>
      intro before after hSplit
      exact hSound.ordered before _ after hSplit a (mem_predecessors_iff_link.2 hStep)
  | @tail m b _ hStep ih =>
      intro before after hSplit
      have hm := hSound.ordered before b after hSplit m (mem_predecessors_iff_link.2 hStep)
      obtain ⟨front, back, rfl⟩ := List.append_of_mem hm
      have hFront := ih front (back ++ b :: after) (by simpa using hSplit)
      exact List.mem_append_left _ hFront

end Sound

/-! ## The final state -/

theorem run_of_queue_nil {g : Network} {s : Sorting} (hQueue : s.queue = []) (n : Nat) :
    run g n s = s := by
  induction n with
  | zero => rfl
  | succ n ih => rw [run, step_of_queue_nil g hQueue, ih]

/-- As long as the queue is not empty, every step lists a node. -/
theorem Sound.length_listed_run {g : Network} {s : Sorting} (hSound : Sound g s)
    (hClosed : g.Closed) (n : Nat) (hQueue : (Sorting.run g n s).queue ≠ []) :
    s.listed.length + n ≤ (Sorting.run g n s).listed.length := by
  induction n generalizing s with
  | zero => exact Nat.le_refl _
  | succ n ih =>
      cases hCase : s.queue with
      | nil =>
          rw [run_of_queue_nil hCase] at hQueue
          exact absurd hCase hQueue
      | cons x rest =>
          obtain ⟨freed, hLists⟩ := hSound.step_lists hClosed hCase
          have hRest := ih (hSound.step hClosed) hQueue
          rw [hLists.listed, List.length_append, List.length_singleton] at hRest
          show s.listed.length + (n + 1) ≤ (Sorting.run g n (s.step g)).listed.length
          omega

theorem sound_final {g : Network} (hClosed : g.Closed) : Sound g (final g) :=
  (sound_start g).run hClosed g.order

/-- The final list is complete as soon as it is as long as the list of nodes. -/
theorem listed_complete_iff {g : Network} (hClosed : g.Closed) :
    (final g).listed.length = g.order ↔ ∀ id ∈ g.nodes.keys, id ∈ (final g).listed := by
  have hSound := sound_final hClosed
  have hNodup : (final g).listed.Nodup := (List.nodup_append.1 hSound.nodup).1
  have hSubset : (final g).listed ⊆ g.nodes.keys.toList := hSound.listed
  have hOrder : g.nodes.keys.toList.length = g.order := by
    simp [order, OrderedMap.size]
  have hSubperm : (final g).listed.Subperm g.nodes.keys.toList :=
    List.subperm_of_subset hNodup hSubset
  constructor
  · intro hLength id hid
    have hPerm := hSubperm.perm_of_length_le (by omega)
    exact hPerm.mem_iff.2 hid
  · intro hAll
    have hOther := List.subperm_of_subset g.nodes.keys.nodup hAll
    exact le_antisymm (hOrder ▸ hSubperm.length_le) (hOrder ▸ hOther.length_le)

/-- A step finds a node in the queue only as long as not all nodes are listed. -/
theorem lt_order_of_queue {g : Network} (hClosed : g.Closed) {n : Nat}
    (hQueue : (run g n (start g)).queue ≠ []) : n < g.order := by
  have hSound := (sound_start g).run hClosed n
  have hListed : n ≤ (run g n (start g)).listed.length := by
    simpa [start] using (sound_start g).length_listed_run hClosed n hQueue
  obtain ⟨x, rest, hCons⟩ := List.exists_cons_of_ne_nil hQueue
  -- The listed nodes and the first one of the queue are different nodes of the network.
  have hNodup : ((run g n (start g)).listed ++ [x]).Nodup := by
    refine hSound.nodup.sublist (List.Sublist.append_left ?_ _)
    rw [hCons]
    exact List.singleton_sublist.2 List.mem_cons_self
  have hNodes : (run g n (start g)).listed ++ [x] ⊆ g.nodes.keys.toList := by
    intro id hId
    rcases List.mem_append.1 hId with hOld | hSelf
    · exact hSound.listed id hOld
    · rw [List.mem_singleton.1 hSelf]
      exact ((hSound.queue x).1 (Sound.mem_queue_of_cons hCons)).1
  have hLength := (List.subperm_of_subset hNodup hNodes).length_le
  rw [List.length_append, List.length_singleton, OrderedMap.toList_keys, List.length_map] at hLength
  exact Nat.lt_of_lt_of_le (Nat.lt_succ_of_le hListed) hLength

theorem queue_final {g : Network} (hClosed : g.Closed) : (final g).queue = [] := by
  by_contra hQueue
  exact Nat.lt_irrefl g.order (lt_order_of_queue hClosed hQueue)

end Sorting

namespace Network

variable {g : Network}

/-- The final list is complete exactly if there is no directed cycle. -/
theorem listed_complete_iff_acyclic (hClosed : g.Closed) :
    (∀ id ∈ g.nodes.keys, id ∈ (Sorting.final g).listed) ↔ Acyclic g.Link := by
  have hSound := Sorting.sound_final hClosed
  constructor
  · intro hAll id hCycle
    obtain ⟨other, hStep, -⟩ := TransGen.head'_iff.1 hCycle
    have hListed := hAll id (hClosed.of_link hStep).1
    obtain ⟨before, after, hSplit⟩ := List.append_of_mem hListed
    have hBefore := hSound.mem_of_before hCycle before after hSplit
    have hNodup := (List.nodup_append.1 hSound.nodup).1
    rw [hSplit, List.nodup_append] at hNodup
    exact hNodup.2.2 id hBefore id List.mem_cons_self rfl
  · intro hAcyclic
    by_contra hMissing
    push Not at hMissing
    let left : Set NodeId := { id | id ∈ g.nodes.keys ∧ id ∉ (Sorting.final g).listed }
    have hFinite : left.Finite := g.finite_nodes.subset fun _ h => h.1
    obtain ⟨x, ⟨hNode, hNew⟩, hFirst⟩ := hAcyclic.exists_minimal hFinite hMissing
    -- All predecessors of `x` are listed, so `x` would still be in the queue.
    have hPreds : ∀ p ∈ g.predecessors x, p ∈ (Sorting.final g).listed := by
      intro p hp
      have hStep := mem_predecessors_iff_link.1 hp
      by_contra hOpen
      exact hFirst p ⟨(hClosed.of_link hStep).1, hOpen⟩ hStep
    have hQueue : x ∈ (Sorting.final g).queue := by
      refine (hSound.queue x).2 ⟨hNode, ?_, hNew⟩
      rw [hSound.waiting x hNode, openEdges_eq_zero_iff.2 hPreds]
    rw [Sorting.queue_final hClosed] at hQueue
    cases hQueue

theorem find?_endpoints_eq_none_iff :
    g.endpoints.find? (· ∉ g.nodes.keys) = none ↔ g.Closed := by
  simp only [List.find?_eq_none, decide_eq_true_eq, not_not, mem_endpoints, Closed]
  constructor
  · intro h e he
    exact ⟨h _ ⟨e, he, Or.inl rfl⟩, h _ ⟨e, he, Or.inr rfl⟩⟩
  · rintro h id ⟨e, he, rfl | rfl⟩
    · exact (h e he).1
    · exact (h e he).2

/-- Among networks whose edge ends are nodes, exactly the acyclic ones have an order. -/
theorem topologicalOrder_ok_iff_acyclic (hClosed : g.Closed) :
    (∃ order, g.topologicalOrder = .ok order) ↔ Acyclic g.Link := by
  rw [← listed_complete_iff_acyclic hClosed, ← Sorting.listed_complete_iff hClosed,
    topologicalOrder, find?_endpoints_eq_none_iff.2 hClosed]
  by_cases hLength : (Sorting.final g).listed.length = g.order
  · simp [hLength]
  · simp [hLength]

/-- Where all edge ends are nodes, a cycle is the only thing that can be in the way. -/
theorem topologicalOrder_of_closed (hClosed : g.Closed) :
    (∃ order, g.topologicalOrder = .ok order) ∨
      ∃ nodes, g.topologicalOrder = .error (.cycle nodes) := by
  rw [topologicalOrder, find?_endpoints_eq_none_iff.2 hClosed]
  by_cases hLength : (Sorting.final g).listed.length = g.order
  · exact Or.inl ⟨_, if_pos hLength⟩
  · exact Or.inr ⟨_, if_neg hLength⟩

end Network

end ActivityNetwork
