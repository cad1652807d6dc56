import ActivityNetwork.Proofs.Network.Outcome
import Mathlib.Data.List.SplitBy

/-!
# Levels

The level of a node is the number of edges on a longest directed path that ends there.  Many orders
have every edge running forward; the one that sorting finds also goes level by level, because what
becomes free waits its turn behind what was free before.

A node becomes free when the last node that it waits for is listed.  Nodes are listed by ascending
level, so this last one has the highest level of all nodes that it waits for, and the free node is
exactly one level above it.  `Sorting.Levelled` is the invariant that carries this: everything that
was ever put into the queue ascends, and the queue never spans more than two adjacent levels.
-/

namespace ActivityNetwork

open Relation

/-! ## Lists that ascend -/

section Ascending

variable {α : Type} {f : α → Nat} {xs : List α} {d : Nat}

end Ascending

/-! ## Longest paths -/

namespace Network

/-- A directed path of so many edges ends at the node. -/
inductive PathTo (g : Network) : Nat → NodeId → Prop
  | here (id : NodeId) : PathTo g 0 id
  | step {n : Nat} {a b : NodeId} (hPath : PathTo g n a) (hLink : g.Link a b) : PathTo g (n + 1) b

/-- The number of edges on a longest path that ends at the node, of all paths of at most so many
edges. -/
def levelWithin (g : Network) : Nat → NodeId → Nat
  | 0, _ => 0
  | n + 1, id => ((g.predecessors id).map fun p => g.levelWithin n p + 1).max?.getD 0

/-- The number of edges on a longest path that ends at the node.  Where there are no cycles, no path
has more edges than there are nodes. -/
def level (g : Network) (id : NodeId) : Nat :=
  g.levelWithin g.order id

/-- The numbers are those of the longest paths. -/
structure Longest (g : Network) (level : NodeId → Nat) : Prop where
  attained : ∀ id, g.PathTo (level id) id
  greatest : ∀ id n, g.PathTo n id → n ≤ level id

variable {g : Network} {level : NodeId → Nat} {a b id : NodeId} {k n m : Nat}

namespace Longest

variable (hLongest : g.Longest level)
include hLongest

theorem lt_of_link (hLink : g.Link a b) : level a < level b :=
  hLongest.greatest b _ (.step (hLongest.attained a) hLink)

/-- A longest path comes from one level below. -/
theorem exists_link (hLevel : level b = k + 1) : ∃ a, g.Link a b ∧ level a = k := by
  have hPath := hLongest.attained b
  rw [hLevel] at hPath
  obtain _ | ⟨hBefore, hLink⟩ := hPath
  refine ⟨_, hLink, ?_⟩
  have hLower := hLongest.lt_of_link hLink
  have hUpper := hLongest.greatest _ _ hBefore
  omega

end Longest

end Network

/-! ## Sorting by levels -/

namespace Sorting

open Network

/-- Everything that was ever put into the queue ascends, and the queue spans no more than two
adjacent levels. -/
structure Levelled (level : NodeId → Nat) (s : Sorting) : Prop where
  ascending : (s.listed ++ s.queue).Pairwise fun a b => level a ≤ level b
  narrow : ∀ a ∈ s.queue, ∀ b ∈ s.queue, level b ≤ level a + 1

variable {g : Network} {level : NodeId → Nat} {s next : Sorting} {x : NodeId}
  {rest freed : List NodeId}

/-- What a step frees lies one level above the node that is listed: that node is among its
predecessors, and no listed node is higher. -/
theorem level_of_freed (hSound : Sound g s) (hClosed : g.Closed) (hLongest : g.Longest level)
    (hLevelled : Levelled level s) (hQueue : s.queue = x :: rest)
    (hLists : Lists g s next x rest freed) {c : NodeId} (hFreed : c ∈ freed) :
    level c = level x + 1 := by
  obtain ⟨hChild, hLast⟩ := (hLists.mem_freed c).1 hFreed
  have hAbove := hLongest.lt_of_link (mem_successors_iff_link.1 hChild)
  obtain ⟨k, hLevel⟩ := Nat.exists_eq_succ_of_ne_zero (Nat.ne_of_gt (Nat.zero_lt_of_lt hAbove))
  obtain ⟨p, hLink, hBelow⟩ := hLongest.exists_link hLevel
  have hNode : c ∈ g.nodes.keys := Sound.child_of_closed hClosed hChild
  -- The freed node has no open edge left, so the predecessor one level below is listed by now.
  have hListed : p ∈ s.listed ++ [x] := by
    have hOpen := openEdges_concat g c (hSound.not_listed_of_cons hQueue)
    rw [hSound.waiting c hNode, Option.some.injEq] at hLast
    exact openEdges_eq_zero_iff.1 (by omega) p (mem_predecessors_iff_link.2 hLink)
  have hHighest : level p ≤ level x := by
    have hAscending := hLevelled.ascending
    rw [hQueue, List.pairwise_append] at hAscending
    rcases List.mem_append.1 hListed with hOld | hSelf
    · exact hAscending.2.2 p hOld x List.mem_cons_self
    · rw [List.mem_singleton.1 hSelf]
  omega

/-- Taking the first node of the queue keeps the levels in order. -/
theorem Levelled.step (hLevelled : Levelled level s) (hSound : Sound g s) (hClosed : g.Closed)
    (hLongest : g.Longest level) : Levelled level (s.step g) := by
  cases hQueue : s.queue with
  | nil =>
      rw [step_of_queue_nil g hQueue]
      exact hLevelled
  | cons x rest =>
      obtain ⟨freed, hLists⟩ := hSound.step_lists hClosed hQueue
      have hFreed : ∀ c ∈ freed, level c = level x + 1 := fun c hc =>
        level_of_freed hSound hClosed hLongest hLevelled hQueue hLists hc
      have hAscending := hLevelled.ascending
      rw [hQueue, List.pairwise_append, List.pairwise_cons] at hAscending
      obtain ⟨-, ⟨hFirst, -⟩, hOld⟩ := hAscending
      have hNarrow : ∀ b ∈ rest, level b ≤ level x + 1 := by
        have h := hLevelled.narrow
        rw [hQueue] at h
        exact fun b hb => h x List.mem_cons_self b (List.mem_cons_of_mem x hb)
      constructor
      · rw [hLists.queued hQueue, List.pairwise_append]
        refine ⟨hLevelled.ascending, List.pairwise_of_forall_mem_list fun a ha b hb => ?_,
          fun a ha c hc => ?_⟩
        · rw [hFreed a ha, hFreed b hb]
        · rw [hFreed c hc]
          rw [hQueue, List.mem_append, List.mem_cons] at ha
          rcases ha with hListed | rfl | hRest
          · exact Nat.le_succ_of_le (hOld a hListed x List.mem_cons_self)
          · exact Nat.le_succ _
          · exact hNarrow a hRest
      · -- All that stays lies at the level of `x` or the next, and so does all that is freed.
        have hSpan : ∀ b ∈ (s.step g).queue, level x ≤ level b ∧ level b ≤ level x + 1 := by
          intro b hb
          rw [hLists.queue, List.mem_append] at hb
          rcases hb with hRest | hNew
          · exact ⟨hFirst b hRest, hNarrow b hRest⟩
          · rw [hFreed b hNew]
            exact ⟨Nat.le_succ _, Nat.le_refl _⟩
        intro a ha b hb
        have hLower := (hSpan a ha).1
        have hUpper := (hSpan b hb).2
        omega

/-- Any number of steps keeps the levels in order. -/
theorem Levelled.run (hLevelled : Levelled level s) (hSound : Sound g s) (hClosed : g.Closed)
    (hLongest : g.Longest level) (n : Nat) : Levelled level (run g n s) := by
  induction n generalizing s with
  | zero => exact hLevelled
  | succ n ih => exact ih (hLevelled.step hSound hClosed hLongest) (hSound.step hClosed)

end Sorting

namespace Network

variable {g : Network} {order : List NodeId}

namespace Sample

end Sample

end Network

end ActivityNetwork
