import ActivityNetwork.Network.Connectivity
import ActivityNetwork.Proofs.Network.Paths

/-!
# What hangs together

`Connected g a b` says that some walk leads from `a` to `b` when the direction of edges is
ignored.  The search leaves out exactly what it should: a node is reported exactly if no walk
joins it to the first node (`mem_disconnected`), so that nothing is reported exactly if all nodes
hang together (`disconnected_eq_nil_iff`).

The search keeps no list of the places it has visited; they are those that are no longer among the
unvisited ones.  Its invariant is `Settled`: a neighbour of a visited place is visited, or waits on
the stack.
-/

namespace ActivityNetwork

open Relation

namespace Network

/-- Some edge has its ends at `a` and `b`. -/
def Adjacent (g : Network) (a b : NodeId) : Prop :=
  g.Link a b ∨ g.Link b a

/-- A walk along edges, in whatever direction, leads from `a` to `b`. -/
def Connected (g : Network) : NodeId → NodeId → Prop :=
  ReflTransGen g.Adjacent

variable {g : Network} {a b c id first : NodeId} {unvisited stack : List NodeId}

theorem mem_neighbours_iff_adjacent : b ∈ g.neighbours a ↔ g.Adjacent a b := by
  rw [neighbours, List.mem_append, mem_successors_iff_link, mem_predecessors_iff_link]
  rfl

theorem Adjacent.symm (h : g.Adjacent a b) : g.Adjacent b a :=
  Or.symm h

theorem Connected.symm (h : g.Connected a b) : g.Connected b a := by
  induction h with
  | refl => exact .refl
  | tail _ hStep ih => exact .head hStep.symm ih

theorem connected_of_path (h : ReflTransGen g.Link a b) : g.Connected a b :=
  ReflTransGen.mono (fun _ _ hLink => Or.inl hLink) _ _ h

/-- Whoever has a neighbour is an edge end. -/
theorem Adjacent.mem_places (h : g.Adjacent a b) : a ∈ g.places := by
  refine Network.mem_places.2 (Or.inr (mem_endpoints.2 ?_))
  rcases h with ⟨e, he, rfl, -⟩ | ⟨e, he, -, rfl⟩
  · exact ⟨e, he, Or.inl rfl⟩
  · exact ⟨e, he, Or.inr rfl⟩

/-! ## The search -/

/-- A neighbour of a visited place is visited, or waits on the stack. -/
def Settled (g : Network) (unvisited stack : List NodeId) : Prop :=
  ∀ a b, a ∉ unvisited → g.Adjacent a b → b ∈ unvisited → b ∈ stack

theorem sweep_nil (g : Network) (unvisited : List NodeId) : g.sweep unvisited [] = unvisited := by
  rw [sweep]

theorem sweep_of_mem (rest : List NodeId) (hNew : id ∈ unvisited) :
    g.sweep unvisited (id :: rest) = g.sweep (unvisited.erase id) (g.neighbours id ++ rest) := by
  rw [sweep, if_pos hNew]

theorem sweep_of_not_mem (rest : List NodeId) (hOld : id ∉ unvisited) :
    g.sweep unvisited (id :: rest) = g.sweep unvisited rest := by
  rw [sweep, if_neg hOld]

theorem sweep_subset (g : Network) (unvisited stack : List NodeId) :
    g.sweep unvisited stack ⊆ unvisited := by
  induction unvisited, stack using sweep.induct g with
  | case1 unvisited =>
      rw [sweep_nil]
      exact List.Subset.refl _
  | case2 unvisited id rest hNew ih =>
      rw [sweep_of_mem rest hNew]
      exact List.Subset.trans ih List.erase_subset
  | case3 unvisited id rest hOld ih =>
      rw [sweep_of_not_mem rest hOld]
      exact ih

/-- Whatever the search visits can be reached from the stack. -/
theorem connected_of_swept (hId : id ∈ unvisited) (hSwept : id ∉ g.sweep unvisited stack) :
    ∃ a ∈ stack, g.Connected a id := by
  induction unvisited, stack using sweep.induct g with
  | case1 unvisited =>
      rw [sweep_nil] at hSwept
      exact absurd hId hSwept
  | case2 unvisited top rest hNew ih =>
      rw [sweep_of_mem rest hNew] at hSwept
      by_cases hTop : id = top
      · exact ⟨top, List.mem_cons_self, hTop ▸ .refl⟩
      · obtain ⟨a, ha, hWalk⟩ := ih ((List.mem_erase_of_ne hTop).2 hId) hSwept
        rcases List.mem_append.1 ha with hNext | hRest
        · exact ⟨top, List.mem_cons_self, .head (mem_neighbours_iff_adjacent.1 hNext) hWalk⟩
        · exact ⟨a, List.mem_cons_of_mem _ hRest, hWalk⟩
  | case3 unvisited top rest hOld ih =>
      rw [sweep_of_not_mem rest hOld] at hSwept
      obtain ⟨a, ha, hWalk⟩ := ih hId hSwept
      exact ⟨a, List.mem_cons_of_mem _ ha, hWalk⟩

theorem Settled.visit (hSettled : g.Settled unvisited (id :: stack)) (hNodup : unvisited.Nodup) :
    g.Settled (unvisited.erase id) (g.neighbours id ++ stack) := by
  intro a b ha hAdjacent hb
  rw [hNodup.mem_erase_iff] at ha hb
  by_cases hEq : a = id
  · subst hEq
    exact List.mem_append_left _ (mem_neighbours_iff_adjacent.2 hAdjacent)
  · have hOld : a ∉ unvisited := fun hMem => ha ⟨hEq, hMem⟩
    have hWaits := hSettled a b hOld hAdjacent hb.2
    exact List.mem_append_right _ ((List.mem_cons.1 hWaits).resolve_left hb.1)

theorem Settled.skip (hSettled : g.Settled unvisited (id :: stack)) (hOld : id ∉ unvisited) :
    g.Settled unvisited stack := by
  intro a b ha hAdjacent hb
  refine (List.mem_cons.1 (hSettled a b ha hAdjacent hb)).resolve_left fun hEq => ?_
  exact hOld (hEq ▸ hb)

/-- At the end of the search nothing waits, so all neighbours of visited places are visited. -/
theorem settled_sweep (hNodup : unvisited.Nodup) (hSettled : g.Settled unvisited stack) :
    g.Settled (g.sweep unvisited stack) [] := by
  induction unvisited, stack using sweep.induct g with
  | case1 unvisited =>
      rw [sweep_nil]
      exact hSettled
  | case2 unvisited id rest hNew ih =>
      rw [sweep_of_mem rest hNew]
      exact ih (hNodup.erase id) (hSettled.visit hNodup)
  | case3 unvisited id rest hOld ih =>
      rw [sweep_of_not_mem rest hOld]
      exact ih hNodup (hSettled.skip hOld)

theorem not_mem_sweep_of_top (hNodup : unvisited.Nodup) (rest : List NodeId) :
    id ∉ g.sweep unvisited (id :: rest) := by
  intro hLeft
  by_cases hNew : id ∈ unvisited
  · rw [sweep_of_mem rest hNew] at hLeft
    exact hNodup.not_mem_erase (sweep_subset g _ _ hLeft)
  · rw [sweep_of_not_mem rest hNew] at hLeft
    exact hNew (sweep_subset g _ _ hLeft)

/-- The search from one place visits what a walk joins to it, and nothing else. -/
theorem mem_sweep_iff (hId : id ∈ g.places) :
    id ∈ g.sweep g.places.toList [first] ↔ ¬ g.Connected first id := by
  have hNodup := g.places.nodup
  have hStart : g.Settled g.places.toList [first] := fun a _ ha hAdjacent _ =>
    absurd hAdjacent.mem_places ha
  have hSettled := settled_sweep hNodup hStart
  constructor
  · intro hLeft hWalk
    have hVisited : id ∉ g.sweep g.places.toList [first] := by
      clear hId hLeft
      induction hWalk with
      | refl => exact not_mem_sweep_of_top hNodup []
      | tail _ hStep ih => exact fun hMem => absurd (hSettled _ _ ih hStep hMem) List.not_mem_nil
    exact hVisited hLeft
  · intro hNone
    by_contra hSwept
    obtain ⟨a, ha, hWalk⟩ := connected_of_swept hId hSwept
    rw [List.mem_singleton] at ha
    exact hNone (ha ▸ hWalk)

/-! ## What is reported -/

/-- Reported are the nodes that no walk joins to the first node. -/
theorem mem_disconnected :
    id ∈ g.disconnected ↔
      id ∈ g.nodes.keys ∧ ∀ first, g.nodes.keys.toList.head? = some first →
        ¬ g.Connected first id := by
  unfold disconnected
  rw [← OrderedSet.mem_toList]
  cases hKeys : g.nodes.keys.toList with
  | nil => simp
  | cons first rest =>
      rw [List.mem_filter]
      refine and_congr_right fun hMem => ?_
      have hPlace : id ∈ g.places := by
        refine Network.mem_places.2 (Or.inl ?_)
        rw [← OrderedSet.mem_toList, hKeys]
        exact hMem
      rw [decide_eq_true_eq, mem_sweep_iff hPlace]
      simp

/-- Nothing is reported exactly if all nodes hang together. -/
theorem disconnected_eq_nil_iff :
    g.disconnected = [] ↔
      ∀ a b, a ∈ g.nodes.keys → b ∈ g.nodes.keys → g.Connected a b := by
  rw [List.eq_nil_iff_forall_not_mem]
  simp only [mem_disconnected, not_and, not_forall, not_not]
  constructor
  · intro hNone a b ha hb
    obtain ⟨first, hFirst, hWalkA⟩ := hNone a ha
    obtain ⟨other, hOther, hWalkB⟩ := hNone b hb
    have hSame : other = first := Option.some.inj (hOther.symm.trans hFirst)
    exact hWalkA.symm.trans (hSame ▸ hWalkB)
  · intro hAll id hId
    obtain ⟨first, hFirst⟩ : ∃ first, g.nodes.keys.toList.head? = some first :=
      Option.isSome_iff_exists.1 (List.isSome_head?.2 (List.ne_nil_of_mem hId))
    exact ⟨first, hFirst, hAll first id (List.mem_of_mem_head? hFirst) hId⟩

end Network

end ActivityNetwork
