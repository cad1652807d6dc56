import ActivityNetwork.Proofs.Draft.Accounting
import ActivityNetwork.Proofs.Draft.Sequencing
import ActivityNetwork.Proofs.Search

/-!
# Gathering leaves

The leaves of a workflow can be told in three ways.

* A search with a stack looks at a workflow, then at its sides, and passes over every part that it
  has met before (`gather`).  It is over after one round and two for each different part.
* A recursion does the same from left to right (`leaves`).  Whatever else is on the stack, the
  search takes some rounds to get a workflow off the stack, and in these it does what the recursion
  does with this workflow (`gather_mirrors`).
* The unfolded workflow is written down in full, with one entry for each path to a leaf, and of the
  entries with the same id the first one is kept (`firstOfEach`).

For whatever drafting has made these are the same list (`leaves_agree_of_run`).
-/

namespace ActivityNetwork

namespace Workflow

/-- The workflows that `w` is put together from, as a search for leaves sees it. -/
def sides : Workflow → List Workflow
  | seq _ first second => [first, second]
  | overlap _ first second => [first, second]
  | holding _ _ _ expansion => [expansion]
  | _ => []

/-- The search for leaves after so many rounds. -/
def gather (w : Workflow) (n : Nat) : Search Workflow :=
  (Search.start w).rounds Workflow.id sides n

variable {w v first second : Workflow} {met rest : List Workflow} {walk : Walk}

/-! ## Leaves as first occurrences -/

theorem leaves_eq_firstOfEach (hCoherent : w.Coherent) : w.leaves = firstOfEach w.flatten := by
  rw [leaves_eq_collect hCoherent, collect, foldl_addNew_nil]

/-- Every workflow has a leaf. -/
theorem leaves_ne_nil (hCoherent : w.Coherent) : w.leaves ≠ [] := by
  obtain ⟨leaf, hLeaf⟩ := exists_leafOf w
  exact List.ne_nil_of_mem ((mem_leaves hCoherent).2 hLeaf)

/-- The second side of a union brings what is not a leaf of the first one. -/
theorem overlap_leaves {id : WorkflowId} (hCoherent : (overlap id first second).Coherent) :
    (overlap id first second).leaves =
      first.leaves ++ second.leaves.filter (·.id ∉ first.leafIds) := by
  have hFirst := hCoherent.mono (.overlapFirst .self)
  have hSecond := hCoherent.mono (.overlapSecond .self)
  rw [leaves_eq_collect hCoherent, collect_overlap, ← leaves_eq_collect hFirst, collect,
    foldl_addNew_eq, ← leaves_eq_firstOfEach hSecond]
  rfl

/-! ## The stack and the recursion -/

/-- A search has met what a walk has met, and the walk has picked up the leaves among it. -/
structure Mirrors (met : List Workflow) (walk : Walk) : Prop where
  ids : ∀ id, id ∈ met.map Workflow.id ↔ id ∈ walk.met
  found : met.filter isLeaf = walk.found

theorem mirrors_start : Mirrors [] .start where
  ids := fun _ => ⟨fun hNone => absurd hNone List.not_mem_nil,
    fun hNone => absurd hNone List.not_mem_nil⟩
  found := rfl

/-- Meeting a workflow that is no leaf. -/
theorem Mirrors.enter (hMirrors : Mirrors met walk) (hInner : w.isLeaf = false) :
    Mirrors (met ++ [w]) { walk with met := walk.met.insert w.id } where
  ids := fun id => by
    rw [OrderedSet.mem_insert, ← hMirrors.ids, List.map_append, List.mem_append]
    simp
  found := by
    rw [List.filter_append, hMirrors.found, List.filter_cons_of_neg (by simp [hInner])]
    simp

/-- Meeting a leaf, which is picked up. -/
theorem Mirrors.pick (hMirrors : Mirrors met walk) (hLeaf : w.isLeaf = true) :
    Mirrors (met ++ [w]) ({ walk with met := walk.met.insert w.id }.pick w) where
  ids := fun id => by
    show _ ↔ id ∈ walk.met.insert w.id
    rw [OrderedSet.mem_insert, ← hMirrors.ids, List.map_append, List.mem_append]
    simp
  found := by
    rw [List.filter_append, hMirrors.found, List.filter_cons_of_pos hLeaf]
    rfl

/-- After some rounds the search is done with a stack that it had on top of `rest`, and it mirrors
the walk that is then reached. -/
def Clears (met top rest : List Workflow) (walk : Walk) : Prop :=
  ∃ n met', Search.rounds Workflow.id sides n ⟨met, top ++ rest⟩ = ⟨met', rest⟩ ∧
    Mirrors met' walk

theorem clears_nil (hMirrors : Mirrors met walk) : Clears met [] rest walk :=
  ⟨0, met, rfl, hMirrors⟩

/-- One workflow after the other. -/
theorem Clears.append {top next : List Workflow} {visit : Walk → Walk}
    (hTop : Clears met top (next ++ rest) walk)
    (hNext : ∀ met', Mirrors met' walk → Clears met' next rest (visit walk)) :
    Clears met (top ++ next) rest (visit walk) := by
  obtain ⟨m, between, hRounds, hBetween⟩ := hTop
  obtain ⟨n, after, hRest, hAfter⟩ := hNext between hBetween
  refine ⟨m + n, after, ?_, hAfter⟩
  rw [Search.rounds_add, List.append_assoc, hRounds, hRest]

/-- A workflow that was met is passed over; a new one is replaced by its sides. -/
theorem clears_once {visit : Walk → Walk} (hMirrors : Mirrors met walk)
    (hVisit : Clears (met ++ [w]) w.sides rest
      (visit { walk with met := walk.met.insert w.id })) :
    Clears met [w] rest (walk.once w visit) := by
  by_cases hMet : w.id ∈ met.map Workflow.id
  · rw [Walk.once_of_met visit ((hMirrors.ids _).1 hMet)]
    exact ⟨1, met, Search.round_of_met rest hMet, hMirrors⟩
  · rw [Walk.once_of_not_met visit fun hWalk => hMet ((hMirrors.ids _).2 hWalk)]
    obtain ⟨n, after, hRounds, hAfter⟩ := hVisit
    refine ⟨n + 1, after, ?_, hAfter⟩
    rw [Search.rounds]
    exact (congrArg _ (Search.round_of_new rest hMet)).trans hRounds

theorem clears_leaf (hMirrors : Mirrors met walk) (hLeaf : w.isLeaf = true)
    (hSides : w.sides = []) : Clears met [w] rest (walk.once w (·.pick w)) := by
  refine clears_once hMirrors ?_
  rw [hSides]
  exact clears_nil (hMirrors.pick hLeaf)

/-- The search gets a workflow off the stack in the way in which the recursion goes through it. -/
theorem gather_mirrors (w : Workflow) (met rest : List Workflow) (walk : Walk)
    (hMirrors : Mirrors met walk) : Clears met [w] rest (w.gatherLeaves walk) := by
  induction w generalizing met rest walk with
  | activity id name duration => exact clears_leaf hMirrors rfl rfl
  | request id resource => exact clears_leaf hMirrors rfl rfl
  | release id resource => exact clears_leaf hMirrors rfl rfl
  | seq id first second ihFirst ihSecond =>
      -- The second side lies on the stack, as part of the rest, while the first one is cleared.
      refine clears_once hMirrors ?_
      exact (ihFirst _ _ _ (hMirrors.enter rfl)).append fun _ hBetween => ihSecond _ _ _ hBetween
  | overlap id first second ihFirst ihSecond =>
      refine clears_once hMirrors ?_
      exact (ihFirst _ _ _ (hMirrors.enter rfl)).append fun _ hBetween => ihSecond _ _ _ hBetween
  | holding id process resources expansion _ ihExpansion =>
      refine clears_once hMirrors ?_
      exact ihExpansion _ _ _ (hMirrors.enter rfl)

/-! ## The end of the search -/

theorem length_sides (w : Workflow) : w.sides.length = w.arity := by
  cases w <;> rfl

theorem length_flatMap_sides (xs : List Workflow) : (xs.flatMap sides).length = totalArity xs := by
  induction xs with
  | nil => rfl
  | cons x xs ih => rw [List.flatMap_cons, List.length_append, length_sides, ih, totalArity]

theorem inside_of_mem_sides (hMem : v ∈ w.sides) : v.Inside w := by
  cases w with
  | seq id first second =>
      rcases List.mem_cons.1 hMem with rfl | hSecond
      · exact .seqFirst .self
      · rw [List.mem_singleton.1 hSecond]
        exact .seqSecond .self
  | overlap id first second =>
      rcases List.mem_cons.1 hMem with rfl | hSecond
      · exact .overlapFirst .self
      · rw [List.mem_singleton.1 hSecond]
        exact .overlapSecond .self
  | holding id process resources expansion =>
      rw [List.mem_singleton.1 hMem]
      exact .expansion .self
  | _ => cases hMem

/-- One round for the workflow and two for each different part are enough. -/
theorem stack_gather (hCoherent : w.Coherent) :
    (w.gather (1 + 2 * { v : Workflow | v.Inside w }.ncard)).stack = [] := by
  have hKeys : ((w.finish []).map Workflow.id).Nodup :=
    nodup_ids_foldl_addNew w.unfold List.nodup_nil
  refine Search.stack_rounds hKeys ?_ ?_ ?_
  · intro x hx v hv
    rw [mem_finish_nil hCoherent] at hx ⊢
    exact (inside_of_mem_sides hv).trans hx
  · exact List.cons_subset.2 ⟨(mem_finish_nil hCoherent).2 .self, List.nil_subset _⟩
  · have hPending :
        Search.pending Workflow.id sides (w.finish []) [] = totalArity (w.finish []) := by
      rw [← length_flatMap_sides]
      simp [Search.pending]
    show [w].length + Search.pending Workflow.id sides (w.finish []) [] ≤ _
    rw [hPending, List.length_singleton, ncard_inside hCoherent]
    exact Nat.add_le_add_left (totalArity_le _) 1

/-- A search that is over has met the leaves in the order of the recursion. -/
theorem met_gather {n : Nat} (hDone : (w.gather n).stack = []) :
    (w.gather n).met.filter isLeaf = w.leaves := by
  obtain ⟨m, met, hRounds, hMirrors⟩ := gather_mirrors w [] [] .start mirrors_start
  have hOver : (w.gather m).stack = [] := congrArg Search.stack hRounds
  have hSame : w.gather n = w.gather m := Search.rounds_eq_of_done hDone hOver
  have hMet : (w.gather m).met = met := congrArg Search.met hRounds
  rw [hSame, hMet, hMirrors.found]
  rfl

variable {s : Supply} {shelf : List Workflow}

/-- What a run has made has the same leaves in every way of telling them, and it has some.  The
leaves of a sequence are those of its sides, one side behind the other; in a union the second side
brings those that the first one does not have. -/
theorem leaves_agree_of_run (hRun : Run s shelf) :
    (∀ w ∈ shelf,
      (w.gather (1 + 2 * { v : Workflow | v.Inside w }.ncard)).stack = [] ∧
      (w.gather (1 + 2 * { v : Workflow | v.Inside w }.ncard)).met.filter isLeaf = w.leaves ∧
      w.leaves = firstOfEach w.flatten ∧ w.leaves ≠ []) ∧
    ∀ a ∈ shelf, ∀ b ∈ shelf,
      (∀ w t, Draft.sequence a b s = .ok w t → w.leaves = a.leaves ++ b.leaves) ∧
      ∀ w t, Draft.merge a b s = .ok w t →
        w.leaves = a.leaves ++ b.leaves.filter (·.id ∉ a.leafIds) := by
  refine ⟨fun w hMem => ?_, fun a ha b hb => ⟨fun w t hDone => ?_, fun w t hDone => ?_⟩⟩
  · have hCoherent := (hRun.stocked.wellMade (reached_of_mem hMem)).coherent
    have hDone := stack_gather hCoherent
    exact ⟨hDone, met_gather hDone, leaves_eq_firstOfEach hCoherent, leaves_ne_nil hCoherent⟩
  · have hStocked := (Draft.keeps_sequence (reached_of_mem ha) (reached_of_mem hb)).stocked
      hRun.stocked hDone
    have hMade := hStocked.wellMade (reached_of_mem List.mem_cons_self)
    rw [Draft.sequence_ok hDone] at hMade ⊢
    exact hMade.seq_leaves
  · have hStocked := (Draft.keeps_merge (reached_of_mem ha) (reached_of_mem hb)).stocked
      hRun.stocked hDone
    have hMade := hStocked.wellMade (reached_of_mem List.mem_cons_self)
    obtain ⟨hUnion, -⟩ := Draft.merge_ok hDone
    rw [hUnion] at hMade ⊢
    exact overlap_leaves hMade.coherent

/-- Packing is a leaf of both sides, and is met on the first one. -/
theorem leaves_agree_front_back :
    Run ⟨5, 0⟩ [Sample.back, Sample.front, Sample.ship, Sample.pack, Sample.pick] ∧
      Draft.merge Sample.front Sample.back ⟨5, 0⟩ = .ok Sample.both ⟨6, 0⟩ ∧
      Sample.both.leaves = [Sample.pick, Sample.pack, Sample.ship] := by
  have hUnion := ((leaves_agree_of_run Sample.run_sides).2 Sample.front (by simp) Sample.back
    (by simp)).2 Sample.both ⟨6, 0⟩ Sample.merge_front_back
  exact ⟨Sample.run_sides, Sample.merge_front_back, hUnion.trans rfl⟩

end Workflow

end ActivityNetwork
