import ActivityNetwork.Proofs.Draft.Run

/-!
# Branches between a shared entry and a shared exit

`simultaneous` puts every branch between the same two new spacers and merges what comes of that.
The spacers are parts of no branch, so putting them around a branch cannot fail.  What the
operation makes of its branches is therefore known before anything is merged: `frames` lists it,
and the operation is a merge of that list (`simultaneous_eq_mergeAll`).
-/

namespace ActivityNetwork

open Workflow

namespace Draft

variable {s t : Supply} {shelf : List Workflow} {first second entry exit branch : Workflow}

/-- Workflows without a common leaf can be put in sequence. -/
theorem sequence_of_apart (hStocked : Stocked s shelf) (hFirst : Reached shelf first)
    (hSecond : Reached shelf second)
    (hApart : ∀ leaf : Workflow, leaf.LeafOf first → ¬ leaf.LeafOf second) :
    sequence first second s =
      .ok (seq ⟨s.workflows⟩ first second) { s with workflows := s.workflows + 1 } := by
  refine sequence_of_disjoint s fun leaf hLeaf hShared => ?_
  obtain ⟨other, hOther, hId⟩ := List.mem_map.1 hShared
  have hLeafSecond := (mem_leaves (hStocked.wellMade hSecond).coherent).1 hLeaf
  have hLeafFirst := (mem_leaves (hStocked.wellMade hFirst).coherent).1 hOther
  have hEq : other = leaf :=
    hStocked.coherent other leaf (hFirst.inside hLeafFirst.2) (hSecond.inside hLeafSecond.2) hId
  exact hApart leaf (hEq ▸ hLeafFirst) hLeafSecond

/-- So can three, if no two of them have a common leaf. -/
theorem chain_of_apart {a b c : Workflow} (hStocked : Stocked s shelf) (ha : Reached shelf a)
    (hb : Reached shelf b) (hc : Reached shelf c)
    (hFront : ∀ leaf : Workflow, leaf.LeafOf a → ¬ leaf.LeafOf b)
    (hOuter : ∀ leaf : Workflow, leaf.LeafOf a → ¬ leaf.LeafOf c)
    (hBack : ∀ leaf : Workflow, leaf.LeafOf b → ¬ leaf.LeafOf c) :
    chain [a, b, c] s =
      .ok (seq ⟨s.workflows + 1⟩ (seq ⟨s.workflows⟩ a b) c)
        { s with workflows := s.workflows + 2 } := by
  have hMade := sequence_of_apart hStocked ha hb hFront
  -- The first sequence stands on the shelf when the second one is made.
  have hKept := (keeps_sequence ha hb).stocked hStocked hMade
  rw [chain_three, bind_of_ok hMade]
  refine sequence_of_apart hKept (reached_of_mem List.mem_cons_self)
    (hc.mono (List.subset_cons_self _ _)) fun leaf hLeaf => ?_
  exact (leafOf_seq.1 hLeaf).elim (hOuter leaf) (hBack leaf)

/-- Two different leaves that are no parts of the branch. -/
structure Spacers (entry exit : Workflow) (branches : List Workflow) : Prop where
  entry_leaf : entry.isLeaf = true
  exit_leaf : exit.isLeaf = true
  differ : entry ≠ exit
  entry_apart : ∀ branch ∈ branches, ¬ entry.LeafOf branch
  exit_apart : ∀ branch ∈ branches, ¬ exit.LeafOf branch

/-- The branch between the spacers, where the two sequences take ids from `n` on. -/
def frame (entry exit : Workflow) (n : Nat) (branch : Workflow) : Workflow :=
  seq ⟨n + 1⟩ (seq ⟨n⟩ entry branch) exit

/-- All branches between the spacers, one after the other. -/
def frames (entry exit : Workflow) : Nat → List Workflow → List Workflow
  | _, [] => []
  | n, branch :: rest => frame entry exit n branch :: frames entry exit (n + 2) rest

theorem chain_frame {branches : List Workflow} (hSpacers : Spacers entry exit branches)
    (hBranch : branch ∈ branches) (hStocked : Stocked s shelf) (hEntry : Reached shelf entry)
    (hExit : Reached shelf exit) (hReached : Reached shelf branch) :
    chain [entry, branch, exit] s =
      .ok (frame entry exit s.workflows branch) { s with workflows := s.workflows + 2 } := by
  have hOwnEntry : ∀ leaf : Workflow, leaf.LeafOf entry → leaf = entry := fun leaf hLeaf =>
    (leafOf_of_isLeaf hSpacers.entry_leaf).1 hLeaf
  have hOwnExit : ∀ leaf : Workflow, leaf.LeafOf exit → leaf = exit := fun leaf hLeaf =>
    (leafOf_of_isLeaf hSpacers.exit_leaf).1 hLeaf
  refine chain_of_apart hStocked hEntry hReached hExit ?_ ?_ ?_
  · intro leaf hLeaf
    rw [hOwnEntry leaf hLeaf]
    exact hSpacers.entry_apart branch hBranch
  · intro leaf hLeaf hLeafExit
    exact hSpacers.differ ((hOwnEntry leaf hLeaf).symm.trans (hOwnExit leaf hLeafExit))
  · intro leaf hLeaf hLeafExit
    exact hSpacers.exit_apart branch hBranch (hOwnExit leaf hLeafExit ▸ hLeaf)

/-- Framing all branches succeeds, and each branch takes two ids. -/
theorem mapM_frames {branches : List Workflow} (hSpacers : Spacers entry exit branches)
    (hStocked : Stocked s shelf) (hEntry : Reached shelf entry) (hExit : Reached shelf exit)
    (hReached : ∀ branch ∈ branches, Reached shelf branch) :
    branches.mapM (fun branch => chain [entry, branch, exit]) s =
      .ok (frames entry exit s.workflows branches)
        { s with workflows := s.workflows + 2 * branches.length } := by
  induction branches generalizing s shelf with
  | nil => rfl
  | cons branch rest ih =>
      have hBranch := hReached branch List.mem_cons_self
      have hFrame := chain_frame hSpacers List.mem_cons_self hStocked hEntry hExit hBranch
      have hKeeps : Keeps (chain [entry, branch, exit]) shelf ([·]) :=
        keeps_chain (by simp [hEntry, hExit, hBranch])
      have hSpacersRest : Spacers entry exit rest :=
        { hSpacers with
          entry_apart := fun b hb => hSpacers.entry_apart b (List.mem_cons_of_mem _ hb)
          exit_apart := fun b hb => hSpacers.exit_apart b (List.mem_cons_of_mem _ hb) }
      have hRest := ih hSpacersRest (hKeeps.stocked hStocked hFrame)
        (hEntry.mono (List.subset_cons_self _ _)) (hExit.mono (List.subset_cons_self _ _))
        fun b hb => (hReached b (List.mem_cons_of_mem _ hb)).mono (List.subset_cons_self _ _)
      rw [List.mapM_cons, bind_of_ok hFrame, bind_of_ok hRest, List.length_cons]
      show EStateM.Result.ok _ _ = _
      simp only [frames]
      congr 2
      omega

/-- The spacer that is drafted first. -/
def entrySpacer (s : Supply) : Workflow :=
  .activity ⟨s.workflows⟩ "idle" .zero

/-- The spacer that is drafted next. -/
def exitSpacer (s : Supply) : Workflow :=
  .activity ⟨s.workflows + 1⟩ "idle" .zero

/-- New spacers are parts of nothing on the shelf. -/
theorem spacers_new {branches : List Workflow} (hStocked : Stocked s shelf)
    (hReached : ∀ branch ∈ branches, Reached shelf branch) :
    Spacers (entrySpacer s) (exitSpacer s) branches := by
  have hNew : ∀ n name duration, s.workflows ≤ n → ∀ branch ∈ branches,
      ¬ (Workflow.activity ⟨n⟩ name duration).LeafOf branch := by
    intro n name duration hLe branch hBranch hLeaf
    have hUsed := hStocked.used _ ((hReached branch hBranch).inside hLeaf.2)
    exact absurd hUsed (by simp only [Workflow.id]; omega)
  exact
    { entry_leaf := rfl
      exit_leaf := rfl
      differ := by simp [entrySpacer, exitSpacer]
      entry_apart := hNew _ _ _ (Nat.le_refl _)
      exit_apart := hNew _ _ _ (Nat.le_succ _) }

/-- The operation merges the framed branches. -/
theorem simultaneous_eq_mergeAll {branches : List Workflow} (hStocked : Stocked s shelf)
    (hReached : ∀ branch ∈ branches, Reached shelf branch) (hNonempty : branches ≠ []) :
    ∃ t fuller, Stocked t fuller ∧
      (∀ w ∈ frames (entrySpacer s) (exitSpacer s) (s.workflows + 2) branches, Reached fuller w) ∧
      simultaneous branches s =
        mergeAll (frames (entrySpacer s) (exitSpacer s) (s.workflows + 2) branches) t := by
  have hEntryKept : Stocked _ (entrySpacer s :: shelf) :=
    (keeps_activity "idle" .zero).stocked hStocked rfl
  have hKept : Stocked _ (exitSpacer s :: entrySpacer s :: shelf) :=
    (keeps_activity "idle" .zero).stocked hEntryKept rfl
  have hFuller : shelf ⊆ exitSpacer s :: entrySpacer s :: shelf := by simp
  have hEntry : Reached (exitSpacer s :: entrySpacer s :: shelf) (entrySpacer s) :=
    reached_of_mem (by simp)
  have hExit : Reached (exitSpacer s :: entrySpacer s :: shelf) (exitSpacer s) :=
    reached_of_mem (by simp)
  have hBranches := fun b hb => (hReached b hb).mono hFuller
  have hFrames := mapM_frames (spacers_new hStocked hReached) hKept hEntry hExit hBranches
  have hKeeps : Keeps (branches.mapM fun branch => chain [entrySpacer s, branch, exitSpacer s])
      (exitSpacer s :: entrySpacer s :: shelf) fun ws => ws := by
    refine keeps_mapM fun wider hSub branch hMem => keeps_chain ?_
    simp [hEntry.mono hSub, hExit.mono hSub, (hBranches branch hMem).mono hSub]
  refine ⟨_, _, hKeeps.stocked hKept hFrames, fun w hw => reached_of_mem (List.mem_append_left _ hw),
    ?_⟩
  have hIdle : idle s = .ok (entrySpacer s) { s with workflows := s.workflows + 1 } := rfl
  have hIdleNext : idle { s with workflows := s.workflows + 1 } =
      .ok (exitSpacer s) { s with workflows := s.workflows + 2 } := rfl
  rw [simultaneous, bind_of_ok hIdle, bind_of_ok hIdleNext, bind_of_ok hFrames]
  cases branches with
  | nil => exact absurd rfl hNonempty
  | cons branch rest => rfl

end Draft

end ActivityNetwork
