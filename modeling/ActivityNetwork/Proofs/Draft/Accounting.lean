import ActivityNetwork.Proofs.Draft.Absorption
import ActivityNetwork.Proofs.Draft.Numbering
import ActivityNetwork.Proofs.Workflow.Tally

/-!
# What a compilation costs

The counts of a compilation depend on the different parts of a workflow only, and not on how often
each of them is used.  Every part is compiled once; it is asked for once by each place that uses it
in a part that is compiled, and the workflow itself once more; and every leaf takes its nodes once
(`accounts_of_built`).  So the work is linear in the number of different parts.  Walking through all
places one by one would not be: there are workflows with `n + 1` parts that are used at
`2 ^ (n + 1) - 1` places (`exists_doubling`).
-/

namespace ActivityNetwork

namespace Workflow

/-- Whether the workflow is put together from two sides. -/
def isPair : Workflow → Bool
  | seq .. => true
  | overlap .. => true
  | _ => false

/-- Whether the workflow is a process that holds resources. -/
def isHolding : Workflow → Bool
  | holding .. => true
  | _ => false

/-- Whether the workflow is a timed activity. -/
def isActivity : Workflow → Bool
  | activity .. => true
  | _ => false

/-- Whether the workflow requests or releases a resource. -/
def isMarker : Workflow → Bool
  | request .. => true
  | release .. => true
  | _ => false

/-- The different parts of the workflow that pass the test. -/
def partsOf (w : Workflow) (test : Workflow → Bool) : Set Workflow :=
  { v | v.Inside w ∧ test v = true }

/-- The counts of a compilation, told by the different parts of the workflow. -/
structure Accounts (w : Workflow) : Prop where
  /-- There are finitely many parts, and different ones have different ids. -/
  finite : { v : Workflow | v.Inside w }.Finite
  distinct : Set.InjOn Workflow.id { v : Workflow | v.Inside w }
  compiled : w.compile.stats.compiled = { v : Workflow | v.Inside w }.ncard
  asked : w.compile.stats.compiled + w.compile.stats.recalled =
    1 + 2 * (w.partsOf isPair).ncard + (w.partsOf isHolding).ncard
  allocated : w.compile.stats.allocated =
    2 * (w.partsOf isActivity).ncard + (w.partsOf isMarker).ncard
  order : w.compile.stats.allocated = w.network.order
  /-- What is asked for is at most the workflow itself and two parts for each part. -/
  linear : w.compile.stats.compiled + w.compile.stats.recalled ≤
    1 + 2 * { v : Workflow | v.Inside w }.ncard

variable {w v leaf : Workflow} {listed xs : List Workflow} {test : Workflow → Bool}

/-! ## Counting by lists -/

/-- A set is as large as a list of its members without repetition. -/
theorem ncard_of_listed {members : Set Workflow} (hNodup : listed.Nodup)
    (hMembers : ∀ v, v ∈ members ↔ v ∈ listed) : members.ncard = listed.length := by
  classical
  have hFinset : members = (listed.toFinset : Set Workflow) := by
    ext v
    simp [hMembers]
  rw [hFinset, Set.ncard_coe_finset, List.toFinset_card_of_nodup hNodup]

theorem finite_inside (w : Workflow) : { v : Workflow | v.Inside w }.Finite := by
  refine (List.finite_toSet w.unfold).subset fun v hv => ?_
  exact mem_unfold.2 hv

/-- All parts are finished in the end. -/
theorem mem_finish_nil (hCoherent : w.Coherent) : v ∈ w.finish [] ↔ v.Inside w := by
  rw [finish, mem_foldl_addNew_iff, mem_unfold]
  exact fun a ha b hb => hCoherent a b (mem_unfold.1 ha) (mem_unfold.1 hb)

theorem nodup_finish_nil (w : Workflow) : (w.finish []).Nodup := by
  have hIds : ((w.finish []).map Workflow.id).Nodup :=
    nodup_ids_foldl_addNew w.unfold List.nodup_nil
  exact hIds.of_map _

theorem ncard_inside (hCoherent : w.Coherent) :
    { v : Workflow | v.Inside w }.ncard = (w.finish []).length :=
  ncard_of_listed (nodup_finish_nil w) fun _ => (mem_finish_nil hCoherent).symm

theorem ncard_partsOf (hCoherent : w.Coherent) (test : Workflow → Bool) :
    (w.partsOf test).ncard = ((w.finish []).filter test).length := by
  refine ncard_of_listed ((nodup_finish_nil w).filter test) fun v => ?_
  rw [List.mem_filter, mem_finish_nil hCoherent]
  exact Iff.rfl

/-- For tests that only leaves pass, it is enough to list the leaves. -/
theorem ncard_partsOf_leaves (hCoherent : w.Coherent)
    (hTest : ∀ v : Workflow, test v = true → v.isLeaf = true) :
    (w.partsOf test).ncard = (w.leaves.filter test).length := by
  have hNodup : w.leaves.Nodup := (nodup_leafIds hCoherent).of_map _
  refine ncard_of_listed (hNodup.filter test) fun v => ?_
  rw [List.mem_filter, mem_leaves hCoherent]
  exact ⟨fun hv => ⟨⟨hTest v hv.2, hv.1⟩, hv.2⟩, fun hv => ⟨hv.1.2, hv.2⟩⟩

/-- Pairs are put together from two parts and holdings from one. -/
theorem totalArity_eq (xs : List Workflow) :
    totalArity xs = 2 * (xs.filter isPair).length + (xs.filter isHolding).length := by
  induction xs with
  | nil => rfl
  | cons x xs ih =>
      rw [totalArity, ih]
      cases x <;> simp only [List.filter_cons, arity, isPair, isHolding, if_true, Bool.false_eq_true,
        if_false, List.length_cons] <;> omega

/-- Activities take two nodes and markers one. -/
theorem totalWidth_eq (hLeaves : ∀ leaf ∈ xs, leaf.isLeaf = true) :
    totalWidth xs = 2 * (xs.filter isActivity).length + (xs.filter isMarker).length := by
  induction xs with
  | nil => rfl
  | cons x xs ih =>
      rw [totalWidth, ih fun leaf hLeaf => hLeaves leaf (List.mem_cons_of_mem _ hLeaf)]
      rcases isLeaf_cases (hLeaves x List.mem_cons_self) with
        ⟨id, name, duration, rfl⟩ | ⟨id, resource, rfl⟩ | ⟨id, resource, rfl⟩ <;>
        simp only [List.filter_cons, width, isActivity, isMarker, if_true, Bool.false_eq_true,
          if_false, List.length_cons] <;> omega

theorem totalArity_le (xs : List Workflow) : totalArity xs ≤ 2 * xs.length := by
  induction xs with
  | nil => exact Nat.le_refl _
  | cons x xs ih =>
      rw [totalArity, List.length_cons]
      have hOwn : x.arity ≤ 2 := by cases x <;> simp [arity]
      omega

/-- The counts of a compilation are those of the lists behind it. -/
theorem Coherent.accounts (hCoherent : w.Coherent) : w.Accounts := by
  have hLeaves : ∀ leaf ∈ w.leaves, leaf.isLeaf = true := fun leaf hLeaf =>
    ((mem_leaves hCoherent).1 hLeaf).1
  have hActivities : ∀ v : Workflow, isActivity v = true → v.isLeaf = true := by
    intro v hv
    cases v <;> first | rfl | cases hv
  have hMarkers : ∀ v : Workflow, isMarker v = true → v.isLeaf = true := by
    intro v hv
    cases v <;> first | rfl | cases hv
  constructor
  · exact finite_inside w
  · exact fun u hu v hv hId => hCoherent u v hu hv hId
  · rw [compile_compiled hCoherent, ncard_inside hCoherent]
  · rw [ncard_partsOf hCoherent, ncard_partsOf hCoherent, Nat.add_assoc, ← totalArity_eq]
    exact compile_asked hCoherent
  · rw [ncard_partsOf_leaves hCoherent hActivities, ncard_partsOf_leaves hCoherent hMarkers,
      ← totalWidth_eq hLeaves]
    exact compile_allocated hCoherent
  · rw [compile_allocated hCoherent, network_order hCoherent]
  · rw [ncard_inside hCoherent]
    exact (compile_asked hCoherent).le.trans (Nat.add_le_add_left (totalArity_le _) 1)

/-! ## Using parts again and again -/

/-- A union of a workflow with itself has one part more and twice as many places. -/
theorem doubled {s : Supply} {shelf : List Workflow} (hRun : Run s shelf) (hMem : w ∈ shelf) :
    ∃ t u, Run t (u :: shelf) ∧
      { v : Workflow | v.Inside u }.ncard = { v : Workflow | v.Inside w }.ncard + 1 ∧
      u.unfold.length = 2 * w.unfold.length + 1 := by
  obtain ⟨u, t, hMerge, -⟩ := Draft.merge_absorbs hRun.stocked (reached_of_mem hMem) .self .self
    (List.mem_cons_self (a := w) (l := [w]))
  obtain ⟨hUnion, -⟩ := Draft.merge_ok hMerge
  refine ⟨t, u, hRun.done (.merge w w) (by simp [Call.operands, hMem]) hMerge, ?_, ?_⟩
  · have hNew : u ∉ { v : Workflow | v.Inside w } := by
      intro hInside
      have hSize := Inside.sizeOf_le hInside
      rw [hUnion, overlap.sizeOf_spec] at hSize
      omega
    have hParts : { v : Workflow | v.Inside u } = insert u { v : Workflow | v.Inside w } := by
      ext v
      rw [Set.mem_insert_iff, hUnion]
      exact inside_overlap.trans (by rw [or_self]; rfl)
    rw [hParts, Set.ncard_insert_of_notMem hNew (finite_inside w)]
  · rw [hUnion, unfold, List.length_append, List.length_append, List.length_singleton]
    omega

/-- Few parts may be used at many places. -/
theorem exists_doubling (n : Nat) : ∃ w, Built w ∧ { v : Workflow | v.Inside w }.ncard = n + 1 ∧
    w.unfold.length + 1 = 2 ^ (n + 1) := by
  induction n with
  | zero =>
      refine ⟨Sample.pick, ⟨_, _, Sample.run_leaves, by simp⟩, ?_, rfl⟩
      have hSelf : { v : Workflow | v.Inside Sample.pick } = {Sample.pick} := by
        ext v
        exact inside_of_isLeaf rfl
      rw [hSelf, Set.ncard_singleton]
  | succ n ih =>
      obtain ⟨w, ⟨s, shelf, hRun, hMem⟩, hParts, hPlaces⟩ := ih
      obtain ⟨t, u, hNext, hPartsNext, hPlacesNext⟩ := doubled hRun hMem
      refine ⟨u, ⟨t, _, hNext, List.mem_cons_self⟩, by rw [hPartsNext, hParts], ?_⟩
      rw [hPlacesNext, pow_succ]
      omega

/-- A compilation does work for each different part of a built workflow, and not for each place at
which a part is used.  There may be exponentially more of these. -/
theorem accounts_of_built : (∀ w, Built w → w.Accounts) ∧
    ∀ n, ∃ w, Built w ∧ { v : Workflow | v.Inside w }.ncard = n + 1 ∧
      w.unfold.length + 1 = 2 ^ (n + 1) :=
  ⟨fun _ hBuilt => hBuilt.wellMade.coherent.accounts, exists_doubling⟩

/-- Packing is used on both sides, and is compiled once. -/
theorem accounts_both : Built Sample.both ∧ Sample.both.Accounts ∧
    { v : Workflow | v.Inside Sample.both }.ncard = 6 := by
  have hAccounts := accounts_of_built.1 Sample.both Sample.built_both
  refine ⟨Sample.built_both, hAccounts, ?_⟩
  rw [← hAccounts.compiled]
  decide +kernel

end Workflow

end ActivityNetwork
