import ActivityNetwork.Proofs.Draft.Framing
import ActivityNetwork.Proofs.Draft.Holding
import ActivityNetwork.Proofs.Workflow.Enclosure

/-!
# When resources can be held

`holding` checks its list of resources.  After that it goes through two unions and a chain, each
with a check of its own, but none of those can fail: a union of new markers has no edges, and so no
cycle (`mergeEach_markers`), and new markers are leaves of nothing that was there before
(`holding_succeeds`).  What the process contains makes no difference, not even markers for the same
resources.

What comes out is the process, enclosed by its requests and releases (`holding_of_run`).
-/

namespace ActivityNetwork

open Workflow

/-- The resource is the same as one before it, and no resource before it is. -/
def Resource.FirstRepeated (resources : List Resource) (r : Resource) : Prop :=
  ∃ before after, resources = before ++ r :: after ∧ (before.map Resource.id).Nodup ∧
    r.id ∈ before.map Resource.id

theorem Resource.firstRepeat?_iff_firstRepeated {resources : List Resource} {r : Resource} :
    Resource.firstRepeat? [] resources = some r ↔ Resource.FirstRepeated resources r := by
  simp only [Resource.firstRepeat?_eq_some_iff, Resource.firstRepeat?_eq_none_iff,
    Resource.FirstRepeated, List.not_mem_nil, false_or, not_false_eq_true, implies_true, and_true]

theorem Resource.exists_firstRepeated_iff {resources : List Resource} :
    (∃ r, Resource.FirstRepeated resources r) ↔ ¬ (resources.map Resource.id).Nodup := by
  have hNone : Resource.firstRepeat? [] resources = none ↔ (resources.map Resource.id).Nodup := by
    simp [Resource.firstRepeat?_eq_none_iff]
  simp only [← Resource.firstRepeat?_iff_firstRepeated, ← hNone]
  exact Option.ne_none_iff_exists'.symm

namespace Draft

variable {s t : Supply} {shelf : List Workflow} {process w : Workflow} {resources : List Resource}
  {b : MarkerSort} {fault : Fault}

/-! ## Success -/

theorem keeps_markerOf (b : MarkerSort) (r : Resource) : Keeps (markerOf b r) shelf ([·]) := by
  cases b with
  | opening => exact keeps_request r
  | closing => exact keeps_release r

/-- Merging new markers succeeds. -/
theorem mergeEach_markers (hStocked : Stocked s shelf) (hNonempty : resources ≠ []) :
    ∃ union t, mergeEach (markerOf b) resources s = .ok union t := by
  induction resources using List.reverseRecOn with
  | nil => exact absurd rfl hNonempty
  | append_singleton front last ih =>
      by_cases hFront : front = []
      · subst hFront
        exact ⟨_, _, by simpa [mergeEach] using markerOf_ok b last s⟩
      · obtain ⟨old, between, hOld⟩ := ih hFront
        have hMarker := markerOf_ok b last between
        have hKept := (keeps_mergeEach fun _ _ r _ => keeps_markerOf b r).stocked hStocked hOld
        have hBoth := (keeps_markerOf b last).stocked hKept hMarker
        have hCoherent : (overlap ⟨between.workflows + 1⟩ old
            (b.marker ⟨between.workflows⟩ last)).Coherent :=
          hBoth.coherent_union (reached_of_mem (by simp)) (reached_of_mem (by simp))
        have hMarks := (marks_of_mergeEach hOld).1.more ⟨between.workflows + 1⟩
          ⟨between.workflows⟩ last
        rw [mergeEach_concat _ hFront, bind_of_ok hOld, bind_of_ok hMarker]
        have hCases := merge_cases (s := { between with workflows := between.workflows + 1 })
          (network_closed hCoherent)
        rcases hCases with ⟨-, hMerge⟩ | ⟨hCyclic, -⟩
        · exact ⟨_, _, hMerge⟩
        · -- A cycle would have to take some edge.
          refine absurd (fun x hCycle => ?_) hCyclic
          obtain ⟨y, hLink, -⟩ := Relation.TransGen.head'_iff.1 hCycle
          obtain ⟨e, he, -, -⟩ := hLink
          rw [MarkerSort.edges_of_marks hMarks hCoherent] at he
          exact absurd he List.not_mem_nil

/-- New markers can be put around any process. -/
theorem chain_around {requests releases : Workflow} {u : Supply} (hStocked : Stocked s shelf)
    (hProcess : Reached shelf process) (hBefore : Stocked t (requests :: shelf))
    (hAfter : Stocked u (releases :: requests :: shelf))
    (hRequests : ∀ leaf : Workflow, leaf.LeafOf requests → s.workflows ≤ leaf.id.index)
    (hReleases : ∀ leaf : Workflow, leaf.LeafOf releases → t.workflows ≤ leaf.id.index) :
    ∃ w v, chain [requests, process, releases] u = .ok w v := by
  have hProcessLate : Reached (requests :: shelf) process :=
    hProcess.mono (List.subset_cons_self _ _)
  refine ⟨_, _, chain_of_apart hAfter (reached_of_mem (by simp))
    (hProcessLate.mono (List.subset_cons_self _ _)) (reached_of_mem List.mem_cons_self) ?_ ?_ ?_⟩
  · intro leaf hRequest hLeaf
    have hNew := hRequests leaf hRequest
    have hUsed := hStocked.used leaf (hProcess.inside hLeaf.2)
    omega
  · intro leaf hRequest hRelease
    have hNew := hReleases leaf hRelease
    have hUsed := hBefore.used leaf ((reached_of_mem List.mem_cons_self).inside hRequest.2)
    omega
  · intro leaf hLeaf hRelease
    have hNew := hReleases leaf hRelease
    have hUsed := hBefore.used leaf (hProcessLate.inside hLeaf.2)
    omega

/-- Different resources can be held by any process. -/
theorem holding_succeeds (hStocked : Stocked s shelf) (hProcess : Reached shelf process)
    (hNonempty : resources ≠ []) (hNone : Resource.firstRepeat? [] resources = none) :
    ∃ w t, holding process resources s = .ok w t := by
  have hReverse : resources.reverse ≠ [] := by simpa using hNonempty
  obtain ⟨requests, afterRequests, hRequests⟩ :=
    mergeEach_markers (b := .opening) hStocked hNonempty
  have hBefore := (keeps_mergeEach fun _ _ r _ => keeps_markerOf .opening r).stocked hStocked
    hRequests
  obtain ⟨releases, afterReleases, hReleases⟩ :=
    mergeEach_markers (b := .closing) hBefore hReverse
  have hAfter := (keeps_mergeEach fun _ _ r _ => keeps_markerOf .closing r).stocked hBefore
    hReleases
  obtain ⟨expansion, afterChain, hChain⟩ := chain_around hStocked hProcess hBefore hAfter
    (marks_of_mergeEach hRequests).2.2 (marks_of_mergeEach hReleases).2.2
  have hEmpty : ¬ resources.isEmpty = true := by simpa using hNonempty
  have hRequest : mergeEach request resources s = .ok requests afterRequests := hRequests
  have hRelease : mergeEach release resources.reverse afterRequests = .ok releases afterReleases :=
    hReleases
  rw [holding, if_neg hEmpty, hNone]
  simp only [bind_of_ok hRequest, bind_of_ok hRelease, bind_of_ok hChain]
  exact ⟨_, _, rfl⟩

/-! ## Outcomes -/

/-- A holding that is refused takes no id, and it is refused for nothing but its resources. -/
theorem holding_error_iff (hStocked : Stocked s shelf) (hProcess : Reached shelf process) :
    holding process resources s = .error fault t ↔
      t = s ∧ (resources = [] ∧ fault = .emptyResources ∨
        ∃ r, Resource.FirstRepeated resources r ∧ fault = .duplicateResource r.text) := by
  simp only [← Resource.firstRepeat?_iff_firstRepeated]
  cases hRepeat : Resource.firstRepeat? [] resources with
  | some first =>
      have hNonempty : resources ≠ [] := by
        rintro rfl
        cases hRepeat
      have hRefused : holding process resources s = .error (.duplicateResource first.text) s := by
        rw [holding_of_repeat process hRepeat]
        rfl
      rw [hRefused]
      simp [hNonempty, eq_comm, and_comm]
  | none =>
      by_cases hEmpty : resources = []
      · subst hEmpty
        have hRefused : holding process [] s = .error .emptyResources s := by
          rw [holding_nil]
          rfl
        rw [hRefused]
        simp [eq_comm, and_comm]
      · obtain ⟨w, u, hDone⟩ := holding_succeeds hStocked hProcess hEmpty hRepeat
        rw [hDone]
        simp [hEmpty]

theorem holding_ok_iff (hStocked : Stocked s shelf) (hProcess : Reached shelf process) :
    (∃ w t, holding process resources s = .ok w t) ↔
      resources ≠ [] ∧ (resources.map Resource.id).Nodup := by
  constructor
  · rintro ⟨w, t, hDone⟩
    refine ⟨?_, (holding_ok hDone).1⟩
    rintro rfl
    rw [holding_nil] at hDone
    cases hDone
  · rintro ⟨hNonempty, hNodup⟩
    refine holding_succeeds hStocked hProcess hNonempty ?_
    simpa [Resource.firstRepeat?_eq_none_iff] using hNodup

theorem encloses_of_holding (hStocked : Stocked s shelf) (hProcess : Reached shelf process)
    (hDone : holding process resources s = .ok w t) : Encloses process resources w := by
  have hKept := (keeps_holding hProcess resources).stocked hStocked hDone
  have hMade := hKept.wellMade (reached_of_mem List.mem_cons_self)
  obtain ⟨hNodup, id, outer, inner, requests, releases, rfl, hRequests, hReleases, -⟩ :=
    holding_ok hDone
  exact encloses_holding hMade hNodup (.between outer inner hRequests hReleases)

/-- Whatever a run has made can hold any resources, at any later time: it is refused only for an
empty list and for the first resource that comes a second time, and otherwise it is enclosed by the
requests and releases. -/
theorem holding_of_run (hRun : Run s shelf) (hProcess : process ∈ shelf) (resources : List Resource)
    (now : Supply) (hNow : s.workflows ≤ now.workflows) :
    ((∃ w t, holding process resources now = .ok w t) ↔
      resources ≠ [] ∧ (resources.map Resource.id).Nodup) ∧
    (∀ fault t, holding process resources now = .error fault t ↔
      t = now ∧ (resources = [] ∧ fault = .emptyResources ∨
        ∃ r, Resource.FirstRepeated resources r ∧ fault = .duplicateResource r.text)) ∧
    ((∃ r, Resource.FirstRepeated resources r) ↔ ¬ (resources.map Resource.id).Nodup) ∧
    ∀ w t, holding process resources now = .ok w t → Encloses process resources w := by
  have hStocked := hRun.stocked.spend hNow
  have hReached := reached_of_mem hProcess
  exact ⟨holding_ok_iff hStocked hReached, fun _ _ => holding_error_iff hStocked hReached,
    Resource.exists_firstRepeated_iff, fun _ _ hDone => encloses_of_holding hStocked hReached hDone⟩

/-- The crane can be held once more around what holds it twice already, but not twice at once. -/
theorem holding_twice :
    Run ⟨12, 1⟩ [Sample.twice, Sample.lifted 6, Sample.lifted 1, Sample.pick] ∧
      (∃ w t, holding Sample.twice [Sample.crane] ⟨12, 1⟩ = .ok w t ∧
        Encloses Sample.twice [Sample.crane] w) ∧
      holding Sample.twice [Sample.crane, Sample.crane] ⟨12, 1⟩ =
        .error (.duplicateResource Sample.crane.text) ⟨12, 1⟩ := by
  have hOutcomes := fun resources =>
    holding_of_run Sample.plainRun_twice.run List.mem_cons_self resources ⟨12, 1⟩ (Nat.le_refl _)
  refine ⟨Sample.plainRun_twice.run, ?_, ?_⟩
  · obtain ⟨hOk, -, -, hEncloses⟩ := hOutcomes [Sample.crane]
    obtain ⟨w, t, hDone⟩ := hOk.2 (by simp)
    exact ⟨w, t, hDone, hEncloses w t hDone⟩
  · obtain ⟨-, hError, -, -⟩ := hOutcomes [Sample.crane, Sample.crane]
    exact (hError _ _).2 ⟨rfl, Or.inr ⟨Sample.crane, ⟨[Sample.crane], [], rfl, by simp, by simp⟩, rfl⟩⟩

end Draft

end ActivityNetwork
