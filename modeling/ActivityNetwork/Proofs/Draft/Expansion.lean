import ActivityNetwork.Proofs.Draft.Holding

/-!
# Expansions

A workflow may have an expansion that says something else than its process and its resources do.
Drafting makes none of that kind: in every run, also one with markers of its own and with parts
taken out, the expansion of a holding puts one request and one release for each resource around the
process (`Run.expanded`).
-/

namespace ActivityNetwork

open Workflow

namespace Workflow

/-- Every holding inside holds each resource once, and its expansion says the same. -/
def Expanded (w : Workflow) : Prop :=
  ∀ id process resources expansion, (holding id process resources expansion).Inside w →
    (resources.map Resource.id).Nodup ∧ Expands process resources expansion

variable {w v process expansion union : Workflow} {id : WorkflowId} {resources : List Resource}

theorem Expanded.mono (hExpanded : w.Expanded) (hInside : v.Inside w) : v.Expanded :=
  fun id process resources expansion hHolding =>
    hExpanded id process resources expansion (hHolding.trans hInside)

theorem expanded_of_isLeaf (hLeaf : w.isLeaf = true) : w.Expanded := by
  intro id process resources expansion hInside
  rw [← (inside_of_isLeaf hLeaf).1 hInside] at hLeaf
  cases hLeaf

theorem expanded_of_marks {b : MarkerSort} (hMarks : b.Marks resources union) : union.Expanded :=
  fun _ _ _ _ hInside => absurd hInside (not_holding_inside_marks hMarks)

theorem composes_expanded : Draft.Composes Expanded where
  activity := fun _ _ _ => expanded_of_isLeaf rfl
  seq := by
    intro id first second hFirst hSecond other process resources expansion hInside
    rcases inside_seq.1 hInside with hSelf | hIn | hIn
    · cases hSelf
    · exact hFirst other process resources expansion hIn
    · exact hSecond other process resources expansion hIn
  overlap := by
    intro id first second hFirst hSecond other process resources expansion hInside
    rcases inside_overlap.1 hInside with hSelf | hIn | hIn
    · cases hSelf
    · exact hFirst other process resources expansion hIn
    · exact hSecond other process resources expansion hIn

theorem Expands.expanded (hProcess : process.Expanded)
    (hExpands : Expands process resources expansion) : expansion.Expanded := by
  obtain ⟨outer, inner, hRequests, hReleases⟩ := hExpands
  have hFront := composes_expanded.seq inner _ _ (expanded_of_marks hRequests) hProcess
  exact composes_expanded.seq outer _ _ hFront (expanded_of_marks hReleases)

theorem expanded_holding (hProcess : process.Expanded)
    (hNodup : (resources.map Resource.id).Nodup)
    (hExpands : Expands process resources expansion) :
    (holding id process resources expansion).Expanded := by
  intro other inner held expanded hInside
  rcases inside_holding.1 hInside with hSelf | hIn
  · cases hSelf
    exact ⟨hNodup, hExpands⟩
  · exact hExpands.expanded hProcess other inner held expanded hIn

end Workflow

variable {s t : Supply} {shelf : List Workflow} {w : Workflow}

/-- A call makes what is expanded out of what is expanded. -/
theorem Call.expanded (call : Call) (hOperands : ∀ v ∈ call.operands, v.Expanded)
    (hDone : call.draft s = .ok w t) : w.Expanded := by
  have hP := composes_expanded
  cases call with
  | activity name duration => exact Draft.yields_activity hP name duration s w t hDone
  | idle => exact Draft.yields_activity hP "idle" .zero s w t hDone
  | request resource =>
      cases hDone
      exact expanded_of_isLeaf rfl
  | release resource =>
      cases hDone
      exact expanded_of_isLeaf rfl
  | sequence first second =>
      exact Draft.yields_sequence hP (hOperands first (by simp [operands]))
        (hOperands second (by simp [operands])) s w t hDone
  | merge first second =>
      exact Draft.yields_merge hP (hOperands first (by simp [operands]))
        (hOperands second (by simp [operands])) s w t hDone
  | chain ws => exact Draft.yields_chain hP hOperands s w t hDone
  | mergeAll ws => exact Draft.yields_mergeAll hP hOperands s w t hDone
  | simultaneous branches => exact Draft.yields_simultaneous hP hOperands s w t hDone
  | holding process resources =>
      obtain ⟨hNodup, id, outer, inner, requests, releases, rfl, hRequests, hReleases, -⟩ :=
        Draft.holding_ok hDone
      exact expanded_holding (hOperands process (by simp [operands])) hNodup
        (.between outer inner hRequests hReleases)

/-- Whatever a run has made is expanded. -/
theorem Run.expanded (hRun : Run s shelf) : ∀ w ∈ shelf, w.Expanded := by
  induction hRun with
  | start s => exact fun w hMem => absurd hMem List.not_mem_nil
  | done _ call hOperands hDone ih =>
      intro v hv
      rcases List.mem_cons.1 hv with rfl | hOld
      · exact call.expanded (fun u hu => ih u (hOperands u hu)) hDone
      · exact ih v hOld
  | failed _ _ _ _ ih => exact ih
  | taken hRun hMem place hPart ih =>
      intro v hv
      rcases List.mem_cons.1 hv with rfl | hOld
      · have hChecked := hRun.stocked.checked _ (reached_of_mem hMem)
        exact (ih _ hMem).mono (hChecked.inside_part hPart).1
      · exact ih v hOld
  | elsewhere _ _ _ ih => exact ih

theorem Built.expanded (hBuilt : Built w) : w.Expanded := by
  obtain ⟨s, shelf, hRun, hMem⟩ := hBuilt
  exact hRun.expanded w hMem

end ActivityNetwork
