import ActivityNetwork.Proofs.Draft.Framing
import ActivityNetwork.Proofs.Draft.Uniting

/-!
# Whom a refusal blames

A refused union names an activity.  It is the first one in the order of activities that cannot
start (`refusal_blames_first_heldUp`), also where many workflows are merged or put between
spacers.  An activity that merely comes after a cycle cannot start either.  If such an activity
stands first, it is the one named, although the cycle would be there without it
(`blamed_not_on_cycle`).
-/

namespace ActivityNetwork

open Relation Workflow

namespace Network

variable {g : Network} {e f : Edge}

/-- Only one activity is the first. -/
theorem FirstHeldUp.unique (he : g.FirstHeldUp e) (hf : g.FirstHeldUp f) : e = f := by
  classical
  have hFind : ∀ x, g.FirstHeldUp x →
      g.activityEdges.find? (fun y => decide (g.HeldUp y.source)) = some x := by
    intro x hFirst
    obtain ⟨before, after, hSplit, hHeld, hBefore⟩ := hFirst
    refine List.find?_eq_some_iff_append.2 ⟨by simpa using hHeld, before, after, hSplit, ?_⟩
    exact fun y hy => by simpa using hBefore y hy
  exact Option.some.inj ((hFind e he).symm.trans (hFind f hf))

end Network

namespace Workflow

/-- The fault names an activity that lies on a cycle of the union. -/
def NamesOnCycle (union : Workflow) (fault : Fault) : Prop :=
  ∃ e process, union.network.OnCycle e ∧ e.activityName? = some process ∧
    fault = .circularDependency process union.id

variable {union : Workflow} {fault : Fault}

/-- If an activity lies on a cycle, some activity is held up, and so the first of these is named. -/
theorem RefusedWith.names_first (hRefused : union.RefusedWith fault)
    (hCycle : ∃ e, union.network.OnCycle e) :
    ∃ e process, union.network.FirstHeldUp e ∧ e.activityName? = some process ∧
      fault = .circularDependency process union.id := by
  obtain ⟨process, hFault, ⟨e, hFirst, hName⟩ | ⟨hNone, -⟩⟩ := hRefused.blamed
  · exact ⟨e, process, hFirst, hName, hFault⟩
  · obtain ⟨e, he⟩ := hCycle
    exact absurd he.heldUp (hNone e he.1)

/-- An activity on a cycle is named exactly if the first one held up is such, or goes by the same
name. -/
theorem RefusedWith.namesOnCycle_iff (hRefused : union.RefusedWith fault)
    (hCycle : ∃ e, union.network.OnCycle e) :
    union.NamesOnCycle fault ↔
      ∃ first, union.network.FirstHeldUp first ∧
        ∃ e, union.network.OnCycle e ∧ e.activityName? = first.activityName? := by
  obtain ⟨first, process, hFirst, hName, rfl⟩ := hRefused.names_first hCycle
  constructor
  · intro hNames
    obtain ⟨e, other, he, hOther, hFault⟩ := hNames
    cases hFault
    exact ⟨first, hFirst, e, he, hOther.trans hName.symm⟩
  · intro hSame
    obtain ⟨candidate, hCandidate, e, he, hEq⟩ := hSame
    obtain rfl := hCandidate.unique hFirst
    exact ⟨e, process, he, hEq.trans hName, rfl⟩

end Workflow

namespace Draft

variable {s t : Supply} {shelf : List Workflow} {fault : Fault}

theorem Unites.refused {d : Draft Workflow} {ws : List Workflow} (hUnites : Unites d shelf ws)
    (hStocked : Stocked s shelf) (hFailed : d s = .error fault t) :
    ∃ part ⊆ ws, ∃ id a b, (overlap id a b).Joins part ∧ (overlap id a b).RefusedWith fault :=
  ((unites_iff_settles.1 hUnites).of_error hStocked hFailed).2

/-- Every refusal blames the first activity that is held up in the union it refuses.  When this
activity, or one of its name, lies on a cycle, the refusal names an activity on a cycle, and
otherwise it does not. -/
theorem refusal_blames_first_heldUp (hRun : Run s shelf) :
    (∀ first ∈ shelf, ∀ second ∈ shelf, ∀ fault t, merge first second s = .error fault t →
      (overlap ⟨s.workflows⟩ first second).RefusedWith fault) ∧
    (∀ ws ⊆ shelf, ws ≠ [] → ∀ fault t, mergeAll ws s = .error fault t →
      ∃ part ⊆ ws, ∃ id a b, (overlap id a b).Joins part ∧
        (overlap id a b).RefusedWith fault) ∧
    (∀ branches ⊆ shelf, branches ≠ [] → ∀ fault t, simultaneous branches s = .error fault t →
      ∃ part ⊆ frames (entrySpacer s) (exitSpacer s) (s.workflows + 2) branches,
        ∃ id a b, (overlap id a b).Joins part ∧ (overlap id a b).RefusedWith fault) ∧
    ∀ union fault, Workflow.RefusedWith union fault → (∃ e, union.network.OnCycle e) →
      (union.NamesOnCycle fault ↔
        ∃ first, union.network.FirstHeldUp first ∧
          ∃ e, union.network.OnCycle e ∧ e.activityName? = first.activityName?) := by
  have hStocked := hRun.stocked
  refine ⟨?_, ?_, ?_, fun union fault hRefused hCycle => hRefused.namesOnCycle_iff hCycle⟩
  · intro first hFirst second hSecond fault t hFailed
    have hCoherent := hStocked.coherent_union (reached_of_mem hFirst) (reached_of_mem hSecond)
    exact refusedWith_of_merge (network_closed hCoherent) hFailed
  · intro ws hWs hNonempty fault t hFailed
    exact (unites_mergeAll hNonempty fun w hw => reached_of_mem (hWs hw)).refused hStocked hFailed
  · intro branches hBranches hNonempty fault t hFailed
    obtain ⟨u, fuller, hFuller, hFramed, hMerge⟩ :=
      simultaneous_eq_mergeAll hStocked (fun w hw => reached_of_mem (hBranches hw)) hNonempty
    rw [hMerge] at hFailed
    refine (unites_mergeAll ?_ hFramed).refused hFuller hFailed
    cases branches with
    | nil => exact absurd rfl hNonempty
    | cons branch rest => simp [frames]

end Draft

/-! ## A refusal that blames the wrong activity

Packing is to come before a crane is requested, and the crane before packing.  Shipping waits for
the crane too, and happens to be the first activity.
-/

namespace Sample.Yard

def ship : Workflow :=
  .activity ⟨0⟩ "ship" ⟨5⟩

def pack : Workflow :=
  .activity ⟨1⟩ "pack" ⟨3⟩

def crane : Workflow :=
  .request ⟨2⟩ ⟨⟨0⟩, "crane"⟩

def packFirst : Workflow :=
  .seq ⟨3⟩ pack crane

/-- Packing before the crane, and shipping at any time. -/
def left : Workflow :=
  .overlap ⟨4⟩ ship packFirst

def packShip : Workflow :=
  .overlap ⟨5⟩ pack ship

/-- The crane before packing and shipping. -/
def right : Workflow :=
  .seq ⟨6⟩ crane packShip

/-- The union that is refused. -/
def union : Workflow :=
  .overlap ⟨7⟩ left right

theorem merge_left : Draft.merge ship packFirst ⟨4, 1⟩ = .ok left ⟨5, 1⟩ := by
  have hOrder : (overlap ⟨4⟩ ship packFirst).network.topologicalOrder =
      .ok [⟨0⟩, ⟨2⟩, ⟨1⟩, ⟨3⟩, ⟨4⟩] := by
    decide +kernel
  rw [Draft.merge_of_ordered ⟨4, 1⟩ hOrder]
  rfl

theorem merge_packShip : Draft.merge pack ship ⟨5, 1⟩ = .ok packShip ⟨6, 1⟩ := by
  have hOrder : (overlap ⟨5⟩ pack ship).network.topologicalOrder =
      .ok [⟨0⟩, ⟨2⟩, ⟨1⟩, ⟨3⟩] := by
    decide +kernel
  rw [Draft.merge_of_ordered ⟨5, 1⟩ hOrder]
  rfl

theorem run_right :
    Run ⟨7, 1⟩ [right, packShip, left, packFirst, crane, pack, ship] := by
  have hShip : Run ⟨1, 0⟩ [ship] :=
    (Run.start .start).done (.activity "ship" ⟨5⟩) (fun _ h => h) rfl
  have hPack : Run ⟨2, 0⟩ [pack, ship] :=
    hShip.done (.activity "pack" ⟨3⟩) (fun _ h => absurd h List.not_mem_nil) rfl
  have hResource : Run ⟨2, 1⟩ [pack, ship] := hPack.elsewhere (by decide) (by decide)
  have hCrane : Run ⟨3, 1⟩ [crane, pack, ship] :=
    hResource.done (.request ⟨⟨0⟩, "crane"⟩) (fun _ h => absurd h List.not_mem_nil) rfl
  have hPackFirst : Run ⟨4, 1⟩ [packFirst, crane, pack, ship] :=
    hCrane.done (.sequence pack crane) (by simp [Call.operands]) rfl
  have hLeft : Run ⟨5, 1⟩ [left, packFirst, crane, pack, ship] :=
    hPackFirst.done (.merge ship packFirst) (by simp [Call.operands]) merge_left
  have hPackShip : Run ⟨6, 1⟩ [packShip, left, packFirst, crane, pack, ship] :=
    hLeft.done (.merge pack ship) (by simp [Call.operands]) merge_packShip
  exact hPackShip.done (.sequence crane packShip) (by simp [Call.operands]) rfl

theorem merge_refused : Draft.merge left right ⟨7, 1⟩ =
    .error (.circularDependency "ship" ⟨7⟩) ⟨8, 1⟩ := by
  have hCycle : union.network.topologicalOrder = .error (.cycle [⟨0⟩, ⟨1⟩, ⟨2⟩, ⟨3⟩, ⟨4⟩]) := by
    decide +kernel
  have hPicked : Draft.activityAmong? union.network [⟨0⟩, ⟨1⟩, ⟨2⟩, ⟨3⟩, ⟨4⟩] = some "ship" := by
    decide +kernel
  have hRefused : Draft.merge left right ⟨7, 1⟩ = .error (.circularDependency
      ((Draft.activityAmong? union.network [⟨0⟩, ⟨1⟩, ⟨2⟩, ⟨3⟩, ⟨4⟩]).getD union.label) ⟨7⟩)
        ⟨8, 1⟩ :=
    Draft.merge_of_cyclic ⟨7, 1⟩ hCycle
  rw [hRefused, hPicked]
  rfl

theorem activities_union : union.network.activityEdges =
    [.activity ⟨0⟩ ⟨1⟩ "ship" ⟨5⟩, .activity ⟨2⟩ ⟨3⟩ "pack" ⟨3⟩] := by
  decide +kernel

/-- The path from the end of packing over the crane back to its start. -/
theorem pack_onCycle : union.network.OnCycle (.activity ⟨2⟩ ⟨3⟩ "pack" ⟨3⟩) := by
  have hThere : union.network.Link ⟨3⟩ ⟨4⟩ :=
    Network.mem_successors_iff_link.1 (by decide +kernel)
  have hBack : union.network.Link ⟨4⟩ ⟨2⟩ :=
    Network.mem_successors_iff_link.1 (by decide +kernel)
  refine ⟨?_, .tail (.single hThere) hBack⟩
  rw [activities_union]
  simp

/-- Nothing comes after shipping. -/
theorem ship_not_onCycle : ¬ union.network.OnCycle (.activity ⟨0⟩ ⟨1⟩ "ship" ⟨5⟩) := by
  intro hCycle
  rcases ReflTransGen.cases_head hCycle.2 with hSame | ⟨next, hLink, -⟩
  · exact absurd hSame (by decide)
  · have hNone : union.network.successors ⟨1⟩ = [] := by decide +kernel
    have hMem := Network.mem_successors_iff_link.2 hLink
    rw [show (Edge.activity ⟨0⟩ ⟨1⟩ "ship" ⟨5⟩).target = ⟨1⟩ from rfl, hNone] at hMem
    cases hMem

end Sample.Yard

namespace Draft

/-- Packing and the crane wait for each other, and shipping is blamed. -/
theorem blamed_not_on_cycle :
    Run ⟨7, 1⟩ [Sample.Yard.right, Sample.Yard.packShip, Sample.Yard.left,
      Sample.Yard.packFirst, Sample.Yard.crane, Sample.Yard.pack, Sample.Yard.ship] ∧
    merge Sample.Yard.left Sample.Yard.right ⟨7, 1⟩ =
      .error (.circularDependency "ship" ⟨7⟩) ⟨8, 1⟩ ∧
    (∃ e, Sample.Yard.union.network.OnCycle e) ∧
    ¬ Sample.Yard.union.NamesOnCycle (.circularDependency "ship" ⟨7⟩) := by
  refine ⟨Sample.Yard.run_right, Sample.Yard.merge_refused, ⟨_, Sample.Yard.pack_onCycle⟩, ?_⟩
  intro hNames
  obtain ⟨e, process, hCycle, hName, hFault⟩ := hNames
  cases hFault
  have hActivity := hCycle.1
  rw [Sample.Yard.activities_union] at hActivity
  simp only [List.mem_cons, List.not_mem_nil, or_false] at hActivity
  rcases hActivity with rfl | rfl
  · exact Sample.Yard.ship_not_onCycle hCycle
  · exact absurd hName (by decide)

/-- The general statement finds shipping as the first activity held up, and so does the call. -/
theorem refusal_blames_ship :
    Run ⟨7, 1⟩ [Sample.Yard.right, Sample.Yard.packShip, Sample.Yard.left,
      Sample.Yard.packFirst, Sample.Yard.crane, Sample.Yard.pack, Sample.Yard.ship] ∧
    Sample.Yard.union.RefusedWith (.circularDependency "ship" ⟨7⟩) :=
  ⟨Sample.Yard.run_right, (refusal_blames_first_heldUp Sample.Yard.run_right).1 _ (by simp) _
    (by simp) _ _ Sample.Yard.merge_refused⟩

end Draft

end ActivityNetwork
