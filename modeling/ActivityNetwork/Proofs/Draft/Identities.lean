import ActivityNetwork.Proofs.Draft.Absorption
import ActivityNetwork.Proofs.Draft.Enclosing
import ActivityNetwork.Proofs.Draft.Ledger

/-!
# Identities

A `Chronicle` is a run with a ledger: besides the shelf, it lists all that was ever made, also what
a refused operation has left behind.

All of it has different ids, and ids ascend from what is put together to what it is put together
into.  So an id says what kind of workflow it belongs to and what that is made of, for everything
that can ever be got at (`Identified`).  It is also known what each operation takes from the supply
(`Charges`).  This holds after every run (`identities_of_run`).
-/

namespace ActivityNetwork

open Relation Workflow

/-- A run, with the ledger, the supply and the shelf at its end. -/
inductive Chronicle : Supply → List Workflow → List Workflow → Prop
  | start (s : Supply) : Chronicle s [] []
  | done {s t made shelf w} (h : Chronicle s made shelf) (call : Call)
      (hOperands : ∀ v ∈ call.operands, v ∈ shelf) (hDone : call.draft s = .ok w t) :
      Chronicle t (made ++ call.plan.made s.workflows) (w :: shelf)
  | failed {s t made shelf fault} (h : Chronicle s made shelf) (call : Call)
      (hOperands : ∀ v ∈ call.operands, v ∈ shelf) (hFailed : call.draft s = .error fault t) :
      Chronicle t (made ++ call.plan.made s.workflows) shelf
  | taken {s made shelf w part} (h : Chronicle s made shelf) (hMem : w ∈ shelf) (place : Part)
      (hPart : w.part? place = some part) : Chronicle s made (part :: shelf)
  | elsewhere {s t made shelf} (h : Chronicle s made shelf)
      (hWorkflows : s.workflows ≤ t.workflows) (hResources : s.resources ≤ t.resources) :
      Chronicle t made shelf

variable {s t : Supply} {made shelf : List Workflow} {w : Workflow}

theorem Chronicle.run (h : Chronicle s made shelf) : Run s shelf := by
  induction h with
  | start s => exact .start s
  | done _ call hOperands hDone ih => exact ih.done call hOperands hDone
  | failed _ call hOperands hFailed ih => exact ih.failed call hOperands hFailed
  | taken _ hMem place hPart ih => exact ih.taken hMem place hPart
  | elsewhere _ hWorkflows hResources ih => exact ih.elsewhere hWorkflows hResources

theorem Run.exists_chronicle (hRun : Run s shelf) : ∃ made, Chronicle s made shelf := by
  induction hRun with
  | start s => exact ⟨_, .start s⟩
  | done _ call hOperands hDone ih =>
      obtain ⟨made, h⟩ := ih
      exact ⟨_, h.done call hOperands hDone⟩
  | failed _ call hOperands hFailed ih =>
      obtain ⟨made, h⟩ := ih
      exact ⟨_, h.failed call hOperands hFailed⟩
  | taken _ hMem place hPart ih =>
      obtain ⟨made, h⟩ := ih
      exact ⟨_, h.taken hMem place hPart⟩
  | elsewhere _ hWorkflows hResources ih =>
      obtain ⟨made, h⟩ := ih
      exact ⟨_, h.elsewhere hWorkflows hResources⟩

/-! ## The ledger of a run -/

/-- What any call makes fits what is listed by then, and its outcome is listed in the end. -/
theorem Call.ensures_plan (call : Call) {known : List Workflow}
    (hOperands : ∀ v ∈ call.operands, v ∈ known) :
    call.plan.Ensures known fun w later => w ∈ later := by
  have hOutcome : ∀ {p : Plan Workflow} {n : Nat}, p.Makes known n →
      p.Ensures known fun w later => w ∈ later := fun hMakes => hMakes.mono fun _ _ _ hw => hw.1
  cases call with
  | sequence first second =>
      exact hOutcome (Plan.makes_sequence (hOperands first (by simp [operands]))
        (hOperands second (by simp [operands])))
  | merge first second =>
      exact hOutcome (Plan.makes_merge (hOperands first (by simp [operands]))
        (hOperands second (by simp [operands])))
  | chain ws => exact hOutcome (Plan.makes_chain hOperands)
  | mergeAll ws =>
      have hPlan : ∀ later, known ⊆ later → ∀ w ∈ ws, (Plan.done w).Makes later 0 :=
        fun later hSub w hw => ⟨hSub (hOperands w hw), rfl⟩
      exact hOutcome (Plan.makes_mergeEach hPlan)
  | simultaneous branches => exact hOutcome (Plan.makes_simultaneous hOperands)
  | holding process resources =>
      exact hOutcome (Plan.makes_holding (hOperands process (by simp [operands])) resources)
  | _ => exact hOutcome (Plan.makes_leaf (fun _ => rfl) fun _ => rfl)

/-- The ledger is as it should be after every run, and the shelf has nothing that is not listed. -/
theorem Chronicle.recorded (h : Chronicle s made shelf) : Recorded s made ∧ shelf ⊆ made := by
  induction h with
  | start s => exact ⟨.empty s, List.nil_subset _⟩
  | done _ call hOperands hDone ih =>
      have hPlan := call.ensures_plan fun v hv => ih.2 (hOperands v hv)
      rw [← call.run_plan] at hDone
      have hRecorded := hPlan.recorded ih.1
      rw [hDone] at hRecorded
      refine ⟨hRecorded, List.cons_subset.2 ⟨hPlan.outcome hDone, ?_⟩⟩
      exact fun v hv => List.mem_append_left _ (ih.2 hv)
  | failed _ call hOperands hFailed ih =>
      -- What was made before the refusal is listed, although nothing of it comes onto the shelf.
      have hPlan := call.ensures_plan fun v hv => ih.2 (hOperands v hv)
      rw [← call.run_plan] at hFailed
      have hRecorded := hPlan.recorded ih.1
      rw [hFailed] at hRecorded
      exact ⟨hRecorded, fun v hv => List.mem_append_left _ (ih.2 hv)⟩
  | taken _ hMem place hPart ih =>
      exact ⟨ih.1, List.cons_subset.2 ⟨(ih.1.parts _ (ih.2 hMem) place _ hPart).1, ih.2⟩⟩
  | elsewhere _ hWorkflows _ ih => exact ⟨ih.1.spend hWorkflows, ih.2⟩

/-! ## What ids say -/

/-- The part stands at some place in the whole. -/
def Workflow.PartOf (part whole : Workflow) : Prop :=
  ∃ place, whole.part? place = some part

/-- What ids say of everything that was made. -/
structure Identified (s : Supply) (made shelf : List Workflow) : Prop where
  /-- No two workflows that were made have the same id. -/
  distinct : (made.map Workflow.id).Nodup
  used : ∀ w ∈ made, w.id.index < s.workflows
  /-- Whatever can be got at was made, to any depth. -/
  listed : ∀ w ∈ shelf, ∀ v, w.Contains v → v ∈ made
  complete : ∀ w ∈ made, ∀ v, w.Contains v → v ∈ made
  /-- Whatever a workflow is put together from, directly or not, has a smaller id. -/
  smaller : ∀ w ∈ made, ∀ v, TransGen PartOf v w → v.id.index < w.id.index
  /-- A process that holds resources is met on the way through its expansion. -/
  behind : ∀ id process resources expansion, holding id process resources expansion ∈ made →
    process.Inside expansion
  /-- Workflows with the same id are the same to any depth. -/
  same : ∀ u ∈ made, ∀ v ∈ made, u.id = v.id → u = v

namespace Recorded

theorem contains (h : Recorded s made) (hMem : w ∈ made) {v : Workflow} (hContains : w.Contains v) :
    v ∈ made := by
  induction hContains with
  | refl => exact hMem
  | tail _ hStep ih =>
      obtain ⟨place, hPart⟩ := hStep
      exact (h.parts _ ih place _ hPart).1

theorem smaller (h : Recorded s made) (hMem : w ∈ made) {v : Workflow}
    (hPath : TransGen PartOf v w) : v ∈ made ∧ v.id.index < w.id.index := by
  induction hPath using TransGen.head_induction_on with
  | single hStep =>
      obtain ⟨place, hPart⟩ := hStep
      exact h.parts _ hMem place _ hPart
  | head hStep _ ih =>
      obtain ⟨place, hPart⟩ := hStep
      obtain ⟨hKnown, hLt⟩ := h.parts _ ih.1 place _ hPart
      exact ⟨hKnown, Nat.lt_trans hLt ih.2⟩

theorem identified (h : Recorded s made) (hShelf : shelf ⊆ made) : Identified s made shelf := by
  have hNodup : (made.map Workflow.id).Nodup := by
    rw [List.Nodup, List.pairwise_map]
    exact h.ascending.imp fun hLt hId => by
      rw [hId] at hLt
      exact Nat.lt_irrefl _ hLt
  exact
    { distinct := hNodup
      used := h.used
      listed := fun w hw _ hContains => h.contains (hShelf hw) hContains
      complete := fun _ hw _ hContains => h.contains hw hContains
      smaller := fun _ hw _ hPath => (h.smaller hw hPath).2
      behind := h.behind
      same := fun _ hu _ hv hId => List.inj_on_of_nodup_map hNodup hu hv hId }

end Recorded

/-! ## What operations take -/

namespace Draft

/-- What operations take from the supply. -/
structure Charges (s : Supply) (shelf : List Workflow) : Prop where
  /-- A call carries out its plan, and takes one id for each workflow that is made. -/
  each : ∀ call : Call, call.plan.run = call.draft ∧ spent (call.draft s) =
    { s with workflows := s.workflows + (call.plan.made s.workflows).length }
  sequence_refused : ∀ first second fault t, sequence first second s = .error fault t → t = s
  merge : ∀ first second, spent (merge first second s) = { s with workflows := s.workflows + 1 }
  holding_refused : ∀ process ∈ shelf, ∀ resources fault t,
    holding process resources s = .error fault t → t = s
  holding : ∀ process resources w t, holding process resources s = .ok w t →
    t = { s with workflows := s.workflows + (4 * resources.length + 1) }
  simultaneous : ∀ branches w t, simultaneous branches s = .ok w t →
    t = { s with workflows := s.workflows + (3 * branches.length + 1) }

theorem spent_draft (call : Call) (s : Supply) : spent (call.draft s) =
    { s with workflows := s.workflows + (call.plan.made s.workflows).length } := by
  rw [← call.run_plan]
  exact call.plan.spent_run s

theorem made_merge (first second : Workflow) (n : Nat) :
    (Plan.merge first second).made n = [overlap ⟨n⟩ first second] := by
  rw [Plan.merge, Plan.made]
  cases (overlap ⟨n⟩ first second).network.topologicalOrder with
  | ok order => rfl
  | error fault => cases fault <;> rfl

theorem charges (hStocked : Stocked s shelf) : Charges s shelf where
  each := fun call => ⟨call.run_plan, spent_draft call s⟩
  sequence_refused := by
    intro first second fault t hFailed
    cases hShared : second.leaves.find? (·.id ∈ first.leafIds) with
    | some leaf =>
        rw [sequence_of_shared s hShared] at hFailed
        cases hFailed
        rfl
    | none =>
        rw [sequence_of_disjoint s (by simpa using hShared)] at hFailed
        cases hFailed
  merge := by
    intro first second
    have hSpent := spent_draft (.merge first second) s
    rw [Call.plan, made_merge] at hSpent
    exact hSpent
  holding_refused := fun process hMem resources fault t hFailed =>
    ((holding_error_iff hStocked (reached_of_mem hMem)).1 hFailed).1
  holding := by
    intro process resources w t hDone
    rw [← Plan.run_holding] at hDone
    exact (Plan.makes_holding (List.mem_singleton_self process) resources).cost hDone
  simultaneous := by
    intro branches w t hDone
    rw [← Plan.run_simultaneous] at hDone
    exact (Plan.makes_simultaneous fun _ hMem => hMem).cost hDone

end Draft

/-- Ids are kept in order by every run: there is a ledger of all that was made, and whichever way it
is kept, ids say what was made, and it is known what operations take. -/
theorem identities_of_run (hRun : Run s shelf) :
    (∃ made, Chronicle s made shelf) ∧
      ∀ made, Chronicle s made shelf → Identified s made shelf ∧ Draft.Charges s shelf := by
  refine ⟨hRun.exists_chronicle, fun made hChronicle => ⟨?_, Draft.charges hRun.stocked⟩⟩
  obtain ⟨hRecorded, hShelf⟩ := hChronicle.recorded
  exact hRecorded.identified hShelf

namespace Sample

/-- Shipping before packing. -/
def backward : Workflow :=
  .seq ⟨5⟩ ship pack

/-- What is left behind when packing and shipping are refused in both orders at once. -/
def clash : Workflow :=
  .overlap ⟨6⟩ back backward

theorem merge_clash : ∃ fault, Draft.merge back backward ⟨6, 0⟩ = .error fault ⟨7, 0⟩ := by
  have hCycle : clash.network.topologicalOrder = .error (.cycle [⟨0⟩, ⟨1⟩, ⟨2⟩, ⟨3⟩]) := by
    decide +kernel
  exact ⟨_, Draft.merge_of_cyclic ⟨6, 0⟩ hCycle⟩

theorem chronicle_clash : Chronicle ⟨7, 0⟩ [pick, pack, ship, front, back, backward, clash]
    [backward, back, front, ship, pack, pick] := by
  have hPick : Chronicle ⟨1, 0⟩ [pick] [pick] :=
    (Chronicle.start .start).done (.activity "pick" ⟨2⟩) (fun _ h => h) rfl
  have hPack : Chronicle ⟨2, 0⟩ [pick, pack] [pack, pick] :=
    hPick.done (.activity "pack" ⟨3⟩) (fun _ h => absurd h List.not_mem_nil) rfl
  have hShip : Chronicle ⟨3, 0⟩ [pick, pack, ship] [ship, pack, pick] :=
    hPack.done (.activity "ship" ⟨5⟩) (fun _ h => absurd h List.not_mem_nil) rfl
  have hFront : Chronicle ⟨4, 0⟩ [pick, pack, ship, front] [front, ship, pack, pick] :=
    hShip.done (.sequence pick pack) (by simp [Call.operands]) rfl
  have hBack : Chronicle ⟨5, 0⟩ [pick, pack, ship, front, back] [back, front, ship, pack, pick] :=
    hFront.done (.sequence pack ship) (by simp [Call.operands]) rfl
  have hBackward : Chronicle ⟨6, 0⟩ [pick, pack, ship, front, back, backward]
      [backward, back, front, ship, pack, pick] :=
    hBack.done (.sequence ship pack) (by simp [Call.operands]) rfl
  obtain ⟨fault, hRefused⟩ := merge_clash
  have hClash := hBackward.failed (.merge back backward) (by simp [Call.operands]) hRefused
  rw [Call.plan, Draft.made_merge] at hClash
  exact hClash

end Sample

/-- The refused union is on no shelf, but it was made, and its id belongs to nothing else. -/
theorem identities_clash :
    Run ⟨7, 0⟩ [Sample.backward, Sample.back, Sample.front, Sample.ship, Sample.pack,
      Sample.pick] ∧
    Identified ⟨7, 0⟩ [Sample.pick, Sample.pack, Sample.ship, Sample.front, Sample.back,
        Sample.backward, Sample.clash]
      [Sample.backward, Sample.back, Sample.front, Sample.ship, Sample.pack, Sample.pick] ∧
    Draft.Charges ⟨7, 0⟩ [Sample.backward, Sample.back, Sample.front, Sample.ship, Sample.pack,
      Sample.pick] := by
  have hRun := Sample.chronicle_clash.run
  exact ⟨hRun, (identities_of_run hRun).2 _ Sample.chronicle_clash⟩

end ActivityNetwork
