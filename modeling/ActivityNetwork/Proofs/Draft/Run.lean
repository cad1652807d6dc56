import ActivityNetwork.Proofs.Draft.Shelf
import ActivityNetwork.Proofs.Network.Sorting
import ActivityNetwork.Proofs.Workflow.Rendering

/-!
# Runs of drafting

A `Run` is any finite course of drafting: operations are called on what earlier ones have made,
some of them fail, parts are taken out again, and ids are used up elsewhere.  `Built w` says
that some run has made `w`.

Each operation `Keeps` the shelf in order, whatever it makes or fails at.  For the operations of
two workflows this is where their checks come in; those of many workflows follow from them by
induction on the list.  So the shelf is in order after every run (`Run.stocked`).
-/

namespace ActivityNetwork

open Workflow

namespace Draft

/-- After the draft the shelf is in order again, with `made` of the outcome put on it. -/
def Keeps {α : Type} (d : Draft α) (shelf : List Workflow) (made : α → List Workflow) : Prop :=
  ∀ s, Stocked s shelf → match d s with
    | .ok a t => Stocked t (made a ++ shelf)
    | .error _ t => Stocked t shelf

section Steps

variable {α β : Type} {d : Draft α} {f : α → Draft β} {s t : Supply} {shelf : List Workflow}
  {made : α → List Workflow} {result : β → List Workflow}

theorem Keeps.stocked (hKeeps : Keeps d shelf made) (hStocked : Stocked s shelf) {a : α}
    (hDone : d s = .ok a t) : Stocked t (made a ++ shelf) := by
  have hAfter := hKeeps s hStocked
  rw [hDone] at hAfter
  exact hAfter

theorem bind_of_ok {a : α} (hFirst : d s = .ok a t) : (d >>= f) s = f a t := by
  show EStateM.bind d f s = f a t
  rw [EStateM.bind, hFirst]

theorem bind_of_error {fault : Fault} (hFirst : d s = .error fault t) :
    (d >>= f) s = .error fault t := by
  show EStateM.bind d f s = .error fault t
  rw [EStateM.bind, hFirst]

theorem bind_ok {u : Supply} {b : β} (hDone : (d >>= f) s = .ok b u) :
    ∃ a t, d s = .ok a t ∧ f a t = .ok b u := by
  cases hFirst : d s with
  | ok a t =>
      rw [bind_of_ok hFirst] at hDone
      exact ⟨a, t, rfl, hDone⟩
  | error fault t =>
      rw [bind_of_error hFirst] at hDone
      cases hDone

theorem keeps_pure {a : α} (hMade : ∀ w ∈ made a, Reached shelf w) :
    Keeps (pure a) shelf made := by
  intro s hStocked
  show Stocked s (made a ++ shelf)
  refine hStocked.forget fun w hMem => ?_
  rcases List.mem_append.1 hMem with hNew | hOld
  · exact hMade w hNew
  · exact reached_of_mem hOld

theorem keeps_throw (fault : Fault) : Keeps (throw fault) shelf made :=
  fun _ hStocked => hStocked

/-- The second draft may use what the first one has made.  That need not stay on the shelf. -/
theorem Keeps.bind (hFirst : Keeps d shelf made)
    (hNext : ∀ a s t, d s = .ok a t → Keeps (f a) (made a ++ shelf) result) :
    Keeps (d >>= f) shelf result := by
  intro s hStocked
  have hBetween := hFirst s hStocked
  cases hRun : d s with
  | error fault t =>
      rw [hRun] at hBetween
      rw [bind_of_error hRun]
      exact hBetween
  | ok a t =>
      rw [hRun] at hBetween
      rw [bind_of_ok hRun]
      have hAfter := hNext a s t hRun t hBetween
      cases hRest : f a t with
      | error fault u =>
          rw [hRest] at hAfter
          exact hAfter.forget fun w hMem => reached_of_mem (List.mem_append_right _ hMem)
      | ok b u =>
          rw [hRest] at hAfter
          -- What only the first draft has made is taken off the shelf again.
          refine hAfter.forget fun w hMem => reached_of_mem ?_
          rcases List.mem_append.1 hMem with hNew | hOld
          · exact List.mem_append_left _ hNew
          · exact List.mem_append_right _ (List.mem_append_right _ hOld)

/-- A workflow that gets the next id and is put together from the shelf. -/
theorem keeps_new {make : WorkflowId → Workflow} (hId : ∀ id, (make id).id = id)
    (hMade : ∀ id, MadeFrom shelf (make id)) (hChecked : ∀ id, (make id).Checked) :
    Keeps (do return make (← newWorkflowId)) shelf ([·]) :=
  fun _ hStocked => hStocked.add (hId _) (hMade _) (hChecked _) (Nat.lt_succ_self _)

end Steps

/-- The draft keeps the shelf in order, and something is known of the workflow that it makes and of
the fault that it fails with. -/
def Settles (d : Draft Workflow) (shelf : List Workflow) (good : Workflow → Prop)
    (bad : Fault → Prop) : Prop :=
  ∀ s, Stocked s shelf → match d s with
    | .ok w t => Stocked t (w :: shelf) ∧ good w
    | .error fault t => Stocked t shelf ∧ bad fault

section Settles

variable {d : Draft Workflow} {f : Workflow → Draft Workflow} {s t : Supply}
  {shelf : List Workflow} {w : Workflow} {fault : Fault} {good better : Workflow → Prop}
  {bad worse : Fault → Prop}

theorem settles_pure (hReached : Reached shelf w) (hGood : good w) :
    Settles (pure w) shelf good bad := by
  intro s hStocked
  have hKeeps : Keeps (pure w) shelf ([·]) :=
    keeps_pure fun v hv => List.mem_singleton.1 hv ▸ hReached
  exact ⟨hKeeps s hStocked, hGood⟩

theorem Settles.weaken (hSettles : Settles d shelf good bad) (hGood : ∀ w, good w → better w)
    (hFault : ∀ fault, bad fault → worse fault) : Settles d shelf better worse := by
  intro s hStocked
  have hOutcome := hSettles s hStocked
  cases hRun : d s with
  | ok w t =>
      rw [hRun] at hOutcome
      exact ⟨hOutcome.1, hGood w hOutcome.2⟩
  | error fault t =>
      rw [hRun] at hOutcome
      exact ⟨hOutcome.1, hFault fault hOutcome.2⟩

/-- A draft that goes on with a workflow that is known to be good. -/
theorem Settles.bind (hFirst : Settles d shelf good bad) (hFault : ∀ fault, bad fault → worse fault)
    (hNext : ∀ w, good w → Settles (f w) (w :: shelf) better worse) :
    Settles (d >>= f) shelf better worse := by
  intro s hStocked
  have hBetween := hFirst s hStocked
  cases hRun : d s with
  | error fault t =>
      rw [hRun] at hBetween
      rw [bind_of_error hRun]
      exact ⟨hBetween.1, hFault fault hBetween.2⟩
  | ok v t =>
      rw [hRun] at hBetween
      rw [bind_of_ok hRun]
      have hAfter := hNext v hBetween.2 t hBetween.1
      cases hRest : f v t with
      | error fault u =>
          rw [hRest] at hAfter
          exact ⟨hAfter.1.forget fun x hMem => reached_of_mem (List.mem_cons_of_mem _ hMem),
            hAfter.2⟩
      | ok w u =>
          rw [hRest] at hAfter
          -- What only the first draft has made is taken off the shelf again.
          refine ⟨hAfter.1.forget fun x hMem => reached_of_mem ?_, hAfter.2⟩
          rcases List.mem_cons.1 hMem with rfl | hOld
          · exact List.mem_cons_self
          · exact List.mem_cons_of_mem _ (List.mem_cons_of_mem _ hOld)

theorem Settles.of_ok (hSettles : Settles d shelf good bad) (hStocked : Stocked s shelf)
    (hDone : d s = .ok w t) : w.WellMade ∧ good w := by
  have hOutcome := hSettles s hStocked
  rw [hDone] at hOutcome
  exact ⟨hOutcome.1.wellMade (reached_of_mem List.mem_cons_self), hOutcome.2⟩

theorem Settles.of_error (hSettles : Settles d shelf good bad) (hStocked : Stocked s shelf)
    (hFailed : d s = .error fault t) : bad fault := by
  have hOutcome := hSettles s hStocked
  rw [hFailed] at hOutcome
  exact hOutcome.2

/-- Where good workflows and bad faults exclude each other, it is known when the draft succeeds. -/
theorem Settles.ok_iff {success : Prop} (hSettles : Settles d shelf good bad)
    (hStocked : Stocked s shelf) (hGood : ∀ w, w.WellMade → good w → success)
    (hBad : ∀ fault, bad fault → ¬ success) : (∃ w t, d s = .ok w t) ↔ success := by
  cases hRun : d s with
  | ok w t =>
      obtain ⟨hMade, hOk⟩ := hSettles.of_ok hStocked hRun
      exact ⟨fun _ => hGood w hMade hOk, fun _ => ⟨w, t, rfl⟩⟩
  | error fault t =>
      refine ⟨?_, fun hSuccess => absurd hSuccess (hBad fault (hSettles.of_error hStocked hRun))⟩
      rintro ⟨w, u, hDone⟩
      cases hDone

end Settles

variable {shelf : List Workflow} {first second process : Workflow}

/-! ## One workflow and two workflows -/

theorem keeps_activity (name : String) (duration : Duration) :
    Keeps (activity name duration) shelf ([·]) :=
  keeps_new (fun _ => rfl) (fun _ => madeFrom_of_isLeaf rfl) fun _ => trivial

theorem keeps_request (r : Resource) : Keeps (request r) shelf ([·]) :=
  keeps_new (fun _ => rfl) (fun _ => madeFrom_of_isLeaf rfl) fun _ => trivial

theorem keeps_release (r : Resource) : Keeps (release r) shelf ([·]) :=
  keeps_new (fun _ => rfl) (fun _ => madeFrom_of_isLeaf rfl) fun _ => trivial

theorem keeps_sequence (hFirst : Reached shelf first) (hSecond : Reached shelf second) :
    Keeps (sequence first second) shelf ([·]) := by
  intro s hStocked
  cases hShared : second.leaves.find? (·.id ∈ first.leafIds) with
  | some leaf =>
      rw [sequence_of_shared s hShared]
      exact hStocked
  | none =>
      have hApart : ∀ leaf ∈ second.leaves, leaf.id ∉ first.leafIds := by simpa using hShared
      rw [sequence_of_disjoint s hApart]
      refine hStocked.add rfl (madeFrom_seq _ hFirst hSecond) ?_ (Nat.lt_succ_self _)
      intro leaf hLeafFirst hLeafSecond
      have hInFirst := (mem_leaves (hStocked.wellMade hFirst).coherent).2 hLeafFirst
      have hInSecond := (mem_leaves (hStocked.wellMade hSecond).coherent).2 hLeafSecond
      exact hApart leaf hInSecond (List.mem_map_of_mem hInFirst)

/-- A merge gives the union if the network of the union has no cycle.  Otherwise it reports the
union as a circular dependency; no other fault can come up. -/
theorem merge_cases {s : Supply}
    (hClosed : (overlap ⟨s.workflows⟩ first second).network.Closed) :
    Acyclic (overlap ⟨s.workflows⟩ first second).network.Link ∧
        merge first second s =
          .ok (overlap ⟨s.workflows⟩ first second) { s with workflows := s.workflows + 1 } ∨
      ¬ Acyclic (overlap ⟨s.workflows⟩ first second).network.Link ∧
        ∃ process, merge first second s =
          .error (.circularDependency process ⟨s.workflows⟩)
            { s with workflows := s.workflows + 1 } := by
  have hIff := Network.topologicalOrder_ok_iff_acyclic hClosed
  rcases Network.topologicalOrder_of_closed hClosed with ⟨order, hOrder⟩ | ⟨nodes, hCycle⟩
  · exact Or.inl ⟨hIff.1 ⟨order, hOrder⟩, merge_of_ordered s hOrder⟩
  · refine Or.inr ⟨fun hAcyclic => ?_, _, merge_of_cyclic s hCycle⟩
    obtain ⟨order, hOrder⟩ := hIff.2 hAcyclic
    rw [hCycle] at hOrder
    cases hOrder

theorem keeps_merge (hFirst : Reached shelf first) (hSecond : Reached shelf second) :
    Keeps (merge first second) shelf ([·]) := by
  intro s hStocked
  have hCoherent := hStocked.coherent_union hFirst hSecond
  rcases merge_cases (network_closed hCoherent) with ⟨hAcyclic, hMerge⟩ | ⟨-, process, hMerge⟩
  · rw [hMerge]
    exact hStocked.add rfl (madeFrom_overlap _ hFirst hSecond)
      ((network_acyclic_iff hCoherent).1 hAcyclic) (Nat.lt_succ_self _)
  · rw [hMerge]
    exact hStocked.spend (Nat.le_succ _)

/-! ## Many workflows -/

/-- A fold keeps the shelf in order if each of its steps does, also when the shelf has become
fuller in between. -/
theorem keeps_foldlM {α : Type} {step : Workflow → α → Draft Workflow} {items : List α}
    {start : Workflow}
    (hStep : ∀ fuller acc, shelf ⊆ fuller → Reached fuller acc → ∀ item ∈ items,
      Keeps (step acc item) fuller ([·]))
    (hStart : Reached shelf start) : Keeps (items.foldlM step start) shelf ([·]) := by
  induction items generalizing shelf start with
  | nil =>
      refine keeps_pure fun w hMem => ?_
      rw [List.mem_singleton] at hMem
      exact hMem ▸ hStart
  | cons item items ih =>
      rw [List.foldlM_cons]
      refine (hStep shelf start (List.Subset.refl _) hStart item List.mem_cons_self).bind ?_
      intro acc _ _ _
      -- The rest of the fold finds the outcome of this step on the shelf.
      refine ih ?_ (reached_of_mem List.mem_cons_self)
      intro fuller acc hSub hAcc other hOther
      have hShelf : shelf ⊆ fuller := fun w hMem => hSub (List.mem_cons_of_mem _ hMem)
      exact hStep fuller acc hShelf hAcc other (List.mem_cons_of_mem _ hOther)

theorem keeps_chain {ws : List Workflow} (hWs : ∀ w ∈ ws, Reached shelf w) :
    Keeps (chain ws) shelf ([·]) := by
  cases ws with
  | nil => exact keeps_throw _
  | cons first rest =>
      refine keeps_foldlM ?_ (hWs first List.mem_cons_self)
      intro fuller acc hSub hAcc w hMem
      exact keeps_sequence hAcc ((hWs w (List.mem_cons_of_mem _ hMem)).mono hSub)

theorem keeps_mergeEach {α : Type} {draft : α → Draft Workflow} {items : List α}
    (hDraft : ∀ fuller, shelf ⊆ fuller → ∀ item ∈ items, Keeps (draft item) fuller ([·])) :
    Keeps (mergeEach draft items) shelf ([·]) := by
  cases items with
  | nil => exact keeps_throw _
  | cons first rest =>
      refine (hDraft shelf (List.Subset.refl _) first List.mem_cons_self).bind ?_
      intro start _ _ _
      refine keeps_foldlM ?_ (reached_of_mem List.mem_cons_self)
      intro fuller acc hSub hAcc item hItem
      have hShelf : shelf ⊆ fuller := fun w hMem => hSub (List.mem_cons_of_mem _ hMem)
      -- The next workflow is drafted first; the union so far can still be reached after it.
      refine (hDraft fuller hShelf item (List.mem_cons_of_mem _ hItem)).bind ?_
      intro w _ _ _
      exact keeps_merge (hAcc.mono (List.subset_cons_self _ _)) (reached_of_mem List.mem_cons_self)

theorem keeps_mergeAll {ws : List Workflow} (hWs : ∀ w ∈ ws, Reached shelf w) :
    Keeps (mergeAll ws) shelf ([·]) := by
  refine keeps_mergeEach fun fuller hSub w hMem => keeps_pure fun v hv => ?_
  rw [List.mem_singleton] at hv
  exact hv ▸ (hWs w hMem).mono hSub

/-- Drafts that keep the shelf in order one by one do so in a row. -/
theorem keeps_mapM {α : Type} {draft : α → Draft Workflow} {items : List α}
    (hDraft : ∀ fuller, shelf ⊆ fuller → ∀ item ∈ items, Keeps (draft item) fuller ([·])) :
    Keeps (items.mapM draft) shelf fun ws => ws := by
  induction items generalizing shelf with
  | nil =>
      rw [List.mapM_nil]
      exact keeps_pure fun w hMem => absurd hMem List.not_mem_nil
  | cons item items ih =>
      rw [List.mapM_cons]
      refine (hDraft shelf (List.Subset.refl _) item List.mem_cons_self).bind ?_
      intro w _ _ _
      have hRest : ∀ fuller, w :: shelf ⊆ fuller → ∀ other ∈ items,
          Keeps (draft other) fuller ([·]) := by
        intro fuller hSub other hOther
        have hShelf : shelf ⊆ fuller := fun v hMem => hSub (List.mem_cons_of_mem _ hMem)
        exact hDraft fuller hShelf other (List.mem_cons_of_mem _ hOther)
      refine (ih hRest).bind ?_
      intro ws _ _ _
      refine keeps_pure fun v hMem => reached_of_mem ?_
      rcases List.mem_cons.1 hMem with rfl | hMem
      · exact List.mem_append_right _ List.mem_cons_self
      · exact List.mem_append_left _ hMem

theorem keeps_simultaneous {branches : List Workflow}
    (hBranches : ∀ w ∈ branches, Reached shelf w) :
    Keeps (simultaneous branches) shelf ([·]) := by
  refine (keeps_activity "idle" .zero).bind ?_
  intro entry _ _ _
  refine (keeps_activity "idle" .zero).bind ?_
  intro exit _ _ _
  have hFramed : Keeps (branches.mapM fun branch => chain [entry, branch, exit])
      ([exit] ++ ([entry] ++ shelf)) fun ws => ws := by
    refine keeps_mapM fun fuller hSub branch hMem => keeps_chain fun w hw => ?_
    have hEntry : Reached fuller entry := reached_of_mem (hSub (by simp))
    have hExit : Reached fuller exit := reached_of_mem (hSub (by simp))
    have hBranch : Reached fuller branch :=
      (hBranches branch hMem).mono fun v hv => hSub (by simp [hv])
    simp only [List.mem_cons, List.not_mem_nil, or_false] at hw
    rcases hw with rfl | rfl | rfl
    · exact hEntry
    · exact hBranch
    · exact hExit
  refine hFramed.bind ?_
  intro framed _ _ _
  cases framed with
  | nil => exact keeps_throw _
  | cons first rest =>
      exact keeps_mergeAll fun w hMem => reached_of_mem (List.mem_append_left _ hMem)

theorem sequence_ok {w : Workflow} {s t : Supply} (hDone : sequence first second s = .ok w t) :
    w = seq ⟨s.workflows⟩ first second := by
  cases hShared : second.leaves.find? (·.id ∈ first.leafIds) with
  | some leaf =>
      rw [sequence_of_shared s hShared] at hDone
      cases hDone
  | none =>
      rw [sequence_of_disjoint s (by simpa using hShared)] at hDone
      cases hDone
      rfl

theorem chain_three (a b c : Workflow) :
    chain [a, b, c] = sequence a b >>= fun front => sequence front c := by
  simp [chain]

/-- A chain of three has its middle as a part. -/
theorem inside_of_chain {requests releases w : Workflow} {s t : Supply}
    (hDone : chain [requests, process, releases] s = .ok w t) : process.Inside w := by
  rw [chain_three] at hDone
  obtain ⟨front, between, hFront, hWhole⟩ := bind_ok hDone
  rw [sequence_ok hWhole, sequence_ok hFront]
  exact .seqFirst (.seqSecond .self)

theorem keeps_holding (hProcess : Reached shelf process) (resources : List Resource) :
    Keeps (holding process resources) shelf ([·]) := by
  unfold holding
  split
  · exact keeps_throw _
  · split
    · exact keeps_throw _
    · refine (keeps_mergeEach fun _ _ r _ => keeps_request r).bind ?_
      intro requests _ _ _
      refine (keeps_mergeEach fun _ _ r _ => keeps_release r).bind ?_
      intro releases _ _ _
      have hChain : Keeps (chain [requests, process, releases])
          ([releases] ++ ([requests] ++ shelf)) ([·]) := by
        refine keeps_chain fun w hw => ?_
        simp only [List.mem_cons, List.not_mem_nil, or_false] at hw
        rcases hw with rfl | rfl | rfl
        · exact reached_of_mem (by simp)
        · exact hProcess.mono fun v hv => by simp [hv]
        · exact reached_of_mem (by simp)
      refine hChain.bind ?_
      intro expansion _ _ hMade
      exact keeps_new (fun _ => rfl)
        (fun id => madeFrom_holding id process resources (reached_of_mem List.mem_cons_self))
        fun _ => inside_of_chain hMade

end Draft

/-! ## Runs -/

/-- A call of one of the operations that make workflows. -/
inductive Call where
  | activity (name : String) (duration : Duration)
  | idle
  | request (resource : Resource)
  | release (resource : Resource)
  | sequence (first second : Workflow)
  | merge (first second : Workflow)
  | chain (ws : List Workflow)
  | mergeAll (ws : List Workflow)
  | simultaneous (branches : List Workflow)
  | holding (process : Workflow) (resources : List Resource)

namespace Call

/-- The workflows that are handed to the operation. -/
def operands : Call → List Workflow
  | sequence first second => [first, second]
  | merge first second => [first, second]
  | chain ws => ws
  | mergeAll ws => ws
  | simultaneous branches => branches
  | holding process _ => [process]
  | _ => []

def draft : Call → Draft Workflow
  | activity name duration => Draft.activity name duration
  | idle => Draft.idle
  | request resource => Draft.request resource
  | release resource => Draft.release resource
  | sequence first second => Draft.sequence first second
  | merge first second => Draft.merge first second
  | chain ws => Draft.chain ws
  | mergeAll ws => Draft.mergeAll ws
  | simultaneous branches => Draft.simultaneous branches
  | holding process resources => Draft.holding process resources

theorem keeps_draft (call : Call) {shelf : List Workflow}
    (hOperands : ∀ w ∈ call.operands, Reached shelf w) :
    Draft.Keeps call.draft shelf ([·]) := by
  cases call with
  | activity name duration => exact Draft.keeps_activity name duration
  | idle => exact Draft.keeps_activity "idle" .zero
  | request resource => exact Draft.keeps_request resource
  | release resource => exact Draft.keeps_release resource
  | sequence first second =>
      exact Draft.keeps_sequence (hOperands first (by simp [operands]))
        (hOperands second (by simp [operands]))
  | merge first second =>
      exact Draft.keeps_merge (hOperands first (by simp [operands]))
        (hOperands second (by simp [operands]))
  | chain ws => exact Draft.keeps_chain hOperands
  | mergeAll ws => exact Draft.keeps_mergeAll hOperands
  | simultaneous branches => exact Draft.keeps_simultaneous hOperands
  | holding process resources =>
      exact Draft.keeps_holding (hOperands process (by simp [operands])) resources

end Call

/-- A finite course of drafting, with the supply and the shelf at its end.  It may start when
other ids have been handed out before, and others may take ids at any time. -/
inductive Run : Supply → List Workflow → Prop
  | start (s : Supply) : Run s []
  | done {s t shelf w} (hRun : Run s shelf) (call : Call)
      (hOperands : ∀ v ∈ call.operands, v ∈ shelf) (hDone : call.draft s = .ok w t) :
      Run t (w :: shelf)
  | failed {s t shelf fault} (hRun : Run s shelf) (call : Call)
      (hOperands : ∀ v ∈ call.operands, v ∈ shelf) (hFailed : call.draft s = .error fault t) :
      Run t shelf
  | taken {s shelf w part} (hRun : Run s shelf) (hMem : w ∈ shelf) (place : Part)
      (hPart : w.part? place = some part) : Run s (part :: shelf)
  | elsewhere {s t shelf} (hRun : Run s shelf) (hWorkflows : s.workflows ≤ t.workflows)
      (hResources : s.resources ≤ t.resources) : Run t shelf

/-- Some run has made the workflow. -/
def Built (w : Workflow) : Prop :=
  ∃ s shelf, Run s shelf ∧ w ∈ shelf

/-- The shelf is in order after every run. -/
theorem Run.stocked {s : Supply} {shelf : List Workflow} (hRun : Run s shelf) :
    Stocked s shelf := by
  induction hRun with
  | start s => exact .empty s
  | done _ call hOperands hDone ih =>
      exact (call.keeps_draft fun v hv => reached_of_mem (hOperands v hv)).stocked ih hDone
  | failed _ call hOperands hFailed ih =>
      have hKeeps := call.keeps_draft (fun v hv => reached_of_mem (hOperands v hv)) _ ih
      rw [hFailed] at hKeeps
      exact hKeeps
  | taken _ hMem place hPart ih =>
      have hWhole := reached_of_mem hMem
      have hInside := ((ih.checked _ hWhole).inside_part hPart).1
      refine ih.forget fun v hv => ?_
      rcases List.mem_cons.1 hv with rfl | hOld
      · exact hWhole.inside hInside
      · exact reached_of_mem hOld
  | elsewhere _ hWorkflows _ ih => exact ih.spend hWorkflows

/-- Whatever a run has made is well made. -/
theorem Built.wellMade {w : Workflow} (hBuilt : Built w) : w.WellMade := by
  obtain ⟨s, shelf, hRun, hMem⟩ := hBuilt
  exact hRun.stocked.wellMade (reached_of_mem hMem)

/-! ## A short run

Two sequences share an activity, and a union brings them together.
-/

namespace Sample

def pick : Workflow :=
  .activity ⟨0⟩ "pick" ⟨2⟩

def pack : Workflow :=
  .activity ⟨1⟩ "pack" ⟨3⟩

def ship : Workflow :=
  .activity ⟨2⟩ "ship" ⟨5⟩

/-- Picking before packing. -/
def front : Workflow :=
  .seq ⟨3⟩ pick pack

/-- Packing before shipping. -/
def back : Workflow :=
  .seq ⟨4⟩ pack ship

def both : Workflow :=
  .overlap ⟨5⟩ front back

theorem run_leaves : Run ⟨3, 0⟩ [ship, pack, pick] := by
  have hPick : Run ⟨1, 0⟩ [pick] :=
    (Run.start .start).done (.activity "pick" ⟨2⟩) (fun _ h => h) rfl
  have hPack : Run ⟨2, 0⟩ [pack, pick] :=
    hPick.done (.activity "pack" ⟨3⟩) (fun _ h => absurd h List.not_mem_nil) rfl
  exact hPack.done (.activity "ship" ⟨5⟩) (fun _ h => absurd h List.not_mem_nil) rfl

theorem run_sides : Run ⟨5, 0⟩ [back, front, ship, pack, pick] := by
  have hFront : Run ⟨4, 0⟩ [front, ship, pack, pick] :=
    run_leaves.done (.sequence pick pack) (by simp [Call.operands]) rfl
  exact hFront.done (.sequence pack ship) (by simp [Call.operands]) rfl

theorem merge_front_back : Draft.merge front back ⟨5, 0⟩ = .ok both ⟨6, 0⟩ := by
  have hOrder : (overlap ⟨5⟩ front back).network.topologicalOrder =
      .ok [⟨0⟩, ⟨1⟩, ⟨2⟩, ⟨3⟩, ⟨4⟩, ⟨5⟩] := by
    decide +kernel
  rw [Draft.merge_of_ordered ⟨5, 0⟩ hOrder]
  rfl

theorem run_both : Run ⟨6, 0⟩ [both, back, front, ship, pack, pick] :=
  run_sides.done (.merge front back) (by simp [Call.operands]) merge_front_back

theorem built_both : Built both :=
  ⟨_, _, run_both, List.mem_cons_self⟩

end Sample

end ActivityNetwork
