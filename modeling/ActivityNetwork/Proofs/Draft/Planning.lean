import ActivityNetwork.Proofs.Draft.Run

/-!
# Plans

A draft says what comes of an operation.  It does not say which workflows the operation has made on
the way: some of them end up deep inside the outcome, and some in no outcome at all, because a later
step was refused.

A `Plan` is the operation with its steps laid open.  Each step makes one workflow, from the next id,
and goes on with it.  Every operation has a plan, and carrying the plan out is the operation
(`Call.run_plan`).  The workflows that are made can be read off the plan, and the supply moves on by
one for each of them (`spent_run`).
-/

namespace ActivityNetwork

/-- The supply after a draft, whatever has come of it. -/
def Draft.spent {α : Type} : EStateM.Result Fault Supply α → Supply
  | .ok _ t => t
  | .error _ t => t

/-- What an operation does: it makes one workflow after the other, and ends with an outcome or is
refused. -/
inductive Plan (α : Type) where
  | done (a : α)
  | refused (fault : Fault)
  | making (form : WorkflowId → Workflow) (next : Workflow → Plan α)

namespace Plan

variable {α β : Type}

def bind : Plan α → (α → Plan β) → Plan β
  | done a, f => f a
  | refused fault, _ => .refused fault
  | making form next, f => .making form fun w => (next w).bind f

instance : Monad Plan where
  pure := done
  bind := bind

theorem bind_done (p : Plan α) : p.bind done = p := by
  induction p with
  | done a => rfl
  | refused fault => rfl
  | making form next ih => exact congrArg (making form) (funext ih)

theorem bind_bind {γ : Type} (p : Plan α) (f : α → Plan β) (g : β → Plan γ) :
    (p.bind f).bind g = p.bind fun a => (f a).bind g := by
  induction p with
  | done a => rfl
  | refused fault => rfl
  | making form next ih => exact congrArg (making form) (funext ih)

instance : LawfulMonad Plan :=
  LawfulMonad.mk' Plan bind_done (fun _ _ => rfl) bind_bind

/-- A workflow that is made and handed over. -/
def new (form : WorkflowId → Workflow) : Plan Workflow :=
  .making form done

/-! ## Carrying a plan out -/

def run : Plan α → Draft α
  | done a => pure a
  | refused fault => throw fault
  | making form next => Draft.newWorkflowId >>= fun id => (next (form id)).run

/-- The workflows that are made if ids are taken from `n` on, in this order. -/
def made : Plan α → Nat → List Workflow
  | done _, _ => []
  | refused _, _ => []
  | making form next, n => form ⟨n⟩ :: (next (form ⟨n⟩)).made (n + 1)

theorem run_bind (p : Plan α) (f : α → Plan β) : (p >>= f).run = p.run >>= fun a => (f a).run := by
  induction p with
  | done a => rfl
  | refused fault => rfl
  | making form next ih =>
      show (Draft.newWorkflowId >>= fun id => (next (form id) >>= f).run) = _
      rw [run, bind_assoc]
      exact congrArg _ (funext fun id => ih (form id))

theorem run_foldlM {step : α → β → Plan α} {draft : α → β → Draft α}
    (hStep : ∀ acc item, (step acc item).run = draft acc item) (items : List β) (start : α) :
    (items.foldlM step start).run = items.foldlM draft start := by
  induction items generalizing start with
  | nil => rfl
  | cons item items ih =>
      rw [List.foldlM_cons, List.foldlM_cons, run_bind, hStep]
      exact congrArg _ (funext ih)

theorem run_mapM {plan : α → Plan β} {draft : α → Draft β}
    (hPlan : ∀ item, (plan item).run = draft item) (items : List α) :
    (items.mapM plan).run = items.mapM draft := by
  induction items with
  | nil => rfl
  | cons item items ih =>
      rw [List.mapM_cons, List.mapM_cons, run_bind, hPlan]
      refine congrArg _ (funext fun b => ?_)
      rw [run_bind, ih]
      rfl

/-- The supply moves on by one id for each workflow that is made, whatever comes of the plan. -/
theorem spent_run (p : Plan α) (s : Supply) :
    Draft.spent (p.run s) = { s with workflows := s.workflows + (p.made s.workflows).length } := by
  induction p generalizing s with
  | done a => rfl
  | refused fault => rfl
  | making form next ih =>
      have hRest := ih (form ⟨s.workflows⟩) { s with workflows := s.workflows + 1 }
      rw [made, List.length_cons, Nat.add_comm _ 1, ← Nat.add_assoc]
      exact hRest

/-! ## The plans of the operations -/

def sequence (first second : Workflow) : Plan Workflow :=
  match second.leaves.find? (·.id ∈ first.leafIds) with
  | some leaf => .refused (.circularDependency leaf.label leaf.id)
  | none => new (.seq · first second)

def merge (first second : Workflow) : Plan Workflow :=
  .making (.overlap · first second) fun union =>
    match union.network.topologicalOrder with
    | .ok _ => .done union
    | .error (.cycle nodes) =>
        .refused (.circularDependency
          ((Draft.activityAmong? union.network nodes).getD union.label) union.id)
    | .error fault => .refused fault

def chain : List Workflow → Plan Workflow
  | [] => .refused (.emptyComposition .chain)
  | first :: rest => rest.foldlM sequence first

def mergeEach {α : Type} (plan : α → Plan Workflow) : List α → Plan Workflow
  | [] => .refused (.emptyComposition .mergeAll)
  | first :: rest => do
      rest.foldlM (fun union item => do merge union (← plan item)) (← plan first)

def simultaneous (branches : List Workflow) : Plan Workflow := do
  let entry ← new (.activity · "idle" .zero)
  let exit ← new (.activity · "idle" .zero)
  match ← branches.mapM fun branch => chain [entry, branch, exit] with
  | [] => .refused (.emptyComposition .simultaneous)
  | framed => mergeEach .done framed

def holding (process : Workflow) (resources : List Resource) : Plan Workflow :=
  if resources.isEmpty then .refused .emptyResources
  else
    match Resource.firstRepeat? [] resources with
    | some r => .refused (.duplicateResource r.text)
    | none => do
        let requests ← mergeEach (fun r => new (.request · r)) resources
        let releases ← mergeEach (fun r => new (.release · r)) resources.reverse
        let expansion ← chain [requests, process, releases]
        new (.holding · process resources expansion)

theorem run_sequence (first second : Workflow) :
    (sequence first second).run = Draft.sequence first second := by
  unfold sequence Draft.sequence
  cases second.leaves.find? (·.id ∈ first.leafIds) <;> rfl

theorem run_merge (first second : Workflow) :
    (merge first second).run = Draft.merge first second := by
  unfold merge Draft.merge
  refine congrArg _ (funext fun id => ?_)
  dsimp only
  cases (Workflow.overlap id first second).network.topologicalOrder with
  | ok order => rfl
  | error fault => cases fault <;> rfl

theorem run_chain (ws : List Workflow) : (chain ws).run = Draft.chain ws := by
  cases ws with
  | nil => rfl
  | cons first rest => exact run_foldlM run_sequence rest first

theorem run_mergeEach {plan : α → Plan Workflow} {draft : α → Draft Workflow}
    (hPlan : ∀ item, (plan item).run = draft item) (items : List α) :
    (mergeEach plan items).run = Draft.mergeEach draft items := by
  cases items with
  | nil => rfl
  | cons first rest =>
      have hStep : ∀ union item, (plan item >>= merge union).run =
          draft item >>= Draft.merge union := by
        intro union item
        rw [run_bind, hPlan]
        exact congrArg _ (funext fun w => run_merge union w)
      rw [mergeEach, run_bind, hPlan]
      exact congrArg _ (funext fun start => run_foldlM hStep rest start)

theorem run_simultaneous (branches : List Workflow) :
    (simultaneous branches).run = Draft.simultaneous branches := by
  rw [simultaneous, run_bind]
  refine congrArg (Draft.idle >>= ·) (funext fun entry => ?_)
  rw [run_bind]
  refine congrArg (Draft.idle >>= ·) (funext fun exit => ?_)
  rw [run_bind, run_mapM fun branch => run_chain [entry, branch, exit]]
  refine congrArg _ (funext fun framed => ?_)
  cases framed with
  | nil => rfl
  | cons first rest => exact run_mergeEach (fun _ => rfl) _

theorem run_holding (process : Workflow) (resources : List Resource) :
    (holding process resources).run = Draft.holding process resources := by
  unfold holding Draft.holding
  split
  · rfl
  · cases Resource.firstRepeat? [] resources with
    | some r => rfl
    | none =>
        have hRequests : (mergeEach (fun r => new (.request · r)) resources).run =
            Draft.mergeEach Draft.request resources := run_mergeEach (fun _ => rfl) resources
        have hReleases : (mergeEach (fun r => new (.release · r)) resources.reverse).run =
            Draft.mergeEach Draft.release resources.reverse :=
          run_mergeEach (fun _ => rfl) resources.reverse
        dsimp only
        rw [run_bind, hRequests]
        refine congrArg _ (funext fun requests => ?_)
        rw [run_bind, hReleases]
        refine congrArg _ (funext fun releases => ?_)
        rw [run_bind, run_chain]
        rfl

end Plan

/-- The plan of the operation that is called. -/
def Call.plan : Call → Plan Workflow
  | activity name duration => .new (.activity · name duration)
  | idle => .new (.activity · "idle" .zero)
  | request resource => .new (.request · resource)
  | release resource => .new (.release · resource)
  | sequence first second => .sequence first second
  | merge first second => .merge first second
  | chain ws => .chain ws
  | mergeAll ws => .mergeEach .done ws
  | simultaneous branches => .simultaneous branches
  | holding process resources => .holding process resources

/-- Carrying out the plan is the operation. -/
theorem Call.run_plan (call : Call) : call.plan.run = call.draft := by
  cases call with
  | sequence first second => exact Plan.run_sequence first second
  | merge first second => exact Plan.run_merge first second
  | chain ws => exact Plan.run_chain ws
  | mergeAll ws => exact Plan.run_mergeEach (fun _ => rfl) ws
  | simultaneous branches => exact Plan.run_simultaneous branches
  | holding process resources => exact Plan.run_holding process resources
  | _ => rfl

end ActivityNetwork
