import ActivityNetwork.Network.TopologicalOrder
import ActivityNetwork.Workflow.Compilation
import ActivityNetwork.Workflow.Leaves

/-!
# Drafting workflows

A draft makes workflows and resources with new ids, or fails.  What was used up before a
failure stays used up: ids are never handed out twice.  Every order that cannot be kept is
refused here, so that a finished workflow always compiles to a sound network.
-/

namespace ActivityNetwork

/-- How many ids of each sort have been handed out. -/
structure Supply where
  workflows : Nat
  resources : Nat
  deriving DecidableEq, Repr

namespace Supply

def start : Supply :=
  ⟨0, 0⟩

end Supply

/-- Something that takes ids from a supply and may fail. -/
abbrev Draft : Type → Type :=
  EStateM Fault Supply

namespace Draft

/-! ## Identities and leaves -/

def newWorkflowId : Draft WorkflowId :=
  fun s => .ok ⟨s.workflows⟩ { s with workflows := s.workflows + 1 }

def newResourceId : Draft ResourceId :=
  fun s => .ok ⟨s.resources⟩ { s with resources := s.resources + 1 }

/-- A new resource, different from all others of the same label. -/
def resource (label : String) : Draft Resource := do
  return ⟨← newResourceId, label⟩

/-- A new activity. -/
def activity (name : String) (duration : Duration) : Draft Workflow := do
  return .activity (← newWorkflowId) name duration

/-- A new activity that takes no time and only keeps a place. -/
def idle : Draft Workflow :=
  activity "idle" .zero

/-- A new request of a resource. -/
def request (r : Resource) : Draft Workflow := do
  return .request (← newWorkflowId) r

/-- A new release of a resource. -/
def release (r : Resource) : Draft Workflow := do
  return .release (← newWorkflowId) r

/-! ## Two operands -/

/-- One workflow after the other.  A leaf on both sides would have to end before it starts;
the first such leaf of the second side is named. -/
def sequence (first second : Workflow) : Draft Workflow :=
  match second.leaves.find? (·.id ∈ first.leafIds) with
  | some leaf => throw (.circularDependency leaf.label leaf.id)
  | none => do return .seq (← newWorkflowId) first second

/-- The name of the first activity that starts at one of the given nodes. -/
def activityAmong? (network : Network) (nodes : List NodeId) : Option String :=
  (network.activityEdges.find? (·.source ∈ nodes)).bind Edge.activityName?

/-- Both workflows at once.  The union takes its id first and is then tried out: if the two
sides order their shared parts in contradicting ways, it is refused. -/
def merge (first second : Workflow) : Draft Workflow := do
  let union := Workflow.overlap (← newWorkflowId) first second
  let network := union.network
  match network.topologicalOrder with
  | .ok _ => return union
  | .error (.cycle nodes) =>
      throw (.circularDependency ((activityAmong? network nodes).getD union.label) union.id)
  | .error fault => throw fault

/-! ## Many operands -/

/-- All workflows one after the other, from left to right. -/
def chain : List Workflow → Draft Workflow
  | [] => throw (.emptyComposition .chain)
  | first :: rest => rest.foldlM sequence first

/-- Drafts a workflow for each item and merges it at once with what is there already. -/
def mergeEach {α : Type} (draft : α → Draft Workflow) : List α → Draft Workflow
  | [] => throw (.emptyComposition .mergeAll)
  | first :: rest => do
      rest.foldlM (fun union item => do merge union (← draft item)) (← draft first)

/-- All workflows at once, merged from left to right. -/
def mergeAll (ws : List Workflow) : Draft Workflow :=
  mergeEach pure ws

/-- All workflows side by side between one shared entry and one shared exit.  Every branch
is put between the two before any two branches are merged. -/
def simultaneous (branches : List Workflow) : Draft Workflow := do
  let entry ← idle
  let exit ← idle
  match ← branches.mapM fun branch => chain [entry, branch, exit] with
  | [] => throw (.emptyComposition .simultaneous)
  | framed => mergeAll framed

/-- The process, holding the resources from before its start until after its end.  They are
requested together and released together, the last one first. -/
def holding (process : Workflow) (resources : List Resource) : Draft Workflow :=
  if resources.isEmpty then throw .emptyResources
  else
    match Resource.firstRepeat? [] resources with
    | some r => throw (.duplicateResource r.text)
    | none => do
        let requests ← mergeEach request resources
        let releases ← mergeEach release resources.reverse
        let expansion ← chain [requests, process, releases]
        return .holding (← newWorkflowId) process resources expansion

/-! ## What a draft takes from the supply -/

/-- Without a shared leaf a sequence takes one id. -/
theorem sequence_of_disjoint {first second : Workflow} (s : Supply)
    (h : ∀ leaf ∈ second.leaves, leaf.id ∉ first.leafIds) :
    sequence first second s =
      .ok (.seq ⟨s.workflows⟩ first second) { s with workflows := s.workflows + 1 } := by
  have hnone : second.leaves.find? (·.id ∈ first.leafIds) = none := by
    simpa using h
  rw [sequence, hnone]
  rfl

/-- A refused sequence takes no id. -/
theorem sequence_of_shared {first second leaf : Workflow} (s : Supply)
    (h : second.leaves.find? (·.id ∈ first.leafIds) = some leaf) :
    sequence first second s = .error (.circularDependency leaf.label leaf.id) s := by
  rw [sequence, h]
  rfl

/-- A union that can be ordered takes one id. -/
theorem merge_of_ordered {first second : Workflow} {order : List NodeId} (s : Supply)
    (h : (Workflow.overlap ⟨s.workflows⟩ first second).network.topologicalOrder = .ok order) :
    merge first second s =
      .ok (.overlap ⟨s.workflows⟩ first second) { s with workflows := s.workflows + 1 } := by
  simp only [merge, newWorkflowId, bind, EStateM.bind, h]
  rfl

/-- A refused union has taken its id. -/
theorem merge_of_cyclic {first second : Workflow} {nodes : List NodeId} (s : Supply)
    (h : (Workflow.overlap ⟨s.workflows⟩ first second).network.topologicalOrder =
      .error (.cycle nodes)) :
    merge first second s =
      .error (.circularDependency
        ((activityAmong? (Workflow.overlap ⟨s.workflows⟩ first second).network nodes).getD
          (Workflow.overlap ⟨s.workflows⟩ first second).label) ⟨s.workflows⟩)
        { s with workflows := s.workflows + 1 } := by
  simp only [merge, newWorkflowId, bind, EStateM.bind, h]
  rfl

theorem chain_singleton (w : Workflow) : chain [w] = pure w := rfl

/-- A longer chain is a sequence that ends with its last workflow. -/
theorem chain_concat {ws : List Workflow} (h : ws ≠ []) (last : Workflow) :
    chain (ws ++ [last]) = chain ws >>= fun first => sequence first last := by
  cases ws with
  | nil => exact absurd rfl h
  | cons first rest => simp [chain, List.foldlM_append]

theorem mergeAll_singleton (w : Workflow) : mergeAll [w] = pure w := by
  simp [mergeAll, mergeEach]

/-- A longer union is a merge whose second side is its last workflow. -/
theorem mergeAll_concat {ws : List Workflow} (h : ws ≠ []) (last : Workflow) :
    mergeAll (ws ++ [last]) = mergeAll ws >>= fun union => merge union last := by
  cases ws with
  | nil => exact absurd rfl h
  | cons first rest => simp [mergeAll, mergeEach, List.foldlM_append]

theorem holding_nil (process : Workflow) : holding process [] = throw .emptyResources := rfl

theorem holding_of_repeat (process : Workflow) {resources : List Resource} {r : Resource}
    (h : Resource.firstRepeat? [] resources = some r) :
    holding process resources = throw (.duplicateResource r.text) := by
  cases resources with
  | nil => cases h
  | cons first rest => rw [holding, if_neg (by simp), h]

end Draft

/-- Two outcomes agree when both are the same workflow, or both fail for the same cause. -/
def sameOutcome : Except Fault Workflow → Except Fault Workflow → Bool
  | .ok a, .ok b => a.same b
  | .error f, .error g => f = g
  | _, _ => false

end ActivityNetwork
