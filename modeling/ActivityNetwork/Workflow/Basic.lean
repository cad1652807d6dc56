import ActivityNetwork.Duration
import ActivityNetwork.Resource

/-!
# Workflows

A workflow describes work by its parts: timed activities and resource markers at the leaves,
and above them what runs in sequence, what overlaps, and what holds resources.  Each part has
an id.  A part that is used in several places is one and the same part there, and its id says
so; whoever walks through a workflow can therefore pass over what it has met before.
-/

namespace ActivityNetwork

/-- A description of work. -/
inductive Workflow where
  /-- A single timed activity. -/
  | activity (id : WorkflowId) (name : String) (duration : Duration)
  /-- The request of a resource. -/
  | request (id : WorkflowId) (resource : Resource)
  /-- The release of a resource. -/
  | release (id : WorkflowId) (resource : Resource)
  /-- Every exit of the first part is passed before any entry of the second. -/
  | seq (id : WorkflowId) (first second : Workflow)
  /-- Both parts, and what they share once. -/
  | overlap (id : WorkflowId) (first second : Workflow)
  /-- A process that holds resources from before its start until after its end.  The
  expansion says the same by markers in sequence. -/
  | holding (id : WorkflowId) (process : Workflow) (resources : List Resource)
      (expansion : Workflow)
  deriving Inhabited

namespace Workflow

/-- The identity of a workflow. -/
def id : Workflow → WorkflowId
  | activity id .. => id
  | request id _ => id
  | release id _ => id
  | seq id .. => id
  | overlap id .. => id
  | holding id .. => id

/-- Two workflows are the same one when their ids agree. -/
def same (a b : Workflow) : Bool :=
  a.id == b.id

/-- Whether this is an activity or a marker. -/
def isLeaf : Workflow → Bool
  | activity .. => true
  | request .. => true
  | release .. => true
  | seq .. => false
  | overlap .. => false
  | holding .. => false

/-- The name of an activity. -/
def activityName? : Workflow → Option String
  | activity _ name _ => some name
  | _ => none

/-- A short description for people. -/
def label : Workflow → String
  | activity _ name _ => name
  | request _ resource => s!"request({resource.text})"
  | release _ resource => s!"release({resource.text})"
  | seq id .. => s!"seq({id.text})"
  | overlap id .. => s!"union({id.text})"
  | holding _ process .. => process.label ++ " using resources"

/-- The places that a part can have in a workflow. -/
inductive Part where
  | first
  | second
  | process
  | expansion
  deriving DecidableEq, Repr

/-- The part that stands in the given place. -/
def part? : Workflow → Part → Option Workflow
  | seq _ first _, .first => some first
  | seq _ _ second, .second => some second
  | overlap _ first _, .first => some first
  | overlap _ _ second, .second => some second
  | holding _ process _ _, .process => some process
  | holding _ _ _ expansion, .expansion => some expansion
  | _, _ => none

theorem same_iff (a b : Workflow) : a.same b = true ↔ a.id = b.id := by
  simp [same]

end Workflow

end ActivityNetwork
