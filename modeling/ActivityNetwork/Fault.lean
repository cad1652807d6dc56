import ActivityNetwork.Identity

/-!
# Faults

Every way in which building a workflow or ordering a network can fail.  A fault is a cause;
its wording is given by `Fault.message` alone.
-/

namespace ActivityNetwork

/-- The operators that take any positive number of operands. -/
inductive Operator where
  | chain
  | mergeAll
  | simultaneous
  deriving DecidableEq, Repr

namespace Operator

def name : Operator → String
  | chain => "chain"
  | mergeAll => "merge_all"
  | simultaneous => "simultaneous"

end Operator

/-- The cause of a failure. -/
inductive Fault where
  /-- An activity would have to finish before it starts. -/
  | circularDependency (process : String) (id : WorkflowId)
  /-- A process was to hold resources, and none was given. -/
  | emptyResources
  /-- One resource was listed twice for the same process. -/
  | duplicateResource (resource : String)
  /-- An operator was given nothing to combine. -/
  | emptyComposition (operator : Operator)
  /-- Something of the given kind does not exist. -/
  | notFound (kind : String) (id : String)
  /-- The ordering constraints of a network are cyclic. -/
  | cycle (nodes : List NodeId)
  deriving DecidableEq, Repr

namespace Fault

def message : Fault → String
  | circularDependency process id => s!"Circular dependency on {process} ({id.text})"
  | emptyResources => "At least one resource is required"
  | duplicateResource resource => s!"Resource {resource} is requested more than once"
  | emptyComposition operator => s!"{operator.name} needs at least one operand"
  | notFound kind id => s!"{kind} not found: {id}"
  | cycle nodes => s!"Cycle detected involving nodes: {NodeId.listing nodes}"

end Fault

end ActivityNetwork
