import ActivityNetwork.Identity

/-!
# Violations

The ways in which a network can fall short of what a scheduler accepts.
-/

namespace ActivityNetwork

/-- The two declared frontiers of a network. -/
inductive Frontier where
  | entries
  | exits
  deriving DecidableEq, Repr

namespace Frontier

def text : Frontier → String
  | entries => "start"
  | exits => "end"

end Frontier

/-- A reason for not accepting a network. -/
inductive Violation where
  /-- An edge ends at something that is no node of the network. -/
  | danglingEndpoint (node : NodeId)
  /-- The edges run in circles. -/
  | cycle (nodes : List NodeId)
  /-- A declared frontier is not the one that follows from the edges. -/
  | frontierMismatch (frontier : Frontier) (declared derived : List NodeId)
  /-- There is more than one entry. -/
  | multipleEntries (count : Nat)
  /-- There is more than one exit. -/
  | multipleExits (count : Nat)
  /-- Some nodes do not hang together with the first one. -/
  | disconnected (nodes : List NodeId)
  /-- There are more nodes than allowed. -/
  | tooManyNodes (count max : Nat)
  deriving DecidableEq, Repr

namespace Violation

def message : Violation → String
  | danglingEndpoint node => s!"Edge endpoint {node.text} is not a node of the graph"
  | cycle nodes => s!"Cycle detected involving nodes: {NodeId.listing nodes}"
  | frontierMismatch frontier declared derived =>
      s!"Declared {frontier.text} frontier {NodeId.listing declared} " ++
        s!"does not match derived {NodeId.listing derived}"
  | multipleEntries count => s!"Expected a single entry node, found {count}"
  | multipleExits count => s!"Expected a single exit node, found {count}"
  | disconnected nodes => s!"Disconnected nodes: {NodeId.listing nodes}"
  | tooManyNodes count max => s!"Node count {count} exceeds max {max}"

end Violation

end ActivityNetwork
