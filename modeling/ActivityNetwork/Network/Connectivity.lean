import ActivityNetwork.Network.Basic

/-!
# Connectivity

Which nodes hang together with the first node of a network when the direction of edges is
ignored.  A walk may pass through edge ends that are no nodes of the network.
-/

namespace ActivityNetwork

namespace Network

/-- The other ends of all edges at a node. -/
def neighbours (g : Network) (id : NodeId) : List NodeId :=
  g.successors id ++ g.predecessors id

/-- What is left of `unvisited` after a search from the places on the stack.  The search
ends because each round visits a place or shortens the stack. -/
def sweep (g : Network) (unvisited stack : List NodeId) : List NodeId :=
  match stack with
  | [] => unvisited
  | id :: rest =>
      if id ∈ unvisited then sweep g (unvisited.erase id) (g.neighbours id ++ rest)
      else sweep g unvisited rest
termination_by (unvisited.length, stack.length)
decreasing_by
  · rename_i h
    apply Prod.Lex.left
    rw [List.length_erase_of_mem h]
    have := List.length_pos_of_mem h
    omega
  · exact Prod.Lex.right _ (by simp)

/-- Every place that a walk can visit: the nodes and the ends of edges. -/
def places (g : Network) : OrderedSet NodeId :=
  g.nodes.keys.union (.ofList g.endpoints)

/-- The nodes that no undirected walk links to the first node, in the order of the nodes. -/
def disconnected (g : Network) : List NodeId :=
  match g.nodes.keys.toList with
  | [] => []
  | first :: rest =>
      let left := g.sweep g.places.toList [first]
      (first :: rest).filter (· ∈ left)

theorem mem_places {g : Network} {id : NodeId} :
    id ∈ g.places ↔ id ∈ g.nodes.keys ∨ id ∈ g.endpoints := by
  simp [places]

end Network

end ActivityNetwork
