import ActivityNetwork.Fault
import ActivityNetwork.Network.Basic

/-!
# Topological order

The nodes of a network are listed level by level.  A node waits for its incoming edges; once
none of them is open any more it joins the queue, and the queue is emptied from the front.
`Sorting` is the state between two nodes, `Sorting.step` takes one node from the queue, and a
run of as many steps as there are nodes empties the queue.
-/

namespace ActivityNetwork

/-- The state of sorting between two nodes. -/
structure Sorting where
  /-- For each node, how many edges enter it from nodes that are not listed yet. -/
  waiting : OrderedMap NodeId Nat
  /-- The nodes that wait for nothing and are not listed yet. -/
  queue : List NodeId
  /-- The nodes listed so far. -/
  listed : List NodeId

namespace Sorting

/-- Before the first step every node waits for all its incoming edges. -/
def start (g : Network) : Sorting :=
  let waiting := g.nodes.mapValues fun id _ => (g.predecessors id).length
  { waiting
    queue := (waiting.entries.filter (·.2 = 0)).map Prod.fst
    listed := [] }

/-- One incoming edge of the node is settled; the last one puts the node into the queue. -/
def settle (s : Sorting) (id : NodeId) : Sorting :=
  match s.waiting.find? id with
  | some (remaining + 1) =>
      { s with
        waiting := s.waiting.insert id remaining
        queue := if remaining = 0 then s.queue ++ [id] else s.queue }
  | _ => s

/-- Lists the first node of the queue and settles the edges that leave it. -/
def step (g : Network) (s : Sorting) : Sorting :=
  match s.queue with
  | [] => s
  | id :: rest =>
      (g.successors id).foldl settle { s with queue := rest, listed := s.listed ++ [id] }

/-- So many steps, one after the other. -/
def run (g : Network) : Nat → Sorting → Sorting
  | 0, s => s
  | n + 1, s => run g n (s.step g)

/-- The nodes that still wait for something, in the order of the nodes. -/
def blocked (s : Sorting) : List NodeId :=
  (s.waiting.entries.filter (0 < ·.2)).map Prod.fst

/-- The state in which sorting ends. -/
def final (g : Network) : Sorting :=
  run g g.order (start g)

theorem step_of_queue_nil (g : Network) {s : Sorting} (h : s.queue = []) : s.step g = s := by
  rw [step, h]

theorem step_of_queue_cons (g : Network) {s : Sorting} {id : NodeId} {rest : List NodeId}
    (h : s.queue = id :: rest) :
    s.step g =
      (g.successors id).foldl settle { s with queue := rest, listed := s.listed ++ [id] } := by
  rw [step, h]

theorem mem_queue_start {g : Network} {id : NodeId} :
    id ∈ (start g).queue ↔ id ∈ g.nodes.keys ∧ g.predecessors id = [] := by
  simp only [start, OrderedMap.entries_mapValues, List.mem_map, List.mem_filter,
    OrderedMap.mem_keys]
  constructor
  · rintro ⟨_, ⟨⟨e, he, rfl⟩, hzero⟩, rfl⟩
    exact ⟨⟨e.2, he⟩, by simpa using hzero⟩
  · rintro ⟨⟨kind, he⟩, hnone⟩
    exact ⟨(id, 0), ⟨⟨(id, kind), he, by simp [hnone]⟩, rfl⟩, rfl⟩

end Sorting

namespace Network

/-- The nodes so that every edge runs forward: all nodes without incoming edges first, in the
order of the nodes, then what becomes free.  An edge end that is no node is reported first;
otherwise, if the order is cyclic, the nodes that could not be listed. -/
def topologicalOrder (g : Network) : Except Fault (List NodeId) :=
  match g.endpoints.find? (· ∉ g.nodes.keys) with
  | some id => .error (.notFound "Node" id.text)
  | none =>
      let final := Sorting.final g
      if final.listed.length = g.order then .ok final.listed else .error (.cycle final.blocked)

/-- Whether the network has a topological order. -/
def isAcyclic (g : Network) : Bool :=
  g.topologicalOrder.isOk

/-- That every edge end is a node and the order is not cyclic, or the first problem found. -/
def checkIntegrity (g : Network) : Except Fault Unit :=
  g.topologicalOrder.map fun _ => ()

theorem checkIntegrity_eq_ok_iff (g : Network) :
    g.checkIntegrity = .ok () ↔ ∃ order, g.topologicalOrder = .ok order := by
  cases h : g.topologicalOrder <;> simp [checkIntegrity, h, Except.map]

theorem checkIntegrity_eq_error_iff (g : Network) (fault : Fault) :
    g.checkIntegrity = .error fault ↔ g.topologicalOrder = .error fault := by
  cases h : g.topologicalOrder <;> simp [checkIntegrity, h, Except.map]

end Network

end ActivityNetwork
