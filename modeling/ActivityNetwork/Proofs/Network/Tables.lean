import ActivityNetwork.Proofs.Network.Sorting

/-!
# Sorting from tables

Sorting can be done from two tables that one pass over the edges fills: how many edges enter each
node, and which nodes each node leads to, both with every parallel edge and every loop counted by
itself.  A round takes the first node from the queue and lowers the count of everything that it
leads to, one edge at a time.  Nothing in the tables says that there is a count to lower.
`Sorting.settle?` therefore refuses a node without a count as well as a count of zero.

On a network whose edge ends are nodes no round is ever refused, and the rounds go through the same
states as `Sorting.run` (`Sorting.rounds?_eq_run`).  What is true of these states, from the first
to the last, is `Sorting.Sound`; `sorting_rounds` says it in terms of the edges.
-/

namespace ActivityNetwork

/-- How many edges enter each node, and where the edges lead that leave it. -/
structure Tables where
  counts : OrderedMap NodeId Nat
  targets : OrderedMap NodeId (List NodeId)

namespace Tables

/-- The targets entered for a node; none if the node is not in the table. -/
def targetsOf (t : Tables) (id : NodeId) : List NodeId :=
  (t.targets.find? id).getD []

/-- Enters one more edge. -/
def enter (t : Tables) (e : Edge) : Tables where
  counts := t.counts.insert e.target ((t.counts.find? e.target).getD 0 + 1)
  targets := t.targets.insert e.source (t.targetsOf e.source ++ [e.target])

theorem targetsOf_enter (t : Tables) (e : Edge) (id : NodeId) :
    (t.enter e).targetsOf id =
      t.targetsOf id ++ if e.source = id then [e.target] else [] := by
  rw [targetsOf, enter, OrderedMap.find?_insert]
  by_cases hSource : e.source = id
  · simp [hSource]
  · simp [hSource, Ne.symm hSource, targetsOf]

/-- Each node gets the targets of its edges, in the order of the edges. -/
theorem targetsOf_foldl_enter (es : List Edge) (t : Tables) (id : NodeId) :
    (es.foldl enter t).targetsOf id =
      t.targetsOf id ++ (es.filter (·.source = id)).map Edge.target := by
  induction es generalizing t with
  | nil => simp
  | cons e rest ih =>
      rw [List.foldl_cons, ih, targetsOf_enter]
      by_cases hSource : e.source = id <;> simp [hSource]

/-- Entering an edge between known nodes raises the count of its target. -/
theorem counts_enter {t : Tables} {nodes : OrderedMap NodeId NodeKind} {count : NodeId → Nat}
    (hCounts : t.counts = nodes.mapValues fun id _ => count id) {e : Edge}
    (hTarget : e.target ∈ nodes.keys) :
    (t.enter e).counts =
      nodes.mapValues fun id _ => count id + if e.target = id then 1 else 0 := by
  obtain ⟨kind, hKind⟩ := OrderedMap.mem_keys.1 hTarget
  have hFind : (nodes.mapValues fun id _ => count id).find? e.target = some (count e.target) := by
    rw [OrderedMap.find?_mapValues, OrderedMap.find?_eq_some_iff.2 hKind, Option.map_some]
  have hKey : e.target ∈ (nodes.mapValues fun id _ => count id).keys := by
    rwa [OrderedMap.keys_mapValues]
  refine OrderedMap.ext_entries ?_
  rw [enter, hCounts, hFind, OrderedMap.entries_insert_of_mem hKey]
  simp only [OrderedMap.entries_mapValues, List.map_map]
  refine List.map_congr_left fun n _ => ?_
  by_cases hSelf : n.1 = e.target
  · simp [hSelf]
  · simp [hSelf, Ne.symm hSelf]

/-- Each node gets the number of edges that enter it. -/
theorem counts_foldl_enter {nodes : OrderedMap NodeId NodeKind} (es : List Edge)
    (hTargets : ∀ e ∈ es, e.target ∈ nodes.keys) {t : Tables} (count : NodeId → Nat)
    (hCounts : t.counts = nodes.mapValues fun id _ => count id) :
    (es.foldl enter t).counts =
      nodes.mapValues fun id _ => count id + es.countP (·.target = id) := by
  induction es generalizing t count with
  | nil => exact hCounts
  | cons e rest ih =>
      obtain ⟨hHead, hRest⟩ := List.forall_mem_cons.1 hTargets
      rw [List.foldl_cons, ih hRest _ (counts_enter hCounts hHead)]
      congr 1
      funext id _
      rw [List.countP_cons]
      simp only [decide_eq_true_eq]
      omega

end Tables

/-- The tables after one pass over the edges.  All nodes are in the table of counts from the
beginning. -/
def Network.tables (g : Network) : Tables :=
  g.edges.toList.foldl Tables.enter ⟨g.nodes.mapValues fun _ _ => 0, .empty⟩

namespace Sorting

open Network

/-- Before the first round, the nodes without a count are in the queue. -/
def fromTables (t : Tables) : Sorting where
  waiting := t.counts
  queue := (t.counts.entries.filter (·.2 = 0)).map Prod.fst
  listed := []

/-- Lowers the count of the node by one and puts it into the queue at zero.  This is refused if the
node has no count, or if its count is zero already. -/
def settle? (s : Sorting) (id : NodeId) : Option Sorting := do
  let count ← s.waiting.find? id
  guard (count ≠ 0)
  return { s with
    waiting := s.waiting.insert id (count - 1)
    queue := if count - 1 = 0 then s.queue ++ [id] else s.queue }

/-- Lists the first node of the queue and settles its edges; refused if one of them is. -/
def round? (t : Tables) (s : Sorting) : Option Sorting :=
  match s.queue with
  | [] => some s
  | id :: rest =>
      (t.targetsOf id).foldlM settle? { s with queue := rest, listed := s.listed ++ [id] }

/-- So many rounds; refused if one of them is. -/
def rounds? (t : Tables) : Nat → Sorting → Option Sorting
  | 0, s => some s
  | n + 1, s => (s.round? t).bind (rounds? t n)

variable {g : Network} {s : Sorting}

/-! ## The tables of a network -/

theorem targetsOf_tables (g : Network) (id : NodeId) : g.tables.targetsOf id = g.successors id :=
  Tables.targetsOf_foldl_enter g.edges.toList _ id

theorem fromTables_eq_start (hClosed : g.Closed) : fromTables g.tables = start g := by
  have hCounts : g.tables.counts = (start g).waiting := by
    rw [tables, Tables.counts_foldl_enter g.edges.toList (fun e he => (hClosed e he).2)
      (fun _ => 0) rfl]
    simp only [start, predecessors, List.length_map, List.countP_eq_length_filter, Nat.zero_add]
  rw [fromTables, hCounts]
  rfl

/-! ## No round is refused -/

theorem settle?_of_waiting {id : NodeId} {remaining : Nat}
    (hFind : s.waiting.find? id = some (remaining + 1)) : s.settle? id = some (s.settle id) := by
  rw [settle?, hFind, settle_of_waiting hFind]
  simp [guard]

/-- Where there are enough open edges, each of them can be settled. -/
theorem foldlM_settle? (cs : List NodeId) (hEnough : s.Enough cs) :
    cs.foldlM settle? s = some (cs.foldl settle s) := by
  induction cs generalizing s with
  | nil => rfl
  | cons c rest ih =>
      obtain ⟨remaining, hFind, -⟩ := hEnough.head
      rw [List.foldlM_cons, settle?_of_waiting hFind, Option.bind_eq_bind, Option.bind_some,
        ih hEnough.settle, List.foldl_cons]

theorem round?_eq_step (hSound : Sound g s) (hClosed : g.Closed) :
    s.round? g.tables = some (s.step g) := by
  cases hQueue : s.queue with
  | nil => rw [round?, hQueue, step_of_queue_nil g hQueue]
  | cons x rest =>
      rw [round?, hQueue, step_of_queue_cons g hQueue]
      simp only [targetsOf_tables]
      exact foldlM_settle? _ (hSound.enough_successors hClosed hQueue)

/-- However many rounds there are, none is refused, and they are the steps of sorting. -/
theorem rounds?_eq_run (hSound : Sound g s) (hClosed : g.Closed) (n : Nat) :
    s.rounds? g.tables n = some (run g n s) := by
  induction n generalizing s with
  | zero => rfl
  | succ n ih =>
      rw [rounds?, round?_eq_step hSound hClosed, Option.bind_some, ih (hSound.step hClosed)]
      rfl

/-! ## The loop -/

theorem openEdges_eq_countP (g : Network) (listed : List NodeId) (id : NodeId) :
    g.openEdges listed id = g.edges.toList.countP fun e => e.target = id ∧ e.source ∉ listed := by
  simp only [openEdges, predecessors, List.countP_map, List.countP_filter]
  refine List.countP_congr fun e _ => ?_
  simp [and_comm]

/-- Sorting a network whose edge ends are nodes, from its tables.  After any number of rounds, none
of which was refused, the count of each node is the number of edges that enter it from nodes not
listed, and the queue holds exactly the nodes with count zero that are not listed.  Whatever was
ever put into the queue is listed or still in it, and no node is there twice; the next round is not
refused either, and only adds to this.  There is nothing left in the queue after as many rounds as
there are nodes. -/
theorem sorting_rounds (hClosed : g.Closed) (n : Nat) :
    ∃ s, (fromTables g.tables).rounds? g.tables n = some s ∧ s = run g n (start g) ∧
      (∀ id ∈ g.nodes.keys, s.waiting.find? id =
        some (g.edges.toList.countP fun e => e.target = id ∧ e.source ∉ s.listed)) ∧
      (∀ id, id ∈ s.queue ↔ s.waiting.find? id = some 0 ∧ id ∉ s.listed) ∧
      (s.listed ++ s.queue).Nodup ∧
      (∃ next, s.round? g.tables = some next ∧
        s.listed ++ s.queue <+: next.listed ++ next.queue) ∧
      (s.queue ≠ [] → n < g.order) := by
  have hSound := (sound_start g).run hClosed n
  refine ⟨run g n (start g), ?_, rfl, fun id hNode => ?_, fun id => ?_, hSound.nodup,
    ⟨_, round?_eq_step hSound hClosed, hSound.queued_prefix hClosed 1⟩, lt_order_of_queue hClosed⟩
  · rw [fromTables_eq_start hClosed, rounds?_eq_run (sound_start g) hClosed]
  · rw [hSound.waiting id hNode, openEdges_eq_countP]
  · rw [hSound.queue, and_iff_right_iff_imp]
    rintro ⟨hZero, -⟩
    rw [← hSound.keys, OrderedMap.mem_keys]
    exact ⟨0, OrderedMap.find?_eq_some_iff.1 hZero⟩

namespace Sample

/-- Two parallel edges lead from node 1 to node 2, which also leads to itself. -/
def looped : Network where
  nodes := .ofList [(⟨2⟩, .boundary), (⟨3⟩, .boundary), (⟨1⟩, .boundary)]
  edges := .ofList [.dependency ⟨1⟩ ⟨2⟩, .dependency ⟨2⟩ ⟨2⟩, .activity ⟨1⟩ ⟨2⟩ "carry" .zero,
    .dependency ⟨1⟩ ⟨3⟩]
  entries := .empty
  exits := .empty

end Sample

/-- The loop is the one edge into node 2 that is still open when node 1 is listed. -/
theorem sorting_rounds_looped :
    Sample.looped.Closed ∧ ∃ s,
      (fromTables Sample.looped.tables).rounds? Sample.looped.tables 1 = some s ∧
        s.listed = [⟨1⟩] ∧ s.queue = [⟨3⟩] ∧ s.waiting.find? ⟨2⟩ = some 1 := by
  have hClosed : Sample.looped.Closed := find?_endpoints_eq_none_iff.1 (by decide)
  obtain ⟨s, hRounds, rfl, hCounts, -⟩ := sorting_rounds hClosed 1
  exact ⟨hClosed, _, hRounds, by decide +kernel, by decide +kernel,
    (hCounts ⟨2⟩ (by decide)).trans (by decide +kernel)⟩

end Sorting

end ActivityNetwork
