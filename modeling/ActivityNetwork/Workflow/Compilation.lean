import ActivityNetwork.Level
import ActivityNetwork.Network.Compose
import ActivityNetwork.Workflow.Basic

/-!
# Compilation of workflows

A workflow becomes a network in one pass from left to right.  The network of each part is
kept under the id of the part, so that a part which comes up again brings its nodes with it
instead of new ones.  The pass hands out node ids from zero, counts what it does, and keeps a
record of each part it meets.
-/

namespace ActivityNetwork

/-- What a compilation puts on record. -/
inductive CompileRecord where
  /-- The compilation of the workflow `root` begins. -/
  | opened (root : WorkflowId)
  /-- A part is met for the first time. -/
  | compiling (id : WorkflowId) (label : String)
  /-- A part is met again. -/
  | recalled (id : WorkflowId)
  /-- The compilation is over. -/
  | finished (nodes edges entries exits recalled : Nat)
  deriving DecidableEq, Repr

namespace CompileRecord

def level : CompileRecord → Level
  | opened .. => .debug
  | compiling .. => .trace
  | recalled .. => .trace
  | finished .. => .debug

/-- The text of the record; for the opening, the name of the activity on record. -/
def text : CompileRecord → String
  | opened .. => "compile"
  | compiling .. => "compiling"
  | recalled .. => "memo hit"
  | finished .. => "compiled process map"

end CompileRecord

/-- Counts of one compilation. -/
structure CompileStats where
  /-- Different workflows compiled. -/
  compiled : Nat
  /-- Times a workflow was met again. -/
  recalled : Nat
  /-- Nodes handed out. -/
  allocated : Nat
  deriving DecidableEq, Repr, Inhabited

namespace CompileStats

def zero : CompileStats :=
  ⟨0, 0, 0⟩

end CompileStats

/-- A compilation under way. -/
structure Progress where
  stats : CompileStats
  /-- The network of each workflow that is done. -/
  memo : OrderedMap WorkflowId Network
  journal : Array CompileRecord

namespace Progress

def start : Progress :=
  ⟨.zero, .empty, #[]⟩

def record (p : Progress) (r : CompileRecord) : Progress :=
  { p with journal := p.journal.push r }

/-- The next free node. -/
def nextNode (p : Progress) : NodeId :=
  ⟨p.stats.allocated⟩

/-- Hands out `n` nodes, beginning with `nextNode`. -/
def allocate (p : Progress) (n : Nat) : Progress :=
  { p with stats := { p.stats with allocated := p.stats.allocated + n } }

/-- The workflow is met again. -/
def meetAgain (p : Progress) (id : WorkflowId) : Progress :=
  { p.record (.recalled id) with stats := { p.stats with recalled := p.stats.recalled + 1 } }

/-- The workflow is done. -/
def store (p : Progress) (id : WorkflowId) (network : Network) : Progress :=
  { p with
    stats := { p.stats with compiled := p.stats.compiled + 1 }
    memo := p.memo.insert id network }

/-- The network on record for `w`, or else the one that `work` makes, which is then kept. -/
def once (p : Progress) (w : Workflow) (work : Progress → Network × Progress) :
    Network × Progress :=
  match p.memo.find? w.id with
  | some network => (network, p.meetAgain w.id)
  | none =>
      let (network, p) := work (p.record (.compiling w.id w.label))
      (network, p.store w.id network)

theorem once_of_done {p : Progress} {w : Workflow} {network : Network}
    (work : Progress → Network × Progress) (h : p.memo.find? w.id = some network) :
    p.once w work = (network, p.meetAgain w.id) := by
  rw [once, h]

theorem once_of_new {p : Progress} {w : Workflow} (work : Progress → Network × Progress)
    (h : p.memo.find? w.id = none) :
    p.once w work =
      ((work (p.record (.compiling w.id w.label))).1,
        (work (p.record (.compiling w.id w.label))).2.store w.id
          (work (p.record (.compiling w.id w.label))).1) := by
  rw [once, h]

@[simp]
theorem memo_record (p : Progress) (r : CompileRecord) : (p.record r).memo = p.memo := rfl

@[simp]
theorem memo_allocate (p : Progress) (n : Nat) : (p.allocate n).memo = p.memo := rfl

@[simp]
theorem memo_meetAgain (p : Progress) (id : WorkflowId) : (p.meetAgain id).memo = p.memo := rfl

theorem find?_store (p : Progress) (id other : WorkflowId) (network : Network) :
    (p.store id network).memo.find? other =
      if other = id then some network else p.memo.find? other :=
  OrderedMap.find?_insert ..

end Progress

namespace Workflow

/-- Compiles a workflow in the course of a larger compilation. -/
def realize : Workflow → Progress → Network × Progress
  | w@(activity _ name duration), p => p.once w fun p =>
      (.activity p.nextNode ⟨p.stats.allocated + 1⟩ name duration, p.allocate 2)
  | w@(request _ resource), p => p.once w fun p =>
      (.marker p.nextNode (.request resource), p.allocate 1)
  | w@(release _ resource), p => p.once w fun p =>
      (.marker p.nextNode (.release resource), p.allocate 1)
  | w@(seq _ first second), p => p.once w fun p =>
      let (a, p) := first.realize p
      let (b, p) := second.realize p
      (a.inSequence b, p)
  | w@(overlap _ first second), p => p.once w fun p =>
      let (a, p) := first.realize p
      let (b, p) := second.realize p
      (a.overlaid b, p)
  | w@(holding _ _ _ expansion), p => p.once w expansion.realize

end Workflow

/-- The outcome of a compilation. -/
structure Compilation where
  network : Network
  stats : CompileStats
  journal : List CompileRecord

namespace Workflow

/-- Compiles a workflow. -/
def compile (w : Workflow) : Compilation :=
  let (network, p) := w.realize .start
  { network
    stats := p.stats
    journal := .opened w.id :: p.journal.toList ++
      [.finished network.order network.size network.entries.size network.exits.size
        p.stats.recalled] }

/-- The network of a workflow. -/
def network (w : Workflow) : Network :=
  w.compile.network

end Workflow

end ActivityNetwork
