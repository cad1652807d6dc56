import ActivityNetwork.Acceptance.Violation
import ActivityNetwork.Level
import ActivityNetwork.Network.Connectivity
import ActivityNetwork.Network.TopologicalOrder

/-!
# Acceptance of networks

A network may come from anywhere, so a scheduler checks it before it runs it.  Every network
has to be sound: edge ends are nodes, the order is not cyclic, and both frontiers are what the
edges make them.  A policy asks for more.  The check reports all violations, in a fixed order.
-/

namespace ActivityNetwork

/-- What a scheduler asks of a network beyond soundness. -/
structure Policy where
  singleEntry : Bool
  singleExit : Bool
  connected : Bool
  /-- The greatest number of nodes, where zero stands for no limit. -/
  maxNodes : Nat
  deriving DecidableEq, Repr

/-- What a check puts on record. -/
inductive CheckRecord where
  /-- The network is not accepted. -/
  | rejected (violations : Nat)
  deriving DecidableEq, Repr

namespace CheckRecord

def level : CheckRecord → Level
  | rejected _ => .debug

def text : CheckRecord → String
  | rejected _ => "graph rejected"

end CheckRecord

namespace Network

/-! ## One check at a time -/

/-- Whether a cycle is in the way of an order.  Dangling edge ends hide cycles. -/
def cycleViolations (g : Network) : List Violation :=
  if g.dangling.toList.isEmpty then
    match g.topologicalOrder with
    | .error (.cycle nodes) => [.cycle nodes]
    | _ => []
  else []

/-- Whether a declared frontier differs from the derived one as a set. -/
def frontierViolations (frontier : Frontier) (declared derived : OrderedSet NodeId) :
    List Violation :=
  if declared.same derived then []
  else [.frontierMismatch frontier declared.toList derived.toList]

/-- The violations of soundness. -/
def soundnessViolations (g : Network) : List Violation :=
  g.dangling.toList.map .danglingEndpoint ++ g.cycleViolations ++
    frontierViolations .entries g.entries g.sources ++
    frontierViolations .exits g.exits g.sinks

end Network

namespace Policy

/-- The policy that asks for nothing beyond soundness. -/
def lenient : Policy :=
  ⟨false, false, false, 0⟩

instance : Inhabited Policy :=
  ⟨lenient⟩

/-- The violations of what the policy asks for beyond soundness. -/
def extraViolations (p : Policy) (g : Network) : List Violation :=
  (if p.singleEntry ∧ 1 < g.entries.size then [.multipleEntries g.entries.size] else []) ++
    (if p.singleExit ∧ 1 < g.exits.size then [.multipleExits g.exits.size] else []) ++
    (if p.connected ∧ g.disconnected ≠ [] then [.disconnected g.disconnected] else []) ++
    (if 0 < p.maxNodes ∧ p.maxNodes < g.order then [.tooManyNodes g.order p.maxNodes] else [])

/-- All violations, in the order of the checks. -/
def violations (p : Policy) (g : Network) : List Violation :=
  g.soundnessViolations ++ p.extraViolations g

/-- Whether there is nothing against the network. -/
def accepts (p : Policy) (g : Network) : Bool :=
  (p.violations g).isEmpty

/-- The records of one check: none if the network is accepted. -/
def journal (p : Policy) (g : Network) : List CheckRecord :=
  if p.accepts g then [] else [.rejected (p.violations g).length]

theorem accepts_iff (p : Policy) (g : Network) : p.accepts g = true ↔ p.violations g = [] := by
  simp [accepts]

theorem accepts_lenient_iff (g : Network) :
    lenient.accepts g = true ↔ g.soundnessViolations = [] := by
  simp [accepts_iff, violations, extraViolations, lenient]

end Policy

end ActivityNetwork
