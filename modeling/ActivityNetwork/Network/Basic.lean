import ActivityNetwork.Duration
import ActivityNetwork.Ordered.Map
import ActivityNetwork.Resource

/-!
# Activity networks

A network is what a scheduler walks.  Activities live on edges; nodes are bare boundaries,
except for the points at which a resource is requested or released.  All other edges only say
that one node comes before another.

A value of type `Network` need not make sense: its edges may have ends that are no nodes of
it, run in circles, or disagree with the declared frontiers.  Networks that are made from
workflows are sound; those that come from elsewhere have to be checked.
-/

namespace ActivityNetwork

/-- What a node marks. -/
inductive NodeKind where
  /-- The start or the end of an activity. -/
  | boundary
  /-- The point at which a resource is requested. -/
  | request (resource : Resource)
  /-- The point at which a resource is released. -/
  | release (resource : Resource)
  deriving DecidableEq, Repr, Inhabited

namespace NodeKind

/-- The resource that a marker concerns. -/
def resource? : NodeKind → Option Resource
  | boundary => none
  | request r => some r
  | release r => some r

/-- Equality up to the labels of resources. -/
def same : NodeKind → NodeKind → Bool
  | boundary, boundary => true
  | request r, request s => r.same s
  | release r, release s => r.same s
  | _, _ => false

/-- Whether this is a request for `r`. -/
def requests (r : Resource) : NodeKind → Bool
  | request s => s.same r
  | _ => false

/-- Whether this is a release of `r`. -/
def releases (r : Resource) : NodeKind → Bool
  | release s => s.same r
  | _ => false

theorem same_refl (k : NodeKind) : k.same k = true := by
  cases k <;> simp [same, Resource.same]

end NodeKind

/-- What an edge stands for. -/
inductive EdgeKind where
  /-- A timed activity. -/
  | activity (name : String) (duration : Duration)
  /-- The target may not be passed before the source. -/
  | dependency
  deriving DecidableEq, Repr

/-- A directed edge. -/
structure Edge where
  source : NodeId
  target : NodeId
  kind : EdgeKind
  deriving DecidableEq, Repr

namespace Edge

def activity (source target : NodeId) (name : String) (duration : Duration) : Edge :=
  ⟨source, target, .activity name duration⟩

def dependency (source target : NodeId) : Edge :=
  ⟨source, target, .dependency⟩

/-- The name of the activity that the edge stands for. -/
def activityName? (e : Edge) : Option String :=
  match e.kind with
  | .activity name _ => some name
  | .dependency => none

def isActivity (e : Edge) : Bool :=
  e.activityName?.isSome

def isDependency (e : Edge) : Bool :=
  !e.isActivity

end Edge

/-- Nodes with their kinds, edges, and the nodes at which execution begins and ends. -/
structure Network where
  nodes : OrderedMap NodeId NodeKind
  edges : OrderedSet Edge
  entries : OrderedSet NodeId
  exits : OrderedSet NodeId
  deriving DecidableEq

namespace Network

@[ext]
theorem ext_fields {g h : Network} (nodes : g.nodes = h.nodes) (edges : g.edges = h.edges)
    (entries : g.entries = h.entries) (exits : g.exits = h.exits) : g = h := by
  cases g
  cases h
  cases nodes
  cases edges
  cases entries
  cases exits
  rfl

def empty : Network :=
  ⟨.empty, .empty, .empty, .empty⟩

instance : Inhabited Network :=
  ⟨empty⟩

/-! ## Looking at one node -/

/-- What the node marks, if it is a node of the network. -/
def kind? (g : Network) (id : NodeId) : Option NodeKind :=
  g.nodes.find? id

/-- The targets of the edges that leave a node, once for each edge. -/
def successors (g : Network) (id : NodeId) : List NodeId :=
  (g.edges.toList.filter (·.source = id)).map Edge.target

/-- The sources of the edges that enter a node, once for each edge. -/
def predecessors (g : Network) (id : NodeId) : List NodeId :=
  (g.edges.toList.filter (·.target = id)).map Edge.source

/-- Whether some edge enters the node. -/
def isTarget (g : Network) (id : NodeId) : Bool :=
  g.edges.toList.any (·.target = id)

/-- Whether some edge leaves the node. -/
def isSource (g : Network) (id : NodeId) : Bool :=
  g.edges.toList.any (·.source = id)

theorem mem_successors {g : Network} {a b : NodeId} :
    b ∈ g.successors a ↔ ∃ e ∈ g.edges, e.source = a ∧ e.target = b := by
  simp [successors, ← OrderedSet.mem_toList, and_assoc]

theorem mem_predecessors {g : Network} {a b : NodeId} :
    a ∈ g.predecessors b ↔ ∃ e ∈ g.edges, e.target = b ∧ e.source = a := by
  simp [predecessors, ← OrderedSet.mem_toList, and_assoc]

theorem isTarget_iff {g : Network} {id : NodeId} :
    g.isTarget id = true ↔ ∃ e ∈ g.edges, e.target = id := by
  simp [isTarget, ← OrderedSet.mem_toList]

theorem isSource_iff {g : Network} {id : NodeId} :
    g.isSource id = true ↔ ∃ e ∈ g.edges, e.source = id := by
  simp [isSource, ← OrderedSet.mem_toList]

/-! ## Looking at the whole -/

/-- The number of nodes. -/
def order (g : Network) : Nat :=
  g.nodes.size

/-- The number of edges. -/
def size (g : Network) : Nat :=
  g.edges.size

/-- Edges that are timed activities. -/
def activityEdges (g : Network) : List Edge :=
  g.edges.toList.filter Edge.isActivity

/-- Edges that only impose an order. -/
def dependencyEdges (g : Network) : List Edge :=
  g.edges.toList.filter Edge.isDependency

/-- The ends of all edges, edge by edge, the source before the target. -/
def endpoints (g : Network) : List NodeId :=
  g.edges.toList.flatMap fun e => [e.source, e.target]

/-- The edge ends that are no nodes of the network, by first occurrence. -/
def dangling (g : Network) : OrderedSet NodeId :=
  .ofList (g.endpoints.filter (· ∉ g.nodes.keys))

/-- The nodes that no edge enters, derived from the edges alone. -/
def sources (g : Network) : OrderedSet NodeId :=
  g.nodes.keys.filter (!g.isTarget ·)

/-- The nodes that no edge leaves, derived from the edges alone. -/
def sinks (g : Network) : OrderedSet NodeId :=
  g.nodes.keys.filter (!g.isSource ·)

/-- The nodes at which the resource is requested. -/
def requestsOf (g : Network) (r : Resource) : List NodeId :=
  (g.nodes.entries.filter (·.2.requests r)).map Prod.fst

/-- The nodes at which the resource is released. -/
def releasesOf (g : Network) (r : Resource) : List NodeId :=
  (g.nodes.entries.filter (·.2.releases r)).map Prod.fst

theorem mem_endpoints {g : Network} {id : NodeId} :
    id ∈ g.endpoints ↔ ∃ e ∈ g.edges, id = e.source ∨ id = e.target := by
  simp [endpoints, ← OrderedSet.mem_toList]

theorem mem_dangling {g : Network} {id : NodeId} :
    id ∈ g.dangling ↔ id ∈ g.endpoints ∧ id ∉ g.nodes.keys := by
  simp [dangling]

theorem mem_sources {g : Network} {id : NodeId} :
    id ∈ g.sources ↔ id ∈ g.nodes.keys ∧ ∀ e ∈ g.edges, e.target ≠ id := by
  simp [sources, ← Bool.not_eq_true, isTarget_iff]

theorem mem_sinks {g : Network} {id : NodeId} :
    id ∈ g.sinks ↔ id ∈ g.nodes.keys ∧ ∀ e ∈ g.edges, e.source ≠ id := by
  simp [sinks, ← Bool.not_eq_true, isSource_iff]

/-! ## Equality of meaning -/

/-- Equality up to the order of insertion and the labels of resources. -/
def same (g h : Network) : Bool :=
  g.nodes.sameBy NodeKind.same h.nodes && g.edges.same h.edges &&
    g.entries.same h.entries && g.exits.same h.exits

end Network

end ActivityNetwork
