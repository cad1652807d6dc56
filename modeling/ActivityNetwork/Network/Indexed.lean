import ActivityNetwork.Network.Basic

/-!
# Networks by position

Graph algorithms of other libraries number nodes from zero.  `Network.indexed` lists the
nodes in order and gives each edge by the positions of its ends.  An edge with an end that is
no node has no such form and is left out.

Such a library is handed a network piece by piece (`Network.handOver?`).  It answers each node with
an index, which is noted in a table, and takes an edge by the indices of its ends.  Which library it
is does not matter: `GraphLibrary` has what it is asked to do, and `GraphLibrary.Lawful` what is
relied on.
-/

namespace ActivityNetwork

/-- An edge between two positions in a list of nodes. -/
structure IndexedEdge where
  source : Nat
  target : Nat
  kind : EdgeKind
  deriving DecidableEq, Repr

/-- Nodes by position, and edges between positions. -/
structure IndexedNetwork where
  nodes : List (NodeId × NodeKind)
  edges : List IndexedEdge
  deriving DecidableEq, Repr

namespace Network

/-- The position of a node. -/
def position? (g : Network) (id : NodeId) : Option Nat :=
  g.nodes.keys.toList.findIdx? (· = id)

/-- The edge by the positions of its ends, if both are nodes. -/
def indexEdge? (g : Network) (e : Edge) : Option IndexedEdge :=
  match g.position? e.source, g.position? e.target with
  | some source, some target => some ⟨source, target, e.kind⟩
  | _, _ => none

/-- The nodes in order, and the edges between them in order. -/
def indexed (g : Network) : IndexedNetwork where
  nodes := g.nodes.entries
  edges := g.edges.toList.filterMap g.indexEdge?

/-- A position is the place at which the node stands. -/
theorem getElem?_of_position? {g : Network} {id : NodeId} {i : Nat}
    (h : g.position? id = some i) : g.nodes.keys.toList[i]? = some id := by
  obtain ⟨hi, hid, _⟩ := List.findIdx?_eq_some_iff_getElem.1 h
  rw [List.getElem?_eq_getElem hi]
  simpa using hid

theorem findIdx?_id_eq_none_iff {ids : List NodeId} {id : NodeId} :
    ids.findIdx? (· = id) = none ↔ id ∉ ids := by
  rw [List.findIdx?_eq_none_iff]
  constructor
  · intro h hid
    simpa using h id hid
  · intro h x hx
    simpa using fun hxid : x = id => h (hxid ▸ hx)

theorem position?_eq_none_iff {g : Network} {id : NodeId} :
    g.position? id = none ↔ id ∉ g.nodes.keys := by
  rw [position?, findIdx?_id_eq_none_iff, OrderedSet.mem_toList]

end Network

/-! ## Graphs of a library -/

/-- What a library of directed graphs can do.  Nodes and edges are found by index. -/
structure GraphLibrary (Graph : Type) where
  /-- A graph without nodes and edges, prepared for so many of them. -/
  withCapacity (nodes edges : Nat) : Graph
  /-- Takes a node and answers with its index, or refuses it. -/
  addNode (x : Graph) (n : NodeId × NodeKind) : Option (Graph × Nat)
  /-- Takes an edge between two indices, or refuses it. -/
  addEdge (x : Graph) (i : IndexedEdge) : Option Graph
  /-- The nodes and the edges in the order of their indices. -/
  contents (x : Graph) : IndexedNetwork
  /-- The greatest number of nodes, and of edges, if there is one. -/
  limit : Option Nat

namespace GraphLibrary

variable {Graph : Type}

/-- There is room for so many. -/
def Fits (lib : GraphLibrary Graph) (n : Nat) : Prop :=
  ∀ limit ∈ lib.limit, n ≤ limit

instance (lib : GraphLibrary Graph) (n : Nat) : Decidable (lib.Fits n) :=
  inferInstanceAs (Decidable (∀ limit ∈ lib.limit, n ≤ limit))

/-- What is relied on.  A node gets the next index and stays there.  It is refused only where there
is no room.  An edge comes after all others.  It is refused where there is no room or where no node
stands at one of its ends. -/
structure Lawful (lib : GraphLibrary Graph) : Prop where
  contents_withCapacity : ∀ nodes edges, lib.contents (lib.withCapacity nodes edges) = ⟨[], []⟩
  isSome_addNode : ∀ x n,
    (lib.addNode x n).isSome ↔ lib.Fits ((lib.contents x).nodes.length + 1)
  index_addNode : ∀ x n y i, lib.addNode x n = some (y, i) → i = (lib.contents x).nodes.length
  contents_addNode : ∀ x n y i, lib.addNode x n = some (y, i) →
    lib.contents y = ⟨(lib.contents x).nodes ++ [n], (lib.contents x).edges⟩
  isSome_addEdge : ∀ x i, (lib.addEdge x i).isSome ↔
    (i.source < (lib.contents x).nodes.length ∧ i.target < (lib.contents x).nodes.length) ∧
      lib.Fits ((lib.contents x).edges.length + 1)
  contents_addEdge : ∀ x i y, lib.addEdge x i = some y →
    lib.contents y = ⟨(lib.contents x).nodes, (lib.contents x).edges ++ [i]⟩

end GraphLibrary

/-- The graph of the library so far, and the table of indices. -/
structure HandOver (Graph : Type) where
  graph : Graph
  indices : OrderedMap NodeId Nat

namespace HandOver

variable {Graph : Type}

/-- Before the first node. -/
def start (lib : GraphLibrary Graph) (g : Network) : HandOver Graph :=
  ⟨lib.withCapacity g.order g.size, .empty⟩

/-- Hands over a node and notes the index that the library answers. -/
def node? (lib : GraphLibrary Graph) (h : HandOver Graph) (n : NodeId × NodeKind) :
    Option (HandOver Graph) :=
  (lib.addNode h.graph n).map fun (graph, index) => ⟨graph, h.indices.insert n.1 index⟩

/-- Hands over an edge if both ends are in the table. -/
def edge? (lib : GraphLibrary Graph) (h : HandOver Graph) (e : Edge) : Option (HandOver Graph) :=
  match h.indices.find? e.source, h.indices.find? e.target with
  | some source, some target =>
      (lib.addEdge h.graph ⟨source, target, e.kind⟩).map fun graph => { h with graph }
  | _, _ => some h

end HandOver

/-- Hands over all nodes and then all edges. -/
def Network.handOver? {Graph : Type} (lib : GraphLibrary Graph) (g : Network) : Option Graph := do
  let noded ← g.nodes.entries.foldlM (HandOver.node? lib) (.start lib g)
  (g.edges.toList.foldlM (HandOver.edge? lib) noded).map HandOver.graph

end ActivityNetwork
