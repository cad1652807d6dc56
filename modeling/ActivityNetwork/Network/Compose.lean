import ActivityNetwork.Network.Basic

/-!
# Building networks from smaller ones

The two kinds of smallest network, and the two ways to put networks together.  Nodes and
edges are always united; what differs is how the frontiers come about.
-/

namespace ActivityNetwork

namespace Network

/-- One node and no edge. -/
def marker (id : NodeId) (kind : NodeKind) : Network where
  nodes := .singleton id kind
  edges := .empty
  entries := .singleton id
  exits := .singleton id

/-- One activity between two nodes.  Nodes that coincide count once. -/
def activity (start finish : NodeId) (name : String) (duration : Duration) : Network where
  nodes := .ofList [(start, .boundary), (finish, .boundary)]
  edges := .singleton (.activity start finish name duration)
  entries := .singleton start
  exits := .singleton finish

/-- The dependency edges from every exit of `a` to every entry of `b`. -/
def links (a b : Network) : OrderedSet Edge where
  toList := a.exits.toList.flatMap fun x => b.entries.toList.map (Edge.dependency x)
  nodup := by
    rw [List.nodup_iff_pairwise_ne, List.pairwise_flatMap]
    constructor
    · intro x _
      have h := b.entries.nodup
      rw [List.nodup_iff_pairwise_ne] at h
      exact h.map _ fun y z hyz he => hyz (congrArg Edge.target he)
    · have h := a.exits.nodup
      rw [List.nodup_iff_pairwise_ne] at h
      refine h.imp fun hxy e he f hf hef => hxy ?_
      obtain ⟨_, _, rfl⟩ := List.mem_map.1 he
      obtain ⟨_, _, rfl⟩ := List.mem_map.1 hf
      exact congrArg Edge.source hef

/-- Every exit of `a` is passed before any entry of `b`. -/
def inSequence (a b : Network) : Network where
  nodes := a.nodes.union b.nodes
  edges := (a.edges.union b.edges).union (a.links b)
  entries := a.entries
  exits := b.exits

/-- Both networks side by side.  A frontier node that an edge of the other side enters (or
leaves) is no longer an entry (or an exit). -/
def overlaid (a b : Network) : Network :=
  let both : Network := ⟨a.nodes.union b.nodes, a.edges.union b.edges, .empty, .empty⟩
  { both with
    entries := (a.entries.union b.entries).filter (!both.isTarget ·)
    exits := (a.exits.union b.exits).filter (!both.isSource ·) }

theorem mem_links {a b : Network} {e : Edge} :
    e ∈ a.links b ↔ ∃ x ∈ a.exits, ∃ y ∈ b.entries, e = .dependency x y := by
  rw [← OrderedSet.mem_toList]
  simp only [links, List.mem_flatMap, List.mem_map, OrderedSet.mem_toList, eq_comm]

@[simp]
theorem nodes_inSequence (a b : Network) : (a.inSequence b).nodes = a.nodes.union b.nodes := rfl

@[simp]
theorem edges_inSequence (a b : Network) :
    (a.inSequence b).edges = (a.edges.union b.edges).union (a.links b) := rfl

@[simp]
theorem entries_inSequence (a b : Network) : (a.inSequence b).entries = a.entries := rfl

@[simp]
theorem exits_inSequence (a b : Network) : (a.inSequence b).exits = b.exits := rfl

@[simp]
theorem nodes_overlaid (a b : Network) : (a.overlaid b).nodes = a.nodes.union b.nodes := rfl

@[simp]
theorem edges_overlaid (a b : Network) : (a.overlaid b).edges = a.edges.union b.edges := rfl

theorem mem_entries_overlaid {a b : Network} {id : NodeId} :
    id ∈ (a.overlaid b).entries ↔
      (id ∈ a.entries ∨ id ∈ b.entries) ∧ ∀ e, e ∈ a.edges ∨ e ∈ b.edges → e.target ≠ id := by
  simp only [overlaid, OrderedSet.mem_filter, OrderedSet.mem_union, Bool.not_eq_eq_eq_not,
    Bool.not_true, ← Bool.not_eq_true, isTarget_iff, not_exists, not_and]

theorem mem_exits_overlaid {a b : Network} {id : NodeId} :
    id ∈ (a.overlaid b).exits ↔
      (id ∈ a.exits ∨ id ∈ b.exits) ∧ ∀ e, e ∈ a.edges ∨ e ∈ b.edges → e.source ≠ id := by
  simp only [overlaid, OrderedSet.mem_filter, OrderedSet.mem_union, Bool.not_eq_eq_eq_not,
    Bool.not_true, ← Bool.not_eq_true, isSource_iff, not_exists, not_and]

end Network

end ActivityNetwork
