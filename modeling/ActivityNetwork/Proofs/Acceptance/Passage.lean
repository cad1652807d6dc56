import ActivityNetwork.Proofs.Acceptance.Verdict

/-!
# Ways through an accepted network

No check looks at whether a node can be reached.  It follows all the same: without cycles, going
backwards from a node ends at a node that nothing leads to, and in a sound network those are the
entries (`Sound.exists_entry`); going forwards ends at an exit.  Where only one entry and one exit
are allowed, everything lies between these two, so that asking for a connected network as well
changes nothing (`spans_of_accepts`).

A policy that allows one entry sees to it that there are not two.  That there is one follows from
having nodes at all: the empty network, which every policy accepts (`accepts_empty`), is the only
accepted one without an entry (`size_frontiers_iff_of_accepts`).
-/

namespace ActivityNetwork

open Relation

namespace Network

variable {g : Network} {id : NodeId}

theorem exists_node_of_order_pos (hPos : 0 < g.order) : ∃ id, id ∈ g.nodes.keys := by
  obtain ⟨⟨id, kind⟩, hEntry⟩ := List.exists_mem_of_length_pos hPos
  exact ⟨id, OrderedMap.mem_keys.2 ⟨kind, hEntry⟩⟩

namespace Sound

/-- Every node can be reached from an entry. -/
theorem exists_entry (hSound : g.Sound) (hNode : id ∈ g.nodes.keys) :
    ∃ a ∈ g.entries, ReflTransGen g.Link a id := by
  obtain ⟨a, ha, hPath, hFirst⟩ := hSound.acyclic.exists_first g.finite_nodes hNode
    fun _ _ _ hLink => (hSound.closed.of_link hLink).1
  exact ⟨a, (hSound.entries a).2 (mem_sources_iff_link.2 ⟨ha, hFirst⟩), hPath⟩

/-- Every node leads to an exit. -/
theorem exists_exit (hSound : g.Sound) (hNode : id ∈ g.nodes.keys) :
    ∃ b ∈ g.exits, ReflTransGen g.Link id b := by
  obtain ⟨b, hb, hPath, hLast⟩ := hSound.acyclic.exists_last g.finite_nodes hNode
    fun _ _ _ hLink => (hSound.closed.of_link hLink).2
  exact ⟨b, (hSound.exits b).2 (mem_sinks_iff_link.2 ⟨hb, hLast⟩), hPath⟩

theorem node_of_entry (hSound : g.Sound) (hEntry : id ∈ g.entries) : id ∈ g.nodes.keys :=
  (mem_sources.1 ((hSound.entries id).1 hEntry)).1

theorem node_of_exit (hSound : g.Sound) (hExit : id ∈ g.exits) : id ∈ g.nodes.keys :=
  (mem_sinks.1 ((hSound.exits id).1 hExit)).1

/-- A sound network without nodes has nothing else either. -/
theorem eq_empty (hSound : g.Sound) (hOrder : g.order = 0) : g = .empty := by
  have hNodes : g.nodes.entries = [] := List.length_eq_zero_iff.1 hOrder
  have hNone : ∀ id, id ∉ g.nodes.keys := by
    intro id hNode
    obtain ⟨kind, hEntry⟩ := OrderedMap.mem_keys.1 hNode
    rw [hNodes] at hEntry
    cases hEntry
  refine ext_fields (OrderedMap.ext_entries hNodes) (OrderedSet.ext_toList ?_)
    (OrderedSet.ext_toList ?_) (OrderedSet.ext_toList ?_)
  · exact List.eq_nil_iff_forall_not_mem.2 fun e he => hNone _ (hSound.closed e he).1
  · exact List.eq_nil_iff_forall_not_mem.2 fun id hid => hNone id (hSound.node_of_entry hid)
  · exact List.eq_nil_iff_forall_not_mem.2 fun id hid => hNone id (hSound.node_of_exit hid)

end Sound

end Network

namespace OrderedSet

/-- A set with a member and with no more than one has that member only. -/
theorem exists_only {α : Type} {s : OrderedSet α} {x : α} (hx : x ∈ s) (hSize : s.size ≤ 1) :
    ∃ a, s.toList = [a] ∧ ∀ y, y ∈ s ↔ y = a := by
  obtain ⟨a, ha⟩ :=
    List.length_eq_one_iff.1 (Nat.le_antisymm hSize (List.length_pos_of_mem hx))
  refine ⟨a, ha, fun y => ?_⟩
  rw [← mem_toList, ha, List.mem_singleton]

end OrderedSet

namespace Policy

variable {p : Policy} {g : Network}

theorem sound_of_accepts (hAccepts : p.accepts g = true) : g.Sound :=
  (accepts_iff_sound.1 hAccepts).1

/-! ## One way in and one way out -/

theorem exists_only_entry (hAccepts : p.accepts g = true) (hPos : 0 < g.order)
    (hSingle : p.singleEntry = true) :
    ∃ a, g.entries.toList = [a] ∧ a ∈ g.nodes.keys ∧
      ∀ id ∈ g.nodes.keys, ReflTransGen g.Link a id := by
  have hSound := sound_of_accepts hAccepts
  obtain ⟨node, hNode⟩ := Network.exists_node_of_order_pos hPos
  obtain ⟨first, hFirst, -⟩ := hSound.exists_entry hNode
  obtain ⟨a, hOnly, hMem⟩ :=
    OrderedSet.exists_only hFirst (accepts_iff_holds.1 hAccepts .singleEntry hSingle)
  refine ⟨a, hOnly, hSound.node_of_entry ((hMem a).2 rfl), fun id hId => ?_⟩
  obtain ⟨entry, hEntry, hPath⟩ := hSound.exists_entry hId
  exact (hMem entry).1 hEntry ▸ hPath

theorem exists_only_exit (hAccepts : p.accepts g = true) (hPos : 0 < g.order)
    (hSingle : p.singleExit = true) :
    ∃ b, g.exits.toList = [b] ∧ b ∈ g.nodes.keys ∧
      ∀ id ∈ g.nodes.keys, ReflTransGen g.Link id b := by
  have hSound := sound_of_accepts hAccepts
  obtain ⟨node, hNode⟩ := Network.exists_node_of_order_pos hPos
  obtain ⟨last, hLast, -⟩ := hSound.exists_exit hNode
  obtain ⟨b, hOnly, hMem⟩ :=
    OrderedSet.exists_only hLast (accepts_iff_holds.1 hAccepts .singleExit hSingle)
  refine ⟨b, hOnly, hSound.node_of_exit ((hMem b).2 rfl), fun id hId => ?_⟩
  obtain ⟨exit, hExit, hPath⟩ := hSound.exists_exit hId
  exact (hMem exit).1 hExit ▸ hPath

/-- An accepted network that hangs together is accepted as a connected one. -/
theorem accepts_connected (hAccepts : p.accepts g = true)
    (hConnected : ∀ a b, a ∈ g.nodes.keys → b ∈ g.nodes.keys → g.Connected a b) :
    Policy.accepts { p with connected := true } g = true := by
  have hHolds := accepts_iff_holds.1 hAccepts
  refine accepts_iff_holds.2 fun check => ?_
  cases check with
  | connected => exact fun _ => hConnected
  | frontier f =>
      cases f with
      | entries => exact hHolds (.frontier .entries)
      | exits => exact hHolds (.frontier .exits)
  | endpoints => exact hHolds .endpoints
  | order => exact hHolds .order
  | singleEntry => exact hHolds .singleEntry
  | singleExit => exact hHolds .singleExit
  | maxNodes => exact hHolds .maxNodes

/-- Whatever is accepted can be walked through: each node lies on a way from an entry to an exit.
With nodes, and with one entry and one exit at most, these two are there, everything lies between
them, and asking for a connected network in addition does not change the verdict. -/
theorem spans_of_accepts (hAccepts : p.accepts g = true) :
    (∀ id ∈ g.nodes.keys,
      (∃ a ∈ g.entries, ReflTransGen g.Link a id) ∧ ∃ b ∈ g.exits, ReflTransGen g.Link id b) ∧
    (0 < g.order → p.singleEntry = true → p.singleExit = true →
      (∃ a, g.entries.toList = [a] ∧ a ∈ g.nodes.keys ∧
        ∀ id ∈ g.nodes.keys, ReflTransGen g.Link a id) ∧
      (∃ b, g.exits.toList = [b] ∧ b ∈ g.nodes.keys ∧
        ∀ id ∈ g.nodes.keys, ReflTransGen g.Link id b) ∧
      Policy.accepts { p with connected := true } g = p.accepts g) := by
  have hSound := sound_of_accepts hAccepts
  constructor
  · exact fun id hNode => ⟨hSound.exists_entry hNode, hSound.exists_exit hNode⟩
  · intro hPos hEntry hExit
    obtain ⟨a, hOnly, hNode, hReach⟩ := exists_only_entry hAccepts hPos hEntry
    refine ⟨⟨a, hOnly, hNode, hReach⟩, exists_only_exit hAccepts hPos hExit, ?_⟩
    rw [hAccepts]
    refine accepts_connected hAccepts fun x y hx hy => ?_
    have hWalkX := Network.connected_of_path (hReach x hx)
    have hWalkY := Network.connected_of_path (hReach y hy)
    exact hWalkX.symm.trans hWalkY

namespace Sample

/-- Two ways from node 5 to node 7, one of them through an activity. -/
def diamond : Network where
  nodes := .ofList [(⟨9⟩, .boundary), (⟨5⟩, .boundary), (⟨7⟩, .boundary), (⟨2⟩, .boundary)]
  edges := .ofList [.dependency ⟨9⟩ ⟨7⟩, .activity ⟨5⟩ ⟨9⟩ "load" ⟨3⟩, .dependency ⟨2⟩ ⟨7⟩,
    .dependency ⟨5⟩ ⟨2⟩]
  entries := .singleton ⟨5⟩
  exits := .singleton ⟨7⟩

/-- One entry, one exit and four nodes at most, whether connected or not. -/
def narrow : Policy :=
  ⟨true, true, false, 4⟩

theorem accepts_diamond : narrow.accepts diamond = true := by
  decide +kernel

end Sample

theorem spans_diamond :
    Sample.narrow.accepts Sample.diamond = true ∧ 0 < Sample.diamond.order ∧
      Policy.accepts ⟨true, true, true, 4⟩ Sample.diamond = true ∧
      (∃ a ∈ Sample.diamond.entries, ReflTransGen Sample.diamond.Link a ⟨2⟩) ∧
      ∃ b ∈ Sample.diamond.exits, ReflTransGen Sample.diamond.Link ⟨2⟩ b := by
  obtain ⟨hNodes, hSingle⟩ := spans_of_accepts Sample.accepts_diamond
  have hPos : 0 < Sample.diamond.order := by decide
  obtain ⟨-, -, hSame⟩ := hSingle hPos rfl rfl
  exact ⟨Sample.accepts_diamond, hPos, hSame.trans Sample.accepts_diamond,
    hNodes ⟨2⟩ (by decide)⟩

/-! ## The network without nodes -/

/-- There is nothing against a network in which there is nothing. -/
theorem accepts_empty (p : Policy) : p.accepts .empty = true := by
  have hNone : ∀ {α : Type} (x : α), x ∉ (OrderedSet.empty : OrderedSet α) :=
    fun _ => List.not_mem_nil
  have hLink : ∀ a b, ¬ Network.empty.Link a b := by
    intro a b hLink
    obtain ⟨e, he, -⟩ := hLink
    exact hNone e he
  refine accepts_iff_holds.2 fun check => ?_
  cases check with
  | endpoints => exact fun e he => absurd he (hNone e)
  | order =>
      intro x hCycle
      obtain ⟨y, hStep, -⟩ := TransGen.head'_iff.1 hCycle
      exact hLink x y hStep
  | frontier f =>
      cases f with
      | entries => exact fun id => ⟨fun h => absurd h (hNone id), fun h => absurd h.1 (hNone id)⟩
      | exits => exact fun id => ⟨fun h => absurd h (hNone id), fun h => absurd h.1 (hNone id)⟩
  | singleEntry => exact fun _ => Nat.zero_le 1
  | singleExit => exact fun _ => Nat.zero_le 1
  | connected => exact fun _ a _ ha => absurd ha (hNone a)
  | maxNodes => exact Or.inr (Nat.zero_le _)

/-- What a policy for a single entry, or a single exit, comes to: an accepted network has exactly
one, unless it is the empty network. -/
theorem size_frontiers_iff_of_accepts (hAccepts : p.accepts g = true) :
    (p.singleEntry = true → (g.entries.size = 1 ↔ g ≠ .empty)) ∧
      (p.singleExit = true → (g.exits.size = 1 ↔ g ≠ .empty)) := by
  have hPos : g ≠ .empty → 0 < g.order := fun hNe =>
    Nat.pos_of_ne_zero fun hOrder => hNe ((sound_of_accepts hAccepts).eq_empty hOrder)
  constructor
  · intro hSingle
    constructor
    · rintro hSize rfl
      cases hSize
    · intro hNe
      obtain ⟨a, hOnly, -⟩ := exists_only_entry hAccepts (hPos hNe) hSingle
      exact congrArg List.length hOnly
  · intro hSingle
    constructor
    · rintro hSize rfl
      cases hSize
    · intro hNe
      obtain ⟨b, hOnly, -⟩ := exists_only_exit hAccepts (hPos hNe) hSingle
      exact congrArg List.length hOnly

theorem size_frontiers_diamond :
    Sample.narrow.accepts Sample.diamond = true ∧ Sample.diamond ≠ .empty ∧
      Sample.diamond.entries.size = 1 ∧ Sample.diamond.exits.size = 1 := by
  obtain ⟨hEntries, hExits⟩ := size_frontiers_iff_of_accepts Sample.accepts_diamond
  have hNe : Sample.diamond ≠ .empty := by decide
  exact ⟨Sample.accepts_diamond, hNe, (hEntries rfl).2 hNe, (hExits rfl).2 hNe⟩

/-- Even the strictest policy accepts a network without entries and exits. -/
theorem empty_accepted_without_frontiers :
    Policy.accepts ⟨true, true, true, 0⟩ .empty = true ∧ Network.empty.entries.size ≠ 1 ∧
      Network.empty.exits.size ≠ 1 :=
  ⟨accepts_empty _, by decide, by decide⟩

end Policy

end ActivityNetwork
