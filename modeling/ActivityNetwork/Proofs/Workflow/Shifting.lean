import ActivityNetwork.Proofs.Workflow.Renumbering
import Mathlib.Logic.Embedding.Basic

/-!
# Networks with other numbers

`Network.rename` gives the nodes of a network other numbers and leaves everything in its place:
nodes, edges and frontiers are listed in the same order as before.  Building a network commutes
with renaming, as long as different nodes keep different numbers.  So the layout of a workflow
whose leaves all begin `n` nodes further on is the layout before with every node shifted by `n`
(`layout_shift`).

Two networks without a common node are put in sequence by writing their lists one behind the
other (`nodes_inSequence_of_apart`, `edges_inSequence_of_apart`).
-/

namespace ActivityNetwork

namespace OrderedSet

variable {α β : Type}

/-- The images of the members, in the same order. -/
def map (f : α ↪ β) (s : OrderedSet α) : OrderedSet β :=
  ⟨s.toList.map f, s.nodup.map f.injective⟩

@[simp]
theorem toList_map (f : α ↪ β) (s : OrderedSet α) : (s.map f).toList = s.toList.map f := rfl

theorem mem_map {f : α ↪ β} {s : OrderedSet α} {y : β} : y ∈ s.map f ↔ ∃ x ∈ s, f x = y :=
  List.mem_map

theorem map_mem_map {f : α ↪ β} {s : OrderedSet α} {x : α} : f x ∈ s.map f ↔ x ∈ s :=
  List.mem_map_of_injective f.injective

theorem map_filter (f : α ↪ β) (s : OrderedSet α) (test : α → Bool) (image : β → Bool)
    (h : ∀ x, image (f x) = test x) : (s.filter test).map f = (s.map f).filter image := by
  ext1
  rw [toList_map, toList_filter, toList_filter, toList_map, List.filter_map]
  congr 1
  exact List.filter_congr fun x _ => (h x).symm

theorem map_union [DecidableEq α] [DecidableEq β] (f : α ↪ β) (a b : OrderedSet α) :
    (a.union b).map f = (a.map f).union (b.map f) := by
  ext1
  rw [toList_map, toList_union, toList_union, List.map_append, toList_map, toList_map,
    List.filter_map]
  congr 2
  refine List.filter_congr fun x _ => ?_
  simp only [Function.comp_apply, List.mem_map_of_injective f.injective]

end OrderedSet

namespace OrderedMap

variable {κ μ ν : Type}

/-- The same values in the same order, for other keys. -/
def mapKeys (f : κ ↪ μ) (m : OrderedMap κ ν) : OrderedMap μ ν :=
  ⟨m.entries.map fun e => (f e.1, e.2), by
    have h := m.nodup.map f.injective
    rw [List.map_map] at h ⊢
    exact h⟩

@[simp]
theorem entries_mapKeys (f : κ ↪ μ) (m : OrderedMap κ ν) :
    (m.mapKeys f).entries = m.entries.map fun e => (f e.1, e.2) := rfl

theorem keys_mapKeys (f : κ ↪ μ) (m : OrderedMap κ ν) : (m.mapKeys f).keys = m.keys.map f := by
  ext1
  simp only [toList_keys, entries_mapKeys, OrderedSet.toList_map, List.map_map]
  rfl

variable [DecidableEq κ] [DecidableEq μ]

theorem mapKeys_union (f : κ ↪ μ) (a b : OrderedMap κ ν) :
    (a.union b).mapKeys f = (a.mapKeys f).union (b.mapKeys f) := by
  ext1
  rw [entries_mapKeys, entries_union, entries_union, List.map_append, entries_mapKeys,
    entries_mapKeys, List.filter_map]
  congr 2
  refine List.filter_congr fun e _ => ?_
  simp only [Function.comp_apply, keys_mapKeys, OrderedSet.map_mem_map]

theorem mapKeys_insert (f : κ ↪ μ) (m : OrderedMap κ ν) (k : κ) (v : ν) :
    (m.insert k v).mapKeys f = (m.mapKeys f).insert (f k) v := by
  have hKnown : f k ∈ (m.mapKeys f).keys ↔ k ∈ m.keys := by
    rw [keys_mapKeys, OrderedSet.map_mem_map]
  ext1
  by_cases h : k ∈ m.keys
  · rw [entries_mapKeys, entries_insert_of_mem h, entries_insert_of_mem (hKnown.2 h),
      entries_mapKeys, List.map_map, List.map_map]
    refine List.map_congr_left fun e _ => ?_
    simp only [Function.comp_apply, f.injective.eq_iff]
  · rw [entries_mapKeys, entries_insert_of_not_mem h,
      entries_insert_of_not_mem fun hImage => h (hKnown.1 hImage), List.map_append]
    rfl

end OrderedMap

namespace NodeId

/-- The node `n` numbers further on. -/
def shift (n : Nat) : NodeId ↪ NodeId :=
  ⟨fun id => ⟨n + id.index⟩, fun a b h => by
    have hIndex : n + a.index = n + b.index := congrArg NodeId.index h
    exact congrArg NodeId.mk (Nat.add_left_cancel hIndex)⟩

theorem shift_mk (n i : Nat) : shift n ⟨i⟩ = ⟨n + i⟩ := rfl

end NodeId

namespace Edge

/-- Renaming both ends of an edge. -/
def renamer (f : NodeId ↪ NodeId) : Edge ↪ Edge :=
  ⟨rename f, fun a b h => by
    obtain ⟨hSource, hTarget, hKind⟩ := Edge.mk.inj h
    cases a
    cases b
    rw [Edge.mk.injEq]
    exact ⟨f.injective hSource, f.injective hTarget, hKind⟩⟩

end Edge

namespace Network

variable {f : NodeId ↪ NodeId} {a b g : Network}

/-- The same network with other numbers for its nodes. -/
def rename (f : NodeId ↪ NodeId) (g : Network) : Network where
  nodes := g.nodes.mapKeys f
  edges := g.edges.map (Edge.renamer f)
  entries := g.entries.map f
  exits := g.exits.map f

theorem mem_keys_rename {id : NodeId} :
    id ∈ (g.rename f).nodes.keys ↔ ∃ x ∈ g.nodes.keys, f x = id := by
  rw [rename, OrderedMap.keys_mapKeys, OrderedSet.mem_map]

theorem Closed.rename (hClosed : g.Closed) (f : NodeId ↪ NodeId) : (g.rename f).Closed := by
  intro e he
  obtain ⟨edge, hEdge, rfl⟩ := OrderedSet.mem_map.1 he
  obtain ⟨hSource, hTarget⟩ := hClosed edge hEdge
  exact ⟨mem_keys_rename.2 ⟨_, hSource, rfl⟩, mem_keys_rename.2 ⟨_, hTarget, rfl⟩⟩

theorem rename_marker (f : NodeId ↪ NodeId) (id : NodeId) (kind : NodeKind) :
    (marker id kind).rename f = marker (f id) kind := rfl

theorem rename_activity (f : NodeId ↪ NodeId) (start finish : NodeId) (name : String)
    (duration : Duration) :
    (activity start finish name duration).rename f =
      activity (f start) (f finish) name duration := by
  refine Network.ext_fields ?_ rfl rfl rfl
  show ((OrderedMap.empty.insert start NodeKind.boundary).insert finish .boundary).mapKeys f = _
  rw [OrderedMap.mapKeys_insert, OrderedMap.mapKeys_insert]
  rfl

theorem rename_links (f : NodeId ↪ NodeId) (a b : Network) :
    (a.links b).map (Edge.renamer f) = (a.rename f).links (b.rename f) := by
  ext1
  simp only [OrderedSet.toList_map, links, rename, List.map_flatMap, List.flatMap_map,
    List.map_map]
  rfl

theorem rename_inSequence (f : NodeId ↪ NodeId) (a b : Network) :
    (a.inSequence b).rename f = (a.rename f).inSequence (b.rename f) := by
  refine Network.ext_fields ?_ ?_ rfl rfl
  · exact OrderedMap.mapKeys_union f a.nodes b.nodes
  · show (((a.edges.union b.edges).union (a.links b)).map (Edge.renamer f)) = _
    rw [OrderedSet.map_union, OrderedSet.map_union, rename_links]
    rfl

theorem isTarget_rename (g : Network) (id : NodeId) :
    (g.rename f).isTarget (f id) = g.isTarget id := by
  rw [Bool.eq_iff_iff, isTarget_iff, isTarget_iff]
  simp only [rename, OrderedSet.mem_map]
  constructor
  · rintro ⟨_, ⟨e, he, rfl⟩, hTarget⟩
    exact ⟨e, he, f.injective hTarget⟩
  · rintro ⟨e, he, rfl⟩
    exact ⟨_, ⟨e, he, rfl⟩, rfl⟩

theorem isSource_rename (g : Network) (id : NodeId) :
    (g.rename f).isSource (f id) = g.isSource id := by
  rw [Bool.eq_iff_iff, isSource_iff, isSource_iff]
  simp only [rename, OrderedSet.mem_map]
  constructor
  · rintro ⟨_, ⟨e, he, rfl⟩, hSource⟩
    exact ⟨e, he, f.injective hSource⟩
  · rintro ⟨e, he, rfl⟩
    exact ⟨_, ⟨e, he, rfl⟩, rfl⟩

theorem rename_overlaid (f : NodeId ↪ NodeId) (a b : Network) :
    (a.overlaid b).rename f = (a.rename f).overlaid (b.rename f) := by
  -- The frontiers of the union are filtered by its edges; renamed, those are its renamed edges.
  let both : Network := ⟨a.nodes.union b.nodes, a.edges.union b.edges, .empty, .empty⟩
  have hBoth : both.rename f = ⟨(a.rename f).nodes.union (b.rename f).nodes,
      (a.rename f).edges.union (b.rename f).edges, .empty, .empty⟩ := by
    refine Network.ext_fields ?_ ?_ rfl rfl
    · exact OrderedMap.mapKeys_union f a.nodes b.nodes
    · exact OrderedSet.map_union (Edge.renamer f) a.edges b.edges
  refine Network.ext_fields ?_ ?_ ?_ ?_
  · exact (Network.ext_fields_iff.1 hBoth).1
  · exact (Network.ext_fields_iff.1 hBoth).2.1
  · show ((a.entries.union b.entries).filter (!both.isTarget ·)).map f = _
    rw [OrderedSet.map_filter f _ _ (!(both.rename f).isTarget ·)
      (fun id => congrArg (!·) (isTarget_rename both id)), hBoth, OrderedSet.map_union]
    rfl
  · show ((a.exits.union b.exits).filter (!both.isSource ·)).map f = _
    rw [OrderedSet.map_filter f _ _ (!(both.rename f).isSource ·)
      (fun id => congrArg (!·) (isSource_rename both id)), hBoth, OrderedSet.map_union]
    rfl

/-! ## Networks without a common node -/

section Apart

variable (hApart : ∀ id ∈ a.nodes.keys, id ∉ b.nodes.keys)
include hApart

theorem nodes_inSequence_of_apart :
    (a.inSequence b).nodes.entries = a.nodes.entries ++ b.nodes.entries := by
  rw [nodes_inSequence, OrderedMap.entries_union, List.filter_eq_self.2]
  intro e he
  have hKey : e.1 ∈ b.nodes.keys := OrderedMap.mem_keys.2 ⟨e.2, he⟩
  exact decide_eq_true fun hMem => hApart e.1 hMem hKey

theorem not_mem_edges_of_apart (ha : a.Closed) (hb : b.Closed) :
    ∀ e ∈ b.edges, e ∉ a.edges :=
  fun e heB heA => hApart e.source (ha e heA).1 (hb e heB).1

/-- No link is an edge of either side: it begins in one and ends in the other. -/
theorem links_new_of_apart (ha : a.Closed) (hb : b.Closed)
    (hExits : ∀ id ∈ a.exits, id ∈ a.nodes.keys) (hEntries : ∀ id ∈ b.entries, id ∈ b.nodes.keys) :
    ∀ e ∈ a.links b, e ∉ a.edges ∧ e ∉ b.edges := by
  intro e he
  obtain ⟨x, hx, y, hy, rfl⟩ := mem_links.1 he
  exact ⟨fun heA => hApart y (ha _ heA).2 (hEntries y hy),
    fun heB => hApart x (hExits x hx) (hb _ heB).1⟩

theorem edges_inSequence_of_apart (ha : a.Closed) (hb : b.Closed)
    (hExits : ∀ id ∈ a.exits, id ∈ a.nodes.keys) (hEntries : ∀ id ∈ b.entries, id ∈ b.nodes.keys) :
    (a.inSequence b).edges.toList = a.edges.toList ++ b.edges.toList ++ (a.links b).toList := by
  have hSides : (a.edges.union b.edges).toList = a.edges.toList ++ b.edges.toList := by
    rw [OrderedSet.toList_union, List.filter_eq_self.2]
    exact fun e he => decide_eq_true (not_mem_edges_of_apart hApart ha hb e he)
  rw [edges_inSequence, OrderedSet.toList_union, List.filter_eq_self.2, hSides]
  intro e he
  obtain ⟨hNewA, hNewB⟩ := links_new_of_apart hApart ha hb hExits hEntries e he
  refine decide_eq_true fun hMem => ?_
  rw [OrderedSet.mem_toList, OrderedSet.mem_union] at hMem
  exact hMem.elim hNewA hNewB

end Apart

end Network

namespace Workflow

/-- Where all leaves begin `n` nodes further on, the whole layout does. -/
theorem layout_shift (n : Nat) (number : WorkflowId → Nat) (w : Workflow) :
    w.layout (fun id => n + number id) = (w.layout number).rename (NodeId.shift n) := by
  induction w with
  | activity id name duration =>
      rw [layout, layout, Network.rename_activity, NodeId.shift_mk, NodeId.shift_mk, Nat.add_assoc]
  | request id resource => rw [layout, layout, Network.rename_marker, NodeId.shift_mk]
  | release id resource => rw [layout, layout, Network.rename_marker, NodeId.shift_mk]
  | seq id first second ihFirst ihSecond =>
      rw [layout, layout, Network.rename_inSequence, ihFirst, ihSecond]
  | overlap id first second ihFirst ihSecond =>
      rw [layout, layout, Network.rename_overlaid, ihFirst, ihSecond]
  | holding id process resources expansion _ ihExpansion =>
      rw [layout, layout, ihExpansion]

end Workflow

end ActivityNetwork
