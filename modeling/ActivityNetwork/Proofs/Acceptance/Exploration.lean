import Mathlib.Algebra.BigOperators.Group.List.Lemmas
import ActivityNetwork.Proofs.Acceptance.Verdict
import ActivityNetwork.Proofs.Search

/-!
# The search behind a disconnected network

Whether all nodes hang together can be found out with a stack: `explore` starts at the first node
and puts the other ends of all edges at a node on the stack, however often they lie there already,
and whether they are nodes or not.

Each edge has two ends, so all neighbours of all places together are twice as many as there are
edges (`length_flatMap_neighbours`).  This is what bounds the search, on any network whatsoever: it
is over after one round for the first node and two for every edge.  It has then met what a walk
joins to the first node, and the nodes that it has not met are those that are reported
(`disconnected_exact`).
-/

namespace ActivityNetwork

open Relation

/-- The nodes that were cut off, if the violation is about them. -/
def Violation.cutOff? : Violation → Option (List NodeId)
  | disconnected nodes => some nodes
  | _ => none

namespace Network

/-- The search from one place after so many rounds.  What enters the stack last leaves it first. -/
def explore (g : Network) (first : NodeId) (n : Nat) : Search NodeId :=
  (Search.start first).rounds id (fun id => (g.neighbours id).reverse) n

variable {g : Network} {first node : NodeId} {n : Nat}

/-! ## How long the search takes -/

/-- Whoever gathers the edges by what one of their ends is gathers every edge once. -/
theorem length_flatMap_filter {ids : List NodeId} (hNodup : ids.Nodup) (tip : Edge → NodeId)
    (es : List Edge) (hTips : ∀ e ∈ es, tip e ∈ ids) :
    (ids.flatMap fun id => es.filter (tip · = id)).length = es.length := by
  induction es with
  | nil => simp
  | cons e es ih =>
      have hSplit : ∀ id, ((e :: es).filter (tip · = id)).length =
          (if tip e = id then 1 else 0) + (es.filter (tip · = id)).length := by
        intro id
        by_cases hTip : tip e = id
        · rw [List.filter_cons_of_pos (by simpa using hTip), if_pos hTip, List.length_cons,
            Nat.add_comm]
        · rw [List.filter_cons_of_neg (by simpa using hTip), if_neg hTip, Nat.zero_add]
      have hOne : (ids.map fun id => if tip e = id then 1 else 0).sum = 1 := by
        rw [List.sum_map_eq_nsmul_single (tip e) _ fun _ hNe _ => if_neg (Ne.symm hNe),
          List.count_eq_one_of_mem hNodup (hTips e List.mem_cons_self), one_nsmul, if_pos rfl]
      have hRest := ih fun e' he' => hTips e' (List.mem_cons_of_mem _ he')
      rw [List.length_flatMap] at hRest ⊢
      simp only [hSplit]
      rw [List.sum_map_add, hOne, hRest, List.length_cons, Nat.add_comm]

/-- All neighbours of all places are as many as there are edge ends. -/
theorem length_flatMap_neighbours (g : Network) :
    (g.places.toList.flatMap g.neighbours).length = 2 * g.size := by
  have hPlaces : ∀ e ∈ g.edges.toList, e.source ∈ g.places.toList ∧ e.target ∈ g.places.toList := by
    intro e he
    have hEnd : ∀ id, id = e.source ∨ id = e.target → id ∈ g.places.toList := fun id hId =>
      mem_places.2 (Or.inr (mem_endpoints.2 ⟨e, he, hId⟩))
    exact ⟨hEnd _ (Or.inl rfl), hEnd _ (Or.inr rfl)⟩
  have hSources :=
    length_flatMap_filter g.places.nodup Edge.source g.edges.toList fun e he => (hPlaces e he).1
  have hTargets :=
    length_flatMap_filter g.places.nodup Edge.target g.edges.toList fun e he => (hPlaces e he).2
  rw [List.length_flatMap] at hSources hTargets ⊢
  simp only [neighbours, successors, predecessors, List.length_append, List.length_map]
  rw [List.sum_map_add, hSources, hTargets, ← Nat.two_mul]
  rfl

theorem mem_neighbours_reverse (a b : NodeId) :
    b ∈ (g.neighbours a).reverse ↔ g.Adjacent a b := by
  rw [List.mem_reverse, mem_neighbours_iff_adjacent]

/-- One round for the first place and two for every edge are enough. -/
theorem stack_explore (hFirst : first ∈ g.places) :
    (g.explore first (1 + 2 * g.size)).stack = [] := by
  have hKeys : (g.places.toList.map id).Nodup := by
    rw [List.map_id]
    exact g.places.nodup
  refine Search.stack_rounds hKeys ?_ ?_ ?_
  · intro a _ b hb
    exact ((mem_neighbours_reverse a b).1 hb).symm.mem_places
  · exact List.cons_subset.2 ⟨hFirst, List.nil_subset _⟩
  · have hPending : Search.pending id (fun id => (g.neighbours id).reverse) g.places.toList [] =
        2 * g.size := by
      rw [← length_flatMap_neighbours]
      simp [Search.pending, List.length_flatMap]
    show [first].length + Search.pending id _ _ [] ≤ _
    rw [hPending, List.length_singleton]

/-! ## What the search finds -/

/-- A search that is over has met exactly the places that a walk joins to the first one. -/
theorem mem_met_explore (hDone : (g.explore first n).stack = []) :
    node ∈ (g.explore first n).met ↔ g.Connected first node := by
  have hExplores := (Search.explores_start id (fun id => (g.neighbours id).reverse) first).rounds n
  rw [explore, hExplores.mem_met_iff hDone fun _ _ _ _ hEq => hEq]
  simp only [mem_neighbours_reverse]
  rfl

/-- The nodes that are reported are those that the search has not met. -/
theorem disconnected_eq_filter_met (hFirst : g.nodes.keys.toList.head? = some first)
    (hDone : (g.explore first n).stack = []) :
    g.disconnected = g.nodes.keys.toList.filter (· ∉ (g.explore first n).met) := by
  unfold disconnected
  cases hKeys : g.nodes.keys.toList with
  | nil =>
      rw [hKeys] at hFirst
      cases hFirst
  | cons top rest =>
      rw [hKeys] at hFirst
      obtain rfl := Option.some.inj hFirst
      refine List.filter_congr fun id hId => ?_
      have hPlace : id ∈ g.places := by
        refine mem_places.2 (Or.inl ?_)
        rw [← OrderedSet.mem_toList, hKeys]
        exact hId
      rw [decide_eq_decide, mem_sweep_iff hPlace, mem_met_explore hDone]

theorem disconnected_sublist (g : Network) : g.disconnected.Sublist g.nodes.keys.toList := by
  unfold disconnected
  cases g.nodes.keys.toList with
  | nil => exact List.Sublist.refl _
  | cons first rest => exact List.filter_sublist

end Network

namespace Policy

open Network

variable {p : Policy} {g : Network}

/-- A report tells at most once of nodes that were cut off. -/
theorem filterMap_cutOff_violations (p : Policy) (g : Network) :
    (p.violations g).filterMap Violation.cutOff? =
      if p.connected ∧ g.disconnected ≠ [] then [g.disconnected] else [] := by
  have hOther : ∀ check ∈ Check.later, check ≠ .connected →
      (p.foundBy g check).filterMap Violation.cutOff? = [] := by
    intro check hLater hNe
    refine List.filterMap_eq_nil_iff.2 fun v hFound => ?_
    have hCheck := (reports_of_later hLater).check_eq hFound
    cases v with
    | disconnected nodes => exact absurd hCheck.symm hNe
    | _ => rfl
  have hEnds : (g.dangling.toList.map Violation.danglingEndpoint).filterMap Violation.cutOff? =
      [] := by
    refine List.filterMap_eq_nil_iff.2 fun v hEnd => ?_
    obtain ⟨node, -, rfl⟩ := List.mem_map.1 hEnd
    rfl
  have hConnected : (p.foundBy g .connected).filterMap Violation.cutOff? =
      if p.connected ∧ g.disconnected ≠ [] then [g.disconnected] else [] := by
    rw [foundBy]
    split <;> rfl
  rw [violations_eq_foundBy, List.filterMap_append, hEnds, List.nil_append, List.filterMap_flatMap]
  simp only [Check.later, List.flatMap_cons, List.flatMap_nil, hConnected]
  rw [hOther .order (by decide) (by decide), hOther (.frontier .entries) (by decide) (by decide),
    hOther (.frontier .exits) (by decide) (by decide), hOther .singleEntry (by decide) (by decide),
    hOther .singleExit (by decide) (by decide), hOther .maxNodes (by decide) (by decide)]
  simp only [List.nil_append, List.append_nil]

/-- The search for cut off nodes ends and is exact, on every network.  From the first node it is
over after one round and two for every edge.  It has then met what an undirected walk joins to the
first node, also over edge ends that are no nodes.  The nodes that it has not met are reported, in
the order of the nodes, once, and only if the policy asks for it and there are any. -/
theorem disconnected_exact (p : Policy) (g : Network) :
    (∀ first, g.nodes.keys.toList.head? = some first →
      (g.explore first (1 + 2 * g.size)).stack = [] ∧
      (∀ node, node ∈ (g.explore first (1 + 2 * g.size)).met ↔ g.Connected first node) ∧
      g.disconnected =
        g.nodes.keys.toList.filter (· ∉ (g.explore first (1 + 2 * g.size)).met)) ∧
    g.disconnected.Sublist g.nodes.keys.toList ∧
    (∀ node, node ∈ g.disconnected ↔ node ∈ g.nodes.keys ∧
      ∀ first, g.nodes.keys.toList.head? = some first → ¬ g.Connected first node) ∧
    ((p.violations g).filterMap Violation.cutOff? =
      if p.connected ∧ g.disconnected ≠ [] then [g.disconnected] else []) ∧
    (g.order = 0 → g.disconnected = []) := by
  refine ⟨fun first hFirst => ?_, disconnected_sublist g, fun node => mem_disconnected,
    filterMap_cutOff_violations p g, fun hEmpty => ?_⟩
  · have hPlace : first ∈ g.places := mem_places.2 (Or.inl (List.mem_of_mem_head? hFirst))
    have hDone := stack_explore hPlace
    exact ⟨hDone, fun node => mem_met_explore hDone, disconnected_eq_filter_met hFirst hDone⟩
  · have hKeys : g.nodes.keys.toList = [] := by
      rw [OrderedMap.toList_keys, List.length_eq_zero_iff.1 hEmpty, List.map_nil]
    exact List.sublist_nil.1 (hKeys ▸ disconnected_sublist g)

namespace Sample

/-- A loop at node 1, two edges from there to a place that is no node, one from node 3 to that
place, and a node 2 that no edge mentions. -/
def scattered : Network where
  nodes := .ofList [(⟨1⟩, .boundary), (⟨2⟩, .boundary), (⟨3⟩, .boundary)]
  edges := .ofList [.dependency ⟨1⟩ ⟨1⟩, .dependency ⟨1⟩ ⟨9⟩,
    .activity ⟨1⟩ ⟨9⟩ "carry" .zero, .dependency ⟨3⟩ ⟨9⟩]
  entries := .empty
  exits := .empty

end Sample

/-- The walk from 1 to 3 leads over a place that is no node.  All nine rounds are needed. -/
example :
    (Sample.scattered.explore ⟨1⟩ 9).met = [⟨1⟩, ⟨9⟩, ⟨3⟩] ∧
      (Sample.scattered.explore ⟨1⟩ 8).stack ≠ [] ∧
      (Sample.scattered.explore ⟨1⟩ 9).stack = [] := by
  decide +kernel

end Policy

end ActivityNetwork
