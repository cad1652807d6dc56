import ActivityNetwork.Proofs.Draft.Sequencing

/-!
# Workflows in a row

Several workflows can be put in sequence in several ways: `(a, b), c` and `a, (b, c)` are different
trees with different ids in them.  `InARow ws w` says that `w` is such a tree over the workflows of
the list, with whatever groups in it.

What the trees compile to can be told apart by nothing but the order of edges
(`InARow.network_reordered`).  Their leaves are the leaves of the list in the order of the list, so
all of them number their nodes in the same way.  Putting networks in sequence is associative up to
the order of edges (`inSequence_assoc`), so every tree is laid out like the row from left to right
(`InARow.layout_row`).
-/

namespace ActivityNetwork

theorem OrderedMap.union_assoc {κ ν : Type} [DecidableEq κ] (a b c : OrderedMap κ ν) :
    (a.union b).union c = a.union (b.union c) := by
  ext1
  simp only [entries_union, List.filter_append, List.append_assoc, List.filter_filter]
  congr 2
  refine List.filter_congr fun e _ => ?_
  simp only [keys_union, OrderedSet.mem_union, not_or, Bool.decide_and]

namespace Network

/-- The same lists of nodes and of frontiers, and the same edges in whatever order. -/
structure Reordered (g h : Network) : Prop where
  nodes : g.nodes = h.nodes
  edges : ∀ e, e ∈ g.edges ↔ e ∈ h.edges
  entries : g.entries = h.entries
  exits : g.exits = h.exits

variable {a b c d g h k : Network} {xs ys : List Network}

theorem Reordered.refl (g : Network) : g.Reordered g :=
  ⟨rfl, fun _ => Iff.rfl, rfl, rfl⟩

theorem Reordered.symm (hSame : g.Reordered h) : h.Reordered g :=
  ⟨hSame.nodes.symm, fun e => (hSame.edges e).symm, hSame.entries.symm, hSame.exits.symm⟩

theorem Reordered.trans (hFirst : g.Reordered h) (hSecond : h.Reordered k) : g.Reordered k :=
  ⟨hFirst.nodes.trans hSecond.nodes, fun e => (hFirst.edges e).trans (hSecond.edges e),
    hFirst.entries.trans hSecond.entries, hFirst.exits.trans hSecond.exits⟩

/-- In particular the networks are equal. -/
theorem Reordered.same (hSame : g.Reordered h) : g.same h = true := by
  have hEntries : g.nodes.entries.all (fun e => (g.nodes.find? e.1).any (e.2.same ·)) = true := by
    refine List.all_eq_true.2 fun e he => ?_
    rw [OrderedMap.find?_eq_some_iff.2 he]
    exact NodeKind.same_refl e.2
  have hKeys : g.nodes.sameBy NodeKind.same h.nodes = true := by
    rw [← hSame.nodes, OrderedMap.sameBy, Bool.and_eq_true, OrderedSet.same_iff]
    exact ⟨fun _ => Iff.rfl, hEntries⟩
  simp only [Network.same, Bool.and_eq_true, OrderedSet.same_iff]
  exact ⟨⟨⟨hKeys, hSame.edges⟩, fun id => by rw [hSame.entries]⟩, fun id => by rw [hSame.exits]⟩

/-! ## Sequences of networks -/

theorem mem_edges_inSequence {e : Edge} :
    e ∈ (a.inSequence b).edges ↔
      (e ∈ a.edges ∨ e ∈ b.edges) ∨ ∃ x ∈ a.exits, ∃ y ∈ b.entries, e = .dependency x y := by
  rw [edges_inSequence, OrderedSet.mem_union, OrderedSet.mem_union, mem_links]

theorem Reordered.inSequence (hFirst : a.Reordered b) (hSecond : c.Reordered d) :
    (a.inSequence c).Reordered (b.inSequence d) where
  nodes := by rw [nodes_inSequence, nodes_inSequence, hFirst.nodes, hSecond.nodes]
  edges := by
    intro e
    rw [mem_edges_inSequence, mem_edges_inSequence, hFirst.edges, hSecond.edges, hFirst.exits,
      hSecond.entries]
  entries := hFirst.entries
  exits := hSecond.exits

/-- Links between the first and the second network are set before or after those between the second
and the third. -/
theorem inSequence_assoc (a b c : Network) :
    ((a.inSequence b).inSequence c).Reordered (a.inSequence (b.inSequence c)) where
  nodes := OrderedMap.union_assoc a.nodes b.nodes c.nodes
  edges := by
    intro e
    simp only [mem_edges_inSequence, entries_inSequence, exits_inSequence]
    -- Both sides list the edges of the three networks and two sorts of links.
    generalize (∃ x ∈ a.exits, ∃ y ∈ b.entries, e = .dependency x y) = atFirst
    generalize (∃ x ∈ b.exits, ∃ y ∈ c.entries, e = .dependency x y) = atSecond
    tauto
  entries := rfl
  exits := rfl

/-- Networks in sequence, from left to right. -/
def row : List Network → Network
  | [] => .empty
  | first :: rest => rest.foldl inSequence first

theorem row_concat (hSome : xs ≠ []) (last : Network) :
    row (xs ++ [last]) = (row xs).inSequence last := by
  cases xs with
  | nil => exact absurd rfl hSome
  | cons first rest => simp [row, List.foldl_append]

/-- Two rows in sequence are one row. -/
theorem row_append (hXs : xs ≠ []) (hYs : ys ≠ []) :
    (row (xs ++ ys)).Reordered ((row xs).inSequence (row ys)) := by
  induction ys using List.reverseRecOn with
  | nil => exact absurd rfl hYs
  | append_singleton front last ih =>
      by_cases hFront : front = []
      · subst hFront
        rw [List.nil_append, row_concat hXs]
        exact .refl _
      · rw [← List.append_assoc, row_concat (List.append_ne_nil_of_left_ne_nil hXs front),
          row_concat hFront]
        exact ((ih hFront).inSequence (.refl last)).trans (inSequence_assoc _ _ _)

end Network

namespace Workflow

/-- The workflows of the list stand in sequence, in their order and in whatever groups. -/
inductive InARow : List Workflow → Workflow → Prop
  | one (w : Workflow) : InARow [w] w
  | seq {xs ys : List Workflow} {first second : Workflow} (id : WorkflowId)
      (hFirst : InARow xs first) (hSecond : InARow ys second) :
      InARow (xs ++ ys) (.seq id first second)

variable {u v w leaf : Workflow} {ws : List Workflow} {id : WorkflowId}

theorem InARow.ne_nil (hRow : InARow ws w) : ws ≠ [] := by
  induction hRow with
  | one w => simp
  | seq id _ _ ihFirst _ => exact List.append_ne_nil_of_left_ne_nil ihFirst _

/-- The leaves of a row are those of the list, one workflow after the other. -/
theorem InARow.leaves (hRow : InARow ws w) (hMade : w.WellMade) :
    w.leaves = ws.flatMap Workflow.leaves := by
  induction hRow with
  | one w => simp
  | seq id _ _ ihFirst ihSecond =>
      rw [hMade.seq_leaves, ihFirst hMade.seq_first, ihSecond hMade.seq_second,
        List.flatMap_append]

theorem InARow.mem_leafIds (hRow : InARow ws w) (hMade : w.WellMade) :
    id ∈ w.leafIds ↔ ∃ v ∈ ws, id ∈ v.leafIds := by
  simp only [leafIds, hRow.leaves hMade, List.mem_map, List.mem_flatMap]
  constructor
  · rintro ⟨leaf, ⟨v, hv, hLeaf⟩, rfl⟩
    exact ⟨v, hv, leaf, hLeaf, rfl⟩
  · rintro ⟨v, hv, leaf, hLeaf, rfl⟩
    exact ⟨leaf, ⟨v, hv, hLeaf⟩, rfl⟩

/-- Groups do not show in the layout, up to the order of edges. -/
theorem InARow.layout_row (hRow : InARow ws w) (number : WorkflowId → Nat) :
    (w.layout number).Reordered (.row (ws.map (Workflow.layout number))) := by
  induction hRow with
  | one w => exact .refl _
  | @seq xs ys first second id hFirst hSecond ihFirst ihSecond =>
      have hXs : xs.map (Workflow.layout number) ≠ [] := by simpa using hFirst.ne_nil
      have hYs : ys.map (Workflow.layout number) ≠ [] := by simpa using hSecond.ne_nil
      rw [List.map_append]
      exact (ihFirst.inSequence ihSecond).trans (Network.row_append hXs hYs).symm

/-- Rows of the same workflows compile to the same network, up to the order of edges. -/
theorem InARow.network_reordered (hu : InARow ws u) (hv : InARow ws v) (hMadeU : u.WellMade)
    (hMadeV : v.WellMade) : u.network.Reordered v.network := by
  have hNumbering : u.numbering = v.numbering := by
    rw [numbering, numbering, hu.leaves hMadeU, hv.leaves hMadeV]
  rw [network_eq_layout hMadeU.coherent, network_eq_layout hMadeV.coherent, hNumbering]
  exact (hu.layout_row v.numbering).trans (hv.layout_row v.numbering).symm

end Workflow

end ActivityNetwork
