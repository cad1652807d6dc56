import ActivityNetwork.Proofs.Network.Connectivity
import ActivityNetwork.Proofs.Network.Outcome

/-!
# Networks that differ in order only

Two networks are the same if they have the same nodes, edges and frontiers, in whatever order these
were inserted, and if their nodes mark the same up to the labels of resources.  Sorting and
searching walk through all of this in the order of insertion, so two networks that are the same
make for two different runs.  They cannot come to different conclusions though: what a run finds
out is a matter of `Link` and of membership, and those are the same (`SameMembers.link_eq`).
-/

namespace ActivityNetwork

open Relation

/-- Sets with the same members list them in different orders at most. -/
theorem OrderedSet.perm_of_mem_iff {α : Type} {s t : OrderedSet α} (hMem : ∀ x, x ∈ s ↔ x ∈ t) :
    s.toList.Perm t.toList :=
  (List.perm_ext_iff_of_nodup s.nodup t.nodup).2 hMem

theorem OrderedSet.size_eq_of_mem_iff {α : Type} {s t : OrderedSet α}
    (hMem : ∀ x, x ∈ s ↔ x ∈ t) : s.size = t.size :=
  (OrderedSet.perm_of_mem_iff hMem).length_eq

/-- The outcomes of ordering say the same: what they list differs in order at most.  If ends of
edges are missing, the first one need not be the same. -/
def OutcomesAgree : Except Fault (List NodeId) → Except Fault (List NodeId) → Prop
  | .ok order, .ok other => order.Perm other
  | .error (.notFound kind _), .error (.notFound other _) => kind = other
  | .error (.cycle nodes), .error (.cycle others) => nodes.Perm others
  | _, _ => False

theorem OutcomesAgree.isOk_eq {a b : Except Fault (List NodeId)} (hAgree : OutcomesAgree a b) :
    a.isOk = b.isOk := by
  unfold OutcomesAgree at hAgree
  split at hAgree
  · rfl
  · rfl
  · rfl
  · exact hAgree.elim

namespace Network

/-- Both networks have the same nodes, edges and frontiers, in whatever order. -/
structure SameMembers (g h : Network) : Prop where
  nodes : ∀ id, id ∈ g.nodes.keys ↔ id ∈ h.nodes.keys
  edges : ∀ e, e ∈ g.edges ↔ e ∈ h.edges
  entries : ∀ id, id ∈ g.entries ↔ id ∈ h.entries
  exits : ∀ id, id ∈ g.exits ↔ id ∈ h.exits

variable {g h : Network} {id : NodeId}

theorem sameMembers_of_same (hSame : g.same h = true) : g.SameMembers h := by
  simp only [same, OrderedMap.sameBy, Bool.and_eq_true, OrderedSet.same_iff] at hSame
  obtain ⟨⟨⟨⟨hNodes, -⟩, hEdges⟩, hEntries⟩, hExits⟩ := hSame
  exact ⟨hNodes, hEdges, hEntries, hExits⟩

namespace SameMembers

variable (hMembers : g.SameMembers h)

include hMembers

/-! ## What follows from the edges -/

theorem link_eq : g.Link = h.Link := by
  funext a b
  simp only [Link, hMembers.edges]

theorem closed_iff : g.Closed ↔ h.Closed := by
  simp only [Closed, hMembers.edges, hMembers.nodes]

theorem acyclic_iff : Acyclic g.Link ↔ Acyclic h.Link := by
  rw [hMembers.link_eq]

theorem heldUp_iff : g.HeldUp id ↔ h.HeldUp id := by
  simp only [HeldUp, Before, hMembers.link_eq]

theorem connected_eq : g.Connected = h.Connected := by
  have hAdjacent : g.Adjacent = h.Adjacent := by
    funext a b
    simp only [Adjacent, hMembers.link_eq]
  rw [Connected, Connected, hAdjacent]

theorem mem_sources_iff : id ∈ g.sources ↔ id ∈ h.sources := by
  rw [mem_sources_iff_link, mem_sources_iff_link, hMembers.nodes, hMembers.link_eq]

theorem mem_sinks_iff : id ∈ g.sinks ↔ id ∈ h.sinks := by
  rw [mem_sinks_iff_link, mem_sinks_iff_link, hMembers.nodes, hMembers.link_eq]

theorem mem_dangling_iff : id ∈ g.dangling ↔ id ∈ h.dangling := by
  simp only [mem_dangling, mem_endpoints, hMembers.edges, hMembers.nodes]

theorem order_eq : g.order = h.order := by
  simpa [OrderedSet.size, order, OrderedMap.size] using
    OrderedSet.size_eq_of_mem_iff hMembers.nodes

/-! ## The search and the order -/

/-- Which nodes the search leaves out depends on the node it starts from, but not whether it leaves
out any. -/
theorem disconnected_eq_nil_iff : g.disconnected = [] ↔ h.disconnected = [] := by
  simp only [Network.disconnected_eq_nil_iff, hMembers.nodes, hMembers.connected_eq]

/-- Two runs of sorting list the same nodes if they list all. -/
theorem listed_perm (hClosed : g.Closed) (hAcyclic : Acyclic g.Link) :
    (Sorting.final g).listed.Perm (Sorting.final h).listed := by
  have hOther := Network.listed_perm (hMembers.closed_iff.1 hClosed)
    (hMembers.acyclic_iff.1 hAcyclic)
  have hNodes := OrderedSet.perm_of_mem_iff hMembers.nodes
  exact (Network.listed_perm hClosed hAcyclic).trans (hNodes.trans hOther.symm)

/-- Two runs of sorting leave the same nodes over. -/
theorem blocked_perm (hClosed : g.Closed) :
    (Sorting.final g).blocked.Perm (Sorting.final h).blocked := by
  have hOther := hMembers.closed_iff.1 hClosed
  have hNodupG := g.nodes.keys.nodup.sublist (blocked_sublist hClosed)
  have hNodupH := h.nodes.keys.nodup.sublist (blocked_sublist hOther)
  refine (List.perm_ext_iff_of_nodup hNodupG hNodupH).2 fun id => ?_
  rw [mem_blocked_final_iff hClosed, mem_blocked_final_iff hOther, hMembers.heldUp_iff]

theorem outcomesAgree : OutcomesAgree g.topologicalOrder h.topologicalOrder := by
  obtain ⟨id, hMissing, hOrder⟩ | ⟨hClosed, hAcyclic, hOrder⟩ | ⟨hClosed, hCyclic, hOrder⟩ :=
    topologicalOrder_cases g
  · obtain ⟨other, hOther⟩ :=
      exists_firstMissing fun hClosed => hMissing.not_closed (hMembers.closed_iff.2 hClosed)
    rw [hOrder, topologicalOrder_of_missing hOther]
    exact rfl
  · rw [hOrder, topologicalOrder_of_acyclic (hMembers.closed_iff.1 hClosed)
      (hMembers.acyclic_iff.1 hAcyclic)]
    exact hMembers.listed_perm hClosed hAcyclic
  · rw [hOrder, topologicalOrder_of_cyclic (hMembers.closed_iff.1 hClosed)
      (mt hMembers.acyclic_iff.2 hCyclic)]
    exact hMembers.blocked_perm hClosed

theorem isAcyclic_eq : g.isAcyclic = h.isAcyclic :=
  hMembers.outcomesAgree.isOk_eq

end SameMembers

end Network

end ActivityNetwork
