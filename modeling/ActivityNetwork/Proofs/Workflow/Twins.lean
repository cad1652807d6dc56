import ActivityNetwork.Network.TopologicalOrder
import ActivityNetwork.Workflow.Compilation
import ActivityNetwork.Workflow.Leaves
import Mathlib.Data.List.Forall2

/-!
# Workflows that differ in ids only

Two courses of drafting may hand out different ids for the same things.  A `Pairing` says which id
of the one stands for which id of the other, and `Workflow.Twin` relates workflows that are the
same but for paired ids.  Nothing is asked of the ids themselves: the relation only has to be one
to one, so that two parts carry the same id on one side exactly if they do on the other.

That is all that walks and compilations ever ask.  So twins have twin leaves (`leaves_twin`), and
they compile to the same network but for the ids of resources, with the same counts
(`network_twin`, `stats_twin`).
-/

namespace ActivityNetwork

/-- Which ids stand for which. -/
structure Pairing where
  workflows : WorkflowId → WorkflowId → Prop
  resources : ResourceId → ResourceId → Prop

namespace Pairing

variable {P Q R : Pairing}

/-- No id stands for two others, on either side. -/
structure OneToOne (P : Pairing) : Prop where
  workflows : Relator.BiUnique P.workflows
  resources : Relator.BiUnique P.resources

/-- Whatever is paired stays paired. -/
structure Grows (P Q : Pairing) : Prop where
  workflows : ∀ i j, P.workflows i j → Q.workflows i j
  resources : ∀ i j, P.resources i j → Q.resources i j

theorem Grows.refl (P : Pairing) : P.Grows P :=
  ⟨fun _ _ h => h, fun _ _ h => h⟩

theorem Grows.trans (hPQ : P.Grows Q) (hQR : Q.Grows R) : P.Grows R :=
  ⟨fun i j h => hQR.workflows i j (hPQ.workflows i j h),
    fun i j h => hQR.resources i j (hPQ.resources i j h)⟩

theorem OneToOne.workflow_eq_iff (hP : P.OneToOne) {i j k l : WorkflowId}
    (hij : P.workflows i j) (hkl : P.workflows k l) : i = k ↔ j = l :=
  Relator.rel_eq hP.workflows hij hkl

end Pairing

variable {P Q : Pairing}

/-! ## Twin networks -/

/-- The same label, and paired ids. -/
def Resource.Twin (P : Pairing) (r s : Resource) : Prop :=
  P.resources r.id s.id ∧ r.label = s.label

theorem Resource.Twin.mono {r s : Resource} (h : r.Twin P s) (hGrows : P.Grows Q) : r.Twin Q s :=
  ⟨hGrows.resources _ _ h.1, h.2⟩

/-- The same mark, for twin resources. -/
def NodeKind.Twin (P : Pairing) : NodeKind → NodeKind → Prop
  | .boundary, .boundary => True
  | .request r, .request s => r.Twin P s
  | .release r, .release s => r.Twin P s
  | _, _ => False

namespace OrderedMap

variable {κ μ ν : Type}

/-- Values that depend on the keys only are the same where the keys are. -/
theorem mapValues_of_keys {m : OrderedMap κ μ} {n : OrderedMap κ ν} {τ : Type}
    (h : m.keys = n.keys) (f : κ → τ) :
    m.mapValues (fun k _ => f k) = n.mapValues fun k _ => f k := by
  have hList : m.entries.map Prod.fst = n.entries.map Prod.fst := congrArg OrderedSet.toList h
  have hMap := congrArg (List.map fun k => (k, f k)) hList
  rw [List.map_map, List.map_map] at hMap
  exact ext_entries hMap

end OrderedMap

namespace Network

variable {a b c d g h : Network}

/-- The same but for the ids of resources, down to the order in which things are listed. -/
structure Twin (P : Pairing) (g h : Network) : Prop where
  nodes : List.Forall₂ (fun n m => n.1 = m.1 ∧ n.2.Twin P m.2) g.nodes.entries h.nodes.entries
  edges : g.edges = h.edges
  entries : g.entries = h.entries
  exits : g.exits = h.exits

theorem Twin.keys (hTwin : g.Twin P h) : g.nodes.keys = h.nodes.keys := by
  have hList : List.Forall₂ Eq (g.nodes.entries.map Prod.fst) (h.nodes.entries.map Prod.fst) :=
    List.rel_map (fun _ _ hNode => hNode.1) hTwin.nodes
  rw [List.forall₂_eq_eq_eq] at hList
  exact OrderedSet.ext_toList hList

theorem twin_marker (id : NodeId) {k l : NodeKind} (hKind : k.Twin P l) :
    (marker id k).Twin P (marker id l) where
  nodes := .cons ⟨rfl, hKind⟩ .nil
  edges := rfl
  entries := rfl
  exits := rfl

theorem twin_activity (P : Pairing) (start finish : NodeId) (name : String) (duration : Duration) :
    (activity start finish name duration).Twin P (activity start finish name duration) where
  nodes := by
    refine List.forall₂_same.2 fun n hn => ⟨rfl, ?_⟩
    have hBoundary : n.2 = .boundary := by
      have hFind := OrderedMap.find?_eq_some_iff.2 hn
      rw [activity, OrderedMap.find?_ofList, Option.map_eq_some_iff] at hFind
      obtain ⟨m, hm, hKind⟩ := hFind
      have hMem := List.mem_of_find?_eq_some hm
      simp only [List.reverse_cons, List.reverse_nil, List.nil_append, List.mem_append,
        List.mem_singleton] at hMem
      rcases hMem with rfl | rfl
      · exact hKind.symm
      · exact hKind.symm
    rw [hBoundary]
    trivial
  edges := rfl
  entries := rfl
  exits := rfl

theorem twin_nodes_union (hFirst : a.Twin P b) (hSecond : c.Twin P d) :
    List.Forall₂ (fun n m => n.1 = m.1 ∧ n.2.Twin P m.2)
      (a.nodes.union c.nodes).entries (b.nodes.union d.nodes).entries := by
  rw [OrderedMap.entries_union, OrderedMap.entries_union, hFirst.keys]
  refine List.rel_append hFirst.nodes (List.rel_filter ?_ hSecond.nodes)
  intro n m hNode
  simp only [hNode.1]

theorem twin_inSequence (hFirst : a.Twin P b) (hSecond : c.Twin P d) :
    (a.inSequence c).Twin P (b.inSequence d) where
  nodes := twin_nodes_union hFirst hSecond
  edges := by
    have hLinks : a.links c = b.links d := by
      ext1
      simp only [links, hFirst.exits, hSecond.entries]
    rw [edges_inSequence, edges_inSequence, hFirst.edges, hSecond.edges, hLinks]
  entries := hFirst.entries
  exits := hSecond.exits

theorem twin_overlaid (hFirst : a.Twin P b) (hSecond : c.Twin P d) :
    (a.overlaid c).Twin P (b.overlaid d) where
  nodes := twin_nodes_union hFirst hSecond
  edges := by
    rw [edges_overlaid, edges_overlaid, hFirst.edges, hSecond.edges]
  entries := by
    simp only [overlaid, isTarget, hFirst.entries, hSecond.entries, hFirst.edges, hSecond.edges]
  exits := by
    simp only [overlaid, isSource, hFirst.exits, hSecond.exits, hFirst.edges, hSecond.edges]

/-- Sorting looks at which nodes there are and at the edges, and at nothing else. -/
theorem topologicalOrder_congr (hKeys : g.nodes.keys = h.nodes.keys) (hEdges : g.edges = h.edges) :
    g.topologicalOrder = h.topologicalOrder := by
  have hOrder : g.order = h.order := by
    have hLength := congrArg (fun s => s.toList.length) hKeys
    simpa [OrderedMap.toList_keys, order, OrderedMap.size] using hLength
  have hSuccessors : g.successors = h.successors := by
    funext id
    simp only [successors, hEdges]
  have hPredecessors : g.predecessors = h.predecessors := by
    funext id
    simp only [predecessors, hEdges]
  have hStart : Sorting.start g = Sorting.start h := by
    simp only [Sorting.start, hPredecessors,
      OrderedMap.mapValues_of_keys hKeys fun id => (h.predecessors id).length]
  have hStep : Sorting.step g = Sorting.step h := by
    funext s
    simp only [Sorting.step, hSuccessors]
  have hRun : ∀ n s, Sorting.run g n s = Sorting.run h n s := by
    intro n
    induction n with
    | zero => exact fun _ => rfl
    | succ n ih => exact fun s => by rw [Sorting.run, Sorting.run, hStep, ih]
  have hFinal : Sorting.final g = Sorting.final h := by
    rw [Sorting.final, Sorting.final, hOrder, hStart, hRun]
  simp only [topologicalOrder, endpoints, hEdges, hKeys, hFinal, hOrder]

end Network

/-! ## Twin workflows -/

namespace Workflow

/-- The same workflow but for paired ids. -/
inductive Twin (P : Pairing) : Workflow → Workflow → Prop
  | activity {i j} (hId : P.workflows i j) (name : String) (duration : Duration) :
      Twin P (activity i name duration) (activity j name duration)
  | request {i j r s} (hId : P.workflows i j) (hResource : r.Twin P s) :
      Twin P (request i r) (request j s)
  | release {i j r s} (hId : P.workflows i j) (hResource : r.Twin P s) :
      Twin P (release i r) (release j s)
  | seq {i j a b c d} (hId : P.workflows i j) (hFirst : Twin P a b) (hSecond : Twin P c d) :
      Twin P (seq i a c) (seq j b d)
  | overlap {i j a b c d} (hId : P.workflows i j) (hFirst : Twin P a b)
      (hSecond : Twin P c d) : Twin P (overlap i a c) (overlap j b d)
  | holding {i j a b rs ss c d} (hId : P.workflows i j) (hProcess : Twin P a b)
      (hResources : List.Forall₂ (Resource.Twin P) rs ss) (hExpansion : Twin P c d) :
      Twin P (holding i a rs c) (holding j b ss d)

variable {v w : Workflow}

theorem Twin.id (hTwin : w.Twin P v) : P.workflows w.id v.id := by
  cases hTwin with
  | activity hId => exact hId
  | request hId => exact hId
  | release hId => exact hId
  | seq hId => exact hId
  | overlap hId => exact hId
  | holding hId => exact hId

theorem Twin.mono (hTwin : w.Twin P v) (hGrows : P.Grows Q) : w.Twin Q v := by
  induction hTwin with
  | activity hId name duration => exact .activity (hGrows.workflows _ _ hId) name duration
  | request hId hResource => exact .request (hGrows.workflows _ _ hId) (hResource.mono hGrows)
  | release hId hResource => exact .release (hGrows.workflows _ _ hId) (hResource.mono hGrows)
  | seq hId _ _ ihFirst ihSecond => exact .seq (hGrows.workflows _ _ hId) ihFirst ihSecond
  | overlap hId _ _ ihFirst ihSecond => exact .overlap (hGrows.workflows _ _ hId) ihFirst ihSecond
  | holding hId _ hResources _ ihProcess ihExpansion =>
      exact .holding (hGrows.workflows _ _ hId) ihProcess
        (hResources.imp fun _ _ h => h.mono hGrows) ihExpansion

end Workflow

/-! ## Twin leaves -/

namespace Walk

open Workflow

variable {v w : Workflow} {walk other : Walk}

/-- Both walks have met and found the same but for paired ids. -/
structure Twin (P : Pairing) (walk other : Walk) : Prop where
  met : List.Forall₂ P.workflows walk.met.toList other.met.toList
  found : List.Forall₂ (Workflow.Twin P) walk.found other.found

theorem twin_once {visit visitOther : Walk → Walk} (hP : P.OneToOne) (hTwin : walk.Twin P other)
    (hId : P.workflows w.id v.id)
    (hVisit : ∀ walk other : Walk, walk.Twin P other → (visit walk).Twin P (visitOther other)) :
    (walk.once w visit).Twin P (other.once v visitOther) := by
  have hMet : w.id ∈ walk.met ↔ v.id ∈ other.met := List.rel_mem hP.workflows hId hTwin.met
  by_cases hMem : w.id ∈ walk.met
  · rw [once_of_met visit hMem, once_of_met visitOther (hMet.1 hMem)]
    exact hTwin
  · have hNew : v.id ∉ other.met := fun h => hMem (hMet.2 h)
    rw [once_of_not_met visit hMem, once_of_not_met visitOther hNew]
    refine hVisit _ _ ⟨?_, hTwin.found⟩
    rw [OrderedSet.toList_insert, OrderedSet.toList_insert, if_neg hMem, if_neg hNew]
    exact List.rel_append hTwin.met (.cons hId .nil)

theorem twin_pick (hTwin : walk.Twin P other) (h : w.Twin P v) :
    (walk.pick w).Twin P (other.pick v) where
  met := hTwin.met
  found := List.rel_append hTwin.found (.cons h .nil)

end Walk

namespace Workflow

variable {v w : Workflow}

theorem gatherLeaves_twin (hP : P.OneToOne) (h : w.Twin P v) {walk other : Walk}
    (hTwin : walk.Twin P other) : (w.gatherLeaves walk).Twin P (v.gatherLeaves other) := by
  induction h generalizing walk other with
  | activity hId name duration =>
      exact Walk.twin_once hP hTwin hId fun _ _ h => Walk.twin_pick h (.activity hId name duration)
  | request hId hResource =>
      exact Walk.twin_once hP hTwin hId fun _ _ h => Walk.twin_pick h (.request hId hResource)
  | release hId hResource =>
      exact Walk.twin_once hP hTwin hId fun _ _ h => Walk.twin_pick h (.release hId hResource)
  | seq hId _ _ ihFirst ihSecond =>
      exact Walk.twin_once hP hTwin hId fun _ _ h => ihSecond (ihFirst h)
  | overlap hId _ _ ihFirst ihSecond =>
      exact Walk.twin_once hP hTwin hId fun _ _ h => ihSecond (ihFirst h)
  | holding hId _ _ _ _ ihExpansion =>
      exact Walk.twin_once hP hTwin hId fun _ _ h => ihExpansion h

theorem leaves_twin (hP : P.OneToOne) (h : w.Twin P v) :
    List.Forall₂ (Workflow.Twin P) w.leaves v.leaves :=
  (gatherLeaves_twin hP h ⟨.nil, .nil⟩).found

theorem leafIds_twin (hP : P.OneToOne) (h : w.Twin P v) :
    List.Forall₂ P.workflows w.leafIds v.leafIds :=
  List.rel_map (fun _ _ hLeaf => hLeaf.id) (leaves_twin hP h)

end Workflow

/-! ## Twin compilations -/

namespace Progress

open Workflow

variable {v w : Workflow} {p q : Progress}

/-- Both compilations have counted the same and keep twin networks for paired ids. -/
structure Twin (P : Pairing) (p q : Progress) : Prop where
  stats : p.stats = q.stats
  memo : ∀ i j, P.workflows i j → Option.Rel (Network.Twin P) (p.memo.find? i) (q.memo.find? j)

/-- Both compilations have come to twin networks. -/
def TwinResult (P : Pairing) (a b : Network × Progress) : Prop :=
  a.1.Twin P b.1 ∧ a.2.Twin P b.2

theorem twin_store (hP : P.OneToOne) (hTwin : p.Twin P q) {i j : WorkflowId}
    (hId : P.workflows i j) {g h : Network} (hNetwork : g.Twin P h) :
    (p.store i g).Twin P (q.store j h) where
  stats := by
    show (⟨_, _, _⟩ : CompileStats) = ⟨_, _, _⟩
    rw [hTwin.stats]
  memo := by
    intro k l hOther
    rw [find?_store, find?_store]
    by_cases hSame : k = i
    · rw [if_pos hSame, if_pos ((hP.workflow_eq_iff hOther hId).1 hSame)]
      exact .some hNetwork
    · rw [if_neg hSame, if_neg fun h => hSame ((hP.workflow_eq_iff hOther hId).2 h)]
      exact hTwin.memo k l hOther

theorem twin_once {work workOther : Progress → Network × Progress} (hP : P.OneToOne)
    (hTwin : p.Twin P q) (hId : P.workflows w.id v.id)
    (hWork : ∀ p q : Progress, p.Twin P q → TwinResult P (work p) (workOther q)) :
    TwinResult P (p.once w work) (q.once v workOther) := by
  have hMemo := hTwin.memo w.id v.id hId
  cases hFind : p.memo.find? w.id with
  | some g =>
      rw [hFind] at hMemo
      cases hOther : q.memo.find? v.id with
      | none =>
          rw [hOther] at hMemo
          cases hMemo
      | some h =>
          rw [hOther] at hMemo
          cases hMemo with
          | some hNetwork =>
              rw [once_of_done work hFind, once_of_done workOther hOther]
              refine ⟨hNetwork, ?_, hTwin.memo⟩
              show (⟨_, _, _⟩ : CompileStats) = ⟨_, _, _⟩
              simp only [hTwin.stats]
  | none =>
      rw [hFind] at hMemo
      cases hOther : q.memo.find? v.id with
      | some h =>
          rw [hOther] at hMemo
          cases hMemo
      | none =>
          rw [once_of_new work hFind, once_of_new workOther hOther]
          obtain ⟨hNetwork, hAfter⟩ := hWork (p.record (.compiling w.id w.label))
            (q.record (.compiling v.id v.label)) ⟨hTwin.stats, hTwin.memo⟩
          exact ⟨hNetwork, twin_store hP hAfter hId hNetwork⟩

/-- Both compilations hand out the same nodes. -/
theorem twin_allocate (hTwin : p.Twin P q) (n : Nat) : (p.allocate n).Twin P (q.allocate n) where
  stats := by
    show (⟨_, _, _⟩ : CompileStats) = ⟨_, _, _⟩
    rw [hTwin.stats]
  memo := hTwin.memo

theorem Twin.nextNode (hTwin : p.Twin P q) : p.nextNode = q.nextNode := by
  rw [Progress.nextNode, Progress.nextNode, hTwin.stats]

end Progress

namespace Workflow

variable {v w : Workflow}

/-- Twins compile to twin networks, in the course of twin compilations. -/
theorem realize_twin (hP : P.OneToOne) (h : w.Twin P v) {p q : Progress} (hTwin : p.Twin P q) :
    Progress.TwinResult P (w.realize p) (v.realize q) := by
  induction h generalizing p q with
  | activity hId name duration =>
      refine Progress.twin_once hP hTwin hId fun p q h => ⟨?_, Progress.twin_allocate h 2⟩
      show (Network.activity _ _ _ _).Twin P (Network.activity _ _ _ _)
      rw [h.nextNode, h.stats]
      exact Network.twin_activity P _ _ name duration
  | request hId hResource =>
      refine Progress.twin_once hP hTwin hId fun p q h => ⟨?_, Progress.twin_allocate h 1⟩
      show (Network.marker _ _).Twin P (Network.marker _ _)
      rw [h.nextNode]
      exact Network.twin_marker _ hResource
  | release hId hResource =>
      refine Progress.twin_once hP hTwin hId fun p q h => ⟨?_, Progress.twin_allocate h 1⟩
      show (Network.marker _ _).Twin P (Network.marker _ _)
      rw [h.nextNode]
      exact Network.twin_marker _ hResource
  | seq hId _ _ ihFirst ihSecond =>
      refine Progress.twin_once hP hTwin hId fun p q h => ?_
      obtain ⟨hFirst, hBetween⟩ := ihFirst h
      obtain ⟨hSecond, hAfter⟩ := ihSecond hBetween
      exact ⟨Network.twin_inSequence hFirst hSecond, hAfter⟩
  | overlap hId _ _ ihFirst ihSecond =>
      refine Progress.twin_once hP hTwin hId fun p q h => ?_
      obtain ⟨hFirst, hBetween⟩ := ihFirst h
      obtain ⟨hSecond, hAfter⟩ := ihSecond hBetween
      exact ⟨Network.twin_overlaid hFirst hSecond, hAfter⟩
  | holding hId _ _ _ _ ihExpansion =>
      exact Progress.twin_once hP hTwin hId fun _ _ h => ihExpansion h

theorem compile_twin (hP : P.OneToOne) (h : w.Twin P v) :
    Progress.TwinResult P (w.realize .start) (v.realize .start) := by
  refine realize_twin hP h ⟨rfl, fun i j _ => ?_⟩
  show Option.Rel _ (OrderedMap.find? .empty i) (OrderedMap.find? .empty j)
  rw [OrderedMap.find?_empty, OrderedMap.find?_empty]
  exact .none

theorem network_twin (hP : P.OneToOne) (h : w.Twin P v) : w.network.Twin P v.network :=
  (compile_twin hP h).1

theorem stats_twin (hP : P.OneToOne) (h : w.Twin P v) : w.compile.stats = v.compile.stats :=
  (compile_twin hP h).2.stats

end Workflow

end ActivityNetwork
