import ActivityNetwork.Network.Indexed
import ActivityNetwork.Proofs.Network.Paths
import Mathlib.Data.List.Induction

/-!
# Networks handed over by position

A network that has been handed over to a lawful library is there as `Network.indexed` lists it
(`contents_of_handOver?`), and only a want of room can break the exchange off
(`isSome_handOver?_iff`).  What carries this is `HandOver.Shows`: the library has the nodes and edges
handed over so far, and the table has the position of each node.

An edge handed over leads from and to the nodes that it led from and to before, whatever their ids
are (`edge?_of_indexEdge?`), so that a network whose edge ends are nodes can be taken back whole.
-/

namespace ActivityNetwork

/-- The edge between the nodes that stand at the positions. -/
def IndexedNetwork.edge? (x : IndexedNetwork) (i : IndexedEdge) : Option Edge := do
  let source ← x.nodes[i.source]?
  let target ← x.nodes[i.target]?
  return ⟨source.1, target.1, i.kind⟩

namespace GraphLibrary

variable {Graph : Type}

theorem fits_zero (lib : GraphLibrary Graph) : lib.Fits 0 :=
  fun _ _ => Nat.zero_le _

theorem Fits.mono {lib : GraphLibrary Graph} {n m : Nat} (hFits : lib.Fits m) (hLe : n ≤ m) :
    lib.Fits n :=
  fun limit hLimit => hLe.trans (hFits limit hLimit)

end GraphLibrary

/-- So many nodes and edges have been handed over, and the table has the index of each node. -/
structure HandOver.Shows {Graph : Type} (lib : GraphLibrary Graph) (h : HandOver Graph)
    (nodes : List (NodeId × NodeKind)) (edges : List IndexedEdge) : Prop where
  contents : lib.contents h.graph = ⟨nodes, edges⟩
  indices : ∀ id, h.indices.find? id = (nodes.map Prod.fst).findIdx? (· = id)

namespace Network

variable {g : Network} {id : NodeId} {e : Edge} {i : IndexedEdge}

/-! ## Positions -/

/-- Every position in use is the place of a node. -/
theorem position?_lt {k : Nat} (hPosition : g.position? id = some k) :
    k < g.nodes.entries.length := by
  obtain ⟨hBound, -⟩ := List.findIdx?_eq_some_iff_getElem.1 hPosition
  simpa using hBound

theorem entry_of_position? {k : Nat} (hPosition : g.position? id = some k) :
    (g.nodes.entries[k]?).map Prod.fst = some id := by
  have hPlace := getElem?_of_position? hPosition
  rwa [OrderedMap.toList_keys, List.getElem?_map] at hPlace

theorem indexEdge?_eq_some_iff :
    g.indexEdge? e = some i ↔
      g.position? e.source = some i.source ∧ g.position? e.target = some i.target ∧
        e.kind = i.kind := by
  unfold indexEdge?
  split
  · rename_i source target hSource hTarget
    rw [hSource, hTarget]
    cases i
    simp
  · rename_i hNone
    simp only [reduceCtorEq, false_iff]
    rintro ⟨hSource, hTarget, -⟩
    exact hNone _ _ hSource hTarget

/-- Edges have a form by position exactly if both ends are nodes. -/
theorem exists_indexEdge?_iff :
    (∃ i, g.indexEdge? e = some i) ↔ e.source ∈ g.nodes.keys ∧ e.target ∈ g.nodes.keys := by
  have hNode : ∀ id, id ∈ g.nodes.keys ↔ ∃ k, g.position? id = some k := by
    intro id
    rw [← Option.ne_none_iff_exists', Ne, position?_eq_none_iff, not_not]
  simp only [indexEdge?_eq_some_iff, hNode]
  constructor
  · rintro ⟨i, hSource, hTarget, -⟩
    exact ⟨⟨_, hSource⟩, ⟨_, hTarget⟩⟩
  · rintro ⟨⟨source, hSource⟩, ⟨target, hTarget⟩⟩
    exact ⟨⟨source, target, e.kind⟩, hSource, hTarget, rfl⟩

/-- The nodes at the positions of an edge are its ends. -/
theorem edge?_of_indexEdge? (hIndex : g.indexEdge? e = some i) : g.indexed.edge? i = some e := by
  obtain ⟨hSource, hTarget, hKind⟩ := indexEdge?_eq_some_iff.1 hIndex
  obtain ⟨n, hn, hnId⟩ := Option.map_eq_some_iff.1 (entry_of_position? hSource)
  obtain ⟨m, hm, hmId⟩ := Option.map_eq_some_iff.1 (entry_of_position? hTarget)
  simp only [IndexedNetwork.edge?, indexed, hn, hm, hnId, hmId, ← hKind, Option.bind_eq_bind,
    Option.bind_some]
  rfl

/-- The edges by position, led back to nodes, are the edges between nodes in their order. -/
theorem map_edge?_filterMap (es : List Edge) :
    (es.filterMap g.indexEdge?).map g.indexed.edge? =
      (es.filter fun e => e.source ∈ g.nodes.keys ∧ e.target ∈ g.nodes.keys).map some := by
  induction es with
  | nil => rfl
  | cons e rest ih =>
      by_cases hEnds : e.source ∈ g.nodes.keys ∧ e.target ∈ g.nodes.keys
      · obtain ⟨i, hi⟩ := exists_indexEdge?_iff.2 hEnds
        rw [List.filterMap_cons_some hi, List.filter_cons_of_pos (by simpa using hEnds),
          List.map_cons, List.map_cons, ih, edge?_of_indexEdge? hi]
      · have hNone : g.indexEdge? e = none := by
          rw [Option.eq_none_iff_forall_ne_some]
          exact fun i hi => hEnds (exists_indexEdge?_iff.1 ⟨i, hi⟩)
        rw [List.filterMap_cons_none hNone, List.filter_cons_of_neg (by simpa using hEnds), ih]

/-! ## The exchange -/

/-- A fold whose steps may be refused.  If a step goes through exactly where there is room for one
more, then the fold does exactly where there is room for all, and it keeps what the steps keep. -/
theorem foldlM_of_room {α β : Type} {step : β → α → Option β} {all : List α} {first : β}
    (room : List α → Prop) (P : List α → β → Prop) (hFirst : room [] ∧ P [] first)
    (hBefore : ∀ xs x, room (xs ++ [x]) → room xs)
    (hStep : ∀ xs x b, xs ++ [x] <+: all → room xs → P xs b →
      ((step b x).isSome ↔ room (xs ++ [x])) ∧
        ∀ next, step b x = some next → P (xs ++ [x]) next) :
    ((all.foldlM step first).isSome ↔ room all) ∧
      ∀ last, all.foldlM step first = some last → P all last := by
  suffices h : ∀ xs, xs <+: all → ((xs.foldlM step first).isSome ↔ room xs) ∧
      ∀ last, xs.foldlM step first = some last → P xs last from h all List.prefix_rfl
  intro xs
  induction xs using List.reverseRecOn with
  | nil =>
      refine fun _ => ⟨⟨fun _ => hFirst.1, fun _ => rfl⟩, fun last hLast => ?_⟩
      obtain rfl := Option.some.inj hLast
      exact hFirst.2
  | append_singleton xs x ih =>
      intro hPrefix
      obtain ⟨hRoom, hKeeps⟩ := ih ((List.prefix_append xs [x]).trans hPrefix)
      rw [List.foldlM_append]
      cases hRun : xs.foldlM step first with
      | none =>
          -- What was refused before has no room for more.
          rw [hRun] at hRoom
          refine ⟨⟨fun hSome => ?_, fun hMore => ?_⟩, fun last hNone => ?_⟩
          · cases hSome
          · cases hRoom.2 (hBefore xs x hMore)
          · cases hNone
      | some b =>
          rw [hRun] at hRoom
          simpa using hStep xs x b hPrefix (hRoom.1 rfl) (hKeeps b hRun)

section Exchange

variable {Graph : Type} {lib : GraphLibrary Graph} {h : HandOver Graph}
  {ns : List (NodeId × NodeKind)} {done : List IndexedEdge} (hLawful : lib.Lawful)
include hLawful

/-- A new node is taken if there is room, and the table gets its index. -/
theorem shows_node (hShows : h.Shows lib ns done) {n : NodeId × NodeKind}
    (hNew : n.1 ∉ ns.map Prod.fst) :
    ((h.node? lib n).isSome ↔ lib.Fits (ns.length + 1)) ∧
      ∀ next, h.node? lib n = some next → next.Shows lib (ns ++ [n]) done := by
  constructor
  · have hRoom := hLawful.isSome_addNode h.graph n
    rw [hShows.contents] at hRoom
    rw [HandOver.node?, Option.isSome_map, hRoom]
  · intro next hNext
    obtain ⟨⟨graph, index⟩, hAdd, rfl⟩ := Option.map_eq_some_iff.1 hNext
    have hIndex := hLawful.index_addNode _ _ _ _ hAdd
    have hContents := hLawful.contents_addNode _ _ _ _ hAdd
    rw [hShows.contents] at hIndex hContents
    refine ⟨hContents, fun id => ?_⟩
    rw [OrderedMap.find?_insert, hShows.indices, List.map_append, List.findIdx?_append, hIndex]
    by_cases hId : id = n.1
    · -- The node is new, so it is found at the end.
      have hNone : (ns.map Prod.fst).findIdx? (· = id) = none :=
        findIdx?_id_eq_none_iff.2 (hId ▸ hNew)
      rw [hNone]
      simp [hId]
    · simp [hId, Ne.symm hId]

/-- Nodes are taken as long as there is room, and the table gets the index of each. -/
theorem shows_nodes (g : Network) (hNodup : (ns.map Prod.fst).Nodup) :
    ((ns.foldlM (HandOver.node? lib) (.start lib g)).isSome ↔ lib.Fits ns.length) ∧
      ∀ h, ns.foldlM (HandOver.node? lib) (.start lib g) = some h → h.Shows lib ns [] := by
  refine foldlM_of_room (fun ns => lib.Fits ns.length)
    (fun ns (h : HandOver Graph) => h.Shows lib ns []) ⟨lib.fits_zero, ?_⟩ ?_ ?_
  · exact ⟨hLawful.contents_withCapacity _ _, fun _ => rfl⟩
  · intro ns n hFits
    exact hFits.mono (by simp)
  · intro front n h hPrefix _ hShows
    have hFront := hNodup.sublist (hPrefix.sublist.map Prod.fst)
    rw [List.map_append, List.nodup_append] at hFront
    have hNew : n.1 ∉ front.map Prod.fst := fun hMem => hFront.2.2 n.1 hMem n.1 (by simp) rfl
    simpa using shows_node hLawful hShows hNew

/-- After the nodes, an edge that has a form by position is taken in that form if there is room, and
any other edge is passed over. -/
theorem shows_edge (hShows : h.Shows lib g.nodes.entries done) (hFits : lib.Fits done.length)
    (e : Edge) :
    ((h.edge? lib e).isSome ↔ lib.Fits (done ++ (g.indexEdge? e).toList).length) ∧
      ∀ next, h.edge? lib e = some next →
        next.Shows lib g.nodes.entries (done ++ (g.indexEdge? e).toList) := by
  have hIndices : ∀ id, h.indices.find? id = g.position? id := fun id => hShows.indices id
  rw [HandOver.edge?, indexEdge?, hIndices, hIndices]
  cases hSource : g.position? e.source with
  | none => simpa [hFits] using hShows
  | some source =>
      cases hTarget : g.position? e.target with
      | none => simpa [hFits] using hShows
      | some target =>
          have hBounds : source < g.nodes.entries.length ∧ target < g.nodes.entries.length :=
            ⟨position?_lt hSource, position?_lt hTarget⟩
          constructor
          · have hRoom := hLawful.isSome_addEdge h.graph ⟨source, target, e.kind⟩
            rw [hShows.contents, and_iff_right hBounds] at hRoom
            simpa using hRoom
          · intro next hNext
            obtain ⟨graph, hAdd, rfl⟩ := Option.map_eq_some_iff.1 hNext
            have hContents := hLawful.contents_addEdge _ _ _ hAdd
            rw [hShows.contents] at hContents
            exact ⟨hContents, hShows.indices⟩

/-- After the nodes, edges that have a form by position are taken in their order as long as there is
room. -/
theorem shows_edges (hShows : h.Shows lib g.nodes.entries []) (es : List Edge) :
    ((es.foldlM (HandOver.edge? lib) h).isSome ↔ lib.Fits (es.filterMap g.indexEdge?).length) ∧
      ∀ next, es.foldlM (HandOver.edge? lib) h = some next →
        next.Shows lib g.nodes.entries (es.filterMap g.indexEdge?) := by
  have hLast : ∀ es e, (es ++ [e]).filterMap g.indexEdge? =
      es.filterMap g.indexEdge? ++ (g.indexEdge? e).toList := by
    intro es e
    rw [List.filterMap_append]
    cases hIndex : g.indexEdge? e <;> simp [hIndex]
  refine foldlM_of_room (fun es => lib.Fits (es.filterMap g.indexEdge?).length)
    (fun es (h : HandOver Graph) => h.Shows lib g.nodes.entries (es.filterMap g.indexEdge?))
    ⟨lib.fits_zero, hShows⟩ ?_ ?_
  · intro es e hFits
    refine hFits.mono ?_
    rw [hLast, List.length_append]
    exact Nat.le_add_right _ _
  · intro front e h _ hFits hFront
    rw [hLast]
    exact shows_edge hLawful hFront hFits e

/-- Only a want of room breaks the exchange off. -/
theorem isSome_handOver?_iff (g : Network) :
    (g.handOver? lib).isSome ↔ lib.Fits g.order ∧ lib.Fits g.indexed.edges.length := by
  obtain ⟨hRoom, hNodes⟩ := shows_nodes hLawful g g.nodes.nodup
  rw [handOver?, order, OrderedMap.size, ← hRoom]
  cases hRun : g.nodes.entries.foldlM (HandOver.node? lib) (.start lib g) with
  | none => simp
  | some h =>
      have hEdges := (shows_edges hLawful (hNodes h hRun) g.edges.toList).1
      simpa [indexed] using hEdges

/-- What the library has in the end are the nodes and edges by position. -/
theorem contents_of_handOver? {x : Graph} (hDone : g.handOver? lib = some x) :
    lib.contents x = g.indexed := by
  obtain ⟨noded, hRun, hRest⟩ := Option.bind_eq_some_iff.1 hDone
  obtain ⟨last, hLast, rfl⟩ := Option.map_eq_some_iff.1 hRest
  have hNodes := (shows_nodes hLawful g g.nodes.nodup).2 noded hRun
  exact ((shows_edges hLawful hNodes g.edges.toList).2 last hLast).contents

end Exchange

/-! ## What can be taken back -/

theorem position_of_mem_edges (hMem : i ∈ g.indexed.edges) :
    i.source < g.indexed.nodes.length ∧ i.target < g.indexed.nodes.length := by
  obtain ⟨e, -, hIndex⟩ := List.mem_filterMap.1 hMem
  obtain ⟨hSource, hTarget, -⟩ := indexEdge?_eq_some_iff.1 hIndex
  exact ⟨position?_lt hSource, position?_lt hTarget⟩

theorem length_edges_indexed (g : Network) :
    g.indexed.edges.length =
      g.edges.toList.countP fun e => e.source ∈ g.nodes.keys ∧ e.target ∈ g.nodes.keys := by
  have h := congrArg List.length (map_edge?_filterMap (g := g) g.edges.toList)
  rwa [List.length_map, List.length_map, ← List.countP_eq_length_filter] at h

/-- The edges that can be taken back are those between nodes. -/
theorem ofList_edge?_indexed (g : Network) :
    OrderedSet.ofList (g.indexed.edges.filterMap g.indexed.edge?) =
      g.edges.filter fun e => e.source ∈ g.nodes.keys ∧ e.target ∈ g.nodes.keys := by
  have hBack := map_edge?_filterMap (g := g) g.edges.toList
  have hEdges : g.indexed.edges.filterMap g.indexed.edge? =
      g.edges.toList.filter fun e => e.source ∈ g.nodes.keys ∧ e.target ∈ g.nodes.keys := by
    have h := congrArg (List.filterMap fun e => e) hBack
    simpa [List.filterMap_map, indexed] using h
  rw [hEdges]
  exact OrderedSet.ofList_toList (g.edges.filter _)

/-- Handing over a network to a lawful library is faithful.  It breaks off only where the library
has no room for the nodes or for the edges between them.  Otherwise the library has the nodes and
edges by position: the nodes stand at their positions with their ids and kinds, in the order of the
network; the edges, led back from positions to ids, are the edges of the network in their order
without those that have an end that is no node; and no edge has an end at a position without a node.
The nodes can always be taken back, and the edges exactly if all their ends are nodes. -/
theorem handOver_faithful {Graph : Type} {lib : GraphLibrary Graph} (hLawful : lib.Lawful)
    (g : Network) :
    ((g.handOver? lib).isSome ↔ lib.Fits g.order ∧ lib.Fits
      (g.edges.toList.countP fun e => e.source ∈ g.nodes.keys ∧ e.target ∈ g.nodes.keys)) ∧
    ∀ x, g.handOver? lib = some x →
      lib.contents x = g.indexed ∧
      (lib.contents x).nodes = g.nodes.entries ∧
      (lib.contents x).edges.map (lib.contents x).edge? =
        (g.edges.toList.filter fun e =>
          e.source ∈ g.nodes.keys ∧ e.target ∈ g.nodes.keys).map some ∧
      (∀ i ∈ (lib.contents x).edges,
        i.source < (lib.contents x).nodes.length ∧ i.target < (lib.contents x).nodes.length) ∧
      OrderedMap.ofList (lib.contents x).nodes = g.nodes ∧
      (OrderedSet.ofList ((lib.contents x).edges.filterMap (lib.contents x).edge?) = g.edges ↔
        g.Closed) := by
  refine ⟨?_, fun x hDone => ?_⟩
  · rw [isSome_handOver?_iff hLawful, length_edges_indexed]
  · rw [contents_of_handOver? hLawful hDone]
    refine ⟨rfl, rfl, map_edge?_filterMap _, fun i => position_of_mem_edges,
      OrderedMap.ofList_entries g.nodes, ?_⟩
    rw [ofList_edge?_indexed, OrderedSet.ext_toList_iff, OrderedSet.toList_filter,
      List.filter_eq_self]
    simp [Closed, OrderedSet.mem_toList]

end Network

/-- A library that keeps two lists, with 32-bit indices of which the last one is not given out. -/
def IndexedNetwork.library : GraphLibrary IndexedNetwork where
  withCapacity _ _ := ⟨[], []⟩
  addNode x n :=
    if x.nodes.length < 0xFFFFFFFF then some (⟨x.nodes ++ [n], x.edges⟩, x.nodes.length) else none
  addEdge x i :=
    if (i.source < x.nodes.length ∧ i.target < x.nodes.length) ∧ x.edges.length < 0xFFFFFFFF then
      some ⟨x.nodes, x.edges ++ [i]⟩
    else none
  contents x := x
  limit := some 0xFFFFFFFF

theorem IndexedNetwork.fits_library {n : Nat} : library.Fits n ↔ n ≤ 0xFFFFFFFF := by
  constructor
  · exact fun hFits => hFits 0xFFFFFFFF rfl
  · rintro hLe limit ⟨⟩
    exact hLe

theorem IndexedNetwork.lawful_library : library.Lawful where
  contents_withCapacity := fun _ _ => rfl
  isSome_addNode := fun _ _ => Option.isSome_ite.trans fits_library.symm
  index_addNode := by
    intro x n y i hAdd
    obtain ⟨-, ⟨⟩⟩ := Option.ite_none_right_eq_some.1 hAdd
    rfl
  contents_addNode := by
    intro x n y i hAdd
    obtain ⟨-, ⟨⟩⟩ := Option.ite_none_right_eq_some.1 hAdd
    rfl
  isSome_addEdge := fun _ _ => Option.isSome_ite.trans (and_congr_right' fits_library.symm)
  contents_addEdge := by
    intro x i y hAdd
    obtain ⟨-, ⟨⟩⟩ := Option.ite_none_right_eq_some.1 hAdd
    rfl

namespace Network

namespace Sample

/-- A loop and two parallel edges, with an edge to a missing node among them.  The order of the
nodes is not that of their ids. -/
def tangled : Network where
  nodes := .ofList [(⟨40⟩, .boundary), (⟨2⟩, .boundary)]
  edges := .ofList [.dependency ⟨2⟩ ⟨40⟩, .dependency ⟨2⟩ ⟨9⟩, .dependency ⟨2⟩ ⟨2⟩,
    .activity ⟨2⟩ ⟨40⟩ "carry" .zero]
  entries := .empty
  exits := .empty

end Sample

/-- The network is handed over in full but for the edge to the missing node, also where two edges
agree in their ends. -/
theorem handOver_faithful_tangled :
    IndexedNetwork.library.Lawful ∧ ∃ x,
      Sample.tangled.handOver? IndexedNetwork.library = some x ∧
      x.nodes = [(⟨40⟩, .boundary), (⟨2⟩, .boundary)] ∧
      x.edges = [⟨1, 0, .dependency⟩, ⟨1, 1, .dependency⟩, ⟨1, 0, .activity "carry" .zero⟩] ∧
      x.edges.map x.edge? = [some (.dependency ⟨2⟩ ⟨40⟩), some (.dependency ⟨2⟩ ⟨2⟩),
        some (.activity ⟨2⟩ ⟨40⟩ "carry" .zero)] ∧
      OrderedMap.ofList x.nodes = Sample.tangled.nodes := by
  have hLawful := IndexedNetwork.lawful_library
  obtain ⟨hRoom, hFaithful⟩ := handOver_faithful hLawful Sample.tangled
  obtain ⟨x, hDone⟩ := Option.isSome_iff_exists.1 (hRoom.2 (by decide +kernel))
  obtain ⟨hIndexed, hNodes, hEdges, -, hBack, -⟩ := hFaithful x hDone
  refine ⟨hLawful, x, hDone, hNodes, ?_, hEdges.trans (by decide +kernel), hBack⟩
  exact (congrArg IndexedNetwork.edges hIndexed).trans (by decide +kernel)

end Network

end ActivityNetwork
