import ActivityNetwork.Json.Network
import Mathlib.Data.List.Forall2

/-!
# Networks that are written down and read again

A written network is a list of nodes with their kinds, a list of edges and two lists of frontier
nodes, each in the order of insertion.  Reading inserts what is listed one by one, and so finds the
same network: the same lists in the same order, with the names of activities and the labels of
resources as they were.  This is equality of networks as values, and not `same`, which looks at
neither order nor labels.

What can be written is limited by the numbers.  Ids have to fit into 64 bits, and nothing else is
asked of a network, whether it makes sense or not (`ofJson?_toJson_iff`).
-/

namespace ActivityNetwork

/-! ## Lists -/

/-- Reading a list is reading its members one by one. -/
theorem mapM_eq_some_iff {α β : Type} {read : α → Option β} {xs : List α} {ys : List β} :
    xs.mapM read = some ys ↔ List.Forall₂ (fun x y => read x = some y) xs ys := by
  induction xs generalizing ys with
  | nil => simp [eq_comm]
  | cons x rest ih =>
      rw [List.mapM_cons, List.forall₂_cons_left_iff]
      simp only [Option.bind_eq_bind, Option.bind_eq_some_iff, ih, Option.pure_def,
        Option.some.injEq]
      constructor
      · rintro ⟨y, hRead, ys, hRest, rfl⟩
        exact ⟨y, ys, hRead, hRest, rfl⟩
      · rintro ⟨y, ys, hRead, hRest, rfl⟩
        exact ⟨y, hRead, ys, hRest, rfl⟩

/-- A written list is found again if its members are. -/
theorem mapM_map_of_reads {α β : Type} {write : α → β} {read : β → Option α} {xs : List α}
    (hReads : ∀ x ∈ xs, read (write x) = some x) : (xs.map write).mapM read = some xs := by
  rw [mapM_eq_some_iff, List.forall₂_map_left_iff, List.forall₂_same]
  exact hReads

/-- What holds of everything that can be read holds of all members of a list that was read. -/
theorem forall_mem_of_mapM {α β : Type} {read : α → Option β} {P : β → Prop} {xs : List α}
    {ys : List β} (hRead : xs.mapM read = some ys) (hEach : ∀ x y, read x = some y → P y) :
    ∀ y ∈ ys, P y := by
  have hPairs := mapM_eq_some_iff.1 hRead
  clear hRead
  induction hPairs with
  | nil => simp
  | cons hHead _ ih => exact List.forall_mem_cons.2 ⟨hEach _ _ hHead, ih⟩

/-! ## Ids that can be written -/

/-- The number of the node can be written. -/
def NodeId.Writable (id : NodeId) : Prop :=
  id.index ≤ maxWord

/-- The id of the resource can be written. -/
def Resource.Writable (r : Resource) : Prop :=
  r.id.index ≤ maxWord

/-- If there is a resource, its id can be written. -/
def NodeKind.Writable (kind : NodeKind) : Prop :=
  ∀ r, kind.resource? = some r → r.Writable

/-- The ends of the edge can be written. -/
def Edge.Writable (e : Edge) : Prop :=
  e.source.Writable ∧ e.target.Writable

/-- Every id in the network can be written. -/
structure Network.Writable (g : Network) : Prop where
  nodes : ∀ n ∈ g.nodes.entries, n.1.Writable ∧ n.2.Writable
  edges : ∀ e ∈ g.edges, e.Writable
  entries : ∀ id ∈ g.entries, id.Writable
  exits : ∀ id ∈ g.exits, id.Writable

theorem NodeId.writable_of_ofJson? {j : Json} {id : NodeId} (hRead : ofJson? j = some id) :
    id.Writable := by
  rw [ofJson?, Option.map_eq_some_iff] at hRead
  obtain ⟨n, hWord, rfl⟩ := hRead
  exact Json.le_maxWord_of_word? hWord

theorem Resource.writable_of_ofJson? {j : Json} {r : Resource} (hRead : ofJson? j = some r) :
    r.Writable := by
  unfold ofJson? at hRead
  split at hRead
  · simp only [Option.bind_eq_bind, Option.bind_eq_some_iff, Option.pure_def,
      Option.some.injEq] at hRead
    obtain ⟨n, hWord, label, -, rfl⟩ := hRead
    exact Json.le_maxWord_of_word? hWord
  · cases hRead

/-- A marker is read through its resource. -/
theorem NodeKind.writable_of_marker {make : Resource → NodeKind}
    (hMake : ∀ r, (make r).resource? = some r) {payload : Json} {kind : NodeKind}
    (hRead : (do return make (← Resource.ofJson? (← payload.member? "resource"))) = some kind) :
    kind.Writable := by
  simp only [Option.bind_eq_bind, Option.bind_eq_some_iff, Option.pure_def,
    Option.some.injEq] at hRead
  obtain ⟨_, -, r, hResource, rfl⟩ := hRead
  intro s hs
  rw [hMake r, Option.some.injEq] at hs
  exact hs ▸ Resource.writable_of_ofJson? hResource

theorem NodeKind.writable_of_ofJson? {j : Json} {kind : NodeKind}
    (hRead : ofJson? j = some kind) : kind.Writable := by
  unfold ofJson? at hRead
  split at hRead
  · cases hRead
    intro r hResource
    cases hResource
  · exact writable_of_marker (fun _ => rfl) hRead
  · exact writable_of_marker (fun _ => rfl) hRead
  · cases hRead

theorem Edge.writable_of_ofJson? {j : Json} {e : Edge} (hRead : ofJson? j = some e) :
    e.Writable := by
  unfold ofJson? at hRead
  split at hRead
  · simp only [Option.bind_eq_bind, Option.bind_eq_some_iff, Option.pure_def,
      Option.some.injEq] at hRead
    obtain ⟨source, hSource, target, hTarget, kind, -, rfl⟩ := hRead
    exact ⟨NodeId.writable_of_ofJson? hSource, NodeId.writable_of_ofJson? hTarget⟩
  · cases hRead

namespace Network

variable {g : Network} {j : Json}

theorem nodeOfJson?_nodeToJson {n : NodeId × NodeKind} (hId : n.1.Writable)
    (hKind : n.2.Writable) : nodeOfJson? (nodeToJson n) = some n := by
  simp only [nodeOfJson?, nodeToJson, NodeId.ofJson?_toJson hId, NodeKind.ofJson?_toJson hKind]
  rfl

theorem writable_of_nodeOfJson? {n : NodeId × NodeKind} (hRead : nodeOfJson? j = some n) :
    n.1.Writable ∧ n.2.Writable := by
  unfold nodeOfJson? at hRead
  split at hRead
  · simp only [Option.bind_eq_bind, Option.bind_eq_some_iff, Option.pure_def,
      Option.some.injEq] at hRead
    obtain ⟨id, hId, kind, hKind, rfl⟩ := hRead
    exact ⟨NodeId.writable_of_ofJson? hId, NodeKind.writable_of_ofJson? hKind⟩
  · cases hRead

/-! ## Whole networks -/

end Network

/-- The four lists of which a network is made, with everything as often as it is listed. -/
structure Listing where
  nodes : List (NodeId × NodeKind)
  edges : List Edge
  entries : List NodeId
  exits : List NodeId

namespace Listing

/-- The value is a record of four lists, and their members, read one by one, are what is
listed. -/
def ReadFrom (l : Listing) (j : Json) : Prop :=
  ∃ nodes edges entries exits : List Json,
    j.record? ["nodes", "edges", "start", "end"] =
      some [.list nodes, .list edges, .list entries, .list exits] ∧
    nodes.mapM Network.nodeOfJson? = some l.nodes ∧
    edges.mapM Edge.ofJson? = some l.edges ∧
    entries.mapM NodeId.ofJson? = some l.entries ∧
    exits.mapM NodeId.ofJson? = some l.exits

/-- The network of what is listed. -/
def network (l : Listing) : Network :=
  ⟨.ofList l.nodes, .ofList l.edges, .ofList l.entries, .ofList l.exits⟩

end Listing

namespace Network

variable {g : Network} {j : Json}

/-- What was read was listed, and what is listed can be read. -/
theorem ofJson?_eq_some_iff : ofJson? j = some g ↔ ∃ l : Listing, l.ReadFrom j ∧ l.network = g := by
  constructor
  · intro hRead
    unfold ofJson? at hRead
    split at hRead
    · rename_i nodes edges entries exits hRecord
      simp only [NodeId.listOfJson?, Option.bind_eq_bind, Option.bind_eq_some_iff,
        Option.pure_def, Option.some.injEq, Json.list?_eq_some_iff] at hRead
      obtain ⟨ns, rfl, nodes, hNodes, es, rfl, edges, hEdges, entries, ⟨as, rfl, hEntries⟩, exits,
        ⟨bs, rfl, hExits⟩, hNetwork⟩ := hRead
      exact ⟨⟨nodes, edges, entries, exits⟩,
        ⟨ns, es, as, bs, hRecord, hNodes, hEdges, hEntries, hExits⟩, hNetwork⟩
    · cases hRead
  · rintro ⟨l, ⟨ns, es, as, bs, hRecord, hNodes, hEdges, hEntries, hExits⟩, rfl⟩
    simp only [ofJson?, hRecord, NodeId.listOfJson?, Json.list?, hNodes, hEdges, hEntries, hExits,
      Option.bind_eq_bind, Option.bind_some]
    rfl

/-- Whatever is read can be written. -/
theorem writable_of_ofJson? (hRead : ofJson? j = some g) : g.Writable := by
  obtain ⟨l, ⟨ns, es, as, bs, -, hNodes, hEdges, hEntries, hExits⟩, rfl⟩ :=
    ofJson?_eq_some_iff.1 hRead
  constructor
  · intro n hn
    have hFind := OrderedMap.find?_eq_some_iff.2 hn
    rw [Listing.network, OrderedMap.find?_ofList, Option.map_eq_some_iff] at hFind
    obtain ⟨m, hLast, hKind⟩ := hFind
    have hm : m = n := Prod.ext (by simpa using List.find?_some hLast) hKind
    have hListed : n ∈ l.nodes := List.mem_reverse.1 (hm ▸ List.mem_of_find?_eq_some hLast)
    exact forall_mem_of_mapM hNodes (fun _ _ => writable_of_nodeOfJson?) n hListed
  · exact fun e he =>
      forall_mem_of_mapM hEdges (fun _ _ => Edge.writable_of_ofJson?) e (OrderedSet.mem_ofList.1 he)
  · exact fun id hId => forall_mem_of_mapM hEntries (fun _ _ => NodeId.writable_of_ofJson?) id
      (OrderedSet.mem_ofList.1 hId)
  · exact fun id hId => forall_mem_of_mapM hExits (fun _ _ => NodeId.writable_of_ofJson?) id
      (OrderedSet.mem_ofList.1 hId)

/-- What was written is read as it was. -/
theorem ofJson?_toJson (hWritable : g.Writable) : ofJson? g.toJson = some g := by
  have hNodes : (g.nodes.entries.map nodeToJson).mapM nodeOfJson? = some g.nodes.entries :=
    mapM_map_of_reads fun n hn =>
      nodeOfJson?_nodeToJson (hWritable.nodes n hn).1 (hWritable.nodes n hn).2
  have hEdges : (g.edges.toList.map Edge.toJson).mapM Edge.ofJson? = some g.edges.toList :=
    mapM_map_of_reads fun e he =>
      Edge.ofJson?_toJson (hWritable.edges e he).1 (hWritable.edges e he).2
  have hEntries : (g.entries.toList.map NodeId.toJson).mapM NodeId.ofJson? =
      some g.entries.toList :=
    mapM_map_of_reads fun id hId => NodeId.ofJson?_toJson (hWritable.entries id hId)
  have hExits : (g.exits.toList.map NodeId.toJson).mapM NodeId.ofJson? = some g.exits.toList :=
    mapM_map_of_reads fun id hId => NodeId.ofJson?_toJson (hWritable.exits id hId)
  have hRecord : g.toJson.record? ["nodes", "edges", "start", "end"] =
      some [.list (g.nodes.entries.map nodeToJson), .list (g.edges.toList.map Edge.toJson),
        .list (g.entries.toList.map NodeId.toJson), .list (g.exits.toList.map NodeId.toJson)] := by
    simp [toJson, Json.record?, Json.member?]
  refine ofJson?_eq_some_iff.2
    ⟨⟨g.nodes.entries, g.edges.toList, g.entries.toList, g.exits.toList⟩,
      ⟨_, _, _, _, hRecord, hNodes, hEdges, hEntries, hExits⟩, ?_⟩
  exact ext_fields (OrderedMap.ofList_entries _) (OrderedSet.ofList_toList _)
    (OrderedSet.ofList_toList _) (OrderedSet.ofList_toList _)

/-- A network is read as it was written, down to the order of its lists and the labels of its
resources, if and only if its numbers can be written. -/
theorem ofJson?_toJson_iff (g : Network) : ofJson? g.toJson = some g ↔ g.Writable :=
  ⟨writable_of_ofJson?, ofJson?_toJson⟩

end Network

end ActivityNetwork
