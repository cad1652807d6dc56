import ActivityNetwork.Proofs.Json.RoundTrip

/-!
# What reading makes of repetitions

A value that comes from elsewhere may list nodes, edges and frontier nodes more than once.  Reading
inserts what is listed one by one, and a repetition does not mean the same everywhere.  A set passes
over it.  A map keeps the place of the first occurrence and takes the kind of the last one, unlike
the overlay of two networks, in which the first kind stays.

`Listing.Describes` says this of a listing and a network without mentioning insertion, and leaves
no choice (`Listing.Describes.unique`).  What comes out is in normal form: it is written without
repetitions, and read back as it is.
-/

namespace ActivityNetwork

/-! ## First places -/

section Repetitions

variable {α κ ν : Type} [DecidableEq α] [DecidableEq κ]

/-- The members of `xs`, each once, in the order in which they come first. -/
structure KeepsFirst (xs ys : List α) : Prop where
  nodup : ys.Nodup
  mem : ∀ x, x ∈ ys ↔ x ∈ xs
  ordered : ys.Pairwise fun x y => xs.idxOf x < xs.idxOf y

/-- The last entry for `k` has the value `v`. -/
def LastValue (es : List (κ × ν)) (k : κ) (v : ν) : Prop :=
  ∃ before after, es = before ++ (k, v) :: after ∧ ∀ e ∈ after, e.1 ≠ k

/-- The set of a list keeps first occurrences. -/
theorem keepsFirst_ofList (xs : List α) : KeepsFirst xs (OrderedSet.ofList xs).toList :=
  ⟨nodup_firsts xs, fun _ => mem_firsts, pairwise_idxOf_firsts xs⟩

/-- The places leave no choice. -/
theorem KeepsFirst.unique {xs ys zs : List α} (hys : KeepsFirst xs ys) (hzs : KeepsFirst xs zs) :
    ys = zs := by
  have hPerm : ys.Perm zs :=
    (List.perm_ext_iff_of_nodup hys.nodup hzs.nodup).2 fun x => (hys.mem x).trans (hzs.mem x).symm
  refine hPerm.eq_of_pairwise (fun x y _ _ hxy hyx => ?_) hys.ordered hzs.ordered
  exact absurd hyx (Nat.lt_asymm hxy)

/-- The set of a list is what inserting its members one by one makes. -/
theorem OrderedSet.foldl_insert (xs : List α) :
    xs.foldl OrderedSet.insert .empty = OrderedSet.ofList xs := by
  suffices h : ∀ s : OrderedSet α, xs.foldl OrderedSet.insert s = s.union (.ofList xs) by
    refine (h .empty).trans (OrderedSet.ext_toList ?_)
    simp
  induction xs with
  | nil => exact fun s => (OrderedSet.union_empty s).symm
  | cons x rest ih =>
      intro s
      rw [List.foldl_cons, ih, OrderedSet.insert_union_ofList]

/-! ## Last values -/

theorem OrderedMap.mem_entries_ofList {es : List (κ × ν)} {k : κ} {v : ν} :
    (k, v) ∈ (OrderedMap.ofList es).entries ↔ LastValue es k v := by
  rw [← OrderedMap.find?_eq_some_iff, OrderedMap.find?_ofList, Option.map_eq_some_iff]
  constructor
  · rintro ⟨e, hFind, rfl⟩
    obtain ⟨hKey, after, before, hSplit, hLast⟩ := List.find?_eq_some_iff_append.1 hFind
    obtain rfl : e.1 = k := by simpa using hKey
    refine ⟨before.reverse, after.reverse, ?_, ?_⟩
    · simpa using congrArg List.reverse hSplit
    · simpa using hLast
  · rintro ⟨before, after, rfl, hLast⟩
    refine ⟨(k, v), List.find?_eq_some_iff_append.2 ⟨by simp, after.reverse, before.reverse,
      by simp, ?_⟩, rfl⟩
    simpa using hLast

omit [DecidableEq κ] in
/-- A map is known by its keys in their order and the value of each. -/
theorem OrderedMap.ext_keys {m n : OrderedMap κ ν} (hKeys : m.keys.toList = n.keys.toList)
    (hEntries : ∀ k v, (k, v) ∈ m.entries ↔ (k, v) ∈ n.entries) : m = n := by
  refine OrderedMap.ext_entries (List.ext_getElem ?_ fun i hm hn => ?_)
  · simpa using congrArg List.length hKeys
  · have hKey : m.entries[i].1 = n.entries[i].1 := by
      have h := congrArg (·[i]?) hKeys
      simpa [hm, hn] using h
    have hOld := (hEntries m.entries[i].1 m.entries[i].2).1 (List.getElem_mem hm)
    rw [hKey] at hOld
    exact Prod.ext hKey (OrderedMap.eq_of_mem_entries hOld (List.getElem_mem hn))

end Repetitions

/-! ## Listings -/

namespace Listing

variable {l : Listing} {g h : Network}

/-- Everything that is listed, inserted one by one. -/
def inserted (l : Listing) : Network where
  nodes := l.nodes.foldl (fun m n => m.insert n.1 n.2) .empty
  edges := l.edges.foldl OrderedSet.insert .empty
  entries := l.entries.foldl OrderedSet.insert .empty
  exits := l.exits.foldl OrderedSet.insert .empty

/-- The network has every node, edge and frontier node that is listed, once, at its first place, and
every node has the kind that is listed last. -/
structure Describes (l : Listing) (g : Network) : Prop where
  nodes : KeepsFirst (l.nodes.map Prod.fst) g.nodes.keys.toList
  kinds : ∀ id kind, (id, kind) ∈ g.nodes.entries ↔ LastValue l.nodes id kind
  edges : KeepsFirst l.edges g.edges.toList
  entries : KeepsFirst l.entries g.entries.toList
  exits : KeepsFirst l.exits g.exits.toList

theorem inserted_eq_network (l : Listing) : l.inserted = l.network :=
  Network.ext_fields rfl (OrderedSet.foldl_insert _) (OrderedSet.foldl_insert _)
    (OrderedSet.foldl_insert _)

theorem describes_network (l : Listing) : l.Describes l.network where
  nodes := by
    rw [network, OrderedMap.keys_ofList]
    exact keepsFirst_ofList _
  kinds := fun _ _ => OrderedMap.mem_entries_ofList
  edges := keepsFirst_ofList _
  entries := keepsFirst_ofList _
  exits := keepsFirst_ofList _

/-- No two networks are described by one listing. -/
theorem Describes.unique (hg : l.Describes g) (hh : l.Describes h) : g = h := by
  refine Network.ext_fields (OrderedMap.ext_keys (hg.nodes.unique hh.nodes) fun id kind => ?_)
    (OrderedSet.ext_toList (hg.edges.unique hh.edges))
    (OrderedSet.ext_toList (hg.entries.unique hh.entries))
    (OrderedSet.ext_toList (hg.exits.unique hh.exits))
  exact (hg.kinds id kind).trans (hh.kinds id kind).symm

end Listing

namespace Network

variable {j : Json} {g : Network}

/-- Whatever is read is in normal form.  It is what comes of inserting the listed nodes, edges and
frontier nodes one by one: each is there once, at its first place, and each node has the kind that
is listed last; no other network is like this.  It is read as it is when it has been written, and
then written as before. -/
theorem reading_normalises (hRead : ofJson? j = some g) :
    (∃ l : Listing, l.ReadFrom j ∧ g = l.inserted ∧ l.Describes g ∧ ∀ h, l.Describes h → h = g) ∧
      ofJson? g.toJson = some g ∧ (ofJson? g.toJson).map toJson = some g.toJson := by
  constructor
  · obtain ⟨l, hFrom, rfl⟩ := ofJson?_eq_some_iff.1 hRead
    have hDescribes := l.describes_network
    exact ⟨l, hFrom, l.inserted_eq_network.symm, hDescribes, fun h hh => hh.unique hDescribes⟩
  · have hAgain : ofJson? g.toJson = some g := ofJson?_toJson (writable_of_ofJson? hRead)
    exact ⟨hAgain, by rw [hAgain, Option.map_some]⟩

namespace Sample

/-- Node 5 is listed as a request for the quay and again as a release of the berth, which is what
becomes of it; node 9 is the end of an edge only.  Edges and frontier nodes are listed twice, with
others in between. -/
def repeated : Json :=
  .object
    [("end", .list [.nat 7, .nat 5, .nat 7]),
      ("start", .list [.nat 5, .nat 5]),
      ("edges", .list [
        Edge.toJson (.dependency ⟨5⟩ ⟨7⟩),
        .list [.nat 7, .nat 9, .text "Dependency"],
        .list [.nat 5, .nat 7, .object [("Dependency", .null)]]]),
      ("nodes", .list [
        .list [.nat 5, NodeKind.toJson (.request ⟨⟨0⟩, "quay"⟩)],
        .list [.nat 7, .text "Process"],
        .list [.nat 5, NodeKind.toJson (.release ⟨⟨0⟩, "berth"⟩)]])]

/-- The network that is read. -/
def gathered : Network where
  nodes := .ofList [(⟨5⟩, .release ⟨⟨0⟩, "berth"⟩), (⟨7⟩, .boundary)]
  edges := .ofList [.dependency ⟨5⟩ ⟨7⟩, .dependency ⟨7⟩ ⟨9⟩]
  entries := .ofList [⟨5⟩]
  exits := .ofList [⟨7⟩, ⟨5⟩]

end Sample

/-- The repetitions are gone once the network is written. -/
theorem reading_normalises_repeated :
    ofJson? Sample.repeated = some Sample.gathered ∧
      (∃ l : Listing, l.ReadFrom Sample.repeated ∧ l.Describes Sample.gathered) ∧
      ofJson? Sample.gathered.toJson = some Sample.gathered := by
  have hRead : ofJson? Sample.repeated = some Sample.gathered := by decide +kernel
  obtain ⟨⟨l, hFrom, -, hDescribes, -⟩, hAgain, -⟩ := reading_normalises hRead
  exact ⟨hRead, ⟨l, hFrom, hDescribes⟩, hAgain⟩

end Network

end ActivityNetwork
