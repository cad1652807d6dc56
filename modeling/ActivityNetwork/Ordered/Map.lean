import ActivityNetwork.Ordered.Set

/-!
# Maps that remember the order of insertion

`OrderedMap` is a list of entries with distinct keys.  A new value for a known key takes the
place of the old one, so that a key stays where it first came.  The views of a map are its
list `entries` and the look-up `find?`.
-/

namespace ActivityNetwork

/-- Entries with distinct keys. -/
structure OrderedMap (κ ν : Type) where
  entries : List (κ × ν)
  nodup : (entries.map Prod.fst).Nodup
  deriving DecidableEq

namespace OrderedMap

variable {κ ν : Type}

@[ext]
theorem ext_entries {m n : OrderedMap κ ν} (h : m.entries = n.entries) : m = n := by
  cases m
  cases n
  cases h
  rfl

def empty : OrderedMap κ ν :=
  ⟨[], List.nodup_nil⟩

instance : Inhabited (OrderedMap κ ν) :=
  ⟨empty⟩

def singleton (k : κ) (v : ν) : OrderedMap κ ν :=
  ⟨[(k, v)], by simp⟩

def size (m : OrderedMap κ ν) : Nat :=
  m.entries.length

/-- The keys as a set, in the order of the entries. -/
def keys (m : OrderedMap κ ν) : OrderedSet κ :=
  ⟨m.entries.map Prod.fst, m.nodup⟩

/-- New values for the same keys. -/
def mapValues {μ : Type} (m : OrderedMap κ ν) (f : κ → ν → μ) : OrderedMap κ μ :=
  ⟨m.entries.map fun e => (e.1, f e.1 e.2), by
    rw [List.map_map]
    exact m.nodup⟩

variable [DecidableEq κ]

/-- The value of a key. -/
def find? (m : OrderedMap κ ν) (k : κ) : Option ν :=
  (m.entries.find? fun e => e.1 = k).map Prod.snd

/-- Gives `k` the value `v`: in its old place if it is a key, else at the end. -/
def insert (m : OrderedMap κ ν) (k : κ) (v : ν) : OrderedMap κ ν :=
  if h : k ∈ m.keys then m.mapValues fun k' v' => if k' = k then v else v'
  else ⟨m.entries ++ [(k, v)], by
    rw [List.map_append, List.nodup_append]
    refine ⟨m.nodup, by simp, fun a ha b hb hab => h ?_⟩
    simp only [List.map_cons, List.map_nil, List.mem_singleton] at hb
    exact hb ▸ hab ▸ ha⟩

/-- The map of a list: a repeated key keeps its first place and takes its last value. -/
def ofList (es : List (κ × ν)) : OrderedMap κ ν :=
  es.foldl (fun m e => m.insert e.1 e.2) empty

/-- All entries of `a`, then those of `b` whose key is new. -/
def union (a b : OrderedMap κ ν) : OrderedMap κ ν :=
  ⟨a.entries ++ b.entries.filter fun e => e.1 ∉ a.keys, by
    rw [List.map_append, List.nodup_append]
    refine ⟨a.nodup, ?_, fun x hx y hy hxy => ?_⟩
    · rw [List.nodup_iff_pairwise_ne, List.pairwise_map]
      have h := b.nodup
      rw [List.nodup_iff_pairwise_ne, List.pairwise_map] at h
      exact h.filter _
    · obtain ⟨e, he, rfl⟩ := List.mem_map.1 hy
      simp only [List.mem_filter, decide_eq_true_eq] at he
      exact he.2 (hxy ▸ hx)⟩

/-- Whether two maps have the same keys with equivalent values, in whatever order. -/
def sameBy (equiv : ν → ν → Bool) (a b : OrderedMap κ ν) : Bool :=
  a.keys.same b.keys && a.entries.all fun e => (b.find? e.1).any (equiv e.2)

omit [DecidableEq κ] in
theorem mem_keys {k : κ} {m : OrderedMap κ ν} : k ∈ m.keys ↔ ∃ v, (k, v) ∈ m.entries := by
  change k ∈ m.entries.map Prod.fst ↔ _
  simp

omit [DecidableEq κ] in
@[simp]
theorem toList_keys (m : OrderedMap κ ν) : m.keys.toList = m.entries.map Prod.fst := rfl

omit [DecidableEq κ] in
@[simp]
theorem entries_empty : (empty : OrderedMap κ ν).entries = [] := rfl

omit [DecidableEq κ] in
@[simp]
theorem entries_singleton (k : κ) (v : ν) : (singleton k v).entries = [(k, v)] := rfl

omit [DecidableEq κ] in
@[simp]
theorem entries_mapValues {μ : Type} (m : OrderedMap κ ν) (f : κ → ν → μ) :
    (m.mapValues f).entries = m.entries.map fun e => (e.1, f e.1 e.2) := rfl

omit [DecidableEq κ] in
@[simp]
theorem keys_mapValues {μ : Type} (m : OrderedMap κ ν) (f : κ → ν → μ) :
    (m.mapValues f).keys = m.keys := by
  ext1
  simp only [toList_keys, entries_mapValues, List.map_map]
  rfl

@[simp]
theorem entries_union (a b : OrderedMap κ ν) :
    (a.union b).entries = a.entries ++ b.entries.filter fun e => e.1 ∉ a.keys := rfl

theorem keys_union (a b : OrderedMap κ ν) : (a.union b).keys = a.keys.union b.keys := by
  ext1
  simp only [toList_keys, entries_union, List.map_append, OrderedSet.toList_union,
    List.filter_map]
  rfl

theorem entries_insert_of_mem {m : OrderedMap κ ν} {k : κ} (h : k ∈ m.keys) (v : ν) :
    (m.insert k v).entries = m.entries.map fun e => (e.1, if e.1 = k then v else e.2) := by
  rw [insert, dif_pos h]
  rfl

theorem entries_insert_of_not_mem {m : OrderedMap κ ν} {k : κ} (h : k ∉ m.keys) (v : ν) :
    (m.insert k v).entries = m.entries ++ [(k, v)] := by
  rw [insert, dif_neg h]

@[simp]
theorem keys_insert (m : OrderedMap κ ν) (k : κ) (v : ν) :
    (m.insert k v).keys = m.keys.insert k := by
  ext1
  by_cases h : k ∈ m.keys
  · rw [insert, dif_pos h, keys_mapValues, OrderedSet.toList_insert, if_pos h]
  · rw [toList_keys, entries_insert_of_not_mem h, OrderedSet.toList_insert, if_neg h]
    simp

omit [DecidableEq κ] in
/-- A key has one value only. -/
theorem eq_of_mem_entries {m : OrderedMap κ ν} {k : κ} {v w : ν}
    (hv : (k, v) ∈ m.entries) (hw : (k, w) ∈ m.entries) : v = w := by
  have h := m.nodup
  generalize m.entries = es at h hv hw
  induction es with
  | nil => cases hv
  | cons e rest ih =>
      simp only [List.map_cons, List.nodup_cons, List.mem_map, not_exists, not_and] at h
      rcases List.mem_cons.1 hv with hv | hv <;> rcases List.mem_cons.1 hw with hw | hw
      · exact (Prod.mk.inj (hv.trans hw.symm)).2
      · exact absurd (hv ▸ rfl) (h.1 _ hw)
      · exact absurd (hw ▸ rfl) (h.1 _ hv)
      · exact ih h.2 hv hw

theorem find?_eq_some_iff {m : OrderedMap κ ν} {k : κ} {v : ν} :
    m.find? k = some v ↔ (k, v) ∈ m.entries := by
  simp only [find?, Option.map_eq_some_iff]
  constructor
  · rintro ⟨⟨k', v'⟩, he, rfl⟩
    have hk : k' = k := by simpa using List.find?_some he
    exact hk ▸ List.mem_of_find?_eq_some he
  · intro h
    cases hf : m.entries.find? fun e => e.1 = k with
    | none => exact absurd (List.find?_eq_none.1 hf _ h) (by simp)
    | some e =>
        have hk : e.1 = k := by simpa using List.find?_some hf
        have he : (k, e.2) ∈ m.entries := hk ▸ List.mem_of_find?_eq_some hf
        exact ⟨e, rfl, eq_of_mem_entries he h⟩

theorem find?_empty (k : κ) : (empty : OrderedMap κ ν).find? k = none := rfl

theorem find?_mapValues {μ : Type} (m : OrderedMap κ ν) (f : κ → ν → μ) (k : κ) :
    (m.mapValues f).find? k = (m.find? k).map (f k) := by
  ext w
  simp only [find?_eq_some_iff, entries_mapValues, List.mem_map, Prod.mk.injEq,
    Option.map_eq_some_iff]
  constructor
  · rintro ⟨⟨k', v⟩, he, rfl, rfl⟩
    exact ⟨v, he, rfl⟩
  · rintro ⟨v, he, rfl⟩
    exact ⟨(k, v), he, rfl, rfl⟩

theorem find?_insert (m : OrderedMap κ ν) (k k' : κ) (v : ν) :
    (m.insert k v).find? k' = if k' = k then some v else m.find? k' := by
  by_cases h : k ∈ m.keys
  · rw [insert, dif_pos h, find?_mapValues]
    split
    · rename_i hk
      subst hk
      obtain ⟨w, hw⟩ := mem_keys.1 h
      rw [find?_eq_some_iff.2 hw]
      rfl
    · simp
  · ext w
    rw [find?_eq_some_iff, entries_insert_of_not_mem h, List.mem_append]
    split
    · rename_i hk
      subst hk
      have hw : (k', w) ∉ m.entries := fun hw => h (mem_keys.2 ⟨w, hw⟩)
      simp [hw, eq_comm]
    · rename_i hk
      simp [find?_eq_some_iff, hk]

/-- The keys of a list keep the places of their first occurrences. -/
theorem keys_ofList (es : List (κ × ν)) :
    (ofList es).keys = OrderedSet.ofList (es.map Prod.fst) := by
  suffices h : ∀ m : OrderedMap κ ν,
      (es.foldl (fun m e => m.insert e.1 e.2) m).keys =
        m.keys.union (OrderedSet.ofList (es.map Prod.fst)) by
    refine (h empty).trans (OrderedSet.ext_toList ?_)
    simp
  induction es with
  | nil => exact fun m => (OrderedSet.union_empty m.keys).symm
  | cons e rest ih =>
      intro m
      rw [List.foldl_cons, ih, keys_insert, List.map_cons, OrderedSet.insert_union_ofList]

/-- A key of a list takes the value of its last occurrence. -/
theorem find?_ofList (es : List (κ × ν)) (k : κ) :
    (ofList es).find? k = (es.reverse.find? fun e => e.1 = k).map Prod.snd := by
  suffices h : ∀ m : OrderedMap κ ν,
      (es.foldl (fun m e => m.insert e.1 e.2) m).find? k =
        ((es.reverse.find? fun e => e.1 = k).map Prod.snd).or (m.find? k) by
    simpa [ofList, find?_empty] using h empty
  induction es with
  | nil => simp
  | cons e rest ih =>
      intro m
      rw [List.foldl_cons, ih, find?_insert, List.reverse_cons, List.find?_append]
      cases rest.reverse.find? fun e => e.1 = k with
      | some _ => simp
      | none =>
          by_cases h : k = e.1
          · simp [h]
          · simp [h, Ne.symm h]

/-- Reading the entries of a map back gives the map. -/
theorem ofList_entries (m : OrderedMap κ ν) : ofList m.entries = m := by
  suffices h : ∀ (es : List (κ × ν)) (acc : OrderedMap κ ν),
      ((acc.entries ++ es).map Prod.fst).Nodup →
        (es.foldl (fun m e => m.insert e.1 e.2) acc).entries = acc.entries ++ es by
    exact ext_entries (by simpa [ofList] using h m.entries empty (by simpa using m.nodup))
  intro es
  induction es with
  | nil => intro acc _; simp
  | cons e rest ih =>
      intro acc h
      have hnew : e.1 ∉ acc.keys := by
        intro hmem
        rw [List.map_append, List.nodup_append] at h
        exact h.2.2 e.1 hmem e.1 (by simp) rfl
      rw [List.foldl_cons, ih, entries_insert_of_not_mem hnew]
      · simp
      · rw [entries_insert_of_not_mem hnew]
        simpa using h

end OrderedMap

end ActivityNetwork
