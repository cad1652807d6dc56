/-!
# Sets that remember the order of insertion

A network lists its nodes, edges and frontiers in the order in which they came about, and no
member twice.  `OrderedSet` is a list without repetition.  The view of a set is its list
`toList`; every operation below has one lemma that says what it does to that view.
-/

namespace ActivityNetwork

/-- The members of a list in the order of their first occurrence, each once. -/
def firsts {α : Type} [DecidableEq α] : List α → List α
  | [] => []
  | x :: rest => x :: (firsts rest).filter (· ≠ x)

section Firsts

variable {α : Type} [DecidableEq α]

@[simp]
theorem mem_firsts {x : α} {xs : List α} : x ∈ firsts xs ↔ x ∈ xs := by
  induction xs with
  | nil => simp [firsts]
  | cons y rest ih =>
      by_cases h : x = y <;> simp [firsts, ih, h]

theorem nodup_firsts (xs : List α) : (firsts xs).Nodup := by
  induction xs with
  | nil => simp [firsts]
  | cons y rest ih =>
      rw [firsts, List.nodup_cons]
      exact ⟨by simp, List.Pairwise.filter _ ih⟩

/-- A list without repetition is kept as it is. -/
theorem firsts_eq_self {xs : List α} (h : xs.Nodup) : firsts xs = xs := by
  induction xs with
  | nil => rfl
  | cons y rest ih =>
      obtain ⟨hy, hrest⟩ := List.nodup_cons.1 h
      rw [firsts, ih hrest, List.filter_eq_self.2]
      intro x hx
      simpa using fun hxy : x = y => hy (hxy ▸ hx)

theorem firsts_filter (test : α → Bool) (xs : List α) :
    firsts (xs.filter test) = (firsts xs).filter test := by
  induction xs with
  | nil => rfl
  | cons x rest ih =>
      by_cases hx : test x = true
      · simp only [List.filter_cons, hx, if_true, firsts, ih, List.filter_filter, Bool.and_comm]
      · simp only [List.filter_cons, hx, if_false, firsts, ih, List.filter_filter,
          Bool.false_eq_true]
        -- What fails the test is no other member that passes it.
        apply List.filter_congr
        intro y _
        by_cases hy : y = x
        · simp [hy, hx]
        · simp [hy]

/-- Members stand in the order of their first occurrences. -/
theorem pairwise_idxOf_firsts (xs : List α) :
    (firsts xs).Pairwise fun x y => xs.idxOf x < xs.idxOf y := by
  induction xs with
  | nil => exact List.Pairwise.nil
  | cons x rest ih =>
      have hLater : ∀ y, y ≠ x → (x :: rest).idxOf y = rest.idxOf y + 1 := by
        intro y hy
        rw [List.idxOf_cons, beq_eq_false_iff_ne.2 (Ne.symm hy), cond_false]
      have hOther : ∀ y ∈ (firsts rest).filter (· ≠ x), y ≠ x := by
        intro y hy
        simpa using (List.mem_filter.1 hy).2
      rw [firsts, List.pairwise_cons]
      constructor
      · intro y hy
        rw [List.idxOf_cons_self, hLater y (hOther y hy)]
        exact Nat.succ_pos _
      · refine (ih.filter _).imp_of_mem fun {y z} hy hz hLt => ?_
        rw [hLater y (hOther y hy), hLater z (hOther z hz)]
        exact Nat.succ_lt_succ hLt

end Firsts

/-- A list of distinct members. -/
structure OrderedSet (α : Type) where
  toList : List α
  nodup : toList.Nodup
  deriving DecidableEq

namespace OrderedSet

variable {α : Type}

instance : Membership α (OrderedSet α) :=
  ⟨fun s x => x ∈ s.toList⟩

theorem mem_toList {x : α} {s : OrderedSet α} : x ∈ s.toList ↔ x ∈ s :=
  Iff.rfl

instance [DecidableEq α] (x : α) (s : OrderedSet α) : Decidable (x ∈ s) :=
  inferInstanceAs (Decidable (x ∈ s.toList))

@[ext]
theorem ext_toList {s t : OrderedSet α} (h : s.toList = t.toList) : s = t := by
  cases s
  cases t
  cases h
  rfl

def empty : OrderedSet α :=
  ⟨[], List.nodup_nil⟩

instance : Inhabited (OrderedSet α) :=
  ⟨empty⟩

def singleton (x : α) : OrderedSet α :=
  ⟨[x], by simp⟩

def size (s : OrderedSet α) : Nat :=
  s.toList.length

/-- The members that pass a test, in the same order. -/
def filter (s : OrderedSet α) (test : α → Bool) : OrderedSet α :=
  ⟨s.toList.filter test, List.Pairwise.filter _ s.nodup⟩

variable [DecidableEq α]

/-- The set of a list: a repeated member keeps its first place. -/
def ofList (xs : List α) : OrderedSet α :=
  ⟨firsts xs, nodup_firsts xs⟩

/-- Adds `x` at the end unless it is there already. -/
def insert (s : OrderedSet α) (x : α) : OrderedSet α :=
  if h : x ∈ s then s
  else ⟨s.toList ++ [x], by
    rw [List.nodup_append]
    refine ⟨s.nodup, by simp, fun a ha b hb hab => h ?_⟩
    simp only [List.mem_singleton] at hb
    exact hb ▸ hab ▸ ha⟩

/-- All of `a`, then what `b` adds to it. -/
def union (a b : OrderedSet α) : OrderedSet α :=
  ⟨a.toList ++ b.toList.filter (· ∉ a.toList), by
    rw [List.nodup_append]
    refine ⟨a.nodup, List.Pairwise.filter _ b.nodup, fun x hx y hy hxy => ?_⟩
    simp only [List.mem_filter, decide_eq_true_eq] at hy
    exact hy.2 (hxy ▸ hx)⟩

/-- Whether two sets have the same members, in whatever order. -/
def same (a b : OrderedSet α) : Bool :=
  a.toList.all (· ∈ b) && b.toList.all (· ∈ a)

omit [DecidableEq α] in
@[simp]
theorem toList_empty : (empty : OrderedSet α).toList = [] := rfl

omit [DecidableEq α] in
@[simp]
theorem toList_singleton (x : α) : (singleton x).toList = [x] := rfl

omit [DecidableEq α] in
@[simp]
theorem toList_filter (s : OrderedSet α) (test : α → Bool) :
    (s.filter test).toList = s.toList.filter test := rfl

@[simp]
theorem toList_ofList (xs : List α) : (ofList xs).toList = firsts xs := rfl

@[simp]
theorem toList_insert (s : OrderedSet α) (x : α) :
    (s.insert x).toList = if x ∈ s then s.toList else s.toList ++ [x] := by
  by_cases h : x ∈ s
  · rw [insert, dif_pos h, if_pos h]
  · rw [insert, dif_neg h, if_neg h]

@[simp]
theorem toList_union (a b : OrderedSet α) :
    (a.union b).toList = a.toList ++ b.toList.filter (· ∉ a.toList) := rfl

omit [DecidableEq α] in
@[simp]
theorem mem_filter {x : α} {s : OrderedSet α} {test : α → Bool} :
    x ∈ s.filter test ↔ x ∈ s ∧ test x = true := by
  simp [← mem_toList]

@[simp]
theorem mem_ofList {x : α} {xs : List α} : x ∈ ofList xs ↔ x ∈ xs := by
  simp [← mem_toList]

@[simp]
theorem mem_insert {x y : α} {s : OrderedSet α} : x ∈ s.insert y ↔ x ∈ s ∨ x = y := by
  rw [← mem_toList, toList_insert]
  split
  · rename_i h
    exact ⟨Or.inl, fun hx => hx.elim id fun hxy => hxy ▸ h⟩
  · simp [← mem_toList]

@[simp]
theorem mem_union {x : α} {a b : OrderedSet α} : x ∈ a.union b ↔ x ∈ a ∨ x ∈ b := by
  by_cases h : x ∈ a.toList <;> simp [← mem_toList, h]

theorem same_iff {a b : OrderedSet α} : a.same b = true ↔ ∀ x, x ∈ a ↔ x ∈ b := by
  simp only [same, Bool.and_eq_true, List.all_eq_true, decide_eq_true_eq, mem_toList]
  exact ⟨fun h x => ⟨h.1 x, h.2 x⟩, fun h => ⟨fun x => (h x).1, fun x => (h x).2⟩⟩

theorem union_empty (s : OrderedSet α) : s.union (ofList []) = s := by
  ext1
  simp [firsts]

/-- Inserting a member and then adding a list is adding the longer list. -/
theorem insert_union_ofList (s : OrderedSet α) (x : α) (xs : List α) :
    (s.insert x).union (ofList xs) = s.union (ofList (x :: xs)) := by
  ext1
  by_cases h : x ∈ s.toList
  · have hx : x ∈ s := h
    simp only [toList_union, toList_insert, if_pos hx, toList_ofList, firsts, List.filter_cons,
      h, not_true_eq_false, decide_false, Bool.false_eq_true, if_false, List.filter_filter]
    congr 1
    apply List.filter_congr
    intro y _
    by_cases hy : y = x
    · simp [hy, h]
    · simp [hy]
  · have hx : x ∉ s := h
    simp only [toList_union, toList_insert, if_neg hx, toList_ofList, firsts, List.filter_cons,
      h, not_false_eq_true, decide_true, if_true, List.append_assoc, List.singleton_append,
      List.filter_filter]
    congr 2
    apply List.filter_congr
    intro y _
    by_cases hy : y = x <;> simp [hy]

/-- Reading the list of a set back gives the set. -/
theorem ofList_toList (s : OrderedSet α) : ofList s.toList = s :=
  ext_toList (firsts_eq_self s.nodup)

end OrderedSet

end ActivityNetwork
