import ActivityNetwork.Identity

/-!
# Resources

A resource is something that activities contend for.  A network only marks where it is
requested and released; who gets it, and when, is for an allocator to decide.
-/

namespace ActivityNetwork

/-- A named resource. -/
structure Resource where
  id : ResourceId
  label : String
  deriving DecidableEq, Repr, Inhabited

namespace Resource

/-- Two resources are the same thing when their ids agree, whatever their labels say. -/
def same (a b : Resource) : Bool :=
  a.id == b.id

/-- The text `quay#0`. -/
def text (r : Resource) : String :=
  s!"{r.label}#{r.id.index}"

/-- The first resource of a list that is the same as one before it, where the resources with
ids in `seen` count as coming before the list. -/
def firstRepeat? (seen : List ResourceId) : List Resource → Option Resource
  | [] => none
  | r :: rest => if r.id ∈ seen then some r else firstRepeat? (seen ++ [r.id]) rest

theorem same_iff (a b : Resource) : a.same b = true ↔ a.id = b.id := by
  simp [same]

theorem firstRepeat?_eq_none_iff (seen : List ResourceId) (rs : List Resource) :
    firstRepeat? seen rs = none ↔
      (rs.map Resource.id).Nodup ∧ ∀ r ∈ rs, r.id ∉ seen := by
  induction rs generalizing seen with
  | nil => simp [firstRepeat?]
  | cons r rest ih =>
      by_cases h : r.id ∈ seen
      · simp [firstRepeat?, h]
      · rw [firstRepeat?, if_neg h, ih, List.map_cons, List.nodup_cons]
        simp only [List.mem_append, List.mem_cons, List.not_mem_nil, or_false, not_or,
          forall_eq_or_imp, List.mem_map, not_exists, not_and]
        constructor
        · rintro ⟨hdistinct, hrest⟩
          exact ⟨⟨fun s hs hid => (hrest s hs).2 hid, hdistinct⟩, h, fun s hs => (hrest s hs).1⟩
        · rintro ⟨⟨hnew, hdistinct⟩, _, hrest⟩
          exact ⟨hdistinct, fun s hs => ⟨hrest s hs, hnew s hs⟩⟩

/-- A repeated resource has a same one before it, and no repetition comes before it. -/
theorem firstRepeat?_eq_some_iff (seen : List ResourceId) (rs : List Resource) (r : Resource) :
    firstRepeat? seen rs = some r ↔
      ∃ before after, rs = before ++ r :: after ∧ firstRepeat? seen before = none ∧
        (r.id ∈ seen ∨ r.id ∈ before.map Resource.id) := by
  induction rs generalizing seen with
  | nil => simp [firstRepeat?]
  | cons s rest ih =>
      by_cases h : s.id ∈ seen
      · rw [firstRepeat?, if_pos h, Option.some.injEq]
        constructor
        · rintro rfl
          exact ⟨[], rest, rfl, rfl, Or.inl h⟩
        · rintro ⟨before, after, heq, hnone, _⟩
          cases before with
          | nil => exact (List.cons.inj heq).1
          | cons b before =>
              rw [← (List.cons.inj heq).1, firstRepeat?, if_pos h] at hnone
              cases hnone
      · rw [firstRepeat?, if_neg h, ih]
        constructor
        · rintro ⟨before, after, rfl, hnone, hmem⟩
          refine ⟨s :: before, after, rfl, by rw [firstRepeat?, if_neg h, hnone], ?_⟩
          simpa [or_assoc] using hmem
        · rintro ⟨before, after, heq, hnone, hmem⟩
          cases before with
          | nil =>
              have hid : r.id ∈ seen := by simpa using hmem
              exact absurd ((List.cons.inj heq).1 ▸ hid) h
          | cons b before =>
              obtain ⟨rfl, rfl⟩ := List.cons.inj heq
              rw [firstRepeat?, if_neg h] at hnone
              exact ⟨before, after, rfl, hnone, by simpa [or_assoc] using hmem⟩

end Resource

end ActivityNetwork
