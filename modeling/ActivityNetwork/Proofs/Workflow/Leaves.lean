import ActivityNetwork.Proofs.Workflow.Inside
import ActivityNetwork.Workflow.Leaves
import Mathlib.Data.List.Basic

/-!
# The walk over leaves

`leaves` skips every part that it has met before.  `flatten` skips nothing and lists a leaf
once for each path to it.  For a coherent workflow the walk finds exactly the first occurrence
of each id in the flattened list (`leaves_eq_collect`), so that what it finds are the leaves
of the workflow (`mem_leaves`), each once (`nodup_leafIds`).  Adding one leaf after the other,
unless its id is there, is the same as adding the first occurrences of all that is new
(`foldl_addNew_eq`).

The invariant of the walk is `Walk.Ready`: a part that counts as met has been gathered
completely.  It is stated for the parts of the workflow ahead only, because the workflows
around it count as met from the moment at which they are entered.
-/

namespace ActivityNetwork

namespace Workflow

/-- A leaf is appended unless one with its id is there. -/
def addNew (found : List Workflow) (leaf : Workflow) : List Workflow :=
  if leaf.id ∈ found.map Workflow.id then found else found ++ [leaf]

/-- Of the workflows with the same id, the first one. -/
def firstOfEach : List Workflow → List Workflow
  | [] => []
  | w :: rest => w :: (firstOfEach rest).filter (·.id ≠ w.id)

/-- The leaves from left to right, once for each path to them. -/
def flatten : Workflow → List Workflow
  | seq _ first second => first.flatten ++ second.flatten
  | overlap _ first second => first.flatten ++ second.flatten
  | holding _ _ _ expansion => expansion.flatten
  | leaf => [leaf]

/-- What was found before, and behind it the leaves of `w` with new ids. -/
def collect (w : Workflow) (found : List Workflow) : List Workflow :=
  w.flatten.foldl addNew found

/-! ## Adding leaves to a list -/

theorem firstOfEach_subset (xs : List Workflow) : firstOfEach xs ⊆ xs := by
  induction xs with
  | nil => exact List.Subset.refl _
  | cons x rest ih =>
      refine List.cons_subset_cons x fun y hy => ih ?_
      exact List.mem_of_mem_filter hy

/-- Adding one by one what is new is the same as adding the first occurrences of all that is new. -/
theorem foldl_addNew_eq (xs found : List Workflow) :
    xs.foldl addNew found = found ++ (firstOfEach xs).filter (·.id ∉ found.map Workflow.id) := by
  induction xs generalizing found with
  | nil => simp [firstOfEach]
  | cons x xs ih =>
      rw [List.foldl_cons, ih, firstOfEach]
      by_cases hOld : x.id ∈ found.map Workflow.id
      · -- Whatever has the id of `x` is old, too.
        have hSame : ((firstOfEach xs).filter (·.id ≠ x.id)).filter
            (·.id ∉ found.map Workflow.id) =
            (firstOfEach xs).filter (·.id ∉ found.map Workflow.id) := by
          rw [List.filter_filter]
          refine List.filter_congr fun y _ => ?_
          have hNe : y.id ∉ found.map Workflow.id → y.id ≠ x.id := fun hNew hId =>
            hNew (hId ▸ hOld)
          by_cases hNew : y.id ∈ found.map Workflow.id
          · simp [hNew]
          · simp [hNew, hNe hNew]
        rw [addNew, if_pos hOld, List.filter_cons_of_neg (by simpa using hOld), hSame]
      · have hSplit : (firstOfEach xs).filter (·.id ∉ (found ++ [x]).map Workflow.id) =
            ((firstOfEach xs).filter (·.id ≠ x.id)).filter (·.id ∉ found.map Workflow.id) := by
          rw [List.filter_filter]
          refine List.filter_congr fun y _ => ?_
          simp
        rw [addNew, if_neg hOld, List.filter_cons_of_pos (by simpa using hOld), hSplit,
          List.append_assoc]
        rfl

theorem mem_ids_foldl_addNew (id : WorkflowId) (xs found : List Workflow) :
    id ∈ (xs.foldl addNew found).map Workflow.id ↔
      id ∈ found.map Workflow.id ∨ id ∈ xs.map Workflow.id := by
  induction xs generalizing found with
  | nil => simp
  | cons x rest ih =>
      rw [List.foldl_cons, ih, List.map_cons, List.mem_cons]
      by_cases hKnown : x.id ∈ found.map Workflow.id
      · rw [addNew, if_pos hKnown]
        constructor
        · rintro (h | h)
          · exact Or.inl h
          · exact Or.inr (Or.inr h)
        · rintro (h | rfl | h)
          · exact Or.inl h
          · exact Or.inl hKnown
          · exact Or.inr h
      · rw [addNew, if_neg hKnown, List.map_append, List.mem_append]
        simp [or_assoc]

theorem mem_of_mem_foldl_addNew {leaf : Workflow} {xs found : List Workflow}
    (h : leaf ∈ xs.foldl addNew found) : leaf ∈ found ∨ leaf ∈ xs := by
  rw [foldl_addNew_eq, List.mem_append] at h
  exact h.imp_right fun hNew => firstOfEach_subset xs (List.mem_of_mem_filter hNew)

/-- Where ids say which workflows are meant, nothing but repetitions is left out. -/
theorem mem_foldl_addNew_iff {leaf : Workflow} {xs : List Workflow}
    (hIds : ∀ a ∈ xs, ∀ b ∈ xs, a.id = b.id → a = b) : leaf ∈ xs.foldl addNew [] ↔ leaf ∈ xs := by
  have hListed : ∀ x ∈ xs.foldl addNew [], x ∈ xs := fun x hx =>
    (mem_of_mem_foldl_addNew hx).resolve_left List.not_mem_nil
  refine ⟨hListed leaf, fun hLeaf => ?_⟩
  -- Something with this id is kept, and it is this very workflow.
  have hId : leaf.id ∈ (xs.foldl addNew []).map Workflow.id :=
    (mem_ids_foldl_addNew _ xs []).2 (Or.inr (List.mem_map_of_mem hLeaf))
  obtain ⟨found, hFound, hSame⟩ := List.mem_map.1 hId
  exact hIds found (hListed found hFound) leaf hLeaf hSame ▸ hFound

theorem prefix_foldl_addNew (xs found : List Workflow) : found <+: xs.foldl addNew found := by
  rw [foldl_addNew_eq]
  exact List.prefix_append _ _

theorem foldl_addNew_of_known {xs found : List Workflow}
    (h : ∀ x ∈ xs, x.id ∈ found.map Workflow.id) : xs.foldl addNew found = found := by
  have hNone : (firstOfEach xs).filter (·.id ∉ found.map Workflow.id) = [] :=
    List.filter_eq_nil_iff.2 fun x hx => by simpa using h x (firstOfEach_subset xs hx)
  rw [foldl_addNew_eq, hNone, List.append_nil]

theorem foldl_addNew_nil (xs : List Workflow) : xs.foldl addNew [] = firstOfEach xs := by
  rw [foldl_addNew_eq]
  simp

/-- Where all ids are new, what is added does not depend on what was there. -/
theorem foldl_addNew_of_apart {xs : List Workflow} (found : List Workflow)
    (h : ∀ x ∈ xs, x.id ∉ found.map Workflow.id) :
    xs.foldl addNew found = found ++ xs.foldl addNew [] := by
  have hAll : (firstOfEach xs).filter (·.id ∉ found.map Workflow.id) = firstOfEach xs :=
    List.filter_eq_self.2 fun x hx => by simpa using h x (firstOfEach_subset xs hx)
  rw [foldl_addNew_eq, hAll, foldl_addNew_nil]

theorem nodup_ids_foldl_addNew (xs : List Workflow) {found : List Workflow}
    (h : (found.map Workflow.id).Nodup) :
    ((xs.foldl addNew found).map Workflow.id).Nodup := by
  induction xs generalizing found with
  | nil => exact h
  | cons x rest ih =>
      refine ih ?_
      unfold addNew
      split
      · exact h
      · rename_i hNew
        rw [List.map_append, List.nodup_append]
        refine ⟨h, by simp, fun a ha b hb hab => hNew ?_⟩
        rw [List.map_singleton, List.mem_singleton] at hb
        exact hb ▸ hab ▸ ha

/-! ## Collecting the leaves of a workflow -/

theorem mem_flatten {leaf w : Workflow} : leaf ∈ w.flatten ↔ leaf.LeafOf w := by
  induction w with
  | activity id name duration =>
      rw [leafOf_of_isLeaf rfl]
      exact List.mem_singleton
  | request id resource =>
      rw [leafOf_of_isLeaf rfl]
      exact List.mem_singleton
  | release id resource =>
      rw [leafOf_of_isLeaf rfl]
      exact List.mem_singleton
  | seq id first second ihFirst ihSecond =>
      rw [leafOf_seq, ← ihFirst, ← ihSecond]
      exact List.mem_append
  | overlap id first second ihFirst ihSecond =>
      rw [leafOf_overlap, ← ihFirst, ← ihSecond]
      exact List.mem_append
  | holding id process resources expansion _ ihExpansion =>
      rw [leafOf_holding]
      exact ihExpansion

theorem collect_of_isLeaf {w : Workflow} (hLeaf : w.isLeaf = true) (found : List Workflow) :
    w.collect found = addNew found w := by
  rcases isLeaf_cases hLeaf with
    ⟨id, name, duration, rfl⟩ | ⟨id, resource, rfl⟩ | ⟨id, resource, rfl⟩
  · rfl
  · rfl
  · rfl

theorem collect_seq (id : WorkflowId) (first second : Workflow) (found : List Workflow) :
    (seq id first second).collect found = second.collect (first.collect found) :=
  List.foldl_append

theorem collect_overlap (id : WorkflowId) (first second : Workflow) (found : List Workflow) :
    (overlap id first second).collect found = second.collect (first.collect found) :=
  List.foldl_append

theorem mem_ids_collect (id : WorkflowId) (w : Workflow) (found : List Workflow) :
    id ∈ (w.collect found).map Workflow.id ↔
      id ∈ found.map Workflow.id ∨ ∃ leaf : Workflow, leaf.LeafOf w ∧ leaf.id = id := by
  rw [collect, mem_ids_foldl_addNew]
  simp only [List.mem_map, mem_flatten]

theorem prefix_collect (w : Workflow) (found : List Workflow) : found <+: w.collect found :=
  prefix_foldl_addNew _ found

theorem collect_of_known {w : Workflow} {found : List Workflow}
    (h : ∀ leaf : Workflow, leaf.LeafOf w → leaf.id ∈ found.map Workflow.id) :
    w.collect found = found :=
  foldl_addNew_of_known fun leaf hLeaf => h leaf (mem_flatten.1 hLeaf)

end Workflow

namespace Walk

open Workflow

/-- What counts as met of the workflow ahead has been gathered completely. -/
structure Ready (walk : Walk) (w : Workflow) : Prop where
  found_met : ∀ id ∈ walk.found.map Workflow.id, id ∈ walk.met
  complete : ∀ v : Workflow, v.Inside w → v.id ∈ walk.met → ∀ u : Workflow, u.Inside v →
    u.id ∈ walk.met ∧ (u.isLeaf = true → u.id ∈ walk.found.map Workflow.id)

/-- What a walk over `w` does: it meets all parts and collects all leaves. -/
structure Passes (before after : Walk) (w : Workflow) : Prop where
  found : after.found = w.collect before.found
  met : ∀ id, id ∈ after.met ↔ id ∈ before.met ∨ ∃ v : Workflow, v.Inside w ∧ v.id = id

variable {walk before after : Walk} {w part first second : Workflow}

theorem ready_start (w : Workflow) : start.Ready w where
  found_met := by simp [start]
  complete := fun _ _ hMet => absurd hMet List.not_mem_nil

/-- A workflow that counts as met has nothing new. -/
theorem passes_of_met (hReady : walk.Ready w) (hMet : w.id ∈ walk.met) : walk.Passes walk w where
  found := by
    symm
    apply collect_of_known
    intro leaf hLeaf
    exact (hReady.complete w .self hMet leaf hLeaf.2).2 hLeaf.1
  met := by
    intro id
    refine ⟨Or.inl, ?_⟩
    rintro (h | ⟨v, hInside, rfl⟩)
    · exact h
    · exact (hReady.complete w .self hMet v hInside).1

/-- Whatever `visit` does, only a new workflow is visited. -/
theorem passes_once {visit : Walk → Walk} (hReady : walk.Ready w)
    (hVisit : w.id ∉ walk.met →
      walk.Passes (visit { walk with met := walk.met.insert w.id }) w) :
    walk.Passes (walk.once w visit) w := by
  by_cases hMet : w.id ∈ walk.met
  · rw [once_of_met visit hMet]
    exact passes_of_met hReady hMet
  · rw [once_of_not_met visit hMet]
    exact hVisit hMet

/-- Entering a workflow leaves the walk ready for its parts. -/
theorem Ready.enter (hReady : walk.Ready w) (hInside : part.Inside w)
    (hOther : ∀ v : Workflow, v.Inside part → v.id ≠ w.id) :
    Ready { walk with met := walk.met.insert w.id } part where
  found_met := fun id hId => OrderedSet.mem_insert.2 (Or.inl (hReady.found_met id hId))
  complete := by
    intro v hv hMet u hu
    have hBefore : v.id ∈ walk.met :=
      (OrderedSet.mem_insert.1 hMet).resolve_right (hOther v hv)
    obtain ⟨hMetU, hFound⟩ := hReady.complete v (hv.trans hInside) hBefore u hu
    exact ⟨OrderedSet.mem_insert.2 (Or.inl hMetU), hFound⟩

/-- After the first side the walk is ready for the second one.  Where the sides share a part,
it is the same part on both sides. -/
theorem Ready.next (hReady : before.Ready second) (hFirst : before.Passes after first)
    (hReadyFirst : before.Ready first)
    (hShared : ∀ u v : Workflow, u.Inside first → v.Inside second → u.id = v.id → u = v) :
    after.Ready second where
  found_met := by
    intro id hId
    rw [hFirst.found, mem_ids_collect] at hId
    rw [hFirst.met]
    rcases hId with hId | ⟨leaf, hLeaf, rfl⟩
    · exact Or.inl (hReadyFirst.found_met id hId)
    · exact Or.inr ⟨leaf, hLeaf.2, rfl⟩
  complete := by
    intro v hv hMet u hu
    rw [hFirst.met, hFirst.found, mem_ids_collect]
    -- `v` was met before the first side, or is a part of it.
    rcases (hFirst.met v.id).1 hMet with hBefore | ⟨x, hx, hId⟩
    · obtain ⟨hMetU, hFound⟩ := hReady.complete v hv hBefore u hu
      exact ⟨Or.inl hMetU, fun hLeaf => Or.inl (hFound hLeaf)⟩
    · have hEq : x = v := hShared x v hx hv hId
      have hInside : u.Inside first := hu.trans (hEq ▸ hx)
      exact ⟨Or.inr ⟨u, hInside, rfl⟩, fun hLeaf => Or.inr ⟨u, ⟨hLeaf, hInside⟩, rfl⟩⟩

/-- Passing a leaf that was not met before. -/
theorem passes_leaf (hReady : walk.Ready w) (hLeaf : w.isLeaf = true) (hNew : w.id ∉ walk.met) :
    walk.Passes ({ walk with met := walk.met.insert w.id }.pick w) w where
  found := by
    have hUnknown : w.id ∉ walk.found.map Workflow.id := fun h => hNew (hReady.found_met _ h)
    rw [collect_of_isLeaf hLeaf, addNew, if_neg hUnknown]
    rfl
  met := by
    intro id
    show id ∈ walk.met.insert w.id ↔ _
    rw [OrderedSet.mem_insert]
    simp only [inside_of_isLeaf hLeaf, exists_eq_left, @eq_comm _ id w.id]

/-- Passing both sides of a workflow is passing the workflow. -/
theorem passes_sides {between : Walk}
    (hFirst : Passes { before with met := before.met.insert w.id } between first)
    (hSecond : between.Passes after second)
    (hCollect : ∀ found, w.collect found = second.collect (first.collect found))
    (hInside : ∀ v : Workflow, v.Inside w ↔ v = w ∨ v.Inside first ∨ v.Inside second) :
    before.Passes after w where
  found := by rw [hSecond.found, hFirst.found, hCollect]
  met := by
    intro id
    rw [hSecond.met, hFirst.met, OrderedSet.mem_insert]
    simp only [hInside, or_and_right, exists_or, exists_eq_left, or_assoc, @eq_comm _ id w.id]

end Walk

namespace Workflow

/-- What is to be shown of a part: the walk over it collects its leaves. -/
private def Gathers (w : Workflow) : Prop :=
  ∀ walk : Walk, w.Coherent → walk.Ready w → walk.Passes (w.gatherLeaves walk) w

/-- Two sides of one coherent workflow, walked one after the other. -/
private theorem passes_once_sides {w first second : Workflow} {walk : Walk}
    (ihFirst : first.Gathers) (ihSecond : second.Gathers)
    (hCoherent : w.Coherent) (hReady : walk.Ready w)
    (hInside : ∀ v : Workflow, v.Inside w ↔ v = w ∨ v.Inside first ∨ v.Inside second)
    (hFirstSize : sizeOf first < sizeOf w) (hSecondSize : sizeOf second < sizeOf w)
    (hCollect : ∀ found, w.collect found = second.collect (first.collect found)) :
    walk.Passes (walk.once w fun walk => second.gatherLeaves (first.gatherLeaves walk)) w := by
  have hFirst : first.Inside w := (hInside first).2 (Or.inr (Or.inl .self))
  have hSecond : second.Inside w := (hInside second).2 (Or.inr (Or.inr .self))
  refine Walk.passes_once hReady fun _ => ?_
  -- The id of `w` counts as met from here on; the parts of `w` have other ids.
  have hReadyFirst := hReady.enter hFirst fun v hv => hCoherent.id_ne hv hFirst hFirstSize
  have hReadySecond := hReady.enter hSecond fun v hv => hCoherent.id_ne hv hSecond hSecondSize
  have hPassFirst := ihFirst _ (hCoherent.mono hFirst) hReadyFirst
  have hReadyNext := hReadySecond.next hPassFirst hReadyFirst fun u v hu hv =>
    hCoherent u v (hu.trans hFirst) (hv.trans hSecond)
  have hPassSecond := ihSecond _ (hCoherent.mono hSecond) hReadyNext
  exact Walk.passes_sides hPassFirst hPassSecond hCollect hInside

/-- The walk over a coherent workflow collects its leaves. -/
theorem gatherLeaves_passes (w : Workflow) (walk : Walk) (hCoherent : w.Coherent)
    (hReady : walk.Ready w) : walk.Passes (w.gatherLeaves walk) w := by
  induction w generalizing walk with
  | activity id name duration =>
      rw [gatherLeaves]
      exact Walk.passes_once hReady (Walk.passes_leaf hReady rfl)
  | request id resource =>
      rw [gatherLeaves]
      exact Walk.passes_once hReady (Walk.passes_leaf hReady rfl)
  | release id resource =>
      rw [gatherLeaves]
      exact Walk.passes_once hReady (Walk.passes_leaf hReady rfl)
  | seq id first second ihFirst ihSecond =>
      rw [gatherLeaves]
      exact passes_once_sides ihFirst ihSecond hCoherent hReady (fun _ => inside_seq)
        (by simp only [seq.sizeOf_spec]; omega) (by simp only [seq.sizeOf_spec]; omega)
        (collect_seq id first second)
  | overlap id first second ihFirst ihSecond =>
      rw [gatherLeaves]
      exact passes_once_sides ihFirst ihSecond hCoherent hReady (fun _ => inside_overlap)
        (by simp only [overlap.sizeOf_spec]; omega) (by simp only [overlap.sizeOf_spec]; omega)
        (collect_overlap id first second)
  | holding id process resources expansion _ ihExpansion =>
      rw [gatherLeaves]
      refine Walk.passes_once hReady fun _ => ?_
      have hPart : expansion.Inside (holding id process resources expansion) := .expansion .self
      have hReadyPart := hReady.enter hPart fun v hv => hCoherent.id_ne hv hPart (by
        simp only [holding.sizeOf_spec]; omega)
      have hPass := ihExpansion _ (hCoherent.mono hPart) hReadyPart
      constructor
      · rw [hPass.found]
        rfl
      · intro other
        rw [hPass.met, OrderedSet.mem_insert]
        simp only [inside_holding, or_and_right, exists_or, exists_eq_left, or_assoc,
          @eq_comm _ other (Workflow.id _)]

/-- The leaves of a coherent workflow are the first occurrences of their ids. -/
theorem leaves_eq_collect {w : Workflow} (hCoherent : w.Coherent) : w.leaves = w.collect [] :=
  (gatherLeaves_passes w .start hCoherent (Walk.ready_start w)).found

theorem mem_leaves {leaf w : Workflow} (hCoherent : w.Coherent) :
    leaf ∈ w.leaves ↔ leaf.LeafOf w := by
  rw [leaves_eq_collect hCoherent, collect, mem_foldl_addNew_iff, mem_flatten]
  exact fun a ha b hb => hCoherent a b (mem_flatten.1 ha).2 (mem_flatten.1 hb).2

/-- No leaf is listed twice. -/
theorem nodup_leafIds {w : Workflow} (hCoherent : w.Coherent) : w.leafIds.Nodup := by
  rw [leafIds, leaves_eq_collect hCoherent]
  exact nodup_ids_foldl_addNew _ List.nodup_nil

end Workflow

end ActivityNetwork
