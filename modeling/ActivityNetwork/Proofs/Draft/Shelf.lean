import ActivityNetwork.Proofs.Workflow.Order
import ActivityNetwork.Workflow.Draft

/-!
# The shelf

A shelf holds the workflows that drafting has made so far.  What is kept in order there is not
one workflow but all of them together: an id that two workflows share must mean the same part
in both, or a sequence or union of the two would confuse different parts.

`Stocked s shelf` is that order.  A new workflow whose parts are from the shelf keeps it, if its
id is the next one of the supply and if what its operation has to check was checked
(`Stocked.add`).  Before that check, a new union is `Coherent` already (`Stocked.coherent_new`);
otherwise the check itself would mean nothing.
-/

namespace ActivityNetwork

namespace Workflow

/-- What has to be seen to when `w` is made: the sides of a sequence share no leaf, a union has
no cycle, and a process is a part of its expansion. -/
def Checked : Workflow → Prop
  | seq _ first second => ∀ leaf : Workflow, leaf.LeafOf first → ¬ leaf.LeafOf second
  | w@(overlap ..) => Acyclic w.chart.Link
  | holding _ process _ expansion => process.Inside expansion
  | _ => True

/-- Whatever can be taken out of a checked workflow is a smaller part of it. -/
theorem Checked.inside_part {w part : Workflow} {place : Part} (hChecked : w.Checked)
    (hPart : w.part? place = some part) : part.Inside w ∧ sizeOf part < sizeOf w := by
  cases w with
  | activity => cases place <;> cases hPart
  | request => cases place <;> cases hPart
  | release => cases place <;> cases hPart
  | seq id first second =>
      cases place <;> cases hPart
      · exact ⟨.seqFirst .self, by simp only [seq.sizeOf_spec]; omega⟩
      · exact ⟨.seqSecond .self, by simp only [seq.sizeOf_spec]; omega⟩
  | overlap id first second =>
      cases place <;> cases hPart
      · exact ⟨.overlapFirst .self, by simp only [overlap.sizeOf_spec]; omega⟩
      · exact ⟨.overlapSecond .self, by simp only [overlap.sizeOf_spec]; omega⟩
  | holding id process resources expansion =>
      cases place <;> cases hPart
      · exact ⟨.expansion hChecked, by simp only [holding.sizeOf_spec]; omega⟩
      · exact ⟨.expansion .self, by simp only [holding.sizeOf_spec]; omega⟩

end Workflow

open Workflow

/-- `part` is on the shelf, or a part of something there. -/
def Reached (shelf : List Workflow) (part : Workflow) : Prop :=
  ∃ w ∈ shelf, part.Inside w

section Reached

variable {shelf bigger : List Workflow} {w v part : Workflow}

theorem reached_of_mem (hMem : w ∈ shelf) : Reached shelf w :=
  ⟨w, hMem, .self⟩

theorem Reached.inside (hReached : Reached shelf w) (hPart : part.Inside w) :
    Reached shelf part := by
  obtain ⟨whole, hMem, hInside⟩ := hReached
  exact ⟨whole, hMem, hPart.trans hInside⟩

theorem Reached.mono (hReached : Reached shelf part) (hSub : shelf ⊆ bigger) :
    Reached bigger part := by
  obtain ⟨whole, hMem, hInside⟩ := hReached
  exact ⟨whole, hSub hMem, hInside⟩

theorem reached_cons : Reached (w :: shelf) part ↔ part.Inside w ∨ Reached shelf part := by
  simp [Reached]

/-- All proper parts of `w` are from the shelf. -/
def MadeFrom (shelf : List Workflow) (w : Workflow) : Prop :=
  ∀ v : Workflow, v.Inside w → v = w ∨ Reached shelf v

theorem MadeFrom.reached_cons (hMade : MadeFrom shelf w) (hReached : Reached (w :: shelf) v) :
    v = w ∨ Reached shelf v := by
  rcases ActivityNetwork.reached_cons.1 hReached with hInside | hOld
  · exact hMade v hInside
  · exact Or.inr hOld

theorem madeFrom_of_isLeaf (hLeaf : w.isLeaf = true) : MadeFrom shelf w :=
  fun _ hv => Or.inl ((inside_of_isLeaf hLeaf).1 hv)

theorem madeFrom_seq (id : WorkflowId) {first second : Workflow} (hFirst : Reached shelf first)
    (hSecond : Reached shelf second) : MadeFrom shelf (seq id first second) := by
  intro v hv
  rcases inside_seq.1 hv with hSelf | hInside | hInside
  · exact Or.inl hSelf
  · exact Or.inr (hFirst.inside hInside)
  · exact Or.inr (hSecond.inside hInside)

theorem madeFrom_overlap (id : WorkflowId) {first second : Workflow}
    (hFirst : Reached shelf first) (hSecond : Reached shelf second) :
    MadeFrom shelf (overlap id first second) := by
  intro v hv
  rcases inside_overlap.1 hv with hSelf | hInside | hInside
  · exact Or.inl hSelf
  · exact Or.inr (hFirst.inside hInside)
  · exact Or.inr (hSecond.inside hInside)

theorem madeFrom_holding (id : WorkflowId) (process : Workflow) (resources : List Resource)
    {expansion : Workflow} (hExpansion : Reached shelf expansion) :
    MadeFrom shelf (holding id process resources expansion) := by
  intro v hv
  rcases inside_holding.1 hv with hSelf | hInside
  · exact Or.inl hSelf
  · exact Or.inr (hExpansion.inside hInside)

end Reached

/-- Drafting is in order: ids come from the supply, each stands for one part only and is greater
than those of its own parts, and every part was checked. -/
structure Stocked (s : Supply) (shelf : List Workflow) : Prop where
  used : ∀ v, Reached shelf v → v.id.index < s.workflows
  coherent : ∀ u v, Reached shelf u → Reached shelf v → u.id = v.id → u = v
  checked : ∀ v, Reached shelf v → v.Checked
  smaller : ∀ v, Reached shelf v → ∀ place part, v.part? place = some part →
    part.id.index < v.id.index

namespace Stocked

variable {s t : Supply} {shelf small : List Workflow} {w : Workflow}

theorem empty (s : Supply) : Stocked s [] := by
  have hNone : ∀ v, ¬ Reached [] v := by
    intro v hReached
    obtain ⟨w, hMem, -⟩ := hReached
    cases hMem
  constructor
  · exact fun v hv => absurd hv (hNone v)
  · exact fun u _ hu => absurd hu (hNone u)
  · exact fun v hv => absurd hv (hNone v)
  · exact fun v hv => absurd hv (hNone v)

/-- A shelf may be left with less, or get parts of what is there. -/
theorem forget (hStocked : Stocked s shelf) (hLess : ∀ w ∈ small, Reached shelf w) :
    Stocked s small := by
  have hReached : ∀ v, Reached small v → Reached shelf v := by
    intro v hReached
    obtain ⟨w, hMem, hInside⟩ := hReached
    exact (hLess w hMem).inside hInside
  constructor
  · exact fun v hv => hStocked.used v (hReached v hv)
  · exact fun u v hu hv => hStocked.coherent u v (hReached u hu) (hReached v hv)
  · exact fun v hv => hStocked.checked v (hReached v hv)
  · exact fun v hv => hStocked.smaller v (hReached v hv)

theorem spend (hStocked : Stocked s shelf) (hLe : s.workflows ≤ t.workflows) :
    Stocked t shelf :=
  { hStocked with used := fun v hv => Nat.lt_of_lt_of_le (hStocked.used v hv) hLe }

theorem wellMade (hStocked : Stocked s shelf) (hReached : Reached shelf w) : w.WellMade where
  coherent := fun u v hu hv => hStocked.coherent u v (hReached.inside hu) (hReached.inside hv)
  apart := fun _ _ _ hSeq => hStocked.checked _ (hReached.inside hSeq)
  acyclic := fun _ _ _ hOver => hStocked.checked _ (hReached.inside hOver)

/-- On one shelf the ids say which workflows are meant. -/
theorem subset_of_ids {xs ys : List Workflow} (hStocked : Stocked s shelf) (hXs : xs ⊆ shelf)
    (hYs : ys ⊆ shelf) (hIds : ∀ id ∈ xs.map Workflow.id, id ∈ ys.map Workflow.id) : xs ⊆ ys := by
  intro w hw
  obtain ⟨v, hv, hEq⟩ := List.mem_map.1 (hIds w.id (List.mem_map_of_mem hw))
  have hSelf : v = w :=
    hStocked.coherent v w (reached_of_mem (hYs hv)) (reached_of_mem (hXs hw)) hEq
  exact hSelf ▸ hv

/-! ## A new workflow -/

/-- The next id of the supply is the id of nothing on the shelf. -/
theorem id_ne (hStocked : Stocked s shelf) (hFresh : w.id = ⟨s.workflows⟩) {v : Workflow}
    (hReached : Reached shelf v) : v.id ≠ w.id := by
  intro hEq
  have hUsed := hStocked.used v hReached
  rw [hEq, hFresh] at hUsed
  exact Nat.lt_irrefl _ hUsed

/-- Ids stay unambiguous, whether the new workflow was checked or not. -/
theorem coherent_add (hStocked : Stocked s shelf) (hFresh : w.id = ⟨s.workflows⟩)
    (hMade : MadeFrom shelf w) {u v : Workflow} (hu : Reached (w :: shelf) u)
    (hv : Reached (w :: shelf) v) (hEq : u.id = v.id) : u = v := by
  -- Among the old parts ids were unambiguous, and the new id is the id of none of them.
  rcases hMade.reached_cons hu with rfl | hOldU
  · rcases hMade.reached_cons hv with rfl | hOldV
    · rfl
    · exact absurd hEq.symm (hStocked.id_ne hFresh hOldV)
  · rcases hMade.reached_cons hv with rfl | hOldV
    · exact absurd hEq (hStocked.id_ne hFresh hOldU)
    · exact hStocked.coherent u v hOldU hOldV hEq

theorem coherent_new (hStocked : Stocked s shelf) (hFresh : w.id = ⟨s.workflows⟩)
    (hMade : MadeFrom shelf w) : w.Coherent :=
  fun _ _ hu hv => hStocked.coherent_add hFresh hMade (reached_cons.2 (Or.inl hu))
    (reached_cons.2 (Or.inl hv))

/-- The union that a merge tries out. -/
theorem coherent_union (hStocked : Stocked s shelf) {first second : Workflow}
    (hFirst : Reached shelf first) (hSecond : Reached shelf second) :
    (overlap ⟨s.workflows⟩ first second).Coherent :=
  hStocked.coherent_new rfl (madeFrom_overlap _ hFirst hSecond)

theorem add (hStocked : Stocked s shelf) (hFresh : w.id = ⟨s.workflows⟩)
    (hMade : MadeFrom shelf w) (hChecked : w.Checked) (hLt : s.workflows < t.workflows) :
    Stocked t (w :: shelf) := by
  constructor
  · intro v hv
    rcases hMade.reached_cons hv with rfl | hOld
    · rw [hFresh]
      exact hLt
    · exact Nat.lt_trans (hStocked.used v hOld) hLt
  · exact fun u v hu hv => hStocked.coherent_add hFresh hMade hu hv
  · intro v hv
    rcases hMade.reached_cons hv with rfl | hOld
    · exact hChecked
    · exact hStocked.checked v hOld
  · intro v hv place part hPart
    rcases hMade.reached_cons hv with rfl | hOld
    -- What can be taken out of the new workflow is smaller, so it is from the shelf.
    · obtain ⟨hInside, hSize⟩ := hChecked.inside_part hPart
      rcases hMade part hInside with rfl | hOldPart
      · omega
      · rw [hFresh]
        exact hStocked.used part hOldPart
    · exact hStocked.smaller v hOld place part hPart

end Stocked

end ActivityNetwork
