import ActivityNetwork.Workflow.Basic
import Mathlib.Logic.Basic
import Mathlib.Tactic.Common

/-!
# Parts and leaves of a workflow

`part.Inside whole` says that a compilation of `whole` comes to `part`: through the sides of
sequences and unions, and through expansions.  The process that stands beside an expansion is
not on these paths.

A workflow is a finite tree, but what a compilation sees of it is decided by ids.  The two
views agree exactly when the workflow is `Coherent`: no id stands for two different parts.
-/

namespace ActivityNetwork

namespace Workflow

/-- `part` is the whole itself, or is reached from it through sides and expansions. -/
inductive Inside (part : Workflow) : Workflow → Prop
  | self : Inside part part
  | seqFirst {id first second} (h : Inside part first) : Inside part (seq id first second)
  | seqSecond {id first second} (h : Inside part second) : Inside part (seq id first second)
  | overlapFirst {id first second} (h : Inside part first) :
      Inside part (overlap id first second)
  | overlapSecond {id first second} (h : Inside part second) :
      Inside part (overlap id first second)
  | expansion {id process resources expansion} (h : Inside part expansion) :
      Inside part (holding id process resources expansion)

/-- A leaf on one of these paths. -/
def LeafOf (leaf whole : Workflow) : Prop :=
  leaf.isLeaf = true ∧ leaf.Inside whole

/-- One id, one part. -/
def Coherent (whole : Workflow) : Prop :=
  ∀ u v : Workflow, u.Inside whole → v.Inside whole → u.id = v.id → u = v

variable {u v w part first second process expansion : Workflow} {id : WorkflowId}
  {resources : List Resource}

/-! ## Paths to parts -/

theorem Inside.trans (hInner : u.Inside v) (hOuter : v.Inside w) : u.Inside w := by
  induction hOuter with
  | self => exact hInner
  | seqFirst _ ih => exact .seqFirst ih
  | seqSecond _ ih => exact .seqSecond ih
  | overlapFirst _ ih => exact .overlapFirst ih
  | overlapSecond _ ih => exact .overlapSecond ih
  | expansion _ ih => exact .expansion ih

theorem isLeaf_cases (hLeaf : w.isLeaf = true) :
    (∃ id name duration, w = activity id name duration) ∨
      (∃ id resource, w = request id resource) ∨ ∃ id resource, w = release id resource := by
  cases w with
  | activity id name duration => exact Or.inl ⟨id, name, duration, rfl⟩
  | request id resource => exact Or.inr (Or.inl ⟨id, resource, rfl⟩)
  | release id resource => exact Or.inr (Or.inr ⟨id, resource, rfl⟩)
  | seq => cases hLeaf
  | overlap => cases hLeaf
  | holding => cases hLeaf

theorem inside_of_isLeaf (hLeaf : w.isLeaf = true) : part.Inside w ↔ part = w := by
  constructor
  · intro h
    cases h with
    | self => rfl
    | seqFirst => cases hLeaf
    | seqSecond => cases hLeaf
    | overlapFirst => cases hLeaf
    | overlapSecond => cases hLeaf
    | expansion => cases hLeaf
  · rintro rfl
    exact .self

theorem inside_seq :
    part.Inside (seq id first second) ↔
      part = seq id first second ∨ part.Inside first ∨ part.Inside second := by
  constructor
  · intro h
    cases h with
    | self => exact Or.inl rfl
    | seqFirst h => exact Or.inr (Or.inl h)
    | seqSecond h => exact Or.inr (Or.inr h)
  · rintro (rfl | h | h)
    · exact .self
    · exact .seqFirst h
    · exact .seqSecond h

theorem inside_overlap :
    part.Inside (overlap id first second) ↔
      part = overlap id first second ∨ part.Inside first ∨ part.Inside second := by
  constructor
  · intro h
    cases h with
    | self => exact Or.inl rfl
    | overlapFirst h => exact Or.inr (Or.inl h)
    | overlapSecond h => exact Or.inr (Or.inr h)
  · rintro (rfl | h | h)
    · exact .self
    · exact .overlapFirst h
    · exact .overlapSecond h

theorem inside_holding :
    part.Inside (holding id process resources expansion) ↔
      part = holding id process resources expansion ∨ part.Inside expansion := by
  constructor
  · intro h
    cases h with
    | self => exact Or.inl rfl
    | expansion h => exact Or.inr h
  · rintro (rfl | h)
    · exact .self
    · exact .expansion h

/-- A proper part is a smaller tree, so no workflow lies inside a part of its own. -/
theorem Inside.sizeOf_le (h : part.Inside w) : sizeOf part ≤ sizeOf w := by
  induction h with
  | self => exact Nat.le_refl _
  | seqFirst _ ih => simp only [seq.sizeOf_spec]; omega
  | seqSecond _ ih => simp only [seq.sizeOf_spec]; omega
  | overlapFirst _ ih => simp only [overlap.sizeOf_spec]; omega
  | overlapSecond _ ih => simp only [overlap.sizeOf_spec]; omega
  | expansion _ ih => simp only [holding.sizeOf_spec]; omega

/-! ## Leaves -/

theorem leafOf_of_isLeaf (hLeaf : w.isLeaf = true) : part.LeafOf w ↔ part = w := by
  rw [LeafOf, inside_of_isLeaf hLeaf]
  constructor
  · exact fun h => h.2
  · rintro rfl
    exact ⟨hLeaf, rfl⟩

theorem leafOf_seq :
    part.LeafOf (seq id first second) ↔ part.LeafOf first ∨ part.LeafOf second := by
  simp only [LeafOf, inside_seq, ← and_or_left]
  constructor
  · rintro ⟨hLeaf, rfl | h⟩
    · cases hLeaf
    · exact ⟨hLeaf, h⟩
  · exact fun h => ⟨h.1, Or.inr h.2⟩

theorem leafOf_overlap :
    part.LeafOf (overlap id first second) ↔ part.LeafOf first ∨ part.LeafOf second := by
  simp only [LeafOf, inside_overlap, ← and_or_left]
  constructor
  · rintro ⟨hLeaf, rfl | h⟩
    · cases hLeaf
    · exact ⟨hLeaf, h⟩
  · exact fun h => ⟨h.1, Or.inr h.2⟩

theorem leafOf_holding :
    part.LeafOf (holding id process resources expansion) ↔ part.LeafOf expansion := by
  simp only [LeafOf, inside_holding]
  constructor
  · rintro ⟨hLeaf, rfl | h⟩
    · cases hLeaf
    · exact ⟨hLeaf, h⟩
  · exact fun h => ⟨h.1, Or.inr h.2⟩

theorem LeafOf.trans (hLeaf : u.LeafOf v) (hInside : v.Inside w) : u.LeafOf w :=
  ⟨hLeaf.1, hLeaf.2.trans hInside⟩

/-- There is no workflow without leaves. -/
theorem exists_leafOf (w : Workflow) : ∃ leaf : Workflow, leaf.LeafOf w := by
  induction w with
  | activity id name duration => exact ⟨_, rfl, .self⟩
  | request id resource => exact ⟨_, rfl, .self⟩
  | release id resource => exact ⟨_, rfl, .self⟩
  | seq id first second ihFirst _ =>
      obtain ⟨leaf, h⟩ := ihFirst
      exact ⟨leaf, h.trans (.seqFirst .self)⟩
  | overlap id first second ihFirst _ =>
      obtain ⟨leaf, h⟩ := ihFirst
      exact ⟨leaf, h.trans (.overlapFirst .self)⟩
  | holding id process resources expansion _ ihExpansion =>
      obtain ⟨leaf, h⟩ := ihExpansion
      exact ⟨leaf, h.trans (.expansion .self)⟩

/-! ## Coherence -/

theorem Coherent.mono (hCoherent : w.Coherent) (hInside : v.Inside w) : v.Coherent :=
  fun _ _ hFirst hSecond => hCoherent _ _ (hFirst.trans hInside) (hSecond.trans hInside)

/-- What lies inside a smaller part does not carry the id of the whole. -/
theorem Coherent.id_ne (hCoherent : w.Coherent) (hPart : part.Inside v) (hInside : v.Inside w)
    (hSmaller : sizeOf v < sizeOf w) : part.id ≠ w.id := by
  intro hId
  have hEq : part = w := hCoherent part w (hPart.trans hInside) .self hId
  have hLe : sizeOf part ≤ sizeOf v := hPart.sizeOf_le
  rw [hEq] at hLe
  omega

end Workflow

end ActivityNetwork
