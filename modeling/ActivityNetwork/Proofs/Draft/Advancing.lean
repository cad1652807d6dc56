import ActivityNetwork.Proofs.Draft.Planning

/-!
# What drafting takes

Ids are handed out and never taken back.  Whatever is drafted, from whatever operands, the supply
is at least as far as it was before, whether the draft succeeds or fails (`advances_draft`).  This
can be seen from the plans of the operations.
-/

namespace ActivityNetwork

/-- Nothing that has been handed out at `s` is handed out again from `t` on. -/
structure Supply.Reaches (s t : Supply) : Prop where
  workflows : s.workflows ≤ t.workflows
  resources : s.resources ≤ t.resources

namespace Supply.Reaches

variable {s t u : Supply}

theorem refl (s : Supply) : s.Reaches s :=
  ⟨Nat.le_refl _, Nat.le_refl _⟩

theorem trans (hst : s.Reaches t) (htu : t.Reaches u) : s.Reaches u :=
  ⟨Nat.le_trans hst.workflows htu.workflows, Nat.le_trans hst.resources htu.resources⟩

end Supply.Reaches

namespace Draft

/-- The draft takes ids, and gives none back. -/
def Advances {α : Type} (d : Draft α) : Prop :=
  ∀ s : Supply, s.Reaches (spent (d s))

section Steps

variable {α β : Type} {d : Draft α} {f : α → Draft β}

theorem advances_pure (a : α) : Advances (pure a : Draft α) :=
  fun s => .refl s

theorem Advances.bind (hFirst : Advances d) (hNext : ∀ a, Advances (f a)) :
    Advances (d >>= f) := by
  intro s
  have hBefore := hFirst s
  cases hd : d s with
  | error fault t =>
      rw [hd] at hBefore
      rw [bind_of_error hd]
      exact hBefore
  | ok a t =>
      rw [hd] at hBefore
      rw [bind_of_ok hd]
      exact hBefore.trans (hNext a t)

theorem advances_newResourceId : Advances newResourceId :=
  fun _ => ⟨Nat.le_refl _, Nat.le_succ _⟩

/-- Whatever is done by a plan takes one id for each step. -/
theorem advances_run (p : Plan α) : Advances p.run := by
  intro s
  rw [p.spent_run s]
  exact ⟨Nat.le_add_right _ _, Nat.le_refl _⟩

end Steps

theorem advances_resource (label : String) : Advances (resource label) :=
  advances_newResourceId.bind fun id => advances_pure (Resource.mk id label)

/-- No operation hands an id out twice, whether it succeeds or fails. -/
theorem advances_draft (call : Call) : Advances call.draft := by
  rw [← call.run_plan]
  exact advances_run call.plan

end Draft

end ActivityNetwork
