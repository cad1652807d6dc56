import ActivityNetwork.Proofs.Draft.Run

/-!
# Merging

A merge is decided by sorting the network of a union that nobody has seen yet.  What this comes
to is told by the operands alone: the union is refused exactly if what one side declares and what
the other side declares put some leaf before itself.
-/

namespace ActivityNetwork

open Workflow

namespace Draft

variable {s : Supply} {shelf : List Workflow} {first second : Workflow}

/-- The union has an order exactly if the declared orders of its sides have one in common. -/
theorem union_acyclic_iff (hStocked : Stocked s shelf) (hFirst : Reached shelf first)
    (hSecond : Reached shelf second) :
    Acyclic (overlap ⟨s.workflows⟩ first second).network.Link ↔
      Acyclic fun p q => first.Declares p q ∨ second.Declares p q := by
  have hCoherent := hStocked.coherent_union hFirst hSecond
  have hSeqs : ∀ id a b, (seq id a b).Inside (overlap ⟨s.workflows⟩ first second) →
      (seq id a b).WellMade := by
    intro id a b hInside
    -- The union is no sequence itself, so the sequence was made for one of the sides.
    rcases inside_overlap.1 hInside with hSelf | hInside | hInside
    · cases hSelf
    · exact (hStocked.wellMade hFirst).mono hInside
    · exact (hStocked.wellMade hSecond).mono hInside
  rw [network_acyclic_iff hCoherent, chart_acyclic_iff hCoherent hSeqs]
  constructor
  · exact fun hAcyclic => hAcyclic.mono fun _ _ => declares_overlap.2
  · exact fun hAcyclic => hAcyclic.mono fun _ _ => declares_overlap.1

/-- A merge succeeds exactly if the declared orders of both sides together put no leaf before
itself.  It then gives the union.  Otherwise the circular dependency of that very union is
reported, and never anything else. -/
theorem merge_ok_iff_of_run (hRun : Run s shelf) (hFirst : first ∈ shelf)
    (hSecond : second ∈ shelf) :
    ((∃ w t, merge first second s = .ok w t) ↔
      Acyclic fun p q => first.Declares p q ∨ second.Declares p q) ∧
    (∀ w t, merge first second s = .ok w t → w = overlap ⟨s.workflows⟩ first second) ∧
    ∀ fault t, merge first second s = .error fault t →
      ∃ process, fault = .circularDependency process ⟨s.workflows⟩ := by
  have hReachedFirst := reached_of_mem hFirst
  have hReachedSecond := reached_of_mem hSecond
  have hClosed := network_closed (hRun.stocked.coherent_union hReachedFirst hReachedSecond)
  rw [← union_acyclic_iff hRun.stocked hReachedFirst hReachedSecond]
  rcases merge_cases hClosed with ⟨hAcyclic, hMerge⟩ | ⟨hCyclic, process, hMerge⟩
  · refine ⟨⟨fun _ => hAcyclic, fun _ => ⟨_, _, hMerge⟩⟩, ?_, ?_⟩
    · intro w t hDone
      rw [hMerge] at hDone
      cases hDone
      rfl
    · intro fault t hFailed
      rw [hMerge] at hFailed
      cases hFailed
  · refine ⟨⟨?_, fun hAcyclic => absurd hAcyclic hCyclic⟩, ?_, ?_⟩
    · intro hSome
      obtain ⟨w, t, hDone⟩ := hSome
      rw [hMerge] at hDone
      cases hDone
    · intro w t hDone
      rw [hMerge] at hDone
      cases hDone
    · intro fault t hFailed
      rw [hMerge] at hFailed
      cases hFailed
      exact ⟨process, rfl⟩

/-- Packing cannot be put after shipping once it is put before it. -/
theorem merge_refused_back :
    Run ⟨6, 0⟩ [.seq ⟨5⟩ Sample.ship Sample.pack, Sample.back, Sample.front, Sample.ship,
      Sample.pack, Sample.pick] ∧
    ¬ ∃ w t, merge Sample.back (.seq ⟨5⟩ Sample.ship Sample.pack) ⟨6, 0⟩ = .ok w t := by
  have hRun : Run ⟨6, 0⟩ [.seq ⟨5⟩ Sample.ship Sample.pack, Sample.back, Sample.front,
      Sample.ship, Sample.pack, Sample.pick] :=
    Sample.run_sides.done (.sequence Sample.ship Sample.pack) (by simp [Call.operands]) rfl
  refine ⟨hRun, fun hDone => ?_⟩
  have hAcyclic := (merge_ok_iff_of_run hRun (List.mem_cons_of_mem _ List.mem_cons_self)
    List.mem_cons_self).1.1 hDone
  have hThere : Sample.back.Declares Sample.pack Sample.ship :=
    ⟨_, _, _, .self, ⟨rfl, .self⟩, ⟨rfl, .self⟩⟩
  have hBack : (seq ⟨5⟩ Sample.ship Sample.pack).Declares Sample.ship Sample.pack :=
    ⟨_, _, _, .self, ⟨rfl, .self⟩, ⟨rfl, .self⟩⟩
  exact hAcyclic Sample.pack (.tail (.single (Or.inl hThere)) (Or.inr hBack))

end Draft

end ActivityNetwork
