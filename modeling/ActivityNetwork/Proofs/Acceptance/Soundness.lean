import ActivityNetwork.Acceptance.Policy
import ActivityNetwork.Proofs.Network.Sorting

/-!
# Sound networks

A network is sound if its edges stay within its nodes, its order is not cyclic, and both of its
declared frontiers are what the edges make them.  These are exactly the conditions whose
violations every check reports (`soundnessViolations_eq_nil_iff`), so that soundness is all that
the lenient policy asks for.
-/

namespace ActivityNetwork

namespace Network

/-- What every scheduler relies on. -/
structure Sound (g : Network) : Prop where
  closed : g.Closed
  acyclic : Acyclic g.Link
  entries : ∀ id, id ∈ g.entries ↔ id ∈ g.sources
  exits : ∀ id, id ∈ g.exits ↔ id ∈ g.sinks

variable {g : Network}

/-! ## One check at a time -/

theorem dangling_eq_nil_iff : g.dangling.toList = [] ↔ g.Closed := by
  rw [← find?_endpoints_eq_none_iff, List.find?_eq_none, List.eq_nil_iff_forall_not_mem]
  simp only [OrderedSet.mem_toList, mem_dangling, not_and, decide_eq_true_eq]

theorem cycleViolations_eq_nil_iff (hClosed : g.Closed) :
    g.cycleViolations = [] ↔ Acyclic g.Link := by
  rw [← topologicalOrder_ok_iff_acyclic hClosed]
  unfold cycleViolations
  rw [dangling_eq_nil_iff.2 hClosed]
  rcases topologicalOrder_of_closed hClosed with ⟨order, hOrder⟩ | ⟨nodes, hCycle⟩
  · simp [hOrder]
  · simp [hCycle]

theorem frontierViolations_eq_nil_iff {frontier : Frontier} {declared derived : OrderedSet NodeId} :
    frontierViolations frontier declared derived = [] ↔
      ∀ id, id ∈ declared ↔ id ∈ derived := by
  rw [← OrderedSet.same_iff]
  unfold frontierViolations
  by_cases hSame : declared.same derived = true
  · simp [hSame]
  · simp [hSame]

/-! ## All checks -/

/-- A check finds nothing to report about soundness exactly if the network is sound. -/
theorem soundnessViolations_eq_nil_iff : g.soundnessViolations = [] ↔ g.Sound := by
  simp only [soundnessViolations, List.append_eq_nil_iff, List.map_eq_nil_iff,
    frontierViolations_eq_nil_iff, dangling_eq_nil_iff]
  constructor
  · intro hNone
    obtain ⟨⟨⟨hClosed, hCycle⟩, hEntries⟩, hExits⟩ := hNone
    exact ⟨hClosed, (cycleViolations_eq_nil_iff hClosed).1 hCycle, hEntries, hExits⟩
  · intro hSound
    exact ⟨⟨⟨hSound.closed, (cycleViolations_eq_nil_iff hSound.closed).2 hSound.acyclic⟩,
      hSound.entries⟩, hSound.exits⟩

namespace Sound

theorem exists_order (hSound : g.Sound) : ∃ order, g.topologicalOrder = .ok order :=
  (topologicalOrder_ok_iff_acyclic hSound.closed).2 hSound.acyclic

theorem isAcyclic (hSound : g.Sound) : g.isAcyclic = true := by
  obtain ⟨order, hOrder⟩ := hSound.exists_order
  unfold Network.isAcyclic
  rw [hOrder]
  rfl

theorem checkIntegrity (hSound : g.Sound) : g.checkIntegrity = .ok () :=
  (checkIntegrity_eq_ok_iff g).2 hSound.exists_order

theorem accepts (hSound : g.Sound) : Policy.lenient.accepts g = true :=
  (Policy.accepts_lenient_iff g).2 (soundnessViolations_eq_nil_iff.2 hSound)

end Sound

end Network

namespace Policy

variable {p : Policy} {g : Network}

/-- A policy accepts the sound networks that give it nothing to complain of beyond soundness. -/
theorem accepts_iff_sound : p.accepts g = true ↔ g.Sound ∧ p.extraViolations g = [] := by
  rw [accepts_iff, violations, List.append_eq_nil_iff, Network.soundnessViolations_eq_nil_iff]

end Policy

end ActivityNetwork
