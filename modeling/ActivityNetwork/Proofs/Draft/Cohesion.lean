import ActivityNetwork.Proofs.Draft.Expansion
import ActivityNetwork.Proofs.Draft.Networks
import ActivityNetwork.Proofs.Workflow.Cohesion

/-!
# Policies that ask for connected networks

The network of a built workflow is sound, so a policy that asks for nothing but a connected network
accepts it exactly if its chart is cohesive (`accepts_iff_cohesive`).  A sequence always is, and a
process that holds resources is one: the expansion puts the process between its markers.

A union of two accepted workflows is accepted exactly if they have a leaf in common
(`cohesion_of_run`).  A leaf is known by its id, on whichever side it stands.
-/

namespace ActivityNetwork

namespace Policy

/-- The policy that asks for nothing but a connected network. -/
def connectedOnly : Policy :=
  ⟨false, false, true, 0⟩

theorem accepts_connectedOnly_iff {g : Network} :
    connectedOnly.accepts g = true ↔ g.Sound ∧ g.disconnected = [] := by
  rw [accepts_iff_sound]
  simp [extraViolations, connectedOnly]

end Policy

open Policy

namespace Workflow

variable {w first second process expansion : Workflow} {id : WorkflowId}
  {resources : List Resource}

theorem WellMade.accepts_iff_cohesive (hMade : w.WellMade) :
    connectedOnly.accepts w.network = true ↔ w.chart.Cohesive := by
  rw [accepts_connectedOnly_iff, network_cohesive_iff hMade.coherent]
  exact and_iff_right hMade.network_sound

/-- A process stands between the requests and the releases of what it holds. -/
theorem holding_cohesive (hMade : (holding id process resources expansion).WellMade)
    (hExpands : Expands process resources expansion) :
    (holding id process resources expansion).chart.Cohesive := by
  have hInside : expansion.Inside (holding id process resources expansion) := .expansion .self
  cases hExpands with
  | between outer inner hRequests hReleases => exact seq_cohesive (hMade.mono hInside)

/-- Where ids determine leaves, a common id is a common leaf. -/
theorem shared_leafIds_iff (hCoherent : (overlap id first second).Coherent) :
    (∃ leaf ∈ first.leafIds, leaf ∈ second.leafIds) ↔
      ∃ leaf : Workflow, leaf.LeafOf first ∧ leaf.LeafOf second := by
  have hFirst := hCoherent.mono (.overlapFirst .self)
  have hSecond := hCoherent.mono (.overlapSecond .self)
  constructor
  · intro hShared
    obtain ⟨leaf, hIn, hOther⟩ := hShared
    obtain ⟨p, hp, rfl⟩ := List.mem_map.1 hIn
    obtain ⟨q, hq, hSame⟩ := List.mem_map.1 hOther
    have hLeafFirst := (mem_leaves hFirst).1 hp
    have hLeafSecond := (mem_leaves hSecond).1 hq
    have hEq : q = p := hCoherent q p (leafOf_overlap.2 (Or.inr hLeafSecond)).2
      (leafOf_overlap.2 (Or.inl hLeafFirst)).2 hSame
    exact ⟨p, hLeafFirst, hEq ▸ hLeafSecond⟩
  · intro hShared
    obtain ⟨leaf, hLeafFirst, hLeafSecond⟩ := hShared
    exact ⟨leaf.id, List.mem_map_of_mem ((mem_leaves hFirst).2 hLeafFirst),
      List.mem_map_of_mem ((mem_leaves hSecond).2 hLeafSecond)⟩

end Workflow

open Workflow

theorem Built.connected_of_cohesive {w : Workflow} (hBuilt : Built w)
    (hCohesive : w.chart.Cohesive) :
    (∀ a ∈ w.network.nodes.keys, ∀ b ∈ w.network.nodes.keys, w.network.Connected a b) ∧
      connectedOnly.accepts w.network = true := by
  have hMade := hBuilt.wellMade
  have hAll := Network.disconnected_eq_nil_iff.1 ((network_cohesive_iff hMade.coherent).2 hCohesive)
  exact ⟨fun a ha b hb => hAll a b ha hb, hMade.accepts_iff_cohesive.2 hCohesive⟩

/-- What has to be known of a workflow to know that its network is connected.  For a sequence, and
for a process that holds resources, nothing; its parts need not be connected.  For a union of two
workflows with connected networks, whether they have a leaf in common. -/
theorem cohesion_of_run :
    (∀ id first second, Built (seq id first second) →
      (∀ a ∈ (seq id first second).network.nodes.keys,
        ∀ b ∈ (seq id first second).network.nodes.keys,
          (seq id first second).network.Connected a b) ∧
        connectedOnly.accepts (seq id first second).network = true) ∧
    (∀ id process resources expansion, Built (holding id process resources expansion) →
      (∀ a ∈ (holding id process resources expansion).network.nodes.keys,
        ∀ b ∈ (holding id process resources expansion).network.nodes.keys,
          (holding id process resources expansion).network.Connected a b) ∧
        connectedOnly.accepts (holding id process resources expansion).network = true) ∧
    ∀ s shelf first second w t, Run s shelf → first ∈ shelf → second ∈ shelf →
      connectedOnly.accepts first.network = true → connectedOnly.accepts second.network = true →
      Draft.merge first second s = .ok w t →
        (connectedOnly.accepts w.network = true ↔
          ∃ leaf ∈ first.leafIds, leaf ∈ second.leafIds) := by
  refine ⟨fun id first second hBuilt => ?_, fun id process resources expansion hBuilt => ?_, ?_⟩
  · exact hBuilt.connected_of_cohesive (seq_cohesive hBuilt.wellMade)
  · obtain ⟨-, hExpands⟩ := hBuilt.expanded id process resources expansion .self
    exact hBuilt.connected_of_cohesive (holding_cohesive hBuilt.wellMade hExpands)
  · intro s shelf first second w t hRun hFirst hSecond hAcceptsFirst hAcceptsSecond hDone
    obtain ⟨rfl, -⟩ := Draft.merge_ok hDone
    -- Both sides lie inside the union, so what holds of everything made holds of them as well.
    have hMade : (overlap ⟨s.workflows⟩ first second).WellMade :=
      Built.wellMade ⟨_, _, hRun.done (.merge first second)
        (by simp [Call.operands, hFirst, hSecond]) hDone, List.mem_cons_self⟩
    have hCohesiveFirst := (hMade.mono (.overlapFirst .self)).accepts_iff_cohesive.1 hAcceptsFirst
    have hCohesiveSecond :=
      (hMade.mono (.overlapSecond .self)).accepts_iff_cohesive.1 hAcceptsSecond
    rw [hMade.accepts_iff_cohesive, shared_leafIds_iff hMade.coherent]
    exact overlap_cohesive_iff hMade.coherent hCohesiveFirst hCohesiveSecond

namespace Sample

def idling : Workflow :=
  .activity ⟨4⟩ "idle" .zero

/-- Picking and packing, neither of which has to do with the other. -/
def early : Workflow :=
  .overlap ⟨3⟩ pick pack

def late : Workflow :=
  .overlap ⟨5⟩ ship idling

/-- Two unions, neither of them connected, one after the other. -/
def shift : Workflow :=
  .seq ⟨6⟩ early late

theorem merge_early : Draft.merge pick pack ⟨3, 0⟩ = .ok early ⟨4, 0⟩ := by
  have hOrder : (overlap ⟨3⟩ pick pack).network.topologicalOrder =
      .ok [⟨0⟩, ⟨2⟩, ⟨1⟩, ⟨3⟩] := by
    decide +kernel
  rw [Draft.merge_of_ordered ⟨3, 0⟩ hOrder]
  rfl

theorem merge_late : Draft.merge ship idling ⟨5, 0⟩ = .ok late ⟨6, 0⟩ := by
  have hOrder : (overlap ⟨5⟩ ship idling).network.topologicalOrder =
      .ok [⟨0⟩, ⟨2⟩, ⟨1⟩, ⟨3⟩] := by
    decide +kernel
  rw [Draft.merge_of_ordered ⟨5, 0⟩ hOrder]
  rfl

theorem run_idling : Run ⟨5, 0⟩ [idling, early, ship, pack, pick] := by
  have hEarly : Run ⟨4, 0⟩ [early, ship, pack, pick] :=
    run_leaves.done (.merge pick pack) (by simp [Call.operands]) merge_early
  exact hEarly.done .idle (by simp [Call.operands]) rfl

theorem run_shift : Run ⟨7, 0⟩ [shift, late, idling, early, ship, pack, pick] := by
  have hLate : Run ⟨6, 0⟩ [late, idling, early, ship, pack, pick] :=
    run_idling.done (.merge ship idling) (by simp [Call.operands]) merge_late
  exact hLate.done (.sequence early late) (by simp [Call.operands]) rfl

end Sample

/-- Unconnected unions in a sequence, a process under a crane, and two sequences that share an
activity. -/
theorem cohesion_shift :
    (Built Sample.shift ∧ connectedOnly.accepts Sample.early.network = false ∧
      connectedOnly.accepts Sample.late.network = false ∧
      connectedOnly.accepts Sample.shift.network = true) ∧
    (Built (Sample.lifted 1) ∧ connectedOnly.accepts (Sample.lifted 1).network = true) ∧
    (Built Sample.both ∧ connectedOnly.accepts Sample.both.network = true) := by
  obtain ⟨hSeq, hHolding, hMerge⟩ := cohesion_of_run
  have hShift : Built Sample.shift := ⟨_, _, Sample.run_shift, List.mem_cons_self⟩
  have hLifted : Built (Sample.lifted 1) :=
    ⟨_, _, Sample.plainRun_twice.run, by simp⟩
  have hLeaf : ∀ {w : Workflow}, w ∈ [Sample.idling, Sample.early, Sample.ship, Sample.pack,
      Sample.pick] → w.isLeaf = true → connectedOnly.accepts w.network = true := fun hMem hLeaf =>
    (Built.connected_of_cohesive ⟨_, _, Sample.run_idling, hMem⟩ (cohesive_of_isLeaf hLeaf)).2
  have hEarly := hMerge _ _ _ _ _ _ Sample.run_leaves (by simp) (by simp)
    (hLeaf (by simp) rfl) (hLeaf (by simp) rfl) Sample.merge_early
  have hLate := hMerge _ _ _ _ _ _ Sample.run_idling (by simp) (by simp)
    (hLeaf (by simp) rfl) (hLeaf (by simp) rfl) Sample.merge_late
  have hFront : Built Sample.front := ⟨_, _, Sample.run_sides, by simp⟩
  have hBack : Built Sample.back := ⟨_, _, Sample.run_sides, by simp⟩
  have hBoth := hMerge _ _ Sample.front Sample.back _ _ Sample.run_sides (by simp) (by simp)
    (hSeq _ _ _ hFront).2 (hSeq _ _ _ hBack).2 Sample.merge_front_back
  refine ⟨⟨hShift, ?_, ?_, (hSeq _ _ _ hShift).2⟩, ⟨hLifted, (hHolding _ _ _ _ hLifted).2⟩,
    Sample.built_both, hBoth.2 (by decide)⟩
  · exact Bool.eq_false_iff.2 fun hAccepts => absurd (hEarly.1 hAccepts) (by decide)
  · exact Bool.eq_false_iff.2 fun hAccepts => absurd (hLate.1 hAccepts) (by decide)

end ActivityNetwork
