import ActivityNetwork.Proofs.Acceptance.Verdict
import ActivityNetwork.Proofs.Network.Sameness

/-!
# Verdicts on networks that differ in order only

A verdict does not depend on the order in which a network was put together.  The reports on two
networks that are the same run in parallel (`Violation.Alike`): the same kinds of violations in the
same order, about the same nodes.  Dangling edge ends are the same as a whole, though each report
lists them in its own order.  The one thing that does depend on the order is which nodes do not
hang together with the first one, because another node may come first.
-/

namespace ActivityNetwork

/-- The violations are of the same kind, and about the same nodes.  Excepted are dangling edge
ends, which are listed one by one, and nodes that do not hang together with the first one. -/
def Violation.Alike : Violation → Violation → Prop
  | danglingEndpoint _, danglingEndpoint _ => True
  | cycle nodes, cycle others => nodes.Perm others
  | frontierMismatch f declared derived, frontierMismatch f' declared' derived' =>
      f = f' ∧ declared.Perm declared' ∧ derived.Perm derived'
  | multipleEntries count, multipleEntries count' => count = count'
  | multipleExits count, multipleExits count' => count = count'
  | disconnected _, disconnected _ => True
  | tooManyNodes count max, tooManyNodes count' max' => count = count' ∧ max = max'
  | _, _ => False

theorem Violation.Alike.check_eq {v w : Violation} (hAlike : v.Alike w) : v.check = w.check := by
  unfold Violation.Alike at hAlike
  split at hAlike
  · rfl
  · rfl
  · rw [Violation.check, Violation.check, hAlike.1]
  · rfl
  · rfl
  · rfl
  · rfl
  · exact hAlike.elim

/-- Two reports that run in parallel, violation by violation. -/
abbrev AlikeReports : List Violation → List Violation → Prop :=
  List.Forall₂ Violation.Alike

section Reports

variable {v w : Violation} {found others : List Violation}

theorem alikeReports_ite {c d : Prop} [Decidable c] [Decidable d] (hIff : c ↔ d)
    (hAlike : v.Alike w) : AlikeReports (if c then [v] else []) (if d then [w] else []) := by
  by_cases hc : c
  · rw [if_pos hc, if_pos (hIff.1 hc)]
    exact .cons hAlike .nil
  · rw [if_neg hc, if_neg (mt hIff.2 hc)]
    exact .nil

theorem alikeReports_flatMap {checks : List Check} {found others : Check → List Violation}
    (hFound : ∀ c, AlikeReports (found c) (others c)) :
    AlikeReports (checks.flatMap found) (checks.flatMap others) := by
  induction checks with
  | nil => exact .nil
  | cons c rest ih => exact List.rel_append (hFound c) ih

theorem AlikeReports.checks_eq (hAlike : AlikeReports found others) :
    found.map Violation.check = others.map Violation.check := by
  induction hAlike with
  | nil => rfl
  | cons hHead _ ih => rw [List.map_cons, List.map_cons, hHead.check_eq, ih]

end Reports

namespace Policy

open Network

variable {p : Policy} {g h : Network}

theorem alike_frontier {f : Frontier} {declared declared' derived derived' : OrderedSet NodeId}
    (hDeclared : ∀ id, id ∈ declared ↔ id ∈ declared')
    (hDerived : ∀ id, id ∈ derived ↔ id ∈ derived') :
    AlikeReports (frontierViolations f declared derived)
      (frontierViolations f declared' derived') := by
  have hSame : declared.same derived = declared'.same derived' := by
    rw [Bool.eq_iff_iff, OrderedSet.same_iff, OrderedSet.same_iff]
    simp only [hDeclared, hDerived]
  unfold frontierViolations
  rw [hSame]
  split
  · exact .nil
  · exact .cons ⟨rfl, OrderedSet.perm_of_mem_iff hDeclared, OrderedSet.perm_of_mem_iff hDerived⟩
      .nil

theorem alike_dangling (hMembers : g.SameMembers h) :
    AlikeReports (g.dangling.toList.map .danglingEndpoint)
      (h.dangling.toList.map .danglingEndpoint) := by
  have hLength : g.dangling.toList.length = h.dangling.toList.length :=
    OrderedSet.size_eq_of_mem_iff fun _ => hMembers.mem_dangling_iff
  rw [AlikeReports, List.forall₂_iff_get]
  refine ⟨by simpa using hLength, fun i _ _ => ?_⟩
  simp [Violation.Alike]

theorem alike_order (hMembers : g.SameMembers h) :
    AlikeReports g.cycleViolations h.cycleViolations := by
  by_cases hClosed : g.Closed
  · have hAgree := hMembers.outcomesAgree
    unfold cycleViolations
    rw [dangling_eq_nil_iff.2 hClosed, dangling_eq_nil_iff.2 (hMembers.closed_iff.1 hClosed)]
    -- The two outcomes are of one kind, and only a cycle is reported.
    unfold OutcomesAgree at hAgree
    split at hAgree
    · rename_i hg hh
      simp [hg, hh]
    · rename_i hg hh
      simp [hg, hh]
    · rename_i hg hh
      rw [hg, hh]
      exact .cons hAgree .nil
    · exact hAgree.elim
  · have hOther : ¬ h.Closed := mt hMembers.closed_iff.2 hClosed
    rw [← dangling_eq_nil_iff, ← List.isEmpty_iff] at hClosed hOther
    rw [cycleViolations, cycleViolations, if_neg hClosed, if_neg hOther]
    exact .nil

/-- Each check reports the same of two networks that are the same. -/
theorem alike_foundBy (hMembers : g.SameMembers h) (check : Check) :
    AlikeReports (p.foundBy g check) (p.foundBy h check) := by
  have hEntries := OrderedSet.size_eq_of_mem_iff hMembers.entries
  have hExits := OrderedSet.size_eq_of_mem_iff hMembers.exits
  cases check with
  | endpoints => exact alike_dangling hMembers
  | order => exact alike_order hMembers
  | frontier f =>
      cases f with
      | entries => exact alike_frontier hMembers.entries fun _ => hMembers.mem_sources_iff
      | exits => exact alike_frontier hMembers.exits fun _ => hMembers.mem_sinks_iff
  | singleEntry => exact alikeReports_ite (by rw [hEntries]) hEntries
  | singleExit => exact alikeReports_ite (by rw [hExits]) hExits
  | connected =>
      exact alikeReports_ite (by rw [Ne, Ne, hMembers.disconnected_eq_nil_iff]) trivial
  | maxNodes => exact alikeReports_ite (by rw [hMembers.order_eq]) ⟨hMembers.order_eq, rfl⟩

theorem alike_violations (hMembers : g.SameMembers h) :
    AlikeReports (p.violations g) (p.violations h) := by
  rw [violations_eq_foundBy, violations_eq_foundBy]
  exact List.rel_append (alike_dangling hMembers) (alikeReports_flatMap (alike_foundBy hMembers))

/-- Dangling edge ends are reported by the first check, and by no other. -/
theorem danglingEndpoint_mem_violations {id : NodeId} :
    .danglingEndpoint id ∈ p.violations g ↔ id ∈ g.dangling := by
  rw [mem_violations_iff]
  simp [foundBy, Violation.check, OrderedSet.mem_toList]

/-- Networks that are the same are ordered and accepted alike, under every policy. -/
theorem verdict_of_same (hSame : g.same h = true) (p : Policy) :
    g.isAcyclic = h.isAcyclic ∧
    (∀ id, id ∈ g.sources ↔ id ∈ h.sources) ∧
    (∀ id, id ∈ g.sinks ↔ id ∈ h.sinks) ∧
    OutcomesAgree g.topologicalOrder h.topologicalOrder ∧
    p.accepts g = p.accepts h ∧
    AlikeReports (p.violations g) (p.violations h) ∧
    (p.violations g).map Violation.check = (p.violations h).map Violation.check ∧
    ∀ id, .danglingEndpoint id ∈ p.violations g ↔ .danglingEndpoint id ∈ p.violations h := by
  have hMembers := sameMembers_of_same hSame
  have hAlike := alike_violations (p := p) hMembers
  refine ⟨hMembers.isAcyclic_eq, fun _ => hMembers.mem_sources_iff,
    fun _ => hMembers.mem_sinks_iff, hMembers.outcomesAgree, ?_, hAlike, hAlike.checks_eq,
    fun id => ?_⟩
  · have hLength := hAlike.length_eq
    rw [Bool.eq_iff_iff, accepts_iff, accepts_iff, ← List.length_eq_zero_iff, hLength,
      List.length_eq_zero_iff]
  · rw [danglingEndpoint_mem_violations, danglingEndpoint_mem_violations,
      hMembers.mem_dangling_iff]

namespace Sample

/-- Two nodes that lead to each other, one that waits for them, and one that stands apart. -/
def knot : Network where
  nodes := .ofList [(⟨1⟩, .boundary), (⟨2⟩, .boundary), (⟨3⟩, .request ⟨⟨0⟩, "quay"⟩),
    (⟨4⟩, .boundary)]
  edges := .ofList [.dependency ⟨1⟩ ⟨2⟩, .dependency ⟨2⟩ ⟨1⟩, .dependency ⟨2⟩ ⟨3⟩]
  entries := .ofList [⟨4⟩, ⟨1⟩]
  exits := .ofList [⟨3⟩, ⟨4⟩]

/-- The same from the other end, with another name for the quay. -/
def turnedKnot : Network where
  nodes := .ofList [(⟨4⟩, .boundary), (⟨3⟩, .request ⟨⟨0⟩, "berth"⟩), (⟨2⟩, .boundary),
    (⟨1⟩, .boundary)]
  edges := .ofList [.dependency ⟨2⟩ ⟨3⟩, .dependency ⟨2⟩ ⟨1⟩, .dependency ⟨1⟩ ⟨2⟩]
  entries := .ofList [⟨1⟩, ⟨4⟩]
  exits := .ofList [⟨4⟩, ⟨3⟩]

end Sample

/-- Both reports run in parallel, although only one of them says that node 4 stands apart. -/
theorem verdict_turnedKnot :
    Sample.knot.same Sample.turnedKnot = true ∧
      AlikeReports (Policy.violations ⟨true, true, true, 3⟩ Sample.knot)
        (Policy.violations ⟨true, true, true, 3⟩ Sample.turnedKnot) ∧
      ⟨4⟩ ∈ Sample.knot.disconnected ∧ ⟨4⟩ ∉ Sample.turnedKnot.disconnected := by
  have hSame : Sample.knot.same Sample.turnedKnot = true := by decide +kernel
  obtain ⟨-, -, -, -, -, hAlike, -⟩ := verdict_of_same hSame ⟨true, true, true, 3⟩
  refine ⟨hSame, hAlike, mem_disconnected.2 ⟨by decide, fun first hFirst hWalk => ?_⟩,
    fun hMem => ?_⟩
  · obtain rfl : ⟨1⟩ = first := Option.some.inj hFirst
    have hAlone : ∀ e ∈ Sample.knot.edges.toList, e.source ≠ ⟨4⟩ ∧ e.target ≠ ⟨4⟩ := by decide
    rcases Relation.ReflTransGen.cases_tail hWalk with hEq | ⟨_, -, hStep⟩
    · cases hEq
    · rcases hStep with ⟨e, he, -, hEnd⟩ | ⟨e, he, hEnd, -⟩
      · exact (hAlone e he).2 hEnd
      · exact (hAlone e he).1 hEnd
  · exact (mem_disconnected.1 hMem).2 ⟨4⟩ rfl .refl

end Policy

end ActivityNetwork
