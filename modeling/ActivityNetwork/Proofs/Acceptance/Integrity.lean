import ActivityNetwork.Proofs.Acceptance.Verdict
import ActivityNetwork.Proofs.Network.Outcome

/-!
# One finding or all of them

There are two ways to ask whether the edges of a network are in order.  `checkIntegrity` stops at
the first thing that it finds.  A check against a policy goes on, and lists among many other things
every edge end that is no node, each once, and a cycle only where there are no such ends.

They never contradict each other (`integrity_agrees`).  The edge end that stops the one is the first
that the other lists: leaving out repetitions keeps the first of a list where it is
(`head?_firsts`).  And without such ends both come to the same sorting of the nodes.
-/

namespace ActivityNetwork

/-- The edge end that is no node, if the violation is about one. -/
def Violation.looseEnd? : Violation → Option NodeId
  | danglingEndpoint node => some node
  | _ => none

theorem head?_firsts {α : Type} [DecidableEq α] (xs : List α) : (firsts xs).head? = xs.head? := by
  cases xs <;> rfl

namespace Network

variable {g : Network} {id : NodeId} {nodes : List NodeId}

/-- The first of the different dangling edge ends is the first one that any edge mentions. -/
theorem head?_dangling_eq_some_iff : g.dangling.toList.head? = some id ↔ g.FirstMissing id := by
  rw [dangling, OrderedSet.toList_ofList, head?_firsts, List.head?_filter]
  exact find?_endpoints_eq_some_iff

/-- A cycle is looked for under the conditions under which sorting comes to report one. -/
theorem mem_cycleViolations_iff :
    .cycle nodes ∈ g.cycleViolations ↔ g.topologicalOrder = .error (.cycle nodes) := by
  unfold cycleViolations
  by_cases hClosed : g.Closed
  · rw [dangling_eq_nil_iff.2 hClosed]
    rcases topologicalOrder_of_closed hClosed with ⟨order, hOrder⟩ | ⟨left, hCycle⟩
    · simp [hOrder]
    · simp [hCycle, eq_comm]
  · have hLoose : ¬ g.dangling.toList.isEmpty = true := by
      rw [List.isEmpty_iff, dangling_eq_nil_iff]
      exact hClosed
    rw [if_neg hLoose, topologicalOrder_eq_cycle_iff]
    simp [hClosed]

end Network

namespace Policy

open Network

variable {p : Policy} {g : Network} {id : NodeId} {nodes : List NodeId}

theorem cycle_mem_violations_iff :
    .cycle nodes ∈ p.violations g ↔ g.topologicalOrder = .error (.cycle nodes) := by
  rw [mem_violations_iff]
  exact mem_cycleViolations_iff

/-- The first loose edge end of a report is the first one that any edge mentions. -/
theorem first_looseEnd_iff :
    (p.violations g).findSome? Violation.looseEnd? = some id ↔ g.FirstMissing id := by
  have hLater : ∀ v ∈ Check.later.flatMap (p.foundBy g), v.looseEnd? = none := by
    intro v hMem
    obtain ⟨check, hLater, hFound⟩ := List.mem_flatMap.1 hMem
    have hCheck := (reports_of_later hLater).check_eq hFound
    cases v with
    | danglingEndpoint node =>
        rw [← hCheck] at hLater
        simp [Violation.check, Check.later] at hLater
    | _ => rfl
  have hEnds : ∀ ends : List NodeId,
      (ends.map Violation.danglingEndpoint).findSome? Violation.looseEnd? = ends.head? := by
    intro ends
    cases ends <;> rfl
  rw [violations_eq_foundBy, List.findSome?_append, hEnds, List.findSome?_eq_none_iff.2 hLater,
    Option.or_none, head?_dangling_eq_some_iff]

theorem exists_looseEnd_iff :
    (∃ node, .danglingEndpoint node ∈ p.violations g) ↔ ¬ g.Closed := by
  simp only [mem_violations_iff, Violation.check, foundBy, List.mem_map,
    Violation.danglingEndpoint.injEq, exists_eq_right]
  rw [← dangling_eq_nil_iff, List.eq_nil_iff_forall_not_mem, not_forall_not]

/-- The two ways to look at a network agree, whatever else the policy asks for.  Integrity holds
exactly if the report has no loose edge end and no cycle; a loose edge end is found exactly if the
report has one, and it is the first one there; a cycle is found exactly if the report has one, and
the nodes are the same ones in the same order; and nothing else is ever found. -/
theorem integrity_agrees (p : Policy) (g : Network) :
    (g.checkIntegrity = .ok () ↔
      (∀ node, .danglingEndpoint node ∉ p.violations g) ∧ ∀ nodes, .cycle nodes ∉ p.violations g) ∧
    ((∃ kind name, g.checkIntegrity = .error (.notFound kind name)) ↔
      ∃ node, .danglingEndpoint node ∈ p.violations g) ∧
    (∀ kind name, g.checkIntegrity = .error (.notFound kind name) ↔
      kind = "Node" ∧ ∃ node, (p.violations g).findSome? Violation.looseEnd? = some node ∧
        name = node.text) ∧
    (∀ nodes, g.checkIntegrity = .error (.cycle nodes) ↔ .cycle nodes ∈ p.violations g) ∧
    ∀ fault, g.checkIntegrity = .error fault →
      (∃ name, fault = .notFound "Node" name) ∨ ∃ nodes, fault = .cycle nodes := by
  refine ⟨?_, ?_, fun kind name => ?_, fun nodes => ?_, fun fault hFault => ?_⟩
  · rw [checkIntegrity_eq_ok_iff, ← not_exists, exists_looseEnd_iff, not_not]
    constructor
    · rintro ⟨order, hOrder⟩
      refine ⟨(topologicalOrder_eq_ok_iff.1 hOrder).1, fun nodes hCycle => ?_⟩
      rw [cycle_mem_violations_iff, hOrder] at hCycle
      cases hCycle
    · rintro ⟨hClosed, hNone⟩
      rcases topologicalOrder_of_closed hClosed with hOrder | ⟨nodes, hCycle⟩
      · exact hOrder
      · exact absurd (cycle_mem_violations_iff.2 hCycle) (hNone nodes)
  · rw [exists_looseEnd_iff]
    constructor
    · rintro ⟨kind, name, hFault⟩
      obtain ⟨-, id, hMissing, -⟩ :=
        topologicalOrder_eq_notFound_iff.1 ((checkIntegrity_eq_error_iff g _).1 hFault)
      exact hMissing.not_closed
    · intro hOpen
      obtain ⟨id, hMissing⟩ := exists_firstMissing hOpen
      exact ⟨_, _, (checkIntegrity_eq_error_iff g _).2 (topologicalOrder_of_missing hMissing)⟩
  · simp only [checkIntegrity_eq_error_iff, topologicalOrder_eq_notFound_iff, first_looseEnd_iff]
  · rw [checkIntegrity_eq_error_iff, cycle_mem_violations_iff]
  · rw [checkIntegrity_eq_error_iff] at hFault
    obtain ⟨id, -, hOrder⟩ | ⟨-, -, hOrder⟩ | ⟨-, -, hOrder⟩ := topologicalOrder_cases g
    all_goals
      rw [hOrder] at hFault
      cases hFault
    · exact Or.inl ⟨_, rfl⟩
    · exact Or.inr ⟨_, rfl⟩

/-- The nodes run in circles as well, but the first loose end is what counts. -/
example : Sample.loose.checkIntegrity = .error (.notFound "Node" "node_9") := by
  decide +kernel

end Policy

end ActivityNetwork
