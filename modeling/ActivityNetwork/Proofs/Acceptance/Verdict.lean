import ActivityNetwork.Proofs.Acceptance.Soundness
import ActivityNetwork.Proofs.Network.Connectivity

/-!
# What a verdict says

A check of a network against a policy is made up of eight checks, each with a condition of its own
(`Policy.Holds`).  The network is accepted exactly if all conditions hold (`accepts_iff_holds`).

Otherwise the report says which of them do not.  The first check lists every dangling edge end, in
the order in which the edges mention them.  Every later one `Reports` a single violation or none,
so the report has their kinds in the order of the checks.  There is one exception to "reported
exactly if the condition does not hold": where edge ends dangle, nobody looks for cycles
(`Policy.Finds`).
-/

namespace ActivityNetwork

/-- The checks that a policy makes. -/
inductive Check where
  /-- Edge ends are nodes. -/
  | endpoints
  /-- The order is not cyclic. -/
  | order
  /-- A declared frontier is what the edges make it. -/
  | frontier (f : Frontier)
  /-- There are not many entries. -/
  | singleEntry
  /-- There are not many exits. -/
  | singleExit
  /-- All nodes hang together. -/
  | connected
  /-- There are not too many nodes. -/
  | maxNodes
  deriving DecidableEq, Repr

/-- The checks that report at most one violation, in the order in which they are made. -/
def Check.later : List Check :=
  [.order, .frontier .entries, .frontier .exits, .singleEntry, .singleExit, .connected, .maxNodes]

/-- The check that reports the violation. -/
def Violation.check : Violation → Check
  | danglingEndpoint _ => .endpoints
  | cycle _ => .order
  | frontierMismatch f _ _ => .frontier f
  | multipleEntries _ => .singleEntry
  | multipleExits _ => .singleExit
  | disconnected _ => .connected
  | tooManyNodes _ _ => .maxNodes

namespace Policy

/-- What a check asks of a network. -/
def Holds (p : Policy) (g : Network) : Check → Prop
  | .endpoints => g.Closed
  | .order => Acyclic g.Link
  | .frontier .entries => ∀ id, id ∈ g.entries ↔ id ∈ g.nodes.keys ∧ ∀ other, ¬ g.Link other id
  | .frontier .exits => ∀ id, id ∈ g.exits ↔ id ∈ g.nodes.keys ∧ ∀ other, ¬ g.Link id other
  | .singleEntry => p.singleEntry = true → g.entries.size ≤ 1
  | .singleExit => p.singleExit = true → g.exits.size ≤ 1
  | .connected =>
      p.connected = true → ∀ a b, a ∈ g.nodes.keys → b ∈ g.nodes.keys → g.Connected a b
  | .maxNodes => p.maxNodes = 0 ∨ g.order ≤ p.maxNodes

/-- A check has something to report.  Cycles are looked for only where no edge end dangles. -/
def Finds (p : Policy) (g : Network) (check : Check) : Prop :=
  ¬ p.Holds g check ∧ (check = .order → g.Closed)

/-- What a check reports. -/
def foundBy (p : Policy) (g : Network) : Check → List Violation
  | .endpoints => g.dangling.toList.map .danglingEndpoint
  | .order => g.cycleViolations
  | .frontier .entries => Network.frontierViolations .entries g.entries g.sources
  | .frontier .exits => Network.frontierViolations .exits g.exits g.sinks
  | .singleEntry =>
      if p.singleEntry ∧ 1 < g.entries.size then [.multipleEntries g.entries.size] else []
  | .singleExit =>
      if p.singleExit ∧ 1 < g.exits.size then [.multipleExits g.exits.size] else []
  | .connected =>
      if p.connected ∧ g.disconnected ≠ [] then [.disconnected g.disconnected] else []
  | .maxNodes =>
      if 0 < p.maxNodes ∧ p.maxNodes < g.order then [.tooManyNodes g.order p.maxNodes] else []

end Policy

/-! ## Checks that report at most one violation -/

/-- The check reports one violation if something is wrong, and none otherwise. -/
def Reports (check : Check) (found : List Violation) (wrong : Prop) : Prop :=
  wrong ∧ found.map Violation.check = [check] ∨ ¬ wrong ∧ found = []

section Reports

variable {check : Check} {found : List Violation} {wrong : Prop}

theorem Reports.eq_nil_iff (hReports : Reports check found wrong) : found = [] ↔ ¬ wrong := by
  rcases hReports with ⟨hWrong, hOne⟩ | ⟨hRight, hNone⟩
  · refine ⟨fun hNone => ?_, fun hRight => absurd hWrong hRight⟩
    rw [hNone] at hOne
    cases hOne
  · exact ⟨fun _ => hRight, fun _ => hNone⟩

theorem reports_ite {v : Violation} {c : Prop} [Decidable c] (hCheck : v.check = check)
    (hWrong : wrong ↔ c) : Reports check (if c then [v] else []) wrong := by
  by_cases hc : c
  · refine Or.inl ⟨hWrong.2 hc, ?_⟩
    rw [if_pos hc, List.map_singleton, hCheck]
  · exact Or.inr ⟨fun hYes => hc (hWrong.1 hYes), if_neg hc⟩

/-- What a check reports is of its own kind. -/
theorem Reports.check_eq (hReports : Reports check found wrong) {v : Violation} (hMem : v ∈ found) :
    v.check = check := by
  rcases hReports with ⟨-, hOne⟩ | ⟨-, hNone⟩
  · have hCheck := List.mem_map_of_mem (f := Violation.check) hMem
    rw [hOne] at hCheck
    exact List.mem_singleton.1 hCheck
  · rw [hNone] at hMem
    cases hMem

/-- Checks that report at most one violation each report in their own order. -/
theorem sublist_of_reports {checks : List Check} {found : Check → List Violation}
    {wrong : Check → Prop} (hReports : ∀ c ∈ checks, Reports c (found c) (wrong c)) :
    ((checks.flatMap found).map Violation.check).Sublist checks ∧
      ∀ c, c ∈ (checks.flatMap found).map Violation.check ↔ c ∈ checks ∧ wrong c := by
  induction checks with
  | nil => exact ⟨List.Sublist.refl _, by simp⟩
  | cons first rest ih =>
      obtain ⟨hSublist, hMem⟩ := ih fun c hc => hReports c (List.mem_cons_of_mem _ hc)
      rw [List.flatMap_cons, List.map_append]
      rcases hReports first List.mem_cons_self with ⟨hWrong, hOne⟩ | ⟨hRight, hNone⟩
      · rw [hOne]
        refine ⟨hSublist.cons_cons first, fun c => ?_⟩
        rw [List.mem_append, List.mem_singleton, hMem, List.mem_cons, or_and_right]
        exact or_congr_left ⟨fun hEq => ⟨hEq, hEq ▸ hWrong⟩, And.left⟩
      · rw [hNone]
        refine ⟨hSublist.cons first, fun c => ?_⟩
        rw [List.map_nil, List.nil_append, hMem, List.mem_cons, or_and_right]
        exact ⟨Or.inr, fun h => h.resolve_left fun hFirst => hRight (hFirst.1 ▸ hFirst.2)⟩

end Reports

namespace Policy

variable {p : Policy} {g : Network}

theorem reports_order : Reports .order (p.foundBy g .order) (p.Finds g .order) := by
  show Reports .order g.cycleViolations (¬ Acyclic g.Link ∧ (Check.order = .order → g.Closed))
  by_cases hClosed : g.Closed
  · have hIff := Network.cycleViolations_eq_nil_iff hClosed
    by_cases hAcyclic : Acyclic g.Link
    · exact Or.inr ⟨fun hFinds => hFinds.1 hAcyclic, hIff.2 hAcyclic⟩
    · refine Or.inl ⟨⟨hAcyclic, fun _ => hClosed⟩, ?_⟩
      -- Without a cycle to report, sorting would have succeeded.
      unfold Network.cycleViolations at hIff ⊢
      rw [Network.dangling_eq_nil_iff.2 hClosed] at hIff ⊢
      rcases Network.topologicalOrder_of_closed hClosed with ⟨order, hOrder⟩ | ⟨nodes, hCycle⟩
      · exact absurd ((Network.topologicalOrder_ok_iff_acyclic hClosed).1 ⟨order, hOrder⟩) hAcyclic
      · rw [hCycle]
        rfl
  · refine Or.inr ⟨fun hFinds => hClosed (hFinds.2 rfl), ?_⟩
    have hDangling : g.dangling.toList ≠ [] := fun hNone =>
      hClosed (Network.dangling_eq_nil_iff.1 hNone)
    unfold Network.cycleViolations
    rw [if_neg (by simpa using hDangling)]

theorem reports_frontier {f : Frontier} {declared derived : OrderedSet NodeId} {wrong : Prop}
    (hWrong : wrong ↔ ¬ ∀ id, id ∈ declared ↔ id ∈ derived) :
    Reports (.frontier f) (Network.frontierViolations f declared derived) wrong := by
  rw [hWrong, ← @Network.frontierViolations_eq_nil_iff f]
  unfold Network.frontierViolations
  by_cases hSame : declared.same derived = true
  · exact Or.inr (by simp [hSame])
  · exact Or.inl (by simp [hSame, Violation.check])

/-- Every check but the first reports one violation or none. -/
theorem reports_of_later {check : Check} (hLater : check ∈ Check.later) :
    Reports check (p.foundBy g check) (p.Finds g check) := by
  cases check with
  | endpoints => simp [Check.later] at hLater
  | order => exact reports_order
  | frontier f =>
      cases f with
      | entries =>
          refine reports_frontier ?_
          simp only [Finds, Holds, Network.mem_sources_iff_link, reduceCtorEq, false_implies,
            and_true]
      | exits =>
          refine reports_frontier ?_
          simp only [Finds, Holds, Network.mem_sinks_iff_link, reduceCtorEq, false_implies,
            and_true]
  | singleEntry => exact reports_ite rfl (by simp [Finds, Holds])
  | singleExit => exact reports_ite rfl (by simp [Finds, Holds])
  | connected =>
      refine reports_ite rfl ?_
      rw [Ne, Network.disconnected_eq_nil_iff]
      simp [Finds, Holds]
  | maxNodes =>
      refine reports_ite rfl ?_
      simp [Finds, Holds, Nat.pos_iff_ne_zero]

/-! ## The whole report -/

theorem violations_eq_foundBy (p : Policy) (g : Network) :
    p.violations g =
      g.dangling.toList.map .danglingEndpoint ++ Check.later.flatMap (p.foundBy g) := by
  simp only [violations, Network.soundnessViolations, extraViolations, Check.later, foundBy,
    List.flatMap_cons, List.flatMap_nil, List.append_nil, List.append_assoc]

theorem endpoints_or_later (check : Check) : check = .endpoints ∨ check ∈ Check.later := by
  cases check with
  | frontier f => cases f <;> simp [Check.later]
  | _ => simp [Check.later]

/-- A violation is in the report exactly if the check for it finds it. -/
theorem mem_violations_iff {v : Violation} : v ∈ p.violations g ↔ v ∈ p.foundBy g v.check := by
  rw [violations_eq_foundBy, List.mem_append, List.mem_flatMap]
  constructor
  · rintro (hEnds | ⟨check, hLater, hFound⟩)
    · obtain ⟨id, -, rfl⟩ := List.mem_map.1 hEnds
      exact hEnds
    · rw [(reports_of_later hLater).check_eq hFound]
      exact hFound
  · intro hFound
    rcases endpoints_or_later v.check with hEnds | hLater
    · rw [hEnds] at hFound
      exact Or.inl hFound
    · exact Or.inr ⟨v.check, hLater, hFound⟩

/-- A network is accepted exactly if it is what each of the checks asks for. -/
theorem accepts_iff_holds : p.accepts g = true ↔ ∀ check, p.Holds g check := by
  rw [accepts_iff, violations_eq_foundBy, List.append_eq_nil_iff, List.map_eq_nil_iff,
    Network.dangling_eq_nil_iff, List.flatMap_eq_nil_iff]
  constructor
  · intro hNone check
    by_cases hLater : check ∈ Check.later
    · by_contra hFails
      exact (reports_of_later hLater).eq_nil_iff.1 (hNone.2 check hLater)
        ⟨hFails, fun _ => hNone.1⟩
    · cases check with
      | endpoints => exact hNone.1
      | frontier f => cases f <;> simp [Check.later] at hLater
      | _ => simp [Check.later] at hLater
  · intro hHolds
    refine ⟨hHolds .endpoints, fun check hLater => ?_⟩
    exact (reports_of_later hLater).eq_nil_iff.2 fun hFinds => hFinds.1 (hHolds check)

/-- The verdict and the report say exactly what is wrong.  A network is accepted if all conditions
hold.  A report names each dangling edge end once, in the order in which the edges mention them, and
goes on with one violation for each later check that finds something, in the order of the checks. -/
theorem verdict_and_report (p : Policy) (g : Network) :
    (p.accepts g = true ↔ ∀ check, p.Holds g check) ∧
      ∃ (ends : List NodeId) (others : List Violation),
        p.violations g = ends.map .danglingEndpoint ++ others ∧
        (∀ id, id ∈ ends ↔
          (∃ e ∈ g.edges, id = e.source ∨ id = e.target) ∧ id ∉ g.nodes.keys) ∧
        (ends.Pairwise fun a b => g.endpoints.idxOf a < g.endpoints.idxOf b) ∧
        (others.map Violation.check).Sublist Check.later ∧
        ∀ check ∈ Check.later, check ∈ others.map Violation.check ↔ p.Finds g check := by
  obtain ⟨hSublist, hMem⟩ :=
    sublist_of_reports fun check hLater => reports_of_later (p := p) (g := g) hLater
  refine ⟨accepts_iff_holds, g.dangling.toList, _, violations_eq_foundBy p g, fun id => ?_, ?_,
    hSublist, fun check hLater => ?_⟩
  · rw [OrderedSet.mem_toList, Network.mem_dangling, Network.mem_endpoints]
  · show (firsts (g.endpoints.filter _)).Pairwise _
    rw [firsts_filter]
    exact (pairwise_idxOf_firsts g.endpoints).filter _
  · rw [hMem]
    exact and_iff_right hLater

namespace Sample

/-- The nodes 1 and 2 lead to each other, and edges mention the nodes 9 and 8, which do not exist. -/
def loose : Network where
  nodes := .ofList [(⟨1⟩, .boundary), (⟨2⟩, .boundary)]
  edges := .ofList [.dependency ⟨1⟩ ⟨2⟩, .dependency ⟨2⟩ ⟨9⟩, .dependency ⟨2⟩ ⟨1⟩,
    .dependency ⟨8⟩ ⟨9⟩]
  entries := .empty
  exits := .empty

end Sample

/-- There is a cycle, but dangling edge ends keep it out of the report. -/
theorem report_loose :
    lenient.violations Sample.loose = [.danglingEndpoint ⟨9⟩, .danglingEndpoint ⟨8⟩] ∧
      ¬ lenient.Holds Sample.loose .order ∧ ¬ lenient.Finds Sample.loose .order := by
  obtain ⟨-, ends, others, hReport, -, -, -, hFinds⟩ := verdict_and_report lenient Sample.loose
  have hViolations :
      lenient.violations Sample.loose = [.danglingEndpoint ⟨9⟩, .danglingEndpoint ⟨8⟩] := by
    decide +kernel
  refine ⟨hViolations, fun hAcyclic => ?_, fun hOrder => ?_⟩
  · have hThere : Sample.loose.Link ⟨1⟩ ⟨2⟩ := ⟨.dependency ⟨1⟩ ⟨2⟩, by decide, rfl, rfl⟩
    have hBack : Sample.loose.Link ⟨2⟩ ⟨1⟩ := ⟨.dependency ⟨2⟩ ⟨1⟩, by decide, rfl, rfl⟩
    exact hAcyclic ⟨1⟩ (.tail (.single hThere) hBack)
  · have hReported : Check.order ∈ (lenient.violations Sample.loose).map Violation.check := by
      rw [hReport, List.map_append]
      exact List.mem_append_right _ ((hFinds .order (by decide)).2 hOrder)
    rw [hViolations] at hReported
    simp [Violation.check] at hReported

end Policy

end ActivityNetwork
