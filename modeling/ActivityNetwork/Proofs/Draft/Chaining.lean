import ActivityNetwork.Proofs.Workflow.Regrouping

/-!
# Chains

A chain is made from left to right, and each step compares the leaves of what is there already
with those of the next workflow.  What is there already are all workflows before, so the chain
succeeds exactly if no two of its workflows share a leaf.  Otherwise the fault names the first leaf
that comes up a second time (`FirstShared`).

`Lines d shelf ws` says what a draft `d` does that puts the workflows `ws` in a row, in whatever
groups.  It holds of a chain (`lines_chain`), of a chain that is made in two halves, and of both
ways to put three workflows in sequence.  Two such drafts of the same workflows cannot be told apart
by their networks (`Lines.regroups`).
-/

namespace ActivityNetwork

open Workflow

namespace Draft

variable {s t : Supply} {shelf xs ys zs before after ws : List Workflow}
  {first second leaf w : Workflow} {fault : Fault}

/-! ## Leaves in common -/

/-- No leaf of one workflow of the list is a leaf of another. -/
def Apart (ws : List Workflow) : Prop :=
  ws.Pairwise fun a b => a.leafIds.Disjoint b.leafIds

/-- The leaf is one of the earliest workflow that has a leaf in common with any before it, and in
that workflow it is the first such leaf. -/
def FirstShared (ws : List Workflow) (leaf : Workflow) : Prop :=
  ∃ before w after, ws = before ++ w :: after ∧ Apart before ∧
    ∃ early late, w.leaves = early ++ leaf :: late ∧
      (∃ v ∈ before, leaf.id ∈ v.leafIds) ∧
      ∀ other ∈ early, ∀ v ∈ before, other.id ∉ v.leafIds

theorem apart_append : Apart (xs ++ ys) ↔
    Apart xs ∧ Apart ys ∧ ∀ a ∈ xs, ∀ b ∈ ys, a.leafIds.Disjoint b.leafIds :=
  List.pairwise_append

theorem Apart.of_sublist (hApart : Apart ys) (hSub : xs.Sublist ys) : Apart xs :=
  List.Pairwise.sublist hSub hApart

/-- What comes later does not change which leaf is the first. -/
theorem FirstShared.append (hShared : FirstShared xs leaf) (ys : List Workflow) :
    FirstShared (xs ++ ys) leaf := by
  obtain ⟨before, w, after, rfl, hApart, hLeaf⟩ := hShared
  exact ⟨before, w, after ++ ys, by simp, hApart, hLeaf⟩

theorem FirstShared.not_apart (hShared : FirstShared ws leaf) : ¬ Apart ws := by
  obtain ⟨before, w, after, rfl, -, early, late, hLeaves, ⟨v, hv, hBefore⟩, -⟩ := hShared
  intro hApart
  have hOwn : leaf.id ∈ w.leafIds := by simp [leafIds, hLeaves]
  exact (apart_append.1 hApart).2.2 v hv w List.mem_cons_self hBefore hOwn

/-- The leaves of two rows are compared as those of their workflows. -/
theorem disjoint_rows (hXs : InARow xs first) (hYs : InARow ys second) (hFirst : first.WellMade)
    (hSecond : second.WellMade) : first.leafIds.Disjoint second.leafIds ↔
      ∀ a ∈ xs, ∀ b ∈ ys, a.leafIds.Disjoint b.leafIds := by
  constructor
  · intro hDisjoint a ha b hb id hInA hInB
    exact hDisjoint ((hXs.mem_leafIds hFirst).2 ⟨a, ha, hInA⟩)
      ((hYs.mem_leafIds hSecond).2 ⟨b, hb, hInB⟩)
  · intro hEach id hInFirst hInSecond
    obtain ⟨a, ha, hInA⟩ := (hXs.mem_leafIds hFirst).1 hInFirst
    obtain ⟨b, hb, hInB⟩ := (hYs.mem_leafIds hSecond).1 hInSecond
    exact hEach a ha b hb hInA hInB

/-! ## Refused sequences -/

/-- The fault names the first leaf of the second side that the first side has, too. -/
structure NamesShared (first second : Workflow) (fault : Fault) : Prop where
  first_made : first.WellMade
  second_made : second.WellMade
  named : ∃ leaf, second.leaves.find? (·.id ∈ first.leafIds) = some leaf ∧
    fault = .circularDependency leaf.label leaf.id

theorem NamesShared.not_apart (hNames : NamesShared first second fault) (hXs : InARow xs first)
    (hYs : InARow ys second) : ¬ Apart (xs ++ ys) := by
  obtain ⟨leaf, hShared, -⟩ := hNames.named
  intro hApart
  have hInFirst : leaf.id ∈ first.leafIds := by simpa using List.find?_some hShared
  exact (disjoint_rows hXs hYs hNames.first_made hNames.second_made).2
    (apart_append.1 hApart).2.2 hInFirst (List.mem_map_of_mem (List.mem_of_find?_eq_some hShared))

/-- Behind a row without shared leaves, the leaf that is named is the first shared one. -/
theorem NamesShared.firstShared (hNames : NamesShared first second fault)
    (hRow : InARow before first) (hApart : Apart before) :
    ∃ leaf, FirstShared (before ++ [second]) leaf ∧
      fault = .circularDependency leaf.label leaf.id := by
  obtain ⟨leaf, hShared, hFault⟩ := hNames.named
  obtain ⟨hOwn, early, late, hLeaves, hEarly⟩ := List.find?_eq_some_iff_append.1 hShared
  refine ⟨leaf, ⟨before, second, [], rfl, hApart, early, late, hLeaves, ?_, ?_⟩, hFault⟩
  · exact (hRow.mem_leafIds hNames.first_made).1 (by simpa using hOwn)
  · intro other hOther v hv hMem
    have hNot : other.id ∉ first.leafIds := by simpa using hEarly other hOther
    exact hNot ((hRow.mem_leafIds hNames.first_made).2 ⟨v, hv, hMem⟩)

/-- A sequence of two rows is a row of their workflows, or it names what they share. -/
theorem settles_sequence (hFirst : Reached shelf first) (hSecond : Reached shelf second)
    (hXs : InARow xs first) (hYs : InARow ys second) (hApartXs : Apart xs) (hApartYs : Apart ys) :
    Settles (sequence first second) shelf (fun w => Apart (xs ++ ys) ∧ InARow (xs ++ ys) w)
      (NamesShared first second) := by
  intro s hStocked
  have hMadeFirst := hStocked.wellMade hFirst
  have hMadeSecond := hStocked.wellMade hSecond
  have hKeeps := keeps_sequence hFirst hSecond s hStocked
  cases hShared : second.leaves.find? (·.id ∈ first.leafIds) with
  | some leaf =>
      rw [sequence_of_shared s hShared] at hKeeps ⊢
      exact ⟨hKeeps, hMadeFirst, hMadeSecond, leaf, hShared, rfl⟩
  | none =>
      have hNone : ∀ leaf ∈ second.leaves, leaf.id ∉ first.leafIds := by simpa using hShared
      have hDisjoint : first.leafIds.Disjoint second.leafIds := by
        intro id hInFirst hInSecond
        obtain ⟨leaf, hLeaf, rfl⟩ := List.mem_map.1 hInSecond
        exact hNone leaf hLeaf hInFirst
      have hEach := (disjoint_rows hXs hYs hMadeFirst hMadeSecond).1 hDisjoint
      rw [sequence_of_disjoint s hNone] at hKeeps ⊢
      exact ⟨hKeeps, apart_append.2 ⟨hApartXs, hApartYs, hEach⟩, .seq _ hXs hYs⟩

/-- A chain puts its workflows in a row, or it names the first shared leaf. -/
theorem settles_chain (hNonempty : xs ≠ []) (hReached : ∀ w ∈ xs, Reached shelf w) :
    Settles (chain xs) shelf (fun w => Apart xs ∧ InARow xs w) fun fault =>
      ∃ leaf, FirstShared xs leaf ∧ fault = .circularDependency leaf.label leaf.id := by
  induction xs using List.reverseRecOn with
  | nil => exact absurd rfl hNonempty
  | append_singleton front last ih =>
      have hLast : Reached shelf last := hReached last (by simp)
      by_cases hFront : front = []
      · rw [hFront, List.nil_append, chain_singleton]
        exact settles_pure hLast ⟨List.pairwise_singleton _ _, .one last⟩
      · have hChain := ih hFront fun w hMem => hReached w (List.mem_append_left _ hMem)
        rw [chain_concat hFront]
        refine hChain.bind ?_ ?_
        · rintro fault ⟨leaf, hShared, hFault⟩
          exact ⟨leaf, hShared.append [last], hFault⟩
        · rintro row ⟨hApart, hRow⟩
          have hSequence := settles_sequence (reached_of_mem List.mem_cons_self)
            (hLast.mono (List.subset_cons_self row shelf)) hRow (.one last) hApart
            (List.pairwise_singleton _ _)
          exact hSequence.weaken (fun _ hGood => hGood) fun _ hNames =>
            hNames.firstShared hRow hApart

/-! ## Drafts that put in a row -/

/-- If the draft succeeds, no two of the workflows share a leaf, and they stand in a row.  If it
fails, two of them share a leaf. -/
def Lines (d : Draft Workflow) (shelf ws : List Workflow) : Prop :=
  Settles d shelf (fun w => Apart ws ∧ InARow ws w) fun _ => ¬ Apart ws

theorem lines_sequence (hFirst : Reached shelf first) (hSecond : Reached shelf second)
    (hXs : InARow xs first) (hYs : InARow ys second) (hApartXs : Apart xs) (hApartYs : Apart ys) :
    Lines (sequence first second) shelf (xs ++ ys) :=
  (settles_sequence hFirst hSecond hXs hYs hApartXs hApartYs).weaken (fun _ hGood => hGood)
    fun _ hNames => hNames.not_apart hXs hYs

/-- A draft that goes on with a row of some of the workflows.  What those share is shared among all
of them. -/
theorem Lines.bind {d : Draft Workflow} {f : Workflow → Draft Workflow}
    (hFirst : Lines d shelf xs) (hSub : xs.Sublist zs)
    (hNext : ∀ row, InARow xs row → Apart xs → Lines (f row) (row :: shelf) zs) :
    Lines (d >>= f) shelf zs :=
  Settles.bind hFirst (fun _ hShared hApart => hShared (hApart.of_sublist hSub))
    fun row hGood => hNext row hGood.2 hGood.1

theorem lines_chain (hNonempty : xs ≠ []) (hReached : ∀ w ∈ xs, Reached shelf w) :
    Lines (chain xs) shelf xs :=
  (settles_chain hNonempty hReached).weaken (fun _ hGood => hGood)
    fun _ ⟨_, hShared, _⟩ => hShared.not_apart

/-- A chain of two chains. -/
def chainInTwo (xs ys : List Workflow) : Draft Workflow := do
  let front ← chain xs
  let back ← chain ys
  sequence front back

theorem lines_chainInTwo (hXs : xs ≠ []) (hYs : ys ≠ []) (hReachedXs : ∀ w ∈ xs, Reached shelf w)
    (hReachedYs : ∀ w ∈ ys, Reached shelf w) : Lines (chainInTwo xs ys) shelf (xs ++ ys) := by
  refine (lines_chain hXs hReachedXs).bind (List.sublist_append_left _ _) ?_
  intro front hFront hApartXs
  have hBack : Lines (chain ys) (front :: shelf) ys :=
    lines_chain hYs fun w hMem => (hReachedYs w hMem).mono (List.subset_cons_self _ _)
  refine hBack.bind (List.sublist_append_right _ _) fun back hBackRow hApartYs => ?_
  exact lines_sequence (reached_of_mem (by simp)) (reached_of_mem List.mem_cons_self) hFront
    hBackRow hApartXs hApartYs

section Grouping

variable {a b c : Workflow}

theorem lines_pair (ha : Reached shelf a) (hb : Reached shelf b) :
    Lines (sequence a b) shelf [a, b] :=
  lines_sequence ha hb (.one a) (.one b) (List.pairwise_singleton _ _) (List.pairwise_singleton _ _)

theorem lines_left (ha : Reached shelf a) (hb : Reached shelf b) (hc : Reached shelf c) :
    Lines (sequence a b >>= fun ab => sequence ab c) shelf [a, b, c] := by
  refine (lines_pair ha hb).bind (List.sublist_append_left [a, b] [c]) fun ab hRow hApart => ?_
  exact lines_sequence (reached_of_mem List.mem_cons_self) (hc.mono (List.subset_cons_self _ _))
    hRow (.one c) hApart (List.pairwise_singleton _ _)

theorem lines_right (ha : Reached shelf a) (hb : Reached shelf b) (hc : Reached shelf c) :
    Lines (sequence b c >>= fun bc => sequence a bc) shelf [a, b, c] := by
  refine (lines_pair hb hc).bind (List.sublist_cons_self _ _) fun bc hRow hApart => ?_
  exact lines_sequence (ha.mono (List.subset_cons_self _ _)) (reached_of_mem List.mem_cons_self)
    (.one a) hRow (List.pairwise_singleton _ _) hApart

end Grouping

/-! ## Groups -/

theorem Lines.ok_iff {d : Draft Workflow} (hLines : Lines d shelf ws) (hStocked : Stocked s shelf) :
    (∃ w t, d s = .ok w t) ↔ Apart ws :=
  Settles.ok_iff hLines hStocked (fun _ _ hGood => hGood.1) fun _ hShared => hShared

/-- Both outcomes are faults, or both are workflows with equal networks.  The networks even list
their nodes and frontiers in the same order. -/
def Regroups (a b : EStateM.Result Fault Supply Workflow) : Prop :=
  ((∃ u s, a = .ok u s) ↔ ∃ v t, b = .ok v t) ∧
    ∀ u s v t, a = .ok u s → b = .ok v t →
      u.network.same v.network = true ∧ u.network.Reordered v.network

/-- Drafts that put the same workflows in a row differ in groups only. -/
theorem Lines.regroups {d e : Draft Workflow} (hd : Lines d shelf ws) (he : Lines e shelf ws)
    (hs : Stocked s shelf) (ht : Stocked t shelf) : Regroups (d s) (e t) := by
  constructor
  · rw [hd.ok_iff hs, he.ok_iff ht]
  · intro u _ v _ hu hv
    obtain ⟨hMadeU, -, hRowU⟩ := Settles.of_ok hd hs hu
    obtain ⟨hMadeV, -, hRowV⟩ := Settles.of_ok he ht hv
    have hReordered := hRowU.network_reordered hRowV hMadeU hMadeV
    exact ⟨hReordered.same, hReordered⟩

theorem chain_ok_iff_apart (hReached : ∀ w ∈ ws, Reached shelf w) (hStocked : Stocked s shelf) :
    (∃ w t, chain ws s = .ok w t) ↔ ws ≠ [] ∧ Apart ws := by
  by_cases hNonempty : ws = []
  · subst hNonempty
    refine ⟨?_, fun hSome => absurd rfl hSome.1⟩
    rintro ⟨w, t, hDone⟩
    cases hDone
  · rw [(lines_chain hNonempty hReached).ok_iff hStocked]
    exact ⟨fun hApart => ⟨hNonempty, hApart⟩, And.right⟩

/-- Chains of whatever a run has made, called at any later time: when they succeed, for which leaf
they fail, and that it makes no difference how a chain is cut in two or how three workflows are
grouped. -/
theorem chain_of_run (hRun : Run s shelf) (early late : Supply)
    (hEarly : s.workflows ≤ early.workflows) (hLate : s.workflows ≤ late.workflows) :
    (∀ ws ⊆ shelf,
      ((∃ w t, chain ws early = .ok w t) ↔ ws ≠ [] ∧ Apart ws) ∧
        (ws ≠ [] → ∀ fault t, chain ws early = .error fault t →
          ∃ leaf, FirstShared ws leaf ∧ fault = .circularDependency leaf.label leaf.id)) ∧
    (∀ xs ys, xs ⊆ shelf → ys ⊆ shelf → xs ≠ [] → ys ≠ [] →
      Regroups (chain (xs ++ ys) early) (chainInTwo xs ys late)) ∧
    ∀ a ∈ shelf, ∀ b ∈ shelf, ∀ c ∈ shelf,
      Regroups ((sequence a b >>= fun ab => sequence ab c) early)
        ((sequence b c >>= fun bc => sequence a bc) late) := by
  have hStockedEarly := hRun.stocked.spend hEarly
  have hStockedLate := hRun.stocked.spend hLate
  refine ⟨fun ws hWs => ?_, fun xs ys hXs hYs hSomeXs hSomeYs => ?_, fun a ha b hb c hc => ?_⟩
  · have hReached : ∀ w ∈ ws, Reached shelf w := fun w hw => reached_of_mem (hWs hw)
    exact ⟨chain_ok_iff_apart hReached hStockedEarly,
      fun hNonempty _ _ hFailed =>
        (settles_chain hNonempty hReached).of_error hStockedEarly hFailed⟩
  · have hReachedXs : ∀ w ∈ xs, Reached shelf w := fun w hw => reached_of_mem (hXs hw)
    have hReachedYs : ∀ w ∈ ys, Reached shelf w := fun w hw => reached_of_mem (hYs hw)
    have hReachedAll : ∀ w ∈ xs ++ ys, Reached shelf w := fun w hw =>
      (List.mem_append.1 hw).elim (hReachedXs w) (hReachedYs w)
    have hWhole := lines_chain (List.append_ne_nil_of_left_ne_nil hSomeXs ys) hReachedAll
    exact hWhole.regroups (lines_chainInTwo hSomeXs hSomeYs hReachedXs hReachedYs) hStockedEarly
      hStockedLate
  · have hReachedA := reached_of_mem ha
    have hReachedB := reached_of_mem hb
    have hReachedC := reached_of_mem hc
    exact (lines_left hReachedA hReachedB hReachedC).regroups
      (lines_right hReachedA hReachedB hReachedC) hStockedEarly hStockedLate

/-- Picking, packing and shipping, cut behind the picking.  The front and the back cannot be
chained, because both of them pack. -/
theorem chain_pick_pack_ship :
    Run ⟨5, 0⟩ [Sample.back, Sample.front, Sample.ship, Sample.pack, Sample.pick] ∧
      Regroups (chain [Sample.pick, Sample.pack, Sample.ship] ⟨5, 0⟩)
        (chainInTwo [Sample.pick] [Sample.pack, Sample.ship] ⟨9, 0⟩) ∧
      (∃ w t, chain [Sample.pick, Sample.pack, Sample.ship] ⟨5, 0⟩ = .ok w t) ∧
      chain [Sample.front, Sample.back] ⟨5, 0⟩ =
        .error (.circularDependency "pack" ⟨1⟩) ⟨5, 0⟩ ∧
      ∃ leaf, FirstShared [Sample.front, Sample.back] leaf ∧
        Fault.circularDependency "pack" ⟨1⟩ = .circularDependency leaf.label leaf.id := by
  obtain ⟨hChain, hCut, -⟩ :=
    chain_of_run Sample.run_sides ⟨5, 0⟩ ⟨9, 0⟩ (by decide) (by decide)
  exact ⟨Sample.run_sides,
    hCut [Sample.pick] [Sample.pack, Sample.ship] (by simp) (by simp) (by simp) (by simp),
    ⟨_, _, rfl⟩, rfl,
    (hChain [Sample.front, Sample.back] (by simp)).2 (by simp) _ _ rfl⟩

end Draft

end ActivityNetwork
