import ActivityNetwork.Proofs.Draft.Networks
import ActivityNetwork.Proofs.Network.Deadlock
import ActivityNetwork.Proofs.Workflow.Joining
import ActivityNetwork.Proofs.Workflow.Renumbering

/-!
# Uniting workflows

Unions are made two by two, and each is tried out as soon as it is made.  Nevertheless what comes
of uniting many workflows depends on which workflows they are, and on nothing else.  It succeeds
exactly if their links make no cycle together, because a cycle of some of them is a cycle of all
of them.  The networks that come out differ in node ids only (`Unites.agree`).

`Unites d shelf ws` says what a draft `d` does that unites the workflows `ws`.  It holds of a merge
(`unites_merge`), it passes on from one step to the next (`Unites.bind`), and so it holds of a
merge of any number of workflows (`unites_mergeAll`).
-/

namespace ActivityNetwork

open Workflow

namespace Workflow

/-- The union is cyclic, and the fault blames the first activity that is held up.  The union
itself is blamed where no activity is. -/
structure RefusedWith (union : Workflow) (fault : Fault) : Prop where
  cyclic : ¬ Acyclic union.network.Link
  blamed : ∃ process, fault = .circularDependency process union.id ∧
    ((∃ e, union.network.FirstHeldUp e ∧ e.activityName? = some process) ∨
      (∀ e ∈ union.network.activityEdges, ¬ union.network.HeldUp e.source) ∧
        process = union.label)

/-- The networks are the same but for the ids of nodes.  Each leaf has the nodes that the
renaming says it has. -/
def SameButForIds (u v : Workflow) : Prop :=
  (∀ leaf : Workflow, leaf.LeafOf u ↔ leaf.LeafOf v) ∧
    ∃ f : NodeId → NodeId, Network.Iso f u.network v.network ∧
      ∀ leaf : Workflow, leaf.LeafOf u → ∃ x y, u.EnteredAt leaf x ∧ v.EnteredAt leaf (f x) ∧
        u.LeftAt leaf y ∧ v.LeftAt leaf (f y)

end Workflow

namespace Draft

variable {s t : Supply} {shelf xs ys zs : List Workflow} {first second : Workflow}

/-! ## Refused unions -/

/-- An activity is picked from the held-up nodes by the order of activities. -/
theorem activityAmong?_cases {g : Network} {nodes : List NodeId}
    (hNodes : ∀ id, id ∈ nodes ↔ g.HeldUp id) :
    (∃ e name, g.FirstHeldUp e ∧ e.activityName? = some name ∧
        activityAmong? g nodes = some name) ∨
      (∀ e ∈ g.activityEdges, ¬ g.HeldUp e.source) ∧ activityAmong? g nodes = none := by
  unfold activityAmong?
  cases hFind : g.activityEdges.find? (·.source ∈ nodes) with
  | none =>
      refine Or.inr ⟨fun e he hHeld => ?_, rfl⟩
      have hNone := List.find?_eq_none.1 hFind e he
      simp only [decide_eq_true_eq] at hNone
      exact hNone ((hNodes e.source).2 hHeld)
  | some e =>
      obtain ⟨hHeld, before, after, hSplit, hBefore⟩ := List.find?_eq_some_iff_append.1 hFind
      have hActivity : e.isActivity = true :=
        List.of_mem_filter (List.mem_of_find?_eq_some hFind)
      obtain ⟨name, hName⟩ := Option.isSome_iff_exists.1 hActivity
      refine Or.inl ⟨e, name, ⟨before, after, hSplit, ?_, fun f hf hHeldF => ?_⟩, hName, hName⟩
      · exact (hNodes e.source).1 (by simpa using hHeld)
      · have hOther : f.source ∉ nodes := by simpa using hBefore f hf
        exact hOther ((hNodes f.source).2 hHeldF)

theorem refusedWith_of_merge {fault : Fault}
    (hClosed : (overlap ⟨s.workflows⟩ first second).network.Closed)
    (hFailed : merge first second s = .error fault t) :
    (overlap ⟨s.workflows⟩ first second).RefusedWith fault := by
  rcases Network.topologicalOrder_of_closed hClosed with ⟨order, hOrder⟩ | ⟨nodes, hCycle⟩
  · rw [merge_of_ordered s hOrder] at hFailed
    cases hFailed
  · rw [merge_of_cyclic s hCycle] at hFailed
    cases hFailed
    constructor
    · intro hAcyclic
      obtain ⟨order, hOrder⟩ := (Network.topologicalOrder_ok_iff_acyclic hClosed).2 hAcyclic
      rw [hCycle] at hOrder
      cases hOrder
    · refine ⟨_, rfl, ?_⟩
      rcases activityAmong?_cases fun id => Network.mem_cycle_iff hClosed hCycle with
        ⟨e, name, hFirst, hName, hPicked⟩ | ⟨hNone, hPicked⟩
      · exact Or.inl ⟨e, hFirst, by rw [hPicked]; exact hName⟩
      · exact Or.inr ⟨hNone, by rw [hPicked]; rfl⟩

/-! ## Drafts that unite -/

/-- If the draft succeeds, it joins the workflows.  If it fails, their links make a cycle, and the
fault refuses a union of some of them. -/
def Unites (d : Draft Workflow) (shelf ws : List Workflow) : Prop :=
  ∀ s, Stocked s shelf → match d s with
    | .ok w t => Stocked t (w :: shelf) ∧ w.Joins ws
    | .error fault t => Stocked t shelf ∧ ¬ Acyclic (LinkAmong ws) ∧
        ∃ part ⊆ ws, ∃ id a b, (overlap id a b).Joins part ∧ (overlap id a b).RefusedWith fault

theorem unites_iff_settles {d : Draft Workflow} : Unites d shelf xs ↔
    Settles d shelf (fun w => w.Joins xs) fun fault => ¬ Acyclic (LinkAmong xs) ∧
      ∃ part ⊆ xs, ∃ id a b, (overlap id a b).Joins part ∧ (overlap id a b).RefusedWith fault :=
  Iff.rfl

theorem unites_pure {w : Workflow} (hReached : Reached shelf w) : Unites (pure w) shelf [w] :=
  unites_iff_settles.2 (settles_pure hReached (joins_self w))

/-- A merge of two unions unites what they are made of. -/
theorem unites_merge (hFirst : Reached shelf first) (hSecond : Reached shelf second)
    (hXs : first.Joins xs) (hYs : second.Joins ys) :
    Unites (merge first second) shelf (xs ++ ys) := by
  intro s hStocked
  have hCoherent := hStocked.coherent_union hFirst hSecond
  have hClosed := network_closed hCoherent
  have hJoins := joins_overlap ⟨s.workflows⟩ hXs hYs
  have hKeeps := keeps_merge hFirst hSecond s hStocked
  rcases merge_cases hClosed with ⟨-, hMerge⟩ | ⟨hCyclic, process, hMerge⟩
  · rw [hMerge] at hKeeps ⊢
    exact ⟨hKeeps, hJoins⟩
  · rw [hMerge] at hKeeps ⊢
    refine ⟨hKeeps, fun hAcyclic => hCyclic ?_, xs ++ ys, List.Subset.refl _, _, _, _, hJoins,
      refusedWith_of_merge hClosed hMerge⟩
    exact (network_acyclic_iff hCoherent).2 (hJoins.acyclic_iff.2 hAcyclic)

/-- A draft that goes on with a union of some of the workflows.  A cycle among those is a cycle
among all of them. -/
theorem Unites.bind {d : Draft Workflow} {f : Workflow → Draft Workflow}
    (hFirst : Unites d shelf xs) (hSub : xs ⊆ zs)
    (hNext : ∀ union, union.Joins xs → Unites (f union) (union :: shelf) zs) :
    Unites (d >>= f) shelf zs := by
  refine unites_iff_settles.2 ((unites_iff_settles.1 hFirst).bind (fun fault hRefused => ?_)
    fun union hJoins => unites_iff_settles.1 (hNext union hJoins))
  obtain ⟨hCyclic, part, hPart, hBlamed⟩ := hRefused
  exact ⟨fun hAcyclic => hCyclic (acyclic_of_subset hSub hAcyclic), part,
    List.Subset.trans hPart hSub, hBlamed⟩

theorem unites_mergeAll (hNonempty : xs ≠ []) (hReached : ∀ w ∈ xs, Reached shelf w) :
    Unites (mergeAll xs) shelf xs := by
  induction xs using List.reverseRecOn with
  | nil => exact absurd rfl hNonempty
  | append_singleton front last ih =>
      have hLast : Reached shelf last := hReached last (by simp)
      by_cases hFront : front = []
      · rw [hFront, List.nil_append, mergeAll_singleton]
        exact unites_pure hLast
      · have hUnites := ih hFront fun w hMem => hReached w (List.mem_append_left _ hMem)
        rw [mergeAll_concat hFront]
        refine hUnites.bind (List.subset_append_left _ _) fun union hJoins => ?_
        exact unites_merge (reached_of_mem List.mem_cons_self)
          (hLast.mono (List.subset_cons_self _ _)) hJoins (joins_self last)

/-! ## Agreement -/

/-- Both outcomes are faults, or both are workflows whose networks are the same but for the ids
of nodes. -/
def Agree (a b : EStateM.Result Fault Supply Workflow) : Prop :=
  ((∃ u s, a = .ok u s) ↔ ∃ v t, b = .ok v t) ∧
    ∀ u s v t, a = .ok u s → b = .ok v t → u.SameButForIds v

theorem sameButForIds_of_joins {u v : Workflow} (hMadeU : u.WellMade) (hMadeV : v.WellMade)
    (hu : u.Joins xs) (hv : v.Joins xs) : u.SameButForIds v := by
  have hLeaves : ∀ leaf : Workflow, leaf.LeafOf u ↔ leaf.LeafOf v := fun leaf => by
    rw [hu.leaves, hv.leaves]
  obtain ⟨f, hIso, hPlaces⟩ :=
    exists_iso_of_chart_eq hMadeU.coherent hMadeV.coherent (hu.chart_eq hv hMadeU hMadeV)
  refine ⟨hLeaves, f, hIso, fun leaf hLeaf => ?_⟩
  have hLeafV := (hLeaves leaf).1 hLeaf
  refine ⟨_, _, enteredAt_of_leaf hMadeU.coherent hLeaf, ?_, leftAt_of_leaf hMadeU.coherent hLeaf,
    ?_⟩
  · rw [hPlaces _ (entryPlace_mem hLeaf)]
    exact enteredAt_of_leaf hMadeV.coherent hLeafV
  · rw [hPlaces _ (exitPlace_mem hLeaf)]
    exact leftAt_of_leaf hMadeV.coherent hLeafV

theorem Unites.ok_iff {d : Draft Workflow} (hUnites : Unites d shelf xs) (hStocked : Stocked s shelf) :
    (∃ w t, d s = .ok w t) ↔ Acyclic (LinkAmong xs) :=
  (unites_iff_settles.1 hUnites).ok_iff hStocked
    (fun _ hMade hJoins => hJoins.acyclic_iff.1 hMade.chart_acyclic)
    fun _ hRefused => hRefused.1

theorem Unites.joins {d : Draft Workflow} (hUnites : Unites d shelf xs)
    (hStocked : Stocked s shelf) {w : Workflow} (hDone : d s = .ok w t) :
    w.WellMade ∧ w.Joins xs :=
  (unites_iff_settles.1 hUnites).of_ok hStocked hDone

/-- Drafts that unite the same workflows agree. -/
theorem Unites.agree {d e : Draft Workflow} (hd : Unites d shelf xs) (he : Unites e shelf ys)
    (hSame : ∀ w, w ∈ xs ↔ w ∈ ys) (hs : Stocked s shelf) (ht : Stocked t shelf) :
    Agree (d s) (e t) := by
  have hLinks : Acyclic (LinkAmong xs) ↔ Acyclic (LinkAmong ys) :=
    ⟨acyclic_of_subset fun w => (hSame w).2, acyclic_of_subset fun w => (hSame w).1⟩
  constructor
  · rw [hd.ok_iff hs, he.ok_iff ht, hLinks]
  · intro u _ v _ hu hv
    obtain ⟨hMadeU, hJoinsU⟩ := hd.joins hs hu
    obtain ⟨hMadeV, hJoinsV⟩ := he.joins ht hv
    exact sameButForIds_of_joins hMadeU hMadeV hJoinsU (hJoinsV.of_same fun w => (hSame w).symm)

/-- Two failures agree. -/
theorem agree_of_error {a b : EStateM.Result Fault Supply Workflow} {f g : Fault}
    (ha : a = .error f s) (hb : b = .error g t) : Agree a b := by
  subst ha hb
  refine ⟨⟨?_, ?_⟩, ?_⟩
  · rintro ⟨u, r, hDone⟩
    cases hDone
  · rintro ⟨v, r, hDone⟩
    cases hDone
  · rintro u _ v _ hDone
    cases hDone

/-- No merge of two lists with the same members, of whatever lengths and orders, can be told from
the other. -/
theorem mergeAll_agrees (hs : Stocked s shelf) (ht : Stocked t shelf)
    (hXs : ∀ w ∈ xs, Reached shelf w) (hSame : ∀ w, w ∈ xs ↔ w ∈ ys) :
    Agree (mergeAll xs s) (mergeAll ys t) := by
  cases xs with
  | nil =>
      have hEmpty : ys = [] := List.eq_nil_iff_forall_not_mem.2 fun w hw => by
        simpa using (hSame w).2 hw
      subst hEmpty
      exact agree_of_error rfl rfl
  | cons first rest =>
      have hYs : ∀ w ∈ ys, Reached shelf w := fun w hw => hXs w ((hSame w).2 hw)
      have hNonempty : ys ≠ [] := List.ne_nil_of_mem ((hSame first).1 List.mem_cons_self)
      exact (unites_mergeAll (by simp) hXs).agree (unites_mergeAll hNonempty hYs) hSame hs ht

section Grouping

variable {a b c : Workflow}

theorem unites_left (ha : Reached shelf a) (hb : Reached shelf b) (hc : Reached shelf c) :
    Unites (merge a b >>= fun ab => merge ab c) shelf [a, b, c] := by
  refine (unites_merge ha hb (joins_self a) (joins_self b)).bind (by simp) fun ab hJoins => ?_
  exact unites_merge (reached_of_mem List.mem_cons_self) (hc.mono (List.subset_cons_self _ _))
    hJoins (joins_self c)

theorem unites_right (ha : Reached shelf a) (hb : Reached shelf b) (hc : Reached shelf c) :
    Unites (merge b c >>= fun bc => merge a bc) shelf [a, b, c] := by
  refine (unites_merge hb hc (joins_self b) (joins_self c)).bind (by simp) fun bc hJoins => ?_
  exact unites_merge (ha.mono (List.subset_cons_self _ _)) (reached_of_mem List.mem_cons_self)
    (joins_self a) hJoins

end Grouping

/-- Uniting does not depend on order, repetition or grouping: what counts is which workflows are
united.  The calls may be made at any time after the workflows were made. -/
theorem uniting_agrees (hRun : Run s shelf) (early late : Supply)
    (hEarly : s.workflows ≤ early.workflows) (hLate : s.workflows ≤ late.workflows) :
    (∀ xs ys, xs ⊆ shelf → ys ⊆ shelf →
      (∀ id, id ∈ xs.map Workflow.id ↔ id ∈ ys.map Workflow.id) →
        Agree (mergeAll xs early) (mergeAll ys late)) ∧
    ∀ a ∈ shelf, ∀ b ∈ shelf, ∀ c ∈ shelf,
      Agree ((merge a b >>= fun ab => merge ab c) early)
        ((merge b c >>= fun bc => merge a bc) late) := by
  have hStocked := hRun.stocked
  constructor
  · intro xs ys hXs hYs hIds
    have hSame : ∀ w, w ∈ xs ↔ w ∈ ys := fun w =>
      ⟨fun hw => hStocked.subset_of_ids hXs hYs (fun id => (hIds id).1) hw,
        fun hw => hStocked.subset_of_ids hYs hXs (fun id => (hIds id).2) hw⟩
    exact mergeAll_agrees (hStocked.spend hEarly) (hStocked.spend hLate)
      (fun w hw => reached_of_mem (hXs hw)) hSame
  · intro a ha b hb c hc
    have hReachedA := reached_of_mem ha
    have hReachedB := reached_of_mem hb
    have hReachedC := reached_of_mem hc
    exact (unites_left hReachedA hReachedB hReachedC).agree
      (unites_right hReachedA hReachedB hReachedC) (fun _ => Iff.rfl) (hStocked.spend hEarly)
      (hStocked.spend hLate)

/-- Three operands in another order unite just as two do. -/
theorem uniting_agrees_front_back :
    Run ⟨5, 0⟩ [Sample.back, Sample.front, Sample.ship, Sample.pack, Sample.pick] ∧
      Agree (mergeAll [Sample.front, Sample.back] ⟨5, 0⟩)
        (mergeAll [Sample.back, Sample.front, Sample.back] ⟨9, 0⟩) ∧
      ∃ w t, mergeAll [Sample.back, Sample.front, Sample.back] ⟨9, 0⟩ = .ok w t := by
  have hAgree : Agree (mergeAll [Sample.front, Sample.back] ⟨5, 0⟩)
      (mergeAll [Sample.back, Sample.front, Sample.back] ⟨9, 0⟩) :=
    (uniting_agrees Sample.run_sides ⟨5, 0⟩ ⟨9, 0⟩ (by decide) (by decide)).1 _ _ (by simp)
      (by simp) (by simp [or_comm])
  have hTwo : mergeAll [Sample.front, Sample.back] ⟨5, 0⟩ = .ok Sample.both ⟨6, 0⟩ := by
    rw [← Sample.merge_front_back]
    rfl
  exact ⟨Sample.run_sides, hAgree, hAgree.1.1 ⟨_, _, hTwo⟩⟩

end Draft

end ActivityNetwork
