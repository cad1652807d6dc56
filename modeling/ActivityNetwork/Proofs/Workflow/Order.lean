import ActivityNetwork.Proofs.Workflow.Chart

/-!
# Declared order and paths

`w.Declares p q` says that some sequence inside `w` has the leaf `p` in its first side and the
leaf `q` in its second.  A chart sets arcs between frontiers only.  Nevertheless its paths
between leaves are exactly what follows from the declared order
(`path_iff_declared`), and it has a cycle exactly if the declared order contradicts itself
(`chart_acyclic_iff`).

What carries the proof is that the frontiers of a well-made workflow are the places that no arc
enters and the places that no arc leaves (`WellMade.framed`).  Without cycles every place of a
finite chart leads to an exit and comes from an entry, so a link between frontiers reaches all
leaves on both sides.
-/

namespace ActivityNetwork

open Relation

namespace Chart

/-- The frontiers are the places that no arc enters, and those that no arc leaves. -/
structure Framed (c : Chart) : Prop where
  entries : ∀ x, x ∈ c.entries ↔ x ∈ c.places ∧ ∀ y, ¬ c.Link y x
  exits : ∀ x, x ∈ c.exits ↔ x ∈ c.places ∧ ∀ y, ¬ c.Link x y

theorem link_inSequence {a b : Chart} {x y : Place} :
    (a.inSequence b).Link x y ↔
      (a.Link x y ∨ b.Link x y) ∨ x ∈ a.exits ∧ y ∈ b.entries := by
  constructor
  · intro hLink
    rcases hLink with ⟨e, (he | he) | ⟨u, hu, v, hv, rfl⟩, rfl, rfl⟩
    · exact Or.inl (Or.inl ⟨e, he, rfl, rfl⟩)
    · exact Or.inl (Or.inr ⟨e, he, rfl, rfl⟩)
    · exact Or.inr ⟨hu, hv⟩
  · intro hLink
    rcases hLink with (⟨e, he, rfl, rfl⟩ | ⟨e, he, rfl, rfl⟩) | ⟨hx, hy⟩
    · exact ⟨e, Or.inl (Or.inl he), rfl, rfl⟩
    · exact ⟨e, Or.inl (Or.inr he), rfl, rfl⟩
    · exact ⟨_, Or.inr ⟨x, hx, y, hy, rfl⟩, rfl, rfl⟩

theorem link_overlaid {a b : Chart} {x y : Place} :
    (a.overlaid b).Link x y ↔ a.Link x y ∨ b.Link x y := by
  constructor
  · intro hLink
    rcases hLink with ⟨e, he | he, rfl, rfl⟩
    · exact Or.inl ⟨e, he, rfl, rfl⟩
    · exact Or.inr ⟨e, he, rfl, rfl⟩
  · intro hLink
    rcases hLink with ⟨e, he, rfl, rfl⟩ | ⟨e, he, rfl, rfl⟩
    · exact ⟨e, Or.inl he, rfl, rfl⟩
    · exact ⟨e, Or.inr he, rfl, rfl⟩

theorem mem_targets_iff {c : Chart} {x : Place} :
    x ∈ Arc.target '' c.arcs ↔ ∃ y, c.Link y x := by
  constructor
  · intro hTarget
    obtain ⟨e, he, hEnd⟩ := hTarget
    exact ⟨e.source, e, he, rfl, hEnd⟩
  · intro hEntered
    obtain ⟨y, e, he, -, hEnd⟩ := hEntered
    exact ⟨e, he, hEnd⟩

theorem mem_sources_iff {c : Chart} {x : Place} :
    x ∈ Arc.source '' c.arcs ↔ ∃ y, c.Link x y := by
  constructor
  · intro hSource
    obtain ⟨e, he, hEnd⟩ := hSource
    exact ⟨e.target, e, he, hEnd, rfl⟩
  · intro hLeft
    obtain ⟨y, e, he, hEnd, -⟩ := hLeft
    exact ⟨e, he, hEnd⟩

/-- Overlaying needs no check to keep the frontiers right: a place that no arc of either side
enters is an entry of the side it is from. -/
theorem Framed.overlaid {a b : Chart} (ha : a.Framed) (hb : b.Framed) :
    (a.overlaid b).Framed where
  entries := by
    intro x
    have hTargets : x ∈ Arc.target '' (a.overlaid b).arcs ↔
        (∃ y, a.Link y x) ∨ ∃ y, b.Link y x := by
      simp only [mem_targets_iff, link_overlaid, exists_or]
    show (x ∈ a.entries ∨ x ∈ b.entries) ∧ x ∉ Arc.target '' (a.overlaid b).arcs ↔ _
    rw [hTargets, ha.entries, hb.entries, places_overlaid, Set.mem_union]
    simp only [link_overlaid, not_or, not_exists, forall_and]
    tauto
  exits := by
    intro x
    have hSources : x ∈ Arc.source '' (a.overlaid b).arcs ↔
        (∃ y, a.Link x y) ∨ ∃ y, b.Link x y := by
      simp only [mem_sources_iff, link_overlaid, exists_or]
    show (x ∈ a.exits ∨ x ∈ b.exits) ∧ x ∉ Arc.source '' (a.overlaid b).arcs ↔ _
    rw [hSources, ha.exits, hb.exits, places_overlaid, Set.mem_union]
    simp only [link_overlaid, not_or, not_exists, forall_and]
    tauto

end Chart

namespace Workflow

/-- Some sequence inside `w` has `p` in its first side and `q` in its second. -/
def Declares (w p q : Workflow) : Prop :=
  ∃ id first second, (seq id first second).Inside w ∧ p.LeafOf first ∧ q.LeafOf second

/-- What drafting sees to: ids stand for one thing, the sides of a sequence share no leaf, and
an overlap has no cycle. -/
structure WellMade (w : Workflow) : Prop where
  coherent : w.Coherent
  apart : ∀ id first second, (seq id first second).Inside w →
    ∀ leaf : Workflow, leaf.LeafOf first → ¬ leaf.LeafOf second
  acyclic : ∀ id first second, (overlap id first second).Inside w →
    Acyclic (overlap id first second).chart.Link

variable {w v first second p q : Workflow} {x y : Place} {id : WorkflowId}

theorem WellMade.mono (hMade : w.WellMade) (hInside : v.Inside w) : v.WellMade where
  coherent := hMade.coherent.mono hInside
  apart := fun id first second hSeq => hMade.apart id first second (hSeq.trans hInside)
  acyclic := fun id first second hOver => hMade.acyclic id first second (hOver.trans hInside)

/-! ## Frontiers and cycles -/

theorem framed_marker (id : WorkflowId) (kind : NodeKind) :
    Acyclic (Chart.marker id kind).Link ∧ (Chart.marker id kind).Framed := by
  have hLink : ∀ x y, ¬ (Chart.marker id kind).Link x y := by
    intro x y hLink
    obtain ⟨e, he, -⟩ := hLink
    cases he
  have hPlaces : ∀ x, x ∈ (Chart.marker id kind).places ↔ x = .marker id := by
    intro x
    simp [Chart.marker, Chart.places]
  constructor
  · intro x hCycle
    obtain ⟨y, hStep, -⟩ := TransGen.head'_iff.1 hCycle
    exact hLink x y hStep
  · constructor
    · intro x
      rw [hPlaces]
      exact ⟨fun hx => ⟨hx, fun y => hLink y x⟩, fun hx => hx.1⟩
    · intro x
      rw [hPlaces]
      exact ⟨fun hx => ⟨hx, fun y => hLink x y⟩, fun hx => hx.1⟩

theorem framed_of_isLeaf (hLeaf : w.isLeaf = true) :
    Acyclic w.chart.Link ∧ w.chart.Framed := by
  rcases isLeaf_cases hLeaf with
    ⟨id, name, duration, rfl⟩ | ⟨id, resource, rfl⟩ | ⟨id, resource, rfl⟩
  · have hLink : ∀ x y, (activity id name duration).chart.Link x y ↔
        x = .entry id ∧ y = .exit id := by
      intro x y
      simp [chart, Chart.activity, Chart.Link, eq_comm]
    constructor
    · -- The one link of an activity ends where none begins.
      intro x hCycle
      obtain ⟨y, hFirst, -⟩ := TransGen.head'_iff.1 hCycle
      obtain ⟨z, -, hLast⟩ := TransGen.tail'_iff.1 hCycle
      have hEq := ((hLink x y).1 hFirst).1.symm.trans ((hLink z x).1 hLast).2
      cases hEq
    · constructor
      · intro x
        simp only [hLink, mem_places_of_isLeaf hLeaf]
        simp only [chart, Chart.activity, Set.mem_singleton_iff, entryPlace, exitPlace]
        constructor
        · rintro rfl
          exact ⟨Or.inl rfl, fun y h => by cases h.2⟩
        · rintro ⟨rfl | rfl, hFree⟩
          · rfl
          · exact absurd ⟨rfl, rfl⟩ (hFree (.entry id))
      · intro x
        simp only [hLink, mem_places_of_isLeaf hLeaf]
        simp only [chart, Chart.activity, Set.mem_singleton_iff, entryPlace, exitPlace]
        constructor
        · rintro rfl
          exact ⟨Or.inr rfl, fun y h => by cases h.1⟩
        · rintro ⟨rfl | rfl, hFree⟩
          · exact absurd ⟨rfl, rfl⟩ (hFree (.exit id))
          · rfl
  · exact framed_marker id _
  · exact framed_marker id _

/-- Every place leads to an exit. -/
theorem exists_exit (hAcyclic : Acyclic w.chart.Link) (hFramed : w.chart.Framed)
    (hx : x ∈ w.chart.places) : ∃ y ∈ w.chart.exits, ReflTransGen w.chart.Link x y := by
  obtain ⟨y, hy, hPath, hLast⟩ := hAcyclic.exists_last (finite_places w) hx fun _ _ _ hLink =>
    (mem_places_of_link hLink).2
  exact ⟨y, (hFramed.exits y).2 ⟨hy, hLast⟩, hPath⟩

/-- Every place comes from an entry. -/
theorem exists_entry (hAcyclic : Acyclic w.chart.Link) (hFramed : w.chart.Framed)
    (hx : x ∈ w.chart.places) : ∃ y ∈ w.chart.entries, ReflTransGen w.chart.Link y x := by
  obtain ⟨y, hy, hPath, hFirst⟩ := hAcyclic.exists_first (finite_places w) hx fun _ _ _ hLink =>
    (mem_places_of_link hLink).1
  exact ⟨y, (hFramed.entries y).2 ⟨hy, hFirst⟩, hPath⟩

/-- The sides of a well-made sequence share no place. -/
theorem WellMade.places_apart (hMade : (seq id first second).WellMade)
    (hFirst : x ∈ first.chart.places) : x ∉ second.chart.places := by
  intro hSecond
  obtain ⟨u, hu, hxu⟩ := mem_places_chart.1 hFirst
  obtain ⟨v, hv, hxv⟩ := mem_places_chart.1 hSecond
  have hEq : u = v := hMade.coherent.leaf_unique (leafOf_seq.2 (Or.inl hu))
    (leafOf_seq.2 (Or.inr hv)) hxu hxv
  exact hMade.apart id first second .self u hu (hEq ▸ hv)

/-- All arcs of a sequence that leave its second side stay there. -/
theorem seq_acyclic (hMade : (seq id first second).WellMade)
    (hFirst : Acyclic first.chart.Link) (hSecond : Acyclic second.chart.Link) :
    Acyclic (seq id first second).chart.Link := by
  -- The second side is the upper layer: no link leads from it back to the first.
  refine acyclic_of_layers (· ∈ second.chart.places) ?_ (hSecond.mono ?_) (hFirst.mono ?_)
  · intro x y hLink hx
    rcases Chart.link_inSequence.1 hLink with (h | h) | ⟨-, hy⟩
    · exact absurd hx (hMade.places_apart (mem_places_of_link h).1)
    · exact (mem_places_of_link h).2
    · exact mem_places_of_mem_entries hy
  · intro x y hStep
    obtain ⟨hLink, hx, -⟩ := hStep
    rcases Chart.link_inSequence.1 hLink with (h | h) | ⟨hExit, -⟩
    · exact absurd hx (hMade.places_apart (mem_places_of_link h).1)
    · exact h
    · exact absurd hx (hMade.places_apart (mem_places_of_mem_exits hExit))
  · intro x y hStep
    obtain ⟨hLink, -, hy⟩ := hStep
    rcases Chart.link_inSequence.1 hLink with (h | h) | ⟨-, hEntry⟩
    · exact h
    · exact absurd (mem_places_of_link h).2 hy
    · exact absurd (mem_places_of_mem_entries hEntry) hy

/-- The links of a sequence close all exits of its first side and all entries of its second. -/
theorem seq_framed (hMade : (seq id first second).WellMade)
    (hAcyclicFirst : Acyclic first.chart.Link) (hAcyclicSecond : Acyclic second.chart.Link)
    (hFirst : first.chart.Framed) (hSecond : second.chart.Framed) :
    (seq id first second).chart.Framed := by
  -- No side is empty, so there is at least one link between the two.
  obtain ⟨u, hu⟩ := exists_leafOf first
  obtain ⟨exit, hExit, -⟩ := exists_exit hAcyclicFirst hFirst (exitPlace_mem hu)
  obtain ⟨v, hv⟩ := exists_leafOf second
  obtain ⟨entry, hEntry, -⟩ := exists_entry hAcyclicSecond hSecond (entryPlace_mem hv)
  constructor
  · intro x
    simp only [chart, Chart.places_inSequence, Chart.link_inSequence, Set.mem_union, not_or]
    constructor
    · intro hx
      obtain ⟨hPlace, hFree⟩ := (hFirst.entries x).1 hx
      have hOther := hMade.places_apart hPlace
      refine ⟨Or.inl hPlace, fun y => ⟨⟨hFree y, fun hLink => ?_⟩, fun hBridge => ?_⟩⟩
      · exact hOther (mem_places_of_link hLink).2
      · exact hOther (mem_places_of_mem_entries hBridge.2)
    · rintro ⟨hPlace | hPlace, hFree⟩
      · exact (hFirst.entries x).2 ⟨hPlace, fun y => (hFree y).1.1⟩
      · have hx := (hSecond.entries x).2 ⟨hPlace, fun y => (hFree y).1.2⟩
        exact absurd ⟨hExit, hx⟩ (hFree exit).2
  · intro x
    simp only [chart, Chart.places_inSequence, Chart.link_inSequence, Set.mem_union, not_or]
    constructor
    · intro hx
      obtain ⟨hPlace, hFree⟩ := (hSecond.exits x).1 hx
      have hOther : x ∉ first.chart.places := fun h => hMade.places_apart h hPlace
      refine ⟨Or.inr hPlace, fun y => ⟨⟨fun hLink => ?_, hFree y⟩, fun hBridge => ?_⟩⟩
      · exact hOther (mem_places_of_link hLink).1
      · exact hOther (mem_places_of_mem_exits hBridge.1)
    · rintro ⟨hPlace | hPlace, hFree⟩
      · have hx := (hFirst.exits x).2 ⟨hPlace, fun y => (hFree y).1.1⟩
        exact absurd ⟨hx, hEntry⟩ (hFree entry).2
      · exact (hSecond.exits x).2 ⟨hPlace, fun y => (hFree y).1.2⟩

/-- A well-made workflow has no cycle, and its frontiers are its sources and sinks. -/
theorem WellMade.acyclic_framed (hMade : w.WellMade) :
    Acyclic w.chart.Link ∧ w.chart.Framed := by
  induction w with
  | activity id name duration => exact framed_of_isLeaf rfl
  | request id resource => exact framed_of_isLeaf rfl
  | release id resource => exact framed_of_isLeaf rfl
  | seq id first second ihFirst ihSecond =>
      obtain ⟨hAcyclicFirst, hFirst⟩ := ihFirst (hMade.mono (.seqFirst .self))
      obtain ⟨hAcyclicSecond, hSecond⟩ := ihSecond (hMade.mono (.seqSecond .self))
      exact ⟨seq_acyclic hMade hAcyclicFirst hAcyclicSecond,
        seq_framed hMade hAcyclicFirst hAcyclicSecond hFirst hSecond⟩
  | overlap id first second ihFirst ihSecond =>
      obtain ⟨-, hFirst⟩ := ihFirst (hMade.mono (.overlapFirst .self))
      obtain ⟨-, hSecond⟩ := ihSecond (hMade.mono (.overlapSecond .self))
      exact ⟨hMade.acyclic id first second .self, hFirst.overlaid hSecond⟩
  | holding id process resources expansion _ ihExpansion =>
      exact ihExpansion (hMade.mono (.expansion .self))

theorem WellMade.chart_acyclic (hMade : w.WellMade) : Acyclic w.chart.Link :=
  hMade.acyclic_framed.1

theorem WellMade.framed (hMade : w.WellMade) : w.chart.Framed :=
  hMade.acyclic_framed.2

/-! ## From the declared order to paths -/

/-- Each leaf of the first side of a sequence is left before each leaf of the second is
entered. -/
theorem seq_path (hMade : (seq id first second).WellMade) (hp : p.LeafOf first)
    (hq : q.LeafOf second) :
    TransGen (seq id first second).chart.Link p.exitPlace q.entryPlace := by
  have hFirst := hMade.mono (.seqFirst .self)
  have hSecond := hMade.mono (.seqSecond .self)
  obtain ⟨exit, hExit, hLeave⟩ := exists_exit hFirst.chart_acyclic hFirst.framed (exitPlace_mem hp)
  obtain ⟨entry, hEntry, hEnter⟩ :=
    exists_entry hSecond.chart_acyclic hSecond.framed (entryPlace_mem hq)
  have hBridge : (seq id first second).chart.Link exit entry :=
    Chart.link_inSequence.2 (Or.inr ⟨hExit, hEntry⟩)
  have hFront : ReflTransGen (seq id first second).chart.Link p.exitPlace exit :=
    ReflTransGen.mono (fun _ _ hLink => link_mono (.seqFirst .self) hLink) _ _ hLeave
  have hBack : ReflTransGen (seq id first second).chart.Link entry q.entryPlace :=
    ReflTransGen.mono (fun _ _ hLink => link_mono (.seqSecond .self) hLink) _ _ hEnter
  exact TransGen.trans_left (TransGen.tail' hFront hBridge) hBack

theorem Declares.leafOf (h : w.Declares p q) : p.LeafOf w ∧ q.LeafOf w := by
  obtain ⟨id, first, second, hSeq, hp, hq⟩ := h
  exact ⟨hp.trans (Inside.trans (.seqFirst .self) hSeq),
    hq.trans (Inside.trans (.seqSecond .self) hSeq)⟩

/-- What follows from the declared order is followed by a path. -/
theorem path_of_declared
    (hSeqs : ∀ id first second, (seq id first second).Inside w →
      (seq id first second).WellMade)
    (hOrder : TransGen w.Declares p q) : TransGen w.chart.Link p.exitPlace q.entryPlace := by
  have hSingle : ∀ p q, w.Declares p q → TransGen w.chart.Link p.exitPlace q.entryPlace := by
    intro p q hDeclares
    obtain ⟨id, first, second, hSeq, hp, hq⟩ := hDeclares
    exact TransGen.mono (fun _ _ => link_mono hSeq) _ _
      (seq_path (hSeqs id first second hSeq) hp hq)
  induction hOrder with
  | single h => exact hSingle p _ h
  | @tail m q _ h ih =>
      have hm := h.leafOf.1
      -- The path so far ends where `m` is entered; an activity is still to be gone through.
      rcases link_of_isLeaf hm.1 with hSame | hThrough
      · exact ih.trans (hSame ▸ hSingle m q h)
      · exact (ih.tail (link_mono hm.2 hThrough)).trans (hSingle m q h)

/-! ## From paths to the declared order -/

/-- An arc leads through an activity, or follows the declared order. -/
theorem link_cases (h : w.chart.Link x y) :
    (∃ p : Workflow, p.LeafOf w ∧ x = .entry p.id ∧ y = .exit p.id) ∨
      ∃ p q : Workflow, w.Declares p q ∧ x = p.exitPlace ∧ y = q.entryPlace := by
  obtain ⟨e, he, rfl, rfl⟩ := h
  rcases mem_arcs_chart.1 he with ⟨leaf, hLeaf, hOwn⟩ | ⟨id, first, second, hSeq, x, hx, y, hy, rfl⟩
  · obtain ⟨hSource, hTarget, -⟩ := mem_arcs_of_isLeaf hLeaf.1 hOwn
    exact Or.inl ⟨leaf, hLeaf, hSource, hTarget⟩
  · obtain ⟨u, hu, rfl⟩ := exitPlace_of_mem_exits hx
    obtain ⟨v, hv, rfl⟩ := entryPlace_of_mem_entries hy
    exact Or.inr ⟨u, v, ⟨id, first, second, hSeq, hu, hv⟩, rfl, rfl⟩

/-- A path follows the declared order, unless it leads through one activity only. -/
theorem declared_of_path (hCoherent : w.Coherent) (hPath : TransGen w.chart.Link x y) :
    ∃ p q : Workflow, p.LeafOf w ∧ q.LeafOf w ∧ p.id = x.leaf ∧ q.id = y.leaf ∧
      (TransGen w.Declares p q ∨ p = q ∧ x = .entry p.id ∧ y = .exit p.id) := by
  induction hPath with
  | single hStep =>
      rcases link_cases hStep with ⟨p, hp, rfl, rfl⟩ | ⟨p, q, hDeclares, rfl, rfl⟩
      · exact ⟨p, p, hp, hp, rfl, rfl, Or.inr ⟨rfl, rfl, rfl⟩⟩
      · exact ⟨p, q, hDeclares.leafOf.1, hDeclares.leafOf.2, (leaf_exitPlace p).symm,
          (leaf_entryPlace q).symm, Or.inl (.single hDeclares)⟩
  | tail _ hStep ih =>
      obtain ⟨p, m, hp, hm, hpx, hmIn, hFront⟩ := ih
      rcases link_cases hStep with ⟨u, hu, rfl, rfl⟩ | ⟨u, q, hDeclares, rfl, rfl⟩
      · -- Through an activity after something else, so the path has crossed a sequence.
        have hEq : m = u := hCoherent m u hm.2 hu.2 hmIn
        subst hEq
        rcases hFront with hFront | ⟨-, -, hExit⟩
        · exact ⟨p, m, hp, hm, hpx, rfl, Or.inl hFront⟩
        · cases hExit
      · have hu := hDeclares.leafOf.1
        have hEq : m = u := hCoherent m u hm.2 hu.2 (hmIn.trans (leaf_exitPlace u))
        subst hEq
        refine ⟨p, q, hp, hDeclares.leafOf.2, hpx, (leaf_entryPlace q).symm, Or.inl ?_⟩
        rcases hFront with hFront | ⟨rfl, -⟩
        · exact hFront.tail hDeclares
        · exact .single hDeclares

/-- Paths between different leaves are exactly what follows from the declared order. -/
theorem path_iff_declared (hMade : w.WellMade) (hp : p.LeafOf w) (hq : q.LeafOf w)
    (hNe : p ≠ q) :
    TransGen w.chart.Link p.exitPlace q.entryPlace ↔ TransGen w.Declares p q := by
  constructor
  · intro hPath
    obtain ⟨u, v, hu, hv, hux, hvy, hOrder⟩ := declared_of_path hMade.coherent hPath
    have hup : u = p := hMade.coherent u p hu.2 hp.2 (hux.trans (leaf_exitPlace p))
    have hvq : v = q := hMade.coherent v q hv.2 hq.2 (hvy.trans (leaf_entryPlace q))
    subst hup hvq
    exact hOrder.resolve_right fun h => hNe h.1
  · exact path_of_declared fun _ _ _ hSeq => hMade.mono hSeq

/-- The chart has a cycle exactly if the declared order contradicts itself.  Overlaps need not
have been checked for this. -/
theorem chart_acyclic_iff (hCoherent : w.Coherent)
    (hSeqs : ∀ id first second, (seq id first second).Inside w →
      (seq id first second).WellMade) :
    Acyclic w.chart.Link ↔ Acyclic w.Declares := by
  constructor
  · intro hAcyclic p hOrder
    obtain ⟨q, hStep, -⟩ := TransGen.head'_iff.1 hOrder
    have hp := hStep.leafOf.1
    have hPath := path_of_declared hSeqs hOrder
    rcases link_of_isLeaf hp.1 with hSame | hThrough
    · rw [hSame] at hPath
      exact hAcyclic p.exitPlace hPath
    · exact hAcyclic p.exitPlace (hPath.tail (link_mono hp.2 hThrough))
  · intro hAcyclic x hCycle
    obtain ⟨p, q, hp, hq, hpx, hqx, hOrder⟩ := declared_of_path hCoherent hCycle
    rcases hOrder with hOrder | ⟨-, hEntry, hExit⟩
    · have hEq : p = q := hCoherent p q hp.2 hq.2 (hpx.trans hqx.symm)
      subst hEq
      exact hAcyclic p hOrder
    · rw [hEntry] at hExit
      cases hExit

theorem declares_overlap :
    (overlap id first second).Declares p q ↔ first.Declares p q ∨ second.Declares p q := by
  simp [Declares, inside_overlap, or_and_right, exists_or]

end Workflow

end ActivityNetwork
