import ActivityNetwork.Proofs.Draft.Holding
import ActivityNetwork.Proofs.Draft.Numbering
import ActivityNetwork.Proofs.Draft.Uniting

/-!
# Uniting a workflow with a part of its own

A workflow absorbs its parts.  A part shares all of its leaves with the whole, and whatever it
orders is ordered in the same way there, so a union of the two cannot be refused.

With the whole as the first side, the network of the union is the network of the whole, list by
list (`network_overlap_of_inside`).  The part comes to nodes that have numbers already.  Its
frontier is of no consequence: most of it lies in the middle of the whole, where edges enter and
leave it, and what does not is frontier of the whole as well (`Network.overlaid_of_absorbed`).

With the part as the first side, its leaves are met first and take the lowest numbers.  The networks
are then the same but for the ids of nodes.
-/

namespace ActivityNetwork

open Relation

/-! ## What adds nothing -/

theorem OrderedSet.union_of_subset {α : Type} [DecidableEq α] {s t : OrderedSet α}
    (hSub : ∀ x ∈ t, x ∈ s) : s.union t = s :=
  ext_toList (Workflow.extend_of_subset hSub)

theorem OrderedMap.union_of_subset {κ ν : Type} [DecidableEq κ] {m n : OrderedMap κ ν}
    (hSub : ∀ k ∈ n.keys, k ∈ m.keys) : m.union n = m := by
  ext1
  have hNothing : n.entries.filter (fun e => e.1 ∉ m.keys) = [] :=
    List.filter_eq_nil_iff.2 fun e he => by simpa using hSub e.1 (mem_keys.2 ⟨e.2, he⟩)
  rw [entries_union, hNothing, List.append_nil]

/-- A union adds nothing that passes the test, if `s` has whatever passes it anyway. -/
theorem OrderedSet.filter_union_eq_left {α : Type} [DecidableEq α] {s t known : OrderedSet α}
    {test : α → Bool} (hOwn : ∀ x, x ∈ s ↔ x ∈ known.filter test) (hOther : ∀ x ∈ t, x ∈ known) :
    (s.union t).filter test = s := by
  simp only [mem_filter] at hOwn
  ext1
  have hAll : s.toList.filter test = s.toList :=
    List.filter_eq_self.2 fun x hx => ((hOwn x).1 hx).2
  have hNothing : (t.toList.filter (· ∉ s.toList)).filter test = [] := by
    refine List.filter_eq_nil_iff.2 fun x hx hTest => ?_
    obtain ⟨hMem, hNew⟩ := List.mem_filter.1 hx
    exact of_decide_eq_true hNew ((hOwn x).2 ⟨hOther x hMem, hTest⟩)
  rw [toList_filter, toList_union, List.filter_append, hAll, hNothing, List.append_nil]

/-- A network with derived frontiers stays as it is if what is laid over it has no node and no edge
of its own.  A frontier node of the other side that is no frontier node here lies in the middle. -/
theorem Network.overlaid_of_absorbed {g h : Network}
    (hNodes : ∀ id ∈ h.nodes.keys, id ∈ g.nodes.keys) (hEdges : ∀ e ∈ h.edges, e ∈ g.edges)
    (hEntries : ∀ id, id ∈ g.entries ↔ id ∈ g.sources)
    (hExits : ∀ id, id ∈ g.exits ↔ id ∈ g.sinks)
    (hEntryNodes : ∀ id ∈ h.entries, id ∈ h.nodes.keys)
    (hExitNodes : ∀ id ∈ h.exits, id ∈ h.nodes.keys) : g.overlaid h = g := by
  have hSameEdges := OrderedSet.union_of_subset hEdges
  unfold overlaid
  rw [hSameEdges, OrderedMap.union_of_subset hNodes]
  apply ext_fields
  · rfl
  · rfl
  · exact OrderedSet.filter_union_eq_left hEntries fun id hId => hNodes id (hEntryNodes id hId)
  · exact OrderedSet.filter_union_eq_left hExits fun id hId => hNodes id (hExitNodes id hId)

namespace Workflow

variable {w whole part : Workflow} {id : WorkflowId} {xs ys : List Workflow}

/-! ## Parts -/

/-- The part can be taken out of the whole, in any number of steps.  The process behind an
expansion can be taken out, too. -/
def Contains (whole part : Workflow) : Prop :=
  ReflTransGen (fun w v => ∃ place, w.part? place = some v) whole part

/-- In what was checked, nothing can be taken out but what a compilation comes to. -/
theorem Contains.inside (hContains : whole.Contains part)
    (hChecked : ∀ v : Workflow, v.Inside whole → v.Checked) : part.Inside whole := by
  induction hContains with
  | refl => exact .self
  | tail _ hStep ih =>
      obtain ⟨place, hPart⟩ := hStep
      exact ((hChecked _ ih).inside_part hPart).1.trans ih

/-- What is united stays the same without the workflows that lie inside others. -/
theorem Joins.of_absorbed (hJoins : w.Joins xs) (hSub : ys ⊆ xs)
    (hAbsorbed : ∀ x ∈ xs, ∃ y ∈ ys, x.Inside y) : w.Joins ys where
  leaves := by
    intro leaf
    rw [hJoins.leaves]
    constructor
    · rintro ⟨x, hx, hLeaf⟩
      obtain ⟨y, hy, hInside⟩ := hAbsorbed x hx
      exact ⟨y, hy, hLeaf.trans hInside⟩
    · rintro ⟨y, hy, hLeaf⟩
      exact ⟨y, hSub hy, hLeaf⟩
  arcs := by
    intro e
    rw [hJoins.arcs]
    constructor
    · rintro ⟨x, hx, hArc⟩
      obtain ⟨y, hy, hInside⟩ := hAbsorbed x hx
      exact ⟨y, hy, arcs_mono hInside hArc⟩
    · rintro ⟨y, hy, hArc⟩
      exact ⟨y, hSub hy, hArc⟩

/-- A well-made workflow and its parts order nothing in contradicting ways. -/
theorem WellMade.linkAmong_acyclic (hMade : whole.WellMade)
    (hInside : ∀ x ∈ xs, x.Inside whole) : Acyclic (LinkAmong xs) := by
  refine hMade.chart_acyclic.mono fun x y hLink => ?_
  obtain ⟨v, hv, hLink⟩ := hLink
  exact link_mono (hInside v hv) hLink

/-! ## The whole as the first side -/

theorem leaves_overlap_of_inside (hCoherent : (overlap id whole part).Coherent)
    (hInside : part.Inside whole) : (overlap id whole part).leaves = whole.leaves := by
  rw [leaves_eq_collect hCoherent, leaves_eq_collect (hCoherent.mono (.overlapFirst .self)),
    collect_overlap]
  refine collect_of_known fun leaf hLeaf => ?_
  exact (mem_ids_collect leaf.id whole []).2 (Or.inr ⟨leaf, hLeaf.trans hInside, rfl⟩)

/-- A part adds nothing to the network of the whole. -/
theorem network_overlap_of_inside (hMade : whole.WellMade)
    (hCoherent : (overlap id whole part).Coherent) (hInside : part.Inside whole) :
    (overlap id whole part).network = whole.network := by
  have hNumbering : (overlap id whole part).numbering = whole.numbering := by
    rw [numbering, numbering, leaves_overlap_of_inside hCoherent hInside]
  rw [network_eq_layout hCoherent, network_eq_layout hMade.coherent, hNumbering, layout]
  have hInj := numbering_injOn hMade.coherent
  have hWhole := part_renders hMade.coherent hInj .self
  have hPart := part_renders hMade.coherent hInj hInside
  refine Network.overlaid_of_absorbed (fun node hNode => ?_) (fun e he => ?_)
    (fun _ => hMade.layout_entries_iff .self) (fun _ => hMade.layout_exits_iff .self)
    (fun _ => hMade.mem_keys_of_entry hInside) fun _ => hMade.mem_keys_of_exit hInside
  · obtain ⟨x, hx, hEq⟩ := hPart.mem_keys.1 hNode
    exact hWhole.mem_keys.2 ⟨x, places_mono hInside hx, hEq⟩
  · obtain ⟨arc, hArc, hEq⟩ := hPart.mem_edges.1 he
    exact hWhole.mem_edges.2 ⟨arc, arcs_mono hInside hArc, hEq⟩

end Workflow

namespace Draft

open Workflow

variable {s : Supply} {shelf : List Workflow} {whole part : Workflow}

/-- A union of workflows that lie inside a reached one succeeds, and joins no more than that one. -/
theorem merge_absorbs {first second : Workflow} (hStocked : Stocked s shelf)
    (hWhole : Reached shelf whole) (hFirst : first.Inside whole) (hSecond : second.Inside whole)
    (hMem : whole ∈ [first, second]) :
    ∃ u t, merge first second s = .ok u t ∧ u.WellMade ∧ u.Joins [whole] := by
  have hUnites : Unites (merge first second) shelf ([first] ++ [second]) :=
    unites_merge (hWhole.inside hFirst) (hWhole.inside hSecond) (joins_self first)
      (joins_self second)
  have hInside : ∀ x ∈ [first] ++ [second], x.Inside whole := by
    simp [hFirst, hSecond]
  obtain ⟨u, t, hDone⟩ :=
    (hUnites.ok_iff hStocked).2 ((hStocked.wellMade hWhole).linkAmong_acyclic hInside)
  obtain ⟨hMade, hJoins⟩ := hUnites.joins hStocked hDone
  refine ⟨u, t, hDone, hMade, hJoins.of_absorbed ?_ fun x hx => ?_⟩
  · simpa using hMem
  · exact ⟨whole, List.mem_singleton_self whole, hInside x hx⟩

/-- A workflow absorbs whatever can be taken out of it.  United with a part, it has the network that
it had without the part; if the part comes first, it has that network but for the ids of nodes. -/
theorem absorbs_of_run (hRun : Run s shelf) (hMem : whole ∈ shelf)
    (hContains : whole.Contains part) (now : Supply) (hLater : s.workflows ≤ now.workflows) :
    (∃ u t, merge whole part now = .ok u t ∧ u.network = whole.network) ∧
      ∃ v t, merge part whole now = .ok v t ∧ v.SameButForIds whole := by
  have hStocked := hRun.stocked.spend hLater
  have hWhole := reached_of_mem hMem
  have hMade := hStocked.wellMade hWhole
  have hInside : part.Inside whole :=
    hContains.inside fun v hv => hStocked.checked v (hWhole.inside hv)
  constructor
  · obtain ⟨u, t, hDone, hMadeUnion, -⟩ := merge_absorbs hStocked hWhole .self hInside (by simp)
    refine ⟨u, t, hDone, ?_⟩
    obtain ⟨rfl, -⟩ := merge_ok hDone
    exact network_overlap_of_inside hMade hMadeUnion.coherent hInside
  · obtain ⟨v, t, hDone, hMadeUnion, hJoins⟩ :=
      merge_absorbs hStocked hWhole hInside .self (by simp)
    exact ⟨v, t, hDone, sameButForIds_of_joins hMadeUnion hMade hJoins (joins_self whole)⟩

/-- The activity that holds the crane twice can be taken out as a process.  Its nodes lie in the
middle of the whole. -/
theorem absorbs_twice_pick :
    Run ⟨12, 1⟩ [Sample.twice, Sample.lifted 6, Sample.lifted 1, Sample.pick] ∧
      Sample.twice.Contains Sample.pick ∧
      (∃ u t, merge Sample.twice Sample.pick ⟨12, 1⟩ = .ok u t ∧
        u.network = Sample.twice.network) ∧
      ∃ v t, merge Sample.pick Sample.twice ⟨12, 1⟩ = .ok v t ∧
        v.SameButForIds Sample.twice := by
  have hRun := Sample.plainRun_twice.run
  have hContains : Sample.twice.Contains Sample.pick :=
    .tail (.single ⟨.first, rfl⟩) ⟨.process, rfl⟩
  obtain ⟨hAfter, hBefore⟩ :=
    absorbs_of_run hRun List.mem_cons_self hContains ⟨12, 1⟩ (by decide)
  exact ⟨hRun, hContains, hAfter, hBefore⟩

end Draft

end ActivityNetwork
