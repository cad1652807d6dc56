import ActivityNetwork.Proofs.Acceptance.Soundness
import ActivityNetwork.Proofs.Draft.Run

/-!
# Networks of built workflows

What compiling a built workflow comes to.  Its network is the chart of the workflow with node
ids for places, whatever the memo of the compilation was asked for and however parts are shared.
So the network is sound, and one leaf comes before another in it exactly if that follows from
the declared order.
-/

namespace ActivityNetwork

open Relation Workflow

namespace Network

variable {g : Network} {place : Place → NodeId} {c : Chart}

/-- A rendering of a framed chart has its sources for entries. -/
theorem Renders.mem_entries_iff_sources (hRenders : g.Renders place c)
    (hInj : Set.InjOn place c.places)
    (hEnds : ∀ x y, c.Link x y → x ∈ c.places ∧ y ∈ c.places) (hFramed : c.Framed)
    (id : NodeId) : id ∈ g.entries ↔ id ∈ g.sources := by
  rw [mem_sources_iff_link, hRenders.mem_entries, hRenders.mem_keys]
  constructor
  · intro hFrontier
    obtain ⟨x, hx, rfl⟩ := hFrontier
    obtain ⟨hPlace, hFree⟩ := (hFramed.entries x).1 hx
    refine ⟨⟨x, hPlace, rfl⟩, fun other hLink => ?_⟩
    obtain ⟨u, v, hArc, -, hEq⟩ := hRenders.link_iff.1 hLink
    have hSame : v = x := hInj (hEnds u v hArc).2 hPlace hEq
    exact hFree u (hSame ▸ hArc)
  · intro hEnd
    obtain ⟨⟨x, hPlace, rfl⟩, hFree⟩ := hEnd
    refine ⟨x, (hFramed.entries x).2 ⟨hPlace, fun y hArc => ?_⟩, rfl⟩
    exact hFree (place y) (hRenders.link_iff.2 ⟨y, x, hArc, rfl, rfl⟩)

/-- A rendering of a framed chart has its sinks for exits. -/
theorem Renders.mem_exits_iff_sinks (hRenders : g.Renders place c)
    (hInj : Set.InjOn place c.places)
    (hEnds : ∀ x y, c.Link x y → x ∈ c.places ∧ y ∈ c.places) (hFramed : c.Framed)
    (id : NodeId) : id ∈ g.exits ↔ id ∈ g.sinks := by
  rw [mem_sinks_iff_link, hRenders.mem_exits, hRenders.mem_keys]
  constructor
  · intro hFrontier
    obtain ⟨x, hx, rfl⟩ := hFrontier
    obtain ⟨hPlace, hFree⟩ := (hFramed.exits x).1 hx
    refine ⟨⟨x, hPlace, rfl⟩, fun other hLink => ?_⟩
    obtain ⟨u, v, hArc, hEq, -⟩ := hRenders.link_iff.1 hLink
    have hSame : u = x := hInj (hEnds u v hArc).1 hPlace hEq
    exact hFree v (hSame ▸ hArc)
  · intro hEnd
    obtain ⟨⟨x, hPlace, rfl⟩, hFree⟩ := hEnd
    refine ⟨x, (hFramed.exits x).2 ⟨hPlace, fun y hArc => ?_⟩, rfl⟩
    exact hFree (place y) (hRenders.link_iff.2 ⟨x, y, hArc, rfl, rfl⟩)

end Network

namespace Workflow

variable {w part p q : Workflow}

/-! ## Soundness -/

theorem WellMade.network_sound (hMade : w.WellMade) : w.network.Sound := by
  have hRenders := network_renders hMade.coherent
  have hInj := numbering_injOn hMade.coherent
  have hEnds : ∀ x y, w.chart.Link x y → x ∈ w.chart.places ∧ y ∈ w.chart.places :=
    fun _ _ => mem_places_of_link
  constructor
  · exact network_closed hMade.coherent
  · exact (network_acyclic_iff hMade.coherent).2 hMade.chart_acyclic
  · exact hRenders.mem_entries_iff_sources hInj hEnds hMade.framed
  · exact hRenders.mem_exits_iff_sinks hInj hEnds hMade.framed

theorem network_order_pos (hCoherent : w.Coherent) : 0 < w.network.order := by
  obtain ⟨leaf, hLeaf⟩ := exists_leafOf w
  have hKey := (network_renders hCoherent).mem_keys.2 ⟨_, entryPlace_mem hLeaf, rfl⟩
  obtain ⟨kind, hNode⟩ := OrderedMap.mem_keys.1 hKey
  exact List.length_pos_of_mem hNode

/-- The network of a built workflow has nodes and is sound.  Therefore it can be ordered, and
every check of soundness accepts it. -/
theorem network_sound_of_built (hBuilt : Built w) :
    0 < w.network.order ∧ w.network.Sound ∧
      (∃ order, w.network.topologicalOrder = .ok order) ∧ w.network.isAcyclic = true ∧
      w.network.checkIntegrity = .ok () ∧ Policy.lenient.accepts w.network = true := by
  have hMade := hBuilt.wellMade
  have hSound := hMade.network_sound
  exact ⟨network_order_pos hMade.coherent, hSound, hSound.exists_order, hSound.isAcyclic,
    hSound.checkIntegrity, hSound.accepts⟩

theorem network_sound_both : Built Sample.both ∧ Sample.both.network.Sound :=
  ⟨Sample.built_both, (network_sound_of_built Sample.built_both).2.1⟩

/-! ## Order -/

/-- In the compilation of `w`, the part is entered at the node and nowhere else. -/
def EnteredAt (w part : Workflow) (node : NodeId) : Prop :=
  ∃ network, w.kept? part = some network ∧ network.entries.toList = [node]

/-- In the compilation of `w`, the part is left at the node and nowhere else. -/
def LeftAt (w part : Workflow) (node : NodeId) : Prop :=
  ∃ network, w.kept? part = some network ∧ network.exits.toList = [node]

theorem enteredAt_of_leaf (hCoherent : w.Coherent) (hLeaf : p.LeafOf w) :
    w.EnteredAt p (placeNode w.numbering p.entryPlace) := by
  refine ⟨_, kept_eq_layout hCoherent hLeaf.2, ?_⟩
  rcases isLeaf_cases hLeaf.1 with
    ⟨id, name, duration, rfl⟩ | ⟨id, resource, rfl⟩ | ⟨id, resource, rfl⟩
  · rfl
  · rfl
  · rfl

theorem leftAt_of_leaf (hCoherent : w.Coherent) (hLeaf : p.LeafOf w) :
    w.LeftAt p (placeNode w.numbering p.exitPlace) := by
  refine ⟨_, kept_eq_layout hCoherent hLeaf.2, ?_⟩
  rcases isLeaf_cases hLeaf.1 with
    ⟨id, name, duration, rfl⟩ | ⟨id, resource, rfl⟩ | ⟨id, resource, rfl⟩
  · rfl
  · rfl
  · rfl

theorem before_iff_path (hCoherent : w.Coherent) (hp : p.LeafOf w) (hq : q.LeafOf w) :
    w.network.Before (placeNode w.numbering p.exitPlace) (placeNode w.numbering q.entryPlace) ↔
      TransGen w.chart.Link p.exitPlace q.entryPlace :=
  (network_renders hCoherent).before_iff (numbering_injOn hCoherent) (fun _ _ => mem_places_of_link)
    (exitPlace_mem hp) (entryPlace_mem hq)

/-- Between different leaves the network has a path exactly if it follows from the declared
order; what is declared directly is always kept. -/
theorem before_iff_declared_of_built (hBuilt : Built w) :
    (∀ p q : Workflow, p.LeafOf w → q.LeafOf w → p ≠ q →
      ∃ x y, w.LeftAt p x ∧ w.EnteredAt q y ∧
        (w.network.Before x y ↔ TransGen w.Declares p q)) ∧
    ∀ p q, w.Declares p q →
      ∃ x y, w.LeftAt p x ∧ w.EnteredAt q y ∧ w.network.Before x y := by
  have hMade := hBuilt.wellMade
  constructor
  · intro p q hp hq hNe
    refine ⟨_, _, leftAt_of_leaf hMade.coherent hp, enteredAt_of_leaf hMade.coherent hq, ?_⟩
    rw [before_iff_path hMade.coherent hp hq]
    exact path_iff_declared hMade hp hq hNe
  · intro p q hDeclares
    obtain ⟨hp, hq⟩ := hDeclares.leafOf
    refine ⟨_, _, leftAt_of_leaf hMade.coherent hp, enteredAt_of_leaf hMade.coherent hq, ?_⟩
    rw [before_iff_path hMade.coherent hp hq]
    exact path_of_declared (fun _ _ _ hSeq => hMade.mono hSeq) (.single hDeclares)

/-- Nothing puts picking before shipping directly, but both sides of the union together do. -/
theorem before_iff_declared_both :
    Built Sample.both ∧ Sample.pick.LeafOf Sample.both ∧ Sample.ship.LeafOf Sample.both ∧
      Sample.pick ≠ Sample.ship ∧
      ∃ x y, Sample.both.LeftAt Sample.pick x ∧ Sample.both.EnteredAt Sample.ship y ∧
        Sample.both.network.Before x y := by
  have hPick : Sample.pick.LeafOf Sample.both := ⟨rfl, .overlapFirst (.seqFirst .self)⟩
  have hShip : Sample.ship.LeafOf Sample.both := ⟨rfl, .overlapSecond (.seqSecond .self)⟩
  have hPack : Sample.pack.LeafOf Sample.pack := ⟨rfl, .self⟩
  have hNe : Sample.pick ≠ Sample.ship := by simp [Sample.pick, Sample.ship]
  have hFront : Sample.both.Declares Sample.pick Sample.pack :=
    ⟨_, _, _, .overlapFirst .self, ⟨rfl, .self⟩, hPack⟩
  have hBack : Sample.both.Declares Sample.pack Sample.ship :=
    ⟨_, _, _, .overlapSecond .self, hPack, ⟨rfl, .self⟩⟩
  obtain ⟨x, y, hx, hy, hOrder⟩ :=
    (before_iff_declared_of_built Sample.built_both).1 Sample.pick Sample.ship hPick hShip hNe
  have hBefore : Sample.both.network.Before x y := hOrder.2 (.tail (.single hFront) hBack)
  exact ⟨Sample.built_both, hPick, hShip, hNe, x, y, hx, hy, hBefore⟩

/-! ## Charts -/

/-- Compiling renders the chart.  One placement of nodes does so for the whole network and for
what the compilation keeps of every part.  Ids determine what they stand for in all that
drafting makes, and in each union that a merge tries out. -/
theorem network_renders_chart :
    (∀ w : Workflow, w.Coherent → ∃ place : Place → NodeId,
      Set.InjOn place w.chart.places ∧ w.network.Renders place w.chart ∧
        ∀ part : Workflow, part.Inside w → ∃ network, w.kept? part = some network ∧
          network.Renders place part.chart) ∧
    ∀ s shelf, Run s shelf → (∀ w ∈ shelf, w.Coherent) ∧
      ∀ first ∈ shelf, ∀ second ∈ shelf, (overlap ⟨s.workflows⟩ first second).Coherent := by
  constructor
  · intro w hCoherent
    exact ⟨placeNode w.numbering, numbering_injOn hCoherent, network_renders hCoherent,
      fun part hInside => kept_renders hCoherent hInside⟩
  · intro s shelf hRun
    have hStocked := hRun.stocked
    constructor
    · exact fun w hMem => (hStocked.wellMade (reached_of_mem hMem)).coherent
    · exact fun first hFirst second hSecond =>
        hStocked.coherent_union (reached_of_mem hFirst) (reached_of_mem hSecond)

theorem network_renders_chart_both :
    Run ⟨6, 0⟩ [Sample.both, Sample.back, Sample.front, Sample.ship, Sample.pack, Sample.pick] ∧
      Sample.both.Coherent ∧ ∃ place : Place → NodeId,
        Set.InjOn place Sample.both.chart.places ∧
          Sample.both.network.Renders place Sample.both.chart := by
  have hCoherent : Sample.both.Coherent :=
    (network_renders_chart.2 _ _ Sample.run_both).1 Sample.both List.mem_cons_self
  obtain ⟨place, hInj, hRenders, -⟩ := network_renders_chart.1 Sample.both hCoherent
  exact ⟨Sample.run_both, hCoherent, place, hInj, hRenders⟩

end Workflow

end ActivityNetwork
