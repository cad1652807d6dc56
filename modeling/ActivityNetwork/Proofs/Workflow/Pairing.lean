import ActivityNetwork.Proofs.Workflow.Bracketing
import Mathlib.Data.Set.Card

/-!
# Pairs of requests and releases

Where no marker stands around two processes, the network of a wrapped workflow has one request and
one release of a resource for each part that holds it (`exists_bijOn_nodes`).  They are the nodes of
the markers in the expansion of that part (`StandsAt`).  The network orders them: whatever belongs
to the process comes after the request and before the release, because the expansion puts the
process in sequence between the two (`path_from_opening`, `path_to_closing`).
-/

namespace ActivityNetwork

open Relation

namespace Workflow

open MarkerSort

variable {w p process expansion : Workflow} {b : MarkerSort} {id m : WorkflowId} {r q : Resource}
  {resources : List Resource} {x : Place}

/-- The parts of `w` that hold the resource. -/
def holdings (w : Workflow) (r : Resource) : Set Workflow :=
  { h | h.Inside w ∧ h.Holds r }

/-- No marker stands around two processes. -/
def SolelyOwned (w : Workflow) : Prop :=
  ∀ b leaf (h k : Workflow), h.Inside w → k.Inside w → Owns leaf b h → Owns leaf b k → h = k

/-- The node is that of a marker which `h` has for the resource. -/
def StandsAt (w : Workflow) (b : MarkerSort) (r : Resource) (h : Workflow) (n : NodeId) : Prop :=
  ∃ id q, q.same r = true ∧ Owns (b.marker id q) b h ∧ placeNode w.numbering (.marker id) = n

/-- The requests and the releases of the resource belong to the parts that hold it, one of each to
one part: they are the nodes of the markers in the expansion of that part.  Every node of the
process lies between the two. -/
structure Bracketed (w : Workflow) (r : Resource) (request release : Workflow → NodeId) :
    Prop where
  requests : Set.BijOn request (w.holdings r) { n | n ∈ w.network.requestsOf r }
  releases : Set.BijOn release (w.holdings r) { n | n ∈ w.network.releasesOf r }
  opened : ∀ h ∈ w.holdings r, w.StandsAt .opening r h (request h)
  closed : ∀ h ∈ w.holdings r, w.StandsAt .closing r h (release h)
  between : ∀ id process resources expansion,
    holding id process resources expansion ∈ w.holdings r → ∀ p : Workflow, p.LeafOf process →
      ∃ g, w.kept? p = some g ∧ ∀ n ∈ g.nodes.keys,
        w.network.Before (request (holding id process resources expansion)) n ∧
          w.network.Before n (release (holding id process resources expansion))

/-! ## The nodes of markers -/

theorem marker_of_mem_nodes {leaf : Workflow} (hLeaf : leaf.isLeaf = true)
    (hNode : (x, b.kind r) ∈ leaf.chart.nodes) :
    ∃ id, leaf = b.marker id r ∧ x = .marker id := by
  rcases isLeaf_cases hLeaf with
    ⟨id, name, duration, rfl⟩ | ⟨id, resource, rfl⟩ | ⟨id, resource, rfl⟩
  · rcases hNode with hEntry | hExit
    · cases b <;> cases hEntry
    · cases b <;> cases hExit
  · cases b <;> cases hNode
    exact ⟨id, rfl, rfl⟩
  · cases b <;> cases hNode
    exact ⟨id, rfl, rfl⟩

theorem mem_marker_nodes (hCoherent : w.Coherent) {n : NodeId} :
    n ∈ b.nodes w.network r ↔ ∃ id q, q.same r = true ∧ (b.marker id q).LeafOf w ∧
      placeNode w.numbering (.marker id) = n := by
  have hRenders := network_renders hCoherent
  rw [mem_nodes]
  constructor
  · rintro ⟨q, hSame, hNode⟩
    obtain ⟨⟨x, kind⟩, hx, hEq⟩ := hRenders.mem_nodes.1 hNode
    obtain ⟨rfl, rfl⟩ := Prod.mk.inj hEq
    obtain ⟨leaf, hLeaf, hOwn⟩ := mem_nodes_chart.1 hx
    obtain ⟨id, rfl, rfl⟩ := marker_of_mem_nodes hLeaf.1 hOwn
    exact ⟨id, q, hSame, hLeaf, rfl⟩
  · rintro ⟨id, q, hSame, hLeaf, rfl⟩
    have hOwn : (Place.marker id, b.kind q) ∈ (b.marker id q).chart.nodes := by
      cases b <;> rfl
    exact ⟨q, hSame, hRenders.mem_nodes.2 ⟨_, mem_nodes_chart.2 ⟨_, hLeaf, hOwn⟩, rfl⟩⟩

theorem marker_mem_places (hLeaf : (b.marker m q).LeafOf w) : .marker m ∈ w.chart.places :=
  entryPlace_marker b m q ▸ entryPlace_mem hLeaf

theorem Holds.of_same {h : Workflow} (hHolds : h.Holds q) (hSame : q.same r = true) :
    h.Holds r := by
  cases h with
  | holding id process resources expansion =>
      obtain ⟨p, hp, hEq⟩ := hHolds
      rw [Resource.same_iff] at hSame hEq
      exact ⟨p, hp, (Resource.same_iff p r).2 (hEq.trans hSame)⟩
  | activity => exact hHolds.elim
  | request => exact hHolds.elim
  | release => exact hHolds.elim
  | seq => exact hHolds.elim
  | overlap => exact hHolds.elim

/-! ## Which node belongs to which holding -/

section StandsAt

variable {h k : Workflow} {n : NodeId}

theorem StandsAt.mem_nodes (hStands : w.StandsAt b r h n) (hCoherent : w.Coherent)
    (hInside : h.Inside w) : n ∈ b.nodes w.network r := by
  obtain ⟨id, q, hSame, hOwns, hNode⟩ := hStands
  exact (mem_marker_nodes hCoherent).2 ⟨id, q, hSame, hOwns.inside.trans hInside, hNode⟩

/-- A node belongs to one marker, and a marker to one holding. -/
theorem StandsAt.holding_unique (hFirst : w.StandsAt b r h n) (hSecond : w.StandsAt b r k n)
    (hCoherent : w.Coherent) (hSole : w.SolelyOwned) (hInsideH : h.Inside w)
    (hInsideK : k.Inside w) : h = k := by
  obtain ⟨id, q, -, hOwnsH, rfl⟩ := hFirst
  obtain ⟨other, p, -, hOwnsK, hEq⟩ := hSecond
  have hLeafH := hOwnsH.inside.trans hInsideH
  have hLeafK := hOwnsK.inside.trans hInsideK
  have hPlace : Place.marker other = Place.marker id :=
    numbering_injOn hCoherent (marker_mem_places hLeafK) (marker_mem_places hLeafH) hEq
  have hMarker : b.marker other p = b.marker id q := by
    refine hCoherent _ _ hLeafK.2 hLeafH.2 ?_
    rw [id_marker, id_marker]
    exact Place.marker.inj hPlace
  exact hSole b _ h k hInsideH hInsideK hOwnsH (hMarker ▸ hOwnsK)

theorem StandsAt.node_unique {m : NodeId} (hFirst : w.StandsAt b r h n)
    (hSecond : w.StandsAt b r h m) (hWrapped : w.Wrapped) (hInside : h.Inside w) : n = m := by
  obtain ⟨id, q, hSame, hOwns, rfl⟩ := hFirst
  obtain ⟨other, p, hSameOther, hOwnsOther, rfl⟩ := hSecond
  rw [Resource.same_iff] at hSame hSameOther
  rw [hWrapped.owned_unique hInside hOwns hOwnsOther (hSame.trans hSameOther.symm)]

theorem exists_standsAt_of_holds (hWrapped : w.Wrapped) (b : MarkerSort)
    (hHolds : h ∈ w.holdings r) : ∃ n, w.StandsAt b r h n := by
  obtain ⟨id, q, hSame, hOwns⟩ := hWrapped.exists_owned hHolds.1 hHolds.2 b
  exact ⟨_, id, q, hSame, hOwns, rfl⟩

theorem exists_standsAt_of_mem (hCoherent : w.Coherent) (hWrapped : w.Wrapped)
    (hn : n ∈ b.nodes w.network r) : ∃ h ∈ w.holdings r, w.StandsAt b r h n := by
  obtain ⟨id, q, hSame, hLeaf, hNode⟩ := (mem_marker_nodes hCoherent).1 hn
  obtain ⟨h, hInside, hOwns, hHolds⟩ := hWrapped.exists_owner hLeaf
  exact ⟨h, ⟨hInside, hHolds.of_same hSame⟩, id, q, hSame, hOwns, hNode⟩

end StandsAt

/-- Each part that holds the resource has one marker of either sort for it. -/
theorem exists_bijOn_nodes (hMade : w.WellMade) (hWrapped : w.Wrapped) (hSole : w.SolelyOwned)
    (b : MarkerSort) (r : Resource) :
    ∃ node : Workflow → NodeId,
      Set.BijOn node (w.holdings r) { n | n ∈ b.nodes w.network r } ∧
        ∀ h ∈ w.holdings r, w.StandsAt b r h (node h) := by
  have hExists : ∀ h ∈ w.holdings r, ∃ n, w.StandsAt b r h n := fun h hHolds =>
    exists_standsAt_of_holds hWrapped b hHolds
  choose! node hNode using hExists
  refine ⟨node, ⟨?_, ?_, ?_⟩, hNode⟩
  · exact fun h hHolds => (hNode h hHolds).mem_nodes hMade.coherent hHolds.1
  · intro h hHoldsH k hHoldsK hShared
    have hOther := hNode k hHoldsK
    rw [← hShared] at hOther
    exact (hNode h hHoldsH).holding_unique hOther hMade.coherent hSole hHoldsH.1 hHoldsK.1
  · intro n hn
    obtain ⟨h, hHolds, hStands⟩ := exists_standsAt_of_mem hMade.coherent hWrapped hn
    exact ⟨h, hHolds, (hNode h hHolds).node_unique hStands hWrapped hHolds.1⟩

/-! ## The process between its markers -/

theorem path_from_opening (hMade : w.WellMade)
    (hInside : (holding id process resources expansion).Inside w)
    (hOwns : Owns (opening.marker m q) .opening (holding id process resources expansion))
    (hp : p.LeafOf process) (hx : x ∈ p.chart.places) :
    TransGen w.chart.Link (.marker m) x := by
  cases hOwns with
  | @opening _ _ inner _ requests _ _ hLeaf =>
      have hSeq : (seq inner requests process).Inside w :=
        Inside.trans (.expansion (.seqFirst .self)) hInside
      have hEntered := path_of_declared (fun _ _ _ h => hMade.mono h)
        (.single ⟨inner, requests, process, hSeq, hLeaf, hp⟩)
      rw [exitPlace_marker] at hEntered
      rcases (mem_places_of_isLeaf hp.1).1 hx with rfl | rfl
      · exact hEntered
      · rcases link_of_isLeaf hp.1 with hSame | hThrough
        · exact hSame ▸ hEntered
        · exact hEntered.tail (link_mono (hp.2.trans (Inside.trans (.seqSecond .self) hSeq)) hThrough)

theorem path_to_closing (hMade : w.WellMade)
    (hInside : (holding id process resources expansion).Inside w)
    (hOwns : Owns (closing.marker m q) .closing (holding id process resources expansion))
    (hp : p.LeafOf process) (hx : x ∈ p.chart.places) :
    TransGen w.chart.Link x (.marker m) := by
  cases hOwns with
  | @closing _ outer inner _ requests releases _ hLeaf =>
      have hSeq : (seq outer (seq inner requests process) releases).Inside w :=
        Inside.trans (.expansion .self) hInside
      have hFront : p.LeafOf (seq inner requests process) := leafOf_seq.2 (Or.inr hp)
      have hLeft := path_of_declared (fun _ _ _ h => hMade.mono h)
        (.single ⟨outer, seq inner requests process, releases, hSeq, hFront, hLeaf⟩)
      rw [entryPlace_marker] at hLeft
      rcases (mem_places_of_isLeaf hp.1).1 hx with rfl | rfl
      · rcases link_of_isLeaf hp.1 with hSame | hThrough
        · exact hSame ▸ hLeft
        · exact hLeft.head (link_mono (hFront.2.trans (Inside.trans (.seqFirst .self) hSeq)) hThrough)
      · exact hLeft

/-- A wrapped workflow brackets whatever holds the resource. -/
theorem exists_bracketed (hMade : w.WellMade) (hWrapped : w.Wrapped) (hSole : w.SolelyOwned)
    (r : Resource) : ∃ request release, w.Bracketed r request release := by
  obtain ⟨request, hRequests, hOpening⟩ := exists_bijOn_nodes hMade hWrapped hSole .opening r
  obtain ⟨release, hReleases, hClosing⟩ := exists_bijOn_nodes hMade hWrapped hSole .closing r
  refine ⟨request, release, hRequests, hReleases, hOpening, hClosing, ?_⟩
  intro id process resources expansion hHolds p hp
  obtain ⟨first, q, -, hOwnsFirst, hFirst⟩ := hOpening _ hHolds
  obtain ⟨last, q', -, hOwnsLast, hLast⟩ := hClosing _ hHolds
  have hRenders := network_renders hMade.coherent
  -- The process is a part of the expansion, and so are its leaves.
  have hPart : p.Inside w := by
    cases hOwnsFirst with
    | opening => exact hp.2.trans (Inside.trans (.expansion (.seqFirst (.seqSecond .self))) hHolds.1)
  refine ⟨_, kept_eq_layout hMade.coherent hPart, fun n hn => ?_⟩
  obtain ⟨x, hx, rfl⟩ :=
    (part_renders hMade.coherent (numbering_injOn hMade.coherent) hPart).mem_keys.1 hn
  rw [← hFirst, ← hLast]
  exact ⟨hRenders.before_of_path (path_from_opening hMade hHolds.1 hOwnsFirst hp hx),
    hRenders.before_of_path (path_to_closing hMade hHolds.1 hOwnsLast hp hx)⟩

/-! ## Counting and pairing -/

variable {request release : Workflow → NodeId}

theorem ncard_marker_nodes (b : MarkerSort) (g : Network) (r : Resource) :
    { n | n ∈ b.nodes g r }.ncard = (b.nodes g r).length := by
  have hFinset : { n | n ∈ b.nodes g r } = ((b.nodes g r).toFinset : Set NodeId) := by
    ext n
    simp
  rw [hFinset, Set.ncard_coe_finset, List.toFinset_card_of_nodup (nodup_nodes b g r)]

/-- There are as many requests as releases, namely as many as parts that hold the resource. -/
theorem Bracketed.length_eq (hBracketed : w.Bracketed r request release) :
    (w.network.requestsOf r).length = (w.holdings r).ncard ∧
      (w.network.releasesOf r).length = (w.holdings r).ncard := by
  rw [hBracketed.requests.ncard_eq]
  refine ⟨(ncard_marker_nodes .opening w.network r).symm, ?_⟩
  rw [← hBracketed.requests.ncard_eq, hBracketed.releases.ncard_eq]
  exact (ncard_marker_nodes .closing w.network r).symm

/-- Each request has a release of its own. -/
theorem Bracketed.exists_partner (hBracketed : w.Bracketed r request release) :
    ∃ partner : NodeId → NodeId,
      Set.BijOn partner { n | n ∈ w.network.requestsOf r } { n | n ∈ w.network.releasesOf r } ∧
        ∀ h ∈ w.holdings r, partner (request h) = release h := by
  have hInverse := hBracketed.requests.invOn_invFunOn
  have hBack : Set.BijOn (Function.invFunOn request (w.holdings r))
      { n | n ∈ w.network.requestsOf r } (w.holdings r) :=
    hInverse.symm.bijOn hBracketed.requests.surjOn.mapsTo_invFunOn hBracketed.requests.mapsTo
  refine ⟨_, hBracketed.releases.comp hBack, fun h hHolds => ?_⟩
  exact congrArg release (hInverse.1 hHolds)

end Workflow

end ActivityNetwork
