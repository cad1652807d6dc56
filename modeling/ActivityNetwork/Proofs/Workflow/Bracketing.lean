import ActivityNetwork.Proofs.Workflow.Order
import ActivityNetwork.Proofs.Workflow.Succession

/-!
# Markers around a process

A process that holds resources stands between two unions of markers: one marker for each resource
on either side.  A workflow is `Wrapped` if its markers are all of this kind.  Then every marker
belongs to some holding (`Wrapped.exists_owner`), and a holding has one marker of each sort for each
of its resources (`Wrapped.exists_owned`, `Wrapped.owned_unique`).

Requests and releases are treated alike: a `MarkerSort` says which of the two sorts is meant.
-/

namespace ActivityNetwork

/-- The two sorts of markers. -/
inductive MarkerSort where
  | opening
  | closing
  deriving DecidableEq, Repr

namespace MarkerSort

/-- A marker of this sort. -/
def marker : MarkerSort → WorkflowId → Resource → Workflow
  | opening => .request
  | closing => .release

/-- What the node of such a marker marks. -/
def kind : MarkerSort → Resource → NodeKind
  | opening => .request
  | closing => .release

/-- The nodes at which the resource is requested or released. -/
def nodes : MarkerSort → Network → Resource → List NodeId
  | opening => Network.requestsOf
  | closing => Network.releasesOf

variable {b : MarkerSort} {id other : WorkflowId} {r q : Resource}

theorem isLeaf_marker (b : MarkerSort) (id : WorkflowId) (r : Resource) :
    (b.marker id r).isLeaf = true := by
  cases b <;> rfl

theorem id_marker (b : MarkerSort) (id : WorkflowId) (r : Resource) : (b.marker id r).id = id := by
  cases b <;> rfl

theorem entryPlace_marker (b : MarkerSort) (id : WorkflowId) (r : Resource) :
    (b.marker id r).entryPlace = .marker id := by
  cases b <;> rfl

theorem exitPlace_marker (b : MarkerSort) (id : WorkflowId) (r : Resource) :
    (b.marker id r).exitPlace = .marker id := by
  cases b <;> rfl

theorem marker_injective (h : b.marker id r = b.marker other q) : id = other ∧ r = q := by
  cases b with
  | opening => exact ⟨(Workflow.request.inj h).1, (Workflow.request.inj h).2⟩
  | closing => exact ⟨(Workflow.release.inj h).1, (Workflow.release.inj h).2⟩

theorem marker_ne {c : MarkerSort} (hNe : b ≠ c) : b.marker id r ≠ c.marker other q := by
  cases b <;> cases c <;> first | exact absurd rfl hNe | exact Workflow.noConfusion

theorem nodup_nodes (b : MarkerSort) (g : Network) (r : Resource) : (b.nodes g r).Nodup := by
  have hSelected : ∀ test : NodeId × NodeKind → Bool,
      ((g.nodes.entries.filter test).map Prod.fst).Nodup := fun test =>
    g.nodes.nodup.sublist (List.filter_sublist.map Prod.fst)
  cases b with
  | opening => exact hSelected _
  | closing => exact hSelected _

theorem mem_nodes {g : Network} {n : NodeId} :
    n ∈ b.nodes g r ↔ ∃ q, q.same r = true ∧ (n, b.kind q) ∈ g.nodes.entries := by
  have hSelected : ∀ test : NodeKind → Bool,
      n ∈ (g.nodes.entries.filter (test ·.2)).map Prod.fst ↔
        ∃ kind, test kind = true ∧ (n, kind) ∈ g.nodes.entries := by
    intro test
    simp [and_comm]
  cases b with
  | opening =>
      refine (hSelected (NodeKind.requests r)).trans ⟨?_, fun ⟨q, hNode⟩ => ⟨.request q, hNode⟩⟩
      rintro ⟨kind, hTest, hNode⟩
      cases kind with
      | boundary => cases hTest
      | request q => exact ⟨q, hTest, hNode⟩
      | release q => cases hTest
  | closing =>
      refine (hSelected (NodeKind.releases r)).trans ⟨?_, fun ⟨q, hNode⟩ => ⟨.release q, hNode⟩⟩
      rintro ⟨kind, hTest, hNode⟩
      cases kind with
      | boundary => cases hTest
      | request q => cases hTest
      | release q => exact ⟨q, hTest, hNode⟩

/-- A union of markers, one for each resource of the list. -/
inductive Marks (b : MarkerSort) : List Resource → Workflow → Prop
  | one (id : WorkflowId) (r : Resource) : Marks b [r] (b.marker id r)
  | more {resources : List Resource} {union : Workflow} (h : Marks b resources union)
      (id other : WorkflowId) (r : Resource) :
      Marks b (resources ++ [r]) (.overlap id union (b.marker other r))

end MarkerSort

namespace Workflow

open MarkerSort

variable {w h k leaf process expansion requests releases union : Workflow} {b : MarkerSort}
  {id other outer inner : WorkflowId} {r q : Resource} {resources : List Resource}

/-! ## Unions of markers -/

theorem leafOf_marker : leaf.LeafOf (b.marker id r) ↔ leaf = b.marker id r :=
  leafOf_of_isLeaf (isLeaf_marker b id r)

theorem exists_marker_of_leafOf (hMarks : b.Marks resources union) (hLeaf : leaf.LeafOf union) :
    ∃ id, ∃ r ∈ resources, leaf = b.marker id r := by
  induction hMarks with
  | one id r => exact ⟨id, r, List.mem_singleton_self r, leafOf_marker.1 hLeaf⟩
  | more hFront _ other r ih =>
      rcases leafOf_overlap.1 hLeaf with hOld | hNew
      · obtain ⟨id, q, hq, hEq⟩ := ih hOld
        exact ⟨id, q, List.mem_append_left _ hq, hEq⟩
      · exact ⟨other, r, by simp, leafOf_marker.1 hNew⟩

theorem exists_leafOf_marks (hMarks : b.Marks resources union) (hMem : r ∈ resources) :
    ∃ id, (b.marker id r).LeafOf union := by
  induction hMarks with
  | one id q =>
      rw [List.mem_singleton] at hMem
      exact ⟨id, leafOf_marker.2 (by rw [hMem])⟩
  | more _ _ other q ih =>
      rcases List.mem_append.1 hMem with hFront | hLast
      · obtain ⟨id, hLeaf⟩ := ih hFront
        exact ⟨id, leafOf_overlap.2 (Or.inl hLeaf)⟩
      · rw [List.mem_singleton] at hLast
        exact ⟨other, leafOf_overlap.2 (Or.inr (leafOf_marker.2 (by rw [hLast])))⟩

/-- Different resources have different markers, and each has one. -/
theorem marks_unique (hMarks : b.Marks resources union) (hNodup : (resources.map Resource.id).Nodup)
    (hFirst : (b.marker id r).LeafOf union) (hSecond : (b.marker other q).LeafOf union)
    (hSame : r.id = q.id) : id = other := by
  induction hMarks with
  | one m p =>
      rw [leafOf_marker] at hFirst hSecond
      exact (marker_injective hFirst).1.trans (marker_injective hSecond).1.symm
  | @more front union hFront _ m p ih =>
      rw [List.map_append, List.nodup_append] at hNodup
      obtain ⟨hNodupFront, -, hApart⟩ := hNodup
      -- The last resource is none of those before it.
      have hOld : ∀ i s, (b.marker i s).LeafOf union → s.id ≠ p.id := by
        intro i s hLeaf
        obtain ⟨j, t, ht, hEq⟩ := exists_marker_of_leafOf hFront hLeaf
        obtain ⟨-, rfl⟩ := marker_injective hEq
        exact hApart _ (List.mem_map_of_mem ht) _ (by simp)
      rw [leafOf_overlap, leafOf_marker] at hFirst hSecond
      rcases hFirst with hOldFirst | hNewFirst <;> rcases hSecond with hOldSecond | hNewSecond
      · exact ih hNodupFront hOldFirst hOldSecond
      · obtain ⟨-, rfl⟩ := marker_injective hNewSecond
        exact absurd hSame (hOld id r hOldFirst)
      · obtain ⟨-, rfl⟩ := marker_injective hNewFirst
        exact absurd hSame.symm (hOld other q hOldSecond)
      · exact (marker_injective hNewFirst).1.trans (marker_injective hNewSecond).1.symm

theorem not_holding_inside_marks (hMarks : b.Marks resources union) {held : List Resource} :
    ¬ (holding id process held expansion).Inside union := by
  have hMarker : ∀ other r, ¬ (holding id process held expansion).Inside (b.marker other r) := by
    intro other r hInside
    have hSelf := (inside_of_isLeaf (isLeaf_marker b other r)).1 hInside
    cases b <;> cases hSelf
  induction hMarks with
  | one other r => exact hMarker other r
  | more _ _ other r ih =>
      intro hInside
      rcases inside_overlap.1 hInside with hSelf | hFront | hLast
      · cases hSelf
      · exact ih hFront
      · exact hMarker other r hLast

/-! ## Wrapped workflows -/

/-- The expansion puts the process between one marker for each resource on either side. -/
inductive Expands (process : Workflow) (resources : List Resource) : Workflow → Prop
  | between {requests releases : Workflow} (outer inner : WorkflowId)
      (hRequests : opening.Marks resources requests)
      (hReleases : closing.Marks resources.reverse releases) :
      Expands process resources (seq outer (seq inner requests process) releases)

/-- Markers stand around processes only. -/
def Wrapped : Workflow → Prop
  | activity .. => True
  | request .. => False
  | release .. => False
  | seq _ first second => first.Wrapped ∧ second.Wrapped
  | overlap _ first second => first.Wrapped ∧ second.Wrapped
  | holding _ process resources expansion =>
      process.Wrapped ∧ (resources.map Resource.id).Nodup ∧ Expands process resources expansion

/-- The marker stands around the process of the holding. -/
inductive Owns (leaf : Workflow) : MarkerSort → Workflow → Prop
  | opening {id outer inner : WorkflowId} {process requests releases : Workflow}
      {resources : List Resource} (hLeaf : leaf.LeafOf requests) :
      Owns leaf .opening
        (holding id process resources (seq outer (seq inner requests process) releases))
  | closing {id outer inner : WorkflowId} {process requests releases : Workflow}
      {resources : List Resource} (hLeaf : leaf.LeafOf releases) :
      Owns leaf .closing
        (holding id process resources (seq outer (seq inner requests process) releases))

/-- The process holds the resource. -/
def Holds (r : Resource) : Workflow → Prop
  | holding _ _ resources _ => ∃ q ∈ resources, q.same r = true
  | _ => False

theorem Owns.inside (hOwns : Owns leaf b h) : leaf.LeafOf h := by
  cases hOwns with
  | opening hLeaf => exact leafOf_holding.2 (leafOf_seq.2 (Or.inl (leafOf_seq.2 (Or.inl hLeaf))))
  | closing hLeaf => exact leafOf_holding.2 (leafOf_seq.2 (Or.inr hLeaf))

/-- What a holding contains besides itself and its markers is inside its process. -/
theorem Wrapped.inside_holding {held : List Resource} {other : WorkflowId}
    {inside expanded : Workflow} (hWrapped : (holding id process resources expansion).Wrapped)
    (hInside : (holding other inside held expanded).Inside (holding id process resources expansion)) :
    holding other inside held expanded = holding id process resources expansion ∨
      (holding other inside held expanded).Inside process := by
  obtain ⟨-, -, outer, inner, hRequests, hReleases⟩ := hWrapped
  rcases ActivityNetwork.Workflow.inside_holding.1 hInside with hSelf | hExpansion
  · exact Or.inl hSelf
  · rcases inside_seq.1 hExpansion with hSelf | hFront | hBack
    · cases hSelf
    · rcases inside_seq.1 hFront with hSelf | hRequest | hProcess
      · cases hSelf
      · exact absurd hRequest (not_holding_inside_marks hRequests)
      · exact Or.inr hProcess
    · exact absurd hBack (not_holding_inside_marks hReleases)

theorem Wrapped.owner_cases (hWrapped : (holding id process resources expansion).Wrapped)
    (hInside : h.Inside (holding id process resources expansion)) (hOwns : Owns leaf b h) :
    h = holding id process resources expansion ∨ h.Inside process := by
  cases hOwns with
  | opening => exact hWrapped.inside_holding hInside
  | closing => exact hWrapped.inside_holding hInside

/-- Whatever holds resources in a wrapped workflow is wrapped itself. -/
theorem Wrapped.mono (hWrapped : w.Wrapped)
    (hInside : (holding id process resources expansion).Inside w) :
    (holding id process resources expansion).Wrapped := by
  induction w with
  | activity => cases hInside
  | request => cases hInside
  | release => cases hInside
  | seq _ first second ihFirst ihSecond =>
      rcases inside_seq.1 hInside with hSelf | hFirst | hSecond
      · cases hSelf
      · exact ihFirst hWrapped.1 hFirst
      · exact ihSecond hWrapped.2 hSecond
  | overlap _ first second ihFirst ihSecond =>
      rcases inside_overlap.1 hInside with hSelf | hFirst | hSecond
      · cases hSelf
      · exact ihFirst hWrapped.1 hFirst
      · exact ihSecond hWrapped.2 hSecond
  | holding _ wrapped _ _ ihProcess _ =>
      rcases hWrapped.inside_holding hInside with hSelf | hProcess
      · rw [hSelf]
        exact hWrapped
      · exact ihProcess hWrapped.1 hProcess

/-- Every marker of a wrapped workflow stands around some process. -/
theorem Wrapped.exists_owner (hWrapped : w.Wrapped) (hLeaf : (b.marker id r).LeafOf w) :
    ∃ h : Workflow, h.Inside w ∧ Owns (b.marker id r) b h ∧ h.Holds r := by
  induction w with
  | activity =>
      have hSelf := (leafOf_of_isLeaf rfl).1 hLeaf
      cases b <;> cases hSelf
  | request => exact hWrapped.elim
  | release => exact hWrapped.elim
  | seq _ first second ihFirst ihSecond =>
      rcases leafOf_seq.1 hLeaf with hFirst | hSecond
      · obtain ⟨h, hInside, hOwned⟩ := ihFirst hWrapped.1 hFirst
        exact ⟨h, .seqFirst hInside, hOwned⟩
      · obtain ⟨h, hInside, hOwned⟩ := ihSecond hWrapped.2 hSecond
        exact ⟨h, .seqSecond hInside, hOwned⟩
  | overlap _ first second ihFirst ihSecond =>
      rcases leafOf_overlap.1 hLeaf with hFirst | hSecond
      · obtain ⟨h, hInside, hOwned⟩ := ihFirst hWrapped.1 hFirst
        exact ⟨h, .overlapFirst hInside, hOwned⟩
      · obtain ⟨h, hInside, hOwned⟩ := ihSecond hWrapped.2 hSecond
        exact ⟨h, .overlapSecond hInside, hOwned⟩
  | holding m process resources expansion ihProcess _ =>
      obtain ⟨hProcess, -, outer, inner, hRequests, hReleases⟩ := hWrapped
      rcases leafOf_seq.1 (leafOf_holding.1 hLeaf) with hFront | hRelease
      · rcases leafOf_seq.1 hFront with hRequest | hInner
        · obtain ⟨i, q, hq, hEq⟩ := exists_marker_of_leafOf hRequests hRequest
          cases b with
          | opening =>
              obtain ⟨-, rfl⟩ := marker_injective hEq
              exact ⟨_, .self, .opening hRequest, r, hq, by simp [Resource.same]⟩
          | closing => exact absurd hEq (marker_ne (by decide))
        · obtain ⟨h, hInside, hOwned⟩ := ihProcess hProcess hInner
          exact ⟨h, .expansion (.seqFirst (.seqSecond hInside)), hOwned⟩
      · obtain ⟨i, q, hq, hEq⟩ := exists_marker_of_leafOf hReleases hRelease
        cases b with
        | opening => exact absurd hEq (marker_ne (by decide))
        | closing =>
            obtain ⟨-, rfl⟩ := marker_injective hEq
            exact ⟨_, .self, .closing hRelease, r, List.mem_reverse.1 hq, by simp [Resource.same]⟩

/-- A holding has a marker of each sort for each of its resources. -/
theorem Wrapped.exists_owned (hWrapped : w.Wrapped) (hInside : h.Inside w) (hHolds : h.Holds r)
    (b : MarkerSort) : ∃ id q, q.same r = true ∧ Owns (b.marker id q) b h := by
  cases h with
  | holding m process resources expansion =>
      obtain ⟨-, -, outer, inner, hRequests, hReleases⟩ := hWrapped.mono hInside
      obtain ⟨q, hq, hSame⟩ := hHolds
      cases b with
      | opening =>
          obtain ⟨id, hLeaf⟩ := exists_leafOf_marks hRequests hq
          exact ⟨id, q, hSame, .opening hLeaf⟩
      | closing =>
          obtain ⟨id, hLeaf⟩ := exists_leafOf_marks hReleases (List.mem_reverse.2 hq)
          exact ⟨id, q, hSame, .closing hLeaf⟩
  | activity => exact hHolds.elim
  | request => exact hHolds.elim
  | release => exact hHolds.elim
  | seq => exact hHolds.elim
  | overlap => exact hHolds.elim

/-- It has no more than that. -/
theorem Wrapped.owned_unique (hWrapped : w.Wrapped) (hInside : h.Inside w)
    (hFirst : Owns (b.marker id r) b h) (hSecond : Owns (b.marker other q) b h)
    (hSame : r.id = q.id) : id = other := by
  cases hFirst with
  | opening hLeaf =>
      obtain ⟨-, hNodup, hExpands⟩ := hWrapped.mono hInside
      cases hExpands with
      | between _ _ hRequests hReleases =>
          cases hSecond with
          | opening hOther => exact marks_unique hRequests hNodup hLeaf hOther hSame
  | closing hLeaf =>
      obtain ⟨-, hNodup, hExpands⟩ := hWrapped.mono hInside
      cases hExpands with
      | between _ _ hRequests hReleases =>
          cases hSecond with
          | closing hOther =>
              have hReverse := List.nodup_reverse.2 hNodup
              rw [← List.map_reverse] at hReverse
              exact marks_unique hReleases hReverse hLeaf hOther hSame

end Workflow

end ActivityNetwork
