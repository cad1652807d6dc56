import ActivityNetwork.Proofs.Draft.Networks
import ActivityNetwork.Proofs.Workflow.Pairing

/-!
# Holding resources

If markers come from `holding` alone, they come in pairs, whatever is done afterwards with the
process and with what holds it.  A `PlainRun` is a run of that kind: it calls neither `request` nor
`release`, and takes no part out of a workflow.

What such a run keeps is that the shelf is `Tended`: markers stand around processes only, and no
marker stands around two.  An operation that puts workflows together adds no holding, so it keeps
this by keeping to its operands (`Composes`, `yields_draft`).  `holding` makes markers that nothing
on the shelf has (`tended_holding`).

The network then has for each holding of a resource one node that requests it and one that releases
it, with the process between the two (`bracketed_of_plainRun`).
-/

namespace ActivityNetwork

open Relation Workflow

/-! ## What drafts yield -/

namespace Draft

/-- Whatever the draft makes has the property. -/
def Yields {α : Type} (d : Draft α) (P : α → Prop) : Prop :=
  ∀ s a t, d s = .ok a t → P a

section Steps

variable {α β : Type} {d : Draft α} {f : α → Draft β} {P : α → Prop} {Q : β → Prop}

theorem yields_pure {a : α} (h : P a) : Yields (pure a) P := by
  intro s b t hDone
  cases hDone
  exact h

theorem yields_throw (fault : Fault) : Yields (throw fault) P := by
  intro s a t hDone
  cases hDone

theorem Yields.bind (hFirst : Yields d P) (hNext : ∀ a, P a → Yields (f a) Q) :
    Yields (d >>= f) Q := by
  intro s b u hDone
  obtain ⟨a, t, hMade, hRest⟩ := bind_ok hDone
  exact hNext a (hFirst s a t hMade) t b u hRest

theorem yields_foldlM {step : α → β → Draft α} {items : List β} {start : α}
    (hStep : ∀ acc, P acc → ∀ item ∈ items, Yields (step acc item) P) (hStart : P start) :
    Yields (items.foldlM step start) P := by
  induction items generalizing start with
  | nil => exact yields_pure hStart
  | cons item items ih =>
      rw [List.foldlM_cons]
      refine (hStep start hStart item List.mem_cons_self).bind fun acc hAcc => ?_
      exact ih (fun acc hAcc other hOther => hStep acc hAcc other (List.mem_cons_of_mem _ hOther))
        hAcc

theorem yields_mapM {draft : β → Draft α} {items : List β}
    (hDraft : ∀ item ∈ items, Yields (draft item) P) :
    Yields (items.mapM draft) fun made => ∀ a ∈ made, P a := by
  induction items with
  | nil =>
      rw [List.mapM_nil]
      exact yields_pure fun a hMem => absurd hMem List.not_mem_nil
  | cons item items ih =>
      rw [List.mapM_cons]
      refine (hDraft item List.mem_cons_self).bind fun a ha => ?_
      have hRest := ih fun other hOther => hDraft other (List.mem_cons_of_mem _ hOther)
      refine hRest.bind fun made hMade => yields_pure fun x hx => ?_
      rcases List.mem_cons.1 hx with rfl | hOther
      · exact ha
      · exact hMade x hOther

end Steps

theorem merge_ok {first second w : Workflow} {s t : Supply}
    (hDone : merge first second s = .ok w t) :
    w = overlap ⟨s.workflows⟩ first second ∧ t = { s with workflows := s.workflows + 1 } := by
  cases hOrder : (overlap ⟨s.workflows⟩ first second).network.topologicalOrder with
  | ok order =>
      rw [merge_of_ordered s hOrder] at hDone
      cases hDone
      exact ⟨rfl, rfl⟩
  | error fault =>
      simp only [merge, newWorkflowId, bind, EStateM.bind, hOrder] at hDone
      cases fault <;> cases hDone

/-! ## What is put together from workflows -/

/-- The property passes from workflows to what is put together from them. -/
structure Composes (P : Workflow → Prop) : Prop where
  activity : ∀ id name duration, P (.activity id name duration)
  seq : ∀ id first second, P first → P second → P (.seq id first second)
  overlap : ∀ id first second, P first → P second → P (.overlap id first second)

section Composes

variable {P : Workflow → Prop} (hP : Composes P) {first second : Workflow} {ws : List Workflow}
include hP

theorem yields_activity (name : String) (duration : Duration) :
    Yields (activity name duration) P := by
  intro s w t hDone
  cases hDone
  exact hP.activity _ name duration

theorem yields_sequence (hFirst : P first) (hSecond : P second) :
    Yields (sequence first second) P := by
  intro s w t hDone
  rw [sequence_ok hDone]
  exact hP.seq _ first second hFirst hSecond

theorem yields_merge (hFirst : P first) (hSecond : P second) : Yields (merge first second) P := by
  intro s w t hDone
  rw [(merge_ok hDone).1]
  exact hP.overlap _ first second hFirst hSecond

theorem yields_chain (hWs : ∀ w ∈ ws, P w) : Yields (chain ws) P := by
  cases ws with
  | nil => exact yields_throw _
  | cons first rest =>
      refine yields_foldlM (fun acc hAcc w hMem => ?_) (hWs first List.mem_cons_self)
      exact yields_sequence hP hAcc (hWs w (List.mem_cons_of_mem _ hMem))

theorem yields_mergeAll (hWs : ∀ w ∈ ws, P w) : Yields (mergeAll ws) P := by
  cases ws with
  | nil => exact yields_throw _
  | cons first rest =>
      refine (yields_pure (hWs first List.mem_cons_self)).bind fun start hStart => ?_
      refine yields_foldlM (fun union hUnion w hMem => ?_) hStart
      refine (yields_pure (hWs w (List.mem_cons_of_mem _ hMem))).bind fun v hv => ?_
      exact yields_merge hP hUnion hv

theorem yields_simultaneous (hBranches : ∀ w ∈ ws, P w) : Yields (simultaneous ws) P := by
  refine (yields_activity hP "idle" .zero).bind fun entry hEntry => ?_
  refine (yields_activity hP "idle" .zero).bind fun exit hExit => ?_
  have hFramed : Yields (ws.mapM fun branch => chain [entry, branch, exit])
      fun framed => ∀ w ∈ framed, P w :=
    yields_mapM fun branch hMem => yields_chain hP (by simp [hEntry, hExit, hBranches branch hMem])
  refine hFramed.bind fun framed hWs => ?_
  cases framed with
  | nil => exact yields_throw _
  | cons first rest => exact yields_mergeAll hP hWs

end Composes

/-! ## Markers for a list of resources -/

/-- Drafts a marker. -/
def markerOf : MarkerSort → Resource → Draft Workflow
  | .opening => request
  | .closing => release

theorem markerOf_ok (b : MarkerSort) (r : Resource) (s : Supply) :
    markerOf b r s =
      .ok (b.marker ⟨s.workflows⟩ r) { s with workflows := s.workflows + 1 } := by
  cases b <;> rfl

theorem mergeEach_concat {α : Type} (draft : α → Draft Workflow) {items : List α} (h : items ≠ [])
    (last : α) :
    mergeEach draft (items ++ [last]) =
      mergeEach draft items >>= fun union => draft last >>= fun w => merge union w := by
  cases items with
  | nil => exact absurd rfl h
  | cons first rest => simp [mergeEach, List.foldlM_append]

/-- Merged markers are one for each resource, and all of them are new. -/
theorem marks_of_mergeEach {b : MarkerSort} {resources : List Resource} {union : Workflow}
    {s t : Supply} (hDone : mergeEach (markerOf b) resources s = .ok union t) :
    b.Marks resources union ∧ s.workflows ≤ t.workflows ∧
      ∀ leaf : Workflow, leaf.LeafOf union → s.workflows ≤ leaf.id.index := by
  induction resources using List.reverseRecOn generalizing union t with
  | nil => cases hDone
  | append_singleton front last ih =>
      by_cases hFront : front = []
      · subst hFront
        have hOne : markerOf b last s = .ok union t := by
          simpa [mergeEach] using hDone
        rw [markerOf_ok] at hOne
        cases hOne
        refine ⟨.one _ last, Nat.le_succ _, fun leaf hLeaf => ?_⟩
        rw [leafOf_marker.1 hLeaf, MarkerSort.id_marker]
      · rw [mergeEach_concat _ hFront] at hDone
        obtain ⟨old, between, hOld, hRest⟩ := bind_ok hDone
        rw [bind_of_ok (markerOf_ok b last between)] at hRest
        obtain ⟨rfl, rfl⟩ := merge_ok hRest
        obtain ⟨hMarks, hLe, hNew⟩ := ih hOld
        refine ⟨hMarks.more _ _ last, ?_, fun leaf hLeaf => ?_⟩
        · show s.workflows ≤ between.workflows + 1 + 1
          omega
        · rcases leafOf_overlap.1 hLeaf with hFirst | hLast
          · exact hNew leaf hFirst
          · rw [leafOf_marker.1 hLast, MarkerSort.id_marker]
            exact hLe

/-- Holding puts new markers around the process. -/
theorem holding_ok {process w : Workflow} {resources : List Resource} {s t : Supply}
    (hDone : holding process resources s = .ok w t) :
    (resources.map Resource.id).Nodup ∧ ∃ id outer inner requests releases,
      w = .holding id process resources (seq outer (seq inner requests process) releases) ∧
        MarkerSort.opening.Marks resources requests ∧
        MarkerSort.closing.Marks resources.reverse releases ∧
        ∀ leaf : Workflow, leaf.LeafOf requests ∨ leaf.LeafOf releases →
          s.workflows ≤ leaf.id.index := by
  cases hRepeat : Resource.firstRepeat? [] resources with
  | some r =>
      rw [holding_of_repeat process hRepeat] at hDone
      cases hDone
  | none =>
      refine ⟨((Resource.firstRepeat?_eq_none_iff [] resources).1 hRepeat).1, ?_⟩
      by_cases hEmpty : resources.isEmpty = true
      · rw [holding, if_pos hEmpty] at hDone
        cases hDone
      · rw [holding, if_neg hEmpty, hRepeat] at hDone
        obtain ⟨requests, afterRequests, hRequests, hRest⟩ := bind_ok hDone
        obtain ⟨releases, afterReleases, hReleases, hRest⟩ := bind_ok hRest
        obtain ⟨expansion, afterChain, hChain, hRest⟩ := bind_ok hRest
        obtain ⟨hOpening, hLe, hNewRequests⟩ := marks_of_mergeEach (b := .opening) hRequests
        obtain ⟨hClosing, -, hNewReleases⟩ := marks_of_mergeEach (b := .closing) hReleases
        rw [chain_three] at hChain
        obtain ⟨front, afterFront, hFront, hWhole⟩ := bind_ok hChain
        cases hRest
        refine ⟨⟨afterChain.workflows⟩, ⟨afterFront.workflows⟩, ⟨afterReleases.workflows⟩, requests,
          releases, ?_, hOpening, hClosing, ?_⟩
        · rw [sequence_ok hWhole, sequence_ok hFront]
        · rintro leaf (hRequest | hRelease)
          · exact hNewRequests leaf hRequest
          · exact hLe.trans (hNewReleases leaf hRelease)

end Draft

/-! ## Runs without markers of their own -/

/-- The call handles no marker by itself. -/
def Call.Plain : Call → Prop
  | request _ => False
  | release _ => False
  | _ => True

/-- A run that makes markers by holding resources only, and that takes nothing apart. -/
inductive PlainRun : Supply → List Workflow → Prop
  | start (s : Supply) : PlainRun s []
  | done {s t shelf w} (hRun : PlainRun s shelf) (call : Call) (hPlain : call.Plain)
      (hOperands : ∀ v ∈ call.operands, v ∈ shelf) (hDone : call.draft s = .ok w t) :
      PlainRun t (w :: shelf)
  | failed {s t shelf fault} (hRun : PlainRun s shelf) (call : Call) (hPlain : call.Plain)
      (hOperands : ∀ v ∈ call.operands, v ∈ shelf) (hFailed : call.draft s = .error fault t) :
      PlainRun t shelf
  | elsewhere {s t shelf} (hRun : PlainRun s shelf) (hWorkflows : s.workflows ≤ t.workflows)
      (hResources : s.resources ≤ t.resources) : PlainRun t shelf

theorem PlainRun.run {s : Supply} {shelf : List Workflow} (hRun : PlainRun s shelf) :
    Run s shelf := by
  induction hRun with
  | start s => exact .start s
  | done _ call _ hOperands hDone ih => exact ih.done call hOperands hDone
  | failed _ call _ hOperands hFailed ih => exact ih.failed call hOperands hFailed
  | elsewhere _ hWorkflows hResources ih => exact ih.elsewhere hWorkflows hResources

/-- Markers stand around processes only, and no marker stands around two. -/
structure Tended (shelf : List Workflow) : Prop where
  wrapped : ∀ w ∈ shelf, w.Wrapped
  sole : ∀ b leaf h k, Reached shelf h → Reached shelf k → Owns leaf b h → Owns leaf b k → h = k

/-- All holdings in `w` are from the shelf. -/
structure ComposedOf (shelf : List Workflow) (w : Workflow) : Prop where
  wrapped : w.Wrapped
  old : ∀ b leaf h, h.Inside w → Owns leaf b h → Reached shelf h

namespace Tended

variable {s t : Supply} {shelf : List Workflow} {w process : Workflow} {resources : List Resource}

theorem composedOf (hTended : Tended shelf) (hMem : w ∈ shelf) : ComposedOf shelf w where
  wrapped := hTended.wrapped w hMem
  old := fun _ _ _ hInside _ => ⟨w, hMem, hInside⟩

/-- A marker of the new workflow stands around a process on the shelf, or stands around nothing
there. -/
theorem add (hTended : Tended shelf) (hWrapped : w.Wrapped)
    (hOwned : ∀ b leaf (h : Workflow), h.Inside w → Owns leaf b h →
      Reached shelf h ∨ h = w ∧ ∀ k, Reached shelf k → ¬ Owns leaf b k) :
    Tended (w :: shelf) where
  wrapped := by
    intro v hv
    rcases List.mem_cons.1 hv with rfl | hOld
    · exact hWrapped
    · exact hTended.wrapped v hOld
  sole := by
    have hCases : ∀ b leaf h, Reached (w :: shelf) h → Owns leaf b h →
        Reached shelf h ∨ h = w ∧ ∀ k, Reached shelf k → ¬ Owns leaf b k :=
      fun b leaf h hReached hOwns =>
        (reached_cons.1 hReached).elim (fun hInside => hOwned b leaf h hInside hOwns) Or.inl
    intro b leaf h k hh hk hOwnsH hOwnsK
    rcases hCases b leaf h hh hOwnsH with hOldH | ⟨rfl, hNewH⟩
    · rcases hCases b leaf k hk hOwnsK with hOldK | ⟨rfl, hNewK⟩
      · exact hTended.sole b leaf h k hOldH hOldK hOwnsH hOwnsK
      · exact absurd hOwnsH (hNewK h hOldH)
    · rcases hCases b leaf k hk hOwnsK with hOldK | ⟨rfl, -⟩
      · exact absurd hOwnsK (hNewH k hOldK)
      · rfl

theorem add_composed (hTended : Tended shelf) (hNew : ComposedOf shelf w) : Tended (w :: shelf) :=
  hTended.add hNew.wrapped fun b leaf h hInside hOwns => Or.inl (hNew.old b leaf h hInside hOwns)

end Tended

theorem composes_composedOf (shelf : List Workflow) : Draft.Composes (ComposedOf shelf) where
  activity := by
    intro id name duration
    refine ⟨trivial, fun b leaf h hInside hOwns => ?_⟩
    rw [(inside_of_isLeaf rfl).1 hInside] at hOwns
    cases hOwns
  seq := by
    intro id first second hFirst hSecond
    refine ⟨⟨hFirst.wrapped, hSecond.wrapped⟩, fun b leaf h hInside hOwns => ?_⟩
    rcases inside_seq.1 hInside with rfl | hIn | hIn
    · cases hOwns
    · exact hFirst.old b leaf h hIn hOwns
    · exact hSecond.old b leaf h hIn hOwns
  overlap := by
    intro id first second hFirst hSecond
    refine ⟨⟨hFirst.wrapped, hSecond.wrapped⟩, fun b leaf h hInside hOwns => ?_⟩
    rcases inside_overlap.1 hInside with rfl | hIn | hIn
    · cases hOwns
    · exact hFirst.old b leaf h hIn hOwns
    · exact hSecond.old b leaf h hIn hOwns

section Holding

variable {s t : Supply} {shelf : List Workflow} {w process : Workflow} {resources : List Resource}

/-- The markers of a new holding are the markers of no other. -/
theorem tended_holding (hStocked : Stocked s shelf) (hTended : Tended shelf)
    (hProcess : process ∈ shelf) (hDone : Draft.holding process resources s = .ok w t) :
    Tended (w :: shelf) := by
  obtain ⟨hNodup, id, outer, inner, requests, releases, rfl, hRequests, hReleases, hNew⟩ :=
    Draft.holding_ok hDone
  have hWrapped : (Workflow.holding id process resources
      (seq outer (seq inner requests process) releases)).Wrapped :=
    ⟨hTended.wrapped process hProcess, hNodup, .between outer inner hRequests hReleases⟩
  refine hTended.add hWrapped fun b leaf h hInside hOwns => ?_
  rcases hWrapped.owner_cases hInside hOwns with rfl | hInProcess
  · refine Or.inr ⟨rfl, fun k hReached hOther => ?_⟩
    have hUsed := hStocked.used leaf (hReached.inside hOther.inside.2)
    have hLe : s.workflows ≤ leaf.id.index := by
      cases hOwns with
      | opening hLeaf => exact hNew leaf (Or.inl hLeaf)
      | closing hLeaf => exact hNew leaf (Or.inr hLeaf)
    omega
  · exact Or.inl ⟨process, hProcess, hInProcess⟩

/-- A plain call keeps the shelf tended. -/
theorem tended_draft (hStocked : Stocked s shelf) (hTended : Tended shelf) (call : Call)
    (hPlain : call.Plain) (hOperands : ∀ v ∈ call.operands, v ∈ shelf)
    (hDone : call.draft s = .ok w t) : Tended (w :: shelf) := by
  have hP := composes_composedOf shelf
  have hWs : ∀ v ∈ call.operands, ComposedOf shelf v := fun v hv =>
    hTended.composedOf (hOperands v hv)
  cases call with
  | activity name duration => exact hTended.add_composed (Draft.yields_activity hP name duration s w t hDone)
  | idle => exact hTended.add_composed (Draft.yields_activity hP "idle" .zero s w t hDone)
  | request => exact hPlain.elim
  | release => exact hPlain.elim
  | sequence first second =>
      exact hTended.add_composed (Draft.yields_sequence hP (hWs first (by simp [Call.operands]))
        (hWs second (by simp [Call.operands])) s w t hDone)
  | merge first second =>
      exact hTended.add_composed (Draft.yields_merge hP (hWs first (by simp [Call.operands]))
        (hWs second (by simp [Call.operands])) s w t hDone)
  | chain ws => exact hTended.add_composed (Draft.yields_chain hP hWs s w t hDone)
  | mergeAll ws => exact hTended.add_composed (Draft.yields_mergeAll hP hWs s w t hDone)
  | simultaneous branches => exact hTended.add_composed (Draft.yields_simultaneous hP hWs s w t hDone)
  | holding process resources =>
      exact tended_holding hStocked hTended (hOperands process (by simp [Call.operands])) hDone

end Holding

/-- The shelf is tended after every plain run. -/
theorem PlainRun.tended {s : Supply} {shelf : List Workflow} (hRun : PlainRun s shelf) :
    Tended shelf := by
  induction hRun with
  | start s =>
      refine ⟨fun w hMem => absurd hMem List.not_mem_nil, fun b leaf h k hh => ?_⟩
      obtain ⟨w, hMem, -⟩ := hh
      exact absurd hMem List.not_mem_nil
  | done hRun call hPlain hOperands hDone ih =>
      exact tended_draft hRun.run.stocked ih call hPlain hOperands hDone
  | failed _ _ _ _ _ ih => exact ih
  | elsewhere _ _ _ ih => exact ih

/-- Whatever a plain run has made requests and releases each resource once for each part that holds
it, by the markers of that part, with its process in between. -/
theorem bracketed_of_plainRun {s : Supply} {shelf : List Workflow} {w : Workflow}
    (hRun : PlainRun s shelf) (hMem : w ∈ shelf) (r : Resource) :
    (w.network.requestsOf r).length = (w.holdings r).ncard ∧
      (w.network.releasesOf r).length = (w.holdings r).ncard ∧
      ∃ request release, w.Bracketed r request release ∧ ∃ partner : NodeId → NodeId,
        Set.BijOn partner { n | n ∈ w.network.requestsOf r } { n | n ∈ w.network.releasesOf r } ∧
          ∀ h ∈ w.holdings r, partner (request h) = release h := by
  have hTended := hRun.tended
  have hMade := hRun.run.stocked.wellMade (reached_of_mem hMem)
  have hSole : w.SolelyOwned := fun b leaf h k hh hk =>
    hTended.sole b leaf h k ⟨w, hMem, hh⟩ ⟨w, hMem, hk⟩
  obtain ⟨request, release, hBracketed⟩ :=
    exists_bracketed hMade (hTended.wrapped w hMem) hSole r
  exact ⟨hBracketed.length_eq.1, hBracketed.length_eq.2, request, release, hBracketed,
    hBracketed.exists_partner⟩

namespace Sample

def crane : Resource :=
  ⟨⟨0⟩, "crane"⟩

/-- Picking under the crane, where the markers take ids from `n` on. -/
def lifted (n : Nat) : Workflow :=
  .holding ⟨n + 4⟩ pick [crane] (.seq ⟨n + 3⟩ (.seq ⟨n + 2⟩ (.request ⟨n⟩ crane) pick)
    (.release ⟨n + 1⟩ crane))

/-- The same activity, held twice. -/
def twice : Workflow :=
  .overlap ⟨11⟩ (lifted 1) (lifted 6)

theorem merge_lifted : Draft.merge (lifted 1) (lifted 6) ⟨11, 1⟩ = .ok twice ⟨12, 1⟩ := by
  have hOrder : (overlap ⟨11⟩ (lifted 1) (lifted 6)).network.topologicalOrder =
      .ok [⟨0⟩, ⟨4⟩, ⟨1⟩, ⟨2⟩, ⟨3⟩, ⟨5⟩] := by
    decide +kernel
  rw [Draft.merge_of_ordered ⟨11, 1⟩ hOrder]
  rfl

theorem plainRun_twice : PlainRun ⟨12, 1⟩ [twice, lifted 6, lifted 1, pick] := by
  have hPick : PlainRun ⟨1, 1⟩ [pick] :=
    (PlainRun.start ⟨0, 1⟩).done (.activity "pick" ⟨2⟩) trivial (fun _ h => h) rfl
  have hOnce : PlainRun ⟨6, 1⟩ [lifted 1, pick] :=
    hPick.done (.holding pick [crane]) trivial (by simp [Call.operands]) rfl
  have hBoth : PlainRun ⟨11, 1⟩ [lifted 6, lifted 1, pick] :=
    hOnce.done (.holding pick [crane]) trivial (by simp [Call.operands]) rfl
  exact hBoth.done (.merge (lifted 1) (lifted 6)) trivial (by simp [Call.operands]) merge_lifted

theorem standsAt_request (n : Nat) :
    twice.StandsAt .opening crane (lifted n) (placeNode twice.numbering (.marker ⟨n⟩)) :=
  ⟨⟨n⟩, crane, by decide, .opening (leafOf_marker.2 rfl), rfl⟩

theorem standsAt_release (n : Nat) :
    twice.StandsAt .closing crane (lifted n) (placeNode twice.numbering (.marker ⟨n + 1⟩)) :=
  ⟨⟨n + 1⟩, crane, by decide, .closing (leafOf_marker.2 rfl), rfl⟩

end Sample

/-- The crane is requested twice and released twice, around the same activity.  The nodes of the
first holding are 0 and 3, those of the second one 4 and 5. -/
theorem bracketed_twice :
    PlainRun ⟨12, 1⟩ [Sample.twice, Sample.lifted 6, Sample.lifted 1, Sample.pick] ∧
      (Sample.twice.network.requestsOf Sample.crane).length = 2 ∧
      (Sample.twice.holdings Sample.crane).ncard = 2 ∧
      ∃ request release, Sample.twice.Bracketed Sample.crane request release ∧
        request (Sample.lifted 1) = ⟨0⟩ ∧ release (Sample.lifted 1) = ⟨3⟩ ∧
        request (Sample.lifted 6) = ⟨4⟩ ∧ release (Sample.lifted 6) = ⟨5⟩ := by
  obtain ⟨hRequests, -, request, release, hBracketed, -⟩ :=
    bracketed_of_plainRun Sample.plainRun_twice List.mem_cons_self Sample.crane
  have hTwo : (Sample.twice.network.requestsOf Sample.crane).length = 2 := by
    decide +kernel
  have hWrapped : Sample.twice.Wrapped := Sample.plainRun_twice.tended.wrapped _ List.mem_cons_self
  have hFirst : Sample.lifted 1 ∈ Sample.twice.holdings Sample.crane :=
    ⟨.overlapFirst .self, Sample.crane, List.mem_cons_self, by decide⟩
  have hSecond : Sample.lifted 6 ∈ Sample.twice.holdings Sample.crane :=
    ⟨.overlapSecond .self, Sample.crane, List.mem_cons_self, by decide⟩
  -- A holding has one marker of either sort for the crane, so its nodes can be looked up.
  have hRequest : ∀ n, Sample.lifted n ∈ Sample.twice.holdings Sample.crane →
      request (Sample.lifted n) = placeNode Sample.twice.numbering (.marker ⟨n⟩) := fun n hHolds =>
    (hBracketed.opened _ hHolds).node_unique (Sample.standsAt_request n) hWrapped hHolds.1
  have hRelease : ∀ n, Sample.lifted n ∈ Sample.twice.holdings Sample.crane →
      release (Sample.lifted n) = placeNode Sample.twice.numbering (.marker ⟨n + 1⟩) :=
    fun n hHolds =>
      (hBracketed.closed _ hHolds).node_unique (Sample.standsAt_release n) hWrapped hHolds.1
  refine ⟨Sample.plainRun_twice, hTwo, hRequests.symm.trans hTwo, request, release, hBracketed,
    ?_, ?_, ?_, ?_⟩
  · exact (hRequest 1 hFirst).trans (by decide +kernel)
  · exact (hRelease 1 hFirst).trans (by decide +kernel)
  · exact (hRequest 6 hSecond).trans (by decide +kernel)
  · exact (hRelease 6 hSecond).trans (by decide +kernel)

end ActivityNetwork
