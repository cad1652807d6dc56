import ActivityNetwork.Proofs.Workflow.Tally
import Mathlib.Data.List.Induction

/-!
# Walking through a workflow aloud

`narrate` walks through a workflow from left to right and writes down what it meets.  A part that is
met for the first time is announced at once, before the walk goes into it; a part that has been
announced is recalled, and the walk does not go into it again.  The journal itself says what has
been announced, so the walk needs no other memory.

Announced are the parts of the workflow in `tour` order: each once, from the outside in.  Wherever a
part is recalled, the journal has a complete walk through the same part before (`Faithful`).  The
invariant of the recursion is `Heard`, and what a walk adds to it is `Tells`.
-/

namespace ActivityNetwork

namespace CompileRecord

/-- The part that is announced, with its label. -/
def announced? : CompileRecord → Option (WorkflowId × String)
  | compiling id label => some (id, label)
  | _ => none

def isRecalled : CompileRecord → Bool
  | recalled _ => true
  | _ => false

end CompileRecord

/-- What a journal announces, in order. -/
def announcements (journal : List CompileRecord) : List (WorkflowId × String) :=
  journal.filterMap CompileRecord.announced?

/-- The ids that a journal announces, in order. -/
def announced (journal : List CompileRecord) : List WorkflowId :=
  (announcements journal).map Prod.fst

theorem mem_announcements {journal : List CompileRecord} {id : WorkflowId} {label : String} :
    (id, label) ∈ announcements journal ↔ .compiling id label ∈ journal := by
  rw [announcements, List.mem_filterMap]
  constructor
  · rintro ⟨r, hMem, hRecord⟩
    cases r <;> cases hRecord
    exact hMem
  · intro hMem
    exact ⟨_, hMem, rfl⟩

theorem announcements_append (early late : List CompileRecord) :
    announcements (early ++ late) = announcements early ++ announcements late :=
  List.filterMap_append

namespace Workflow

/-- What is announced of a part. -/
def announcement (w : Workflow) : WorkflowId × String :=
  (w.id, w.label)

/-- Announces `w` and goes through it, unless it was announced before. -/
def meet (w : Workflow) (journal : List CompileRecord)
    (through : List CompileRecord → List CompileRecord) : List CompileRecord :=
  if w.id ∈ announced journal then journal ++ [.recalled w.id]
  else through (journal ++ [.compiling w.id w.label])

/-- The journal after a walk through `w`. -/
def narrate : Workflow → List CompileRecord → List CompileRecord
  | w@(activity ..), journal => w.meet journal fun journal => journal
  | w@(request ..), journal => w.meet journal fun journal => journal
  | w@(release ..), journal => w.meet journal fun journal => journal
  | w@(seq _ first second), journal =>
      w.meet journal fun journal => second.narrate (first.narrate journal)
  | w@(overlap _ first second), journal =>
      w.meet journal fun journal => second.narrate (first.narrate journal)
  | w@(holding _ _ _ expansion), journal => w.meet journal expansion.narrate

/-- The parts of a workflow from the outside in, once for each path to them. -/
def preorder : Workflow → List Workflow
  | w@(seq _ first second) => w :: (first.preorder ++ second.preorder)
  | w@(overlap _ first second) => w :: (first.preorder ++ second.preorder)
  | w@(holding _ _ _ expansion) => w :: expansion.preorder
  | leaf => [leaf]

/-- What was met before, and behind it the parts of `w` with new ids. -/
def tour (w : Workflow) (met : List Workflow) : List Workflow :=
  w.preorder.foldl addNew met

variable {whole w v u part first second : Workflow} {met : List Workflow} {id : WorkflowId}
  {journal before after early late : List CompileRecord}

/-! ## The order in which parts are met -/

theorem mem_preorder : v ∈ w.preorder ↔ v.Inside w := by
  induction w with
  | activity id name duration =>
      rw [inside_of_isLeaf rfl]
      exact List.mem_singleton
  | request id resource =>
      rw [inside_of_isLeaf rfl]
      exact List.mem_singleton
  | release id resource =>
      rw [inside_of_isLeaf rfl]
      exact List.mem_singleton
  | seq id first second ihFirst ihSecond =>
      rw [preorder, List.mem_cons, List.mem_append, ihFirst, ihSecond, inside_seq]
  | overlap id first second ihFirst ihSecond =>
      rw [preorder, List.mem_cons, List.mem_append, ihFirst, ihSecond, inside_overlap]
  | holding id process resources expansion _ ihExpansion =>
      rw [preorder, List.mem_cons, ihExpansion, inside_holding]

theorem mem_ids_tour (id : WorkflowId) (w : Workflow) (met : List Workflow) :
    id ∈ (w.tour met).map Workflow.id ↔
      id ∈ met.map Workflow.id ∨ ∃ v : Workflow, v.Inside w ∧ v.id = id := by
  rw [tour, mem_ids_foldl_addNew]
  simp only [List.mem_map, mem_preorder]

theorem tour_cons {parts : List Workflow} (hPreorder : w.preorder = w :: parts)
    (hNew : w.id ∉ met.map Workflow.id) : w.tour met = parts.foldl addNew (met ++ [w]) := by
  rw [tour, hPreorder, List.foldl_cons, addNew, if_neg hNew]

/-! ## What a journal has to say -/

/-- The journal has a complete walk through `u`, from where it is announced. -/
def Recounts (journal : List CompileRecord) (u : Workflow) : Prop :=
  ∃ early late, u.id ∉ announced early ∧ journal = u.narrate early ++ late

/-- Whatever is recalled was walked through before. -/
def Faithful (whole : Workflow) (journal : List CompileRecord) : Prop :=
  ∀ before id after, journal = before ++ .recalled id :: after →
    ∃ v : Workflow, v.Inside whole ∧ v.id = id ∧ Recounts before v

theorem Recounts.mono (hRecounts : Recounts before u) (hGrown : before <+: after) :
    Recounts after u := by
  obtain ⟨early, late, hNew, rfl⟩ := hRecounts
  obtain ⟨added, rfl⟩ := hGrown
  exact ⟨early, late ++ added, hNew, List.append_assoc _ _ _⟩

theorem Faithful.concat {r : CompileRecord} (hFaithful : Faithful whole journal)
    (hLast : ∀ id, r = .recalled id → ∃ v : Workflow, v.Inside whole ∧ v.id = id ∧
      Recounts journal v) : Faithful whole (journal ++ [r]) := by
  intro before id after hSplit
  cases after using List.reverseRecOn with
  | nil =>
      obtain ⟨rfl, hRecord⟩ := List.append_inj' hSplit rfl
      exact hLast id (List.cons.inj hRecord).1
  | append_singleton rest last =>
      rw [← List.cons_append, ← List.append_assoc] at hSplit
      exact hFaithful before id rest (List.append_inj' hSplit rfl).1

theorem Faithful.concat_other {r : CompileRecord} (hFaithful : Faithful whole journal)
    (hOther : r.isRecalled = false) : Faithful whole (journal ++ [r]) := by
  refine hFaithful.concat fun id hRecord => ?_
  rw [hRecord] at hOther
  cases hOther

/-- The journal has announced what was met, and of the workflow ahead it has whole parts only, with
a walk through each. -/
structure Heard (whole : Workflow) (journal : List CompileRecord) (met : List Workflow)
    (w : Workflow) : Prop where
  announcements : announcements journal = met.map announcement
  complete : ∀ v : Workflow, v.Inside w → v.id ∈ met.map Workflow.id →
    ∀ u : Workflow, u.Inside v → u.id ∈ met.map Workflow.id
  faithful : Faithful whole journal
  recounts : ∀ u : Workflow, u.Inside w → u.id ∈ met.map Workflow.id → Recounts journal u

/-- A walk through `w` announces its new parts, and goes through all of them. -/
structure Tells (whole : Workflow) (before after : List CompileRecord) (met : List Workflow)
    (w : Workflow) : Prop where
  grown : before <+: after
  announcements : announcements after = (w.tour met).map announcement
  faithful : Faithful whole after
  recounts : ∀ u : Workflow, u.Inside w → Recounts after u

theorem heard_start (w : Workflow) : Heard w [] [] w where
  announcements := rfl
  complete := fun _ _ hMem => absurd hMem List.not_mem_nil
  faithful := fun before id after hSplit => by simp at hSplit
  recounts := fun _ _ hMem => absurd hMem List.not_mem_nil

theorem Heard.mem_announced (hHeard : Heard whole journal met w) :
    id ∈ announced journal ↔ id ∈ met.map Workflow.id := by
  rw [announced, hHeard.announcements, List.map_map]
  exact Iff.rfl

/-- A workflow that was met is recalled. -/
theorem tells_of_met (hHeard : Heard whole journal met w) (hInside : w.Inside whole)
    (hMet : w.id ∈ met.map Workflow.id) :
    Tells whole journal (journal ++ [.recalled w.id]) met w where
  grown := List.prefix_append _ _
  announcements := by
    have hTour : w.tour met = met := foldl_addNew_of_known fun v hv =>
      hHeard.complete w .self hMet v (mem_preorder.1 hv)
    rw [announcements_append, hHeard.announcements, hTour]
    exact List.append_nil _
  faithful := by
    refine hHeard.faithful.concat fun id hRecord => ?_
    cases hRecord
    exact ⟨w, hInside, rfl, hHeard.recounts w .self hMet⟩
  recounts := fun u hu =>
    (hHeard.recounts u hu (hHeard.complete w .self hMet u hu)).mono (List.prefix_append _ _)

/-- A walk through a new workflow is the walk through what it is put together from. -/
theorem tells_meet {through : List CompileRecord → List CompileRecord} {parts : List Workflow}
    (hHeard : Heard whole journal met w) (hInside : w.Inside whole)
    (hNarrate : ∀ journal, w.narrate journal = w.meet journal through)
    (hPreorder : w.preorder = w :: parts)
    (hThrough : w.id ∉ met.map Workflow.id →
      journal ++ [.compiling w.id w.label] <+: through (journal ++ [.compiling w.id w.label]) ∧
      ActivityNetwork.announcements (through (journal ++ [.compiling w.id w.label])) =
        (parts.foldl addNew (met ++ [w])).map announcement ∧
      Faithful whole (through (journal ++ [.compiling w.id w.label])) ∧
      ∀ u ∈ parts, Recounts (through (journal ++ [.compiling w.id w.label])) u) :
    Tells whole journal (w.narrate journal) met w := by
  by_cases hMet : w.id ∈ met.map Workflow.id
  · rw [hNarrate, meet, if_pos (hHeard.mem_announced.2 hMet)]
    exact tells_of_met hHeard hInside hMet
  · have hNew : w.id ∉ announced journal := fun hOld => hMet (hHeard.mem_announced.1 hOld)
    have hWalk : w.narrate journal = through (journal ++ [.compiling w.id w.label]) := by
      rw [hNarrate, meet, if_neg hNew]
    obtain ⟨hGrown, hAnnouncements, hFaithful, hParts⟩ := hThrough hMet
    refine ⟨?_, ?_, ?_, fun u hu => ?_⟩
    · rw [hWalk]
      exact (List.prefix_append _ _).trans hGrown
    · rw [hWalk, hAnnouncements, tour_cons hPreorder hMet]
    · rw [hWalk]
      exact hFaithful
    · rw [← mem_preorder, hPreorder, List.mem_cons] at hu
      rcases hu with rfl | hPart
      · exact ⟨journal, [], hNew, (List.append_nil _).symm⟩
      · rw [hWalk]
        exact hParts u hPart

/-- Announcing a workflow leaves everything about its parts as it was. -/
theorem Heard.enter (hHeard : Heard whole journal met w) (hCoherent : w.Coherent)
    (hPart : part.Inside w) (hSmaller : sizeOf part < sizeOf w) :
    Heard whole (journal ++ [.compiling w.id w.label]) (met ++ [w]) part := by
  have hOld : ∀ v : Workflow, v.Inside part → v.id ∈ (met ++ [w]).map Workflow.id →
      v.id ∈ met.map Workflow.id := by
    intro v hv hMem
    rw [List.map_append, List.mem_append, List.map_singleton, List.mem_singleton] at hMem
    exact hMem.resolve_right (hCoherent.id_ne hv hPart hSmaller)
  constructor
  · rw [announcements_append, hHeard.announcements, List.map_append]
    rfl
  · intro v hv hMem u hu
    rw [List.map_append, List.mem_append]
    exact Or.inl (hHeard.complete v (hv.trans hPart) (hOld v hv hMem) u hu)
  · exact hHeard.faithful.concat_other rfl
  · intro u hu hMem
    exact (hHeard.recounts u (hu.trans hPart) (hOld u hu hMem)).mono (List.prefix_append _ _)

/-- After the first side the second one is ahead. -/
theorem Heard.next (hHeard : Heard whole before met second)
    (hFirst : Tells whole before after met first)
    (hShared : ∀ u v : Workflow, u.Inside first → v.Inside second → u.id = v.id → u = v) :
    Heard whole after (first.tour met) second where
  announcements := hFirst.announcements
  complete := by
    intro v hv hMem u hu
    rw [mem_ids_tour] at hMem ⊢
    rcases hMem with hOld | ⟨x, hx, hId⟩
    · exact Or.inl (hHeard.complete v hv hOld u hu)
    · have hEq : x = v := hShared x v hx hv hId
      exact Or.inr ⟨u, hu.trans (hEq ▸ hx), rfl⟩
  faithful := hFirst.faithful
  recounts := by
    intro u hu hMem
    rw [mem_ids_tour] at hMem
    rcases hMem with hOld | ⟨x, hx, hId⟩
    · exact (hHeard.recounts u hu hOld).mono hFirst.grown
    · have hEq : x = u := hShared x u hx hu hId
      exact hFirst.recounts u (hEq ▸ hx)

/-- A walk through a leaf. -/
theorem tells_leaf (hHeard : Heard whole journal met w) (hInside : w.Inside whole)
    (hLeaf : w.isLeaf = true) : Tells whole journal (w.narrate journal) met w := by
  have hNarrate : ∀ journal, w.narrate journal = w.meet journal fun journal => journal := by
    intro journal
    rcases isLeaf_cases hLeaf with
      ⟨id, name, duration, rfl⟩ | ⟨id, resource, rfl⟩ | ⟨id, resource, rfl⟩ <;> rfl
  have hPreorder : w.preorder = [w] := by
    rcases isLeaf_cases hLeaf with
      ⟨id, name, duration, rfl⟩ | ⟨id, resource, rfl⟩ | ⟨id, resource, rfl⟩ <;> rfl
  refine tells_meet hHeard hInside hNarrate hPreorder fun _ => ⟨List.prefix_refl _, ?_, ?_, ?_⟩
  · rw [announcements_append, hHeard.announcements, List.foldl_nil, List.map_append]
    rfl
  · exact hHeard.faithful.concat_other rfl
  · exact fun u hu => absurd hu List.not_mem_nil

/-- What is to be shown of a part: walking through it tells its new parts. -/
private def Narrates (whole w : Workflow) : Prop :=
  ∀ (journal : List CompileRecord) (met : List Workflow), w.Coherent → w.Inside whole →
    Heard whole journal met w → Tells whole journal (w.narrate journal) met w

/-- A walk through two sides of one coherent workflow. -/
private theorem tells_sides (ihFirst : Narrates whole first) (ihSecond : Narrates whole second)
    (hCoherent : w.Coherent) (hInside : w.Inside whole) (hHeard : Heard whole journal met w)
    (hFirst : first.Inside w) (hSecond : second.Inside w)
    (hFirstSize : sizeOf first < sizeOf w) (hSecondSize : sizeOf second < sizeOf w)
    (hNarrate : ∀ journal, w.narrate journal =
      w.meet journal fun journal => second.narrate (first.narrate journal))
    (hPreorder : w.preorder = w :: (first.preorder ++ second.preorder)) :
    Tells whole journal (w.narrate journal) met w := by
  refine tells_meet hHeard hInside hNarrate hPreorder fun _ => ?_
  have hTellsFirst := ihFirst _ _ (hCoherent.mono hFirst) (hFirst.trans hInside)
    (hHeard.enter hCoherent hFirst hFirstSize)
  have hNext := (hHeard.enter hCoherent hSecond hSecondSize).next hTellsFirst
    fun u v hu hv => hCoherent u v (hu.trans hFirst) (hv.trans hSecond)
  have hTellsSecond := ihSecond _ _ (hCoherent.mono hSecond) (hSecond.trans hInside) hNext
  refine ⟨hTellsFirst.grown.trans hTellsSecond.grown, ?_, hTellsSecond.faithful, fun u hu => ?_⟩
  · rw [List.foldl_append]
    exact hTellsSecond.announcements
  · rcases List.mem_append.1 hu with hInFirst | hInSecond
    · exact (hTellsFirst.recounts u (mem_preorder.1 hInFirst)).mono hTellsSecond.grown
    · exact hTellsSecond.recounts u (mem_preorder.1 hInSecond)

/-- Walking through a part of a coherent workflow tells its new parts. -/
theorem narrate_tells (w : Workflow) (journal : List CompileRecord) (met : List Workflow)
    (hCoherent : w.Coherent) (hInside : w.Inside whole) (hHeard : Heard whole journal met w) :
    Tells whole journal (w.narrate journal) met w := by
  induction w generalizing journal met with
  | activity id name duration => exact tells_leaf hHeard hInside rfl
  | request id resource => exact tells_leaf hHeard hInside rfl
  | release id resource => exact tells_leaf hHeard hInside rfl
  | seq id first second ihFirst ihSecond =>
      exact tells_sides ihFirst ihSecond hCoherent hInside hHeard (.seqFirst .self)
        (.seqSecond .self) (by simp only [seq.sizeOf_spec]; omega)
        (by simp only [seq.sizeOf_spec]; omega) (fun _ => rfl) rfl
  | overlap id first second ihFirst ihSecond =>
      exact tells_sides ihFirst ihSecond hCoherent hInside hHeard (.overlapFirst .self)
        (.overlapSecond .self) (by simp only [overlap.sizeOf_spec]; omega)
        (by simp only [overlap.sizeOf_spec]; omega) (fun _ => rfl) rfl
  | holding id process resources expansion _ ihExpansion =>
      have hPart : expansion.Inside (holding id process resources expansion) := .expansion .self
      have hSmaller : sizeOf expansion < sizeOf (holding id process resources expansion) := by
        simp only [holding.sizeOf_spec]
        omega
      refine tells_meet hHeard hInside (fun _ => rfl) rfl fun _ => ?_
      have hTells := ihExpansion _ _ (hCoherent.mono hPart) (hPart.trans hInside)
        (hHeard.enter hCoherent hPart hSmaller)
      exact ⟨hTells.grown, hTells.announcements, hTells.faithful,
        fun u hu => hTells.recounts u (mem_preorder.1 hu)⟩

/-- A walk from the start. -/
theorem narrate_start (hCoherent : w.Coherent) : Tells w [] (w.narrate []) [] w :=
  narrate_tells w [] [] hCoherent .self (heard_start w)

/-! ## Leaves on the way -/

theorem filter_preorder (w : Workflow) : w.preorder.filter Workflow.isLeaf = w.flatten := by
  induction w with
  | activity id name duration => rfl
  | request id resource => rfl
  | release id resource => rfl
  | seq id first second ihFirst ihSecond =>
      rw [preorder, List.filter_cons_of_neg (by simp [isLeaf]), List.filter_append, ihFirst,
        ihSecond, flatten]
  | overlap id first second ihFirst ihSecond =>
      rw [preorder, List.filter_cons_of_neg (by simp [isLeaf]), List.filter_append, ihFirst,
        ihSecond, flatten]
  | holding id process resources expansion _ ihExpansion =>
      rw [preorder, List.filter_cons_of_neg (by simp [isLeaf]), ihExpansion, flatten]

/-- A test that goes by ids may be put to a list before or after repeated ids are left out. -/
theorem filter_foldl_addNew {test : Workflow → Bool} {xs found : List Workflow}
    (hTest : ∀ a ∈ found ++ xs, ∀ b ∈ xs, a.id = b.id → test a = test b) :
    (xs.foldl addNew found).filter test = (xs.filter test).foldl addNew (found.filter test) := by
  induction xs generalizing found with
  | nil => rfl
  | cons x rest ih =>
      have hRest : ∀ a ∈ addNew found x ++ rest, ∀ b ∈ rest, a.id = b.id → test a = test b := by
        intro a ha b hb
        refine hTest a ?_ b (List.mem_cons_of_mem _ hb)
        rcases List.mem_append.1 ha with hAdded | hLater
        · have hCases : a ∈ found ∨ a ∈ [x] := mem_of_mem_foldl_addNew hAdded
          rw [List.mem_singleton] at hCases
          simp [← or_assoc, hCases]
        · simp [hLater]
      have hStep : (addNew found x).filter test =
          ([x].filter test).foldl addNew (found.filter test) := by
        by_cases hx : test x = true
        · have hIds : x.id ∈ (found.filter test).map Workflow.id ↔ x.id ∈ found.map Workflow.id := by
            refine ⟨fun hMem => (List.filter_sublist.map Workflow.id).subset hMem, fun hMem => ?_⟩
            obtain ⟨a, ha, hId⟩ := List.mem_map.1 hMem
            have hSame : test a = test x := hTest a (by simp [ha]) x (by simp) hId
            exact List.mem_map.2 ⟨a, List.mem_filter.2 ⟨ha, hSame.trans hx⟩, hId⟩
          have hOne : [x].filter test = [x] := by simp [hx]
          rw [hOne, List.foldl_cons, List.foldl_nil]
          by_cases hKnown : x.id ∈ found.map Workflow.id
          · rw [addNew, addNew, if_pos hKnown, if_pos (hIds.2 hKnown)]
          · rw [addNew, addNew, if_neg hKnown, if_neg (fun hMem => hKnown (hIds.1 hMem)),
              List.filter_append, hOne]
        · unfold addNew
          split <;> simp [hx]
      rw [List.foldl_cons, ih hRest, hStep, ← List.foldl_append, ← List.filter_append]
      rfl

/-- The leaves are met in the order in which they are gathered. -/
theorem filter_tour (hCoherent : w.Coherent) : (w.tour []).filter Workflow.isLeaf = w.leaves := by
  have hTest : ∀ a ∈ [] ++ w.preorder, ∀ b ∈ w.preorder, a.id = b.id → a.isLeaf = b.isLeaf := by
    intro a ha b hb hId
    rw [hCoherent a b (mem_preorder.1 ha) (mem_preorder.1 hb) hId]
  rw [tour, filter_foldl_addNew hTest, filter_preorder, leaves_eq_collect hCoherent]
  rfl

theorem mem_tour (hCoherent : w.Coherent) : v ∈ w.tour [] ↔ v.Inside w := by
  rw [tour, mem_foldl_addNew_iff, mem_preorder]
  exact fun a ha b hb => hCoherent a b (mem_preorder.1 ha) (mem_preorder.1 hb)

end Workflow

end ActivityNetwork
