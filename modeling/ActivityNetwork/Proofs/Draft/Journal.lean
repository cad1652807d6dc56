import ActivityNetwork.Proofs.Draft.Run
import ActivityNetwork.Proofs.Workflow.Narration

/-!
# What a compilation puts on record

A compilation keeps the network of a part only when the part is done, whereas a walk that is told
aloud announces a part as soon as it is met.  In between, nothing can be met that is announced and
not yet done: that would be a workflow inside one of its own parts.  So the compilation records just
what the walk tells (`realize_narrates`), with a line at the beginning and a line at the end.

`Progress.Follows` is the invariant: of the workflow ahead, the same parts are done as are
announced.
-/

namespace ActivityNetwork

open Workflow

namespace Progress

variable {p before between : Progress} {done met : List Workflow}
  {whole w part first second : Workflow} {work : Progress → Network × Progress}

theorem toList_record (p : Progress) (r : CompileRecord) :
    (p.record r).journal.toList = p.journal.toList ++ [r] :=
  Array.toList_push

/-- What is done and what is announced agree on the workflow ahead. -/
structure Follows (whole : Workflow) (p : Progress) (done met : List Workflow) (w : Workflow) :
    Prop where
  keeps : p.Keeps done w
  heard : Heard whole p.journal.toList met w
  same : ∀ u : Workflow, u.Inside w → (u.id ∈ met.map Workflow.id ↔ u.id ∈ done.map Workflow.id)

theorem follows_start (w : Workflow) : Follows w start [] [] w where
  keeps := keeps_start w
  heard := heard_start w
  same := fun _ _ => Iff.rfl

theorem Follows.known (hFollows : Follows whole p done met w) :
    p.memo.find? w.id ≠ none ↔ w.id ∈ announced p.journal.toList := by
  rw [hFollows.keeps.memo, hFollows.heard.mem_announced, hFollows.same w .self]

theorem Follows.enter (hFollows : Follows whole p done met w) (hCoherent : w.Coherent)
    (hPart : part.Inside w) (hSmaller : sizeOf part < sizeOf w) :
    Follows whole (p.record (.compiling w.id w.label)) done (met ++ [w]) part where
  keeps := hFollows.keeps.enter hPart _
  heard := by
    rw [toList_record]
    exact hFollows.heard.enter hCoherent hPart hSmaller
  same := by
    intro u hu
    have hNe : u.id ≠ w.id := hCoherent.id_ne hu hPart hSmaller
    rw [← hFollows.same u (hu.trans hPart), List.map_append, List.mem_append, List.map_singleton,
      List.mem_singleton]
    exact or_iff_left hNe

/-- The first side is done, and a walk through it is on record. -/
theorem Follows.next (hFollows : Follows whole before done met second)
    (hFirst : before.Counts between done first)
    (hTells : Tells whole before.journal.toList between.journal.toList met first)
    (hShared : ∀ u v : Workflow, u.Inside first → v.Inside second → u.id = v.id → u = v) :
    Follows whole between (first.finish done) (first.tour met) second where
  keeps := hFollows.keeps.next hFirst hShared
  heard := hFollows.heard.next hTells hShared
  same := fun u hu => by rw [mem_ids_tour, mem_ids_finish, hFollows.same u hu]

/-- A workflow is recalled if it is done, and is announced otherwise. -/
theorem journal_once {through : List CompileRecord → List CompileRecord}
    (hFollows : Follows whole p done met w)
    (hWork : (work (p.record (.compiling w.id w.label))).2.journal.toList =
      through (p.record (.compiling w.id w.label)).journal.toList) :
    (p.once w work).2.journal.toList = w.meet p.journal.toList through := by
  cases hFind : p.memo.find? w.id with
  | some network =>
      have hKnown : w.id ∈ announced p.journal.toList := hFollows.known.1 (by simp [hFind])
      rw [once_of_done work hFind, meet, if_pos hKnown]
      exact toList_record p _
  | none =>
      have hNew : w.id ∉ announced p.journal.toList := fun hOld => hFollows.known.2 hOld hFind
      rw [once_of_new work hFind, meet, if_neg hNew, ← toList_record]
      exact hWork

/-- As many records say that a part was recalled as are counted. -/
def Recalls (p : Progress) : Prop :=
  p.journal.toList.countP CompileRecord.isRecalled = p.stats.recalled

theorem recalls_once (hRecalls : p.Recalls) (hWork : ∀ q : Progress, q.Recalls → (work q).2.Recalls) :
    (p.once w work).2.Recalls := by
  cases hFind : p.memo.find? w.id with
  | some network =>
      rw [once_of_done work hFind]
      show (p.record _).journal.toList.countP _ = p.stats.recalled + 1
      rw [toList_record, List.countP_append, hRecalls]
      rfl
  | none =>
      have hAnnounced : (p.record (.compiling w.id w.label)).Recalls := by
        show (p.record _).journal.toList.countP _ = p.stats.recalled
        rw [toList_record, List.countP_append, hRecalls]
        rfl
      rw [once_of_new work hFind]
      exact hWork _ hAnnounced

end Progress

namespace Workflow

variable {whole w first second : Workflow}

/-- What is to be shown of a part: compiling it records a walk through it. -/
private def Rehearsed (whole w : Workflow) : Prop :=
  ∀ (p : Progress) (done met : List Workflow), w.Coherent → w.Inside whole →
    Progress.Follows whole p done met w →
      (w.realize p).2.journal.toList = w.narrate p.journal.toList

/-- Two sides of one coherent workflow, compiled one after the other. -/
private theorem journal_sides {p : Progress} {done met : List Workflow}
    (ihFirst : Rehearsed whole first) (ihSecond : Rehearsed whole second)
    (hCoherent : w.Coherent) (hInside : w.Inside whole)
    (hFollows : Progress.Follows whole p done met w)
    (hFirst : first.Inside w) (hSecond : second.Inside w)
    (hFirstSize : sizeOf first < sizeOf w) (hSecondSize : sizeOf second < sizeOf w) :
    (second.realize (first.realize (p.record (.compiling w.id w.label))).2).2.journal.toList =
      second.narrate (first.narrate (p.record (.compiling w.id w.label)).journal.toList) := by
  have hCoherentFirst := hCoherent.mono hFirst
  have hEnterFirst := hFollows.enter hCoherent hFirst hFirstSize
  have hJournal := ihFirst _ _ _ hCoherentFirst (hFirst.trans hInside) hEnterFirst
  have hCounts := realize_counts first _ _ hCoherentFirst hEnterFirst.keeps
  have hTells := narrate_tells first _ _ hCoherentFirst (hFirst.trans hInside) hEnterFirst.heard
  rw [← hJournal] at hTells
  have hNext := (hFollows.enter hCoherent hSecond hSecondSize).next hCounts hTells
    fun u v hu hv => hCoherent u v (hu.trans hFirst) (hv.trans hSecond)
  rw [← hJournal]
  exact ihSecond _ _ _ (hCoherent.mono hSecond) (hSecond.trans hInside) hNext

/-- Compiling a part records a walk through it. -/
theorem realize_narrates (w : Workflow) (p : Progress) (done met : List Workflow)
    (hCoherent : w.Coherent) (hInside : w.Inside whole)
    (hFollows : Progress.Follows whole p done met w) :
    (w.realize p).2.journal.toList = w.narrate p.journal.toList := by
  induction w generalizing p done met with
  | activity id name duration => exact Progress.journal_once hFollows rfl
  | request id resource => exact Progress.journal_once hFollows rfl
  | release id resource => exact Progress.journal_once hFollows rfl
  | seq id first second ihFirst ihSecond =>
      exact Progress.journal_once hFollows (journal_sides ihFirst ihSecond hCoherent hInside
        hFollows (.seqFirst .self) (.seqSecond .self) (by simp only [seq.sizeOf_spec]; omega)
        (by simp only [seq.sizeOf_spec]; omega))
  | overlap id first second ihFirst ihSecond =>
      exact Progress.journal_once hFollows (journal_sides ihFirst ihSecond hCoherent hInside
        hFollows (.overlapFirst .self) (.overlapSecond .self)
        (by simp only [overlap.sizeOf_spec]; omega) (by simp only [overlap.sizeOf_spec]; omega))
  | holding id process resources expansion _ ihExpansion =>
      have hPart : expansion.Inside (holding id process resources expansion) := .expansion .self
      have hSmaller : sizeOf expansion < sizeOf (holding id process resources expansion) := by
        simp only [holding.sizeOf_spec]
        omega
      exact Progress.journal_once hFollows (ihExpansion _ _ _ (hCoherent.mono hPart)
        (hPart.trans hInside) (hFollows.enter hCoherent hPart hSmaller))

theorem realize_recalls (w : Workflow) (p : Progress) (hRecalls : p.Recalls) :
    (w.realize p).2.Recalls := by
  induction w generalizing p with
  | activity id name duration => exact Progress.recalls_once hRecalls fun _ hq => hq
  | request id resource => exact Progress.recalls_once hRecalls fun _ hq => hq
  | release id resource => exact Progress.recalls_once hRecalls fun _ hq => hq
  | seq id first second ihFirst ihSecond =>
      exact Progress.recalls_once hRecalls fun q hq => ihSecond _ (ihFirst q hq)
  | overlap id first second ihFirst ihSecond =>
      exact Progress.recalls_once hRecalls fun q hq => ihSecond _ (ihFirst q hq)
  | holding id process resources expansion _ ihExpansion =>
      exact Progress.recalls_once hRecalls ihExpansion

/-! ## The whole journal -/

/-- The journal of a compilation tells one walk through the workflow. -/
structure OnRecord (w : Workflow) : Prop where
  /-- The walk stands between an opening and a summary. -/
  journal : w.compile.journal = .opened w.id :: w.narrate [] ++
    [.finished w.network.order w.network.size w.network.entries.size w.network.exits.size
      w.compile.stats.recalled]
  /-- Every part is announced with its label, nothing else is, and nothing is twice. -/
  every : ∀ v : Workflow, v.Inside w → .compiling v.id v.label ∈ w.compile.journal
  only : ∀ id label, .compiling id label ∈ w.compile.journal →
    ∃ v : Workflow, v.Inside w ∧ v.id = id ∧ v.label = label
  once : (announced w.compile.journal).Nodup
  recalled : w.compile.journal.countP CompileRecord.isRecalled = w.compile.stats.recalled
  /-- Where a part is recalled, a complete walk through it comes before. -/
  follows : ∀ before id after, w.compile.journal = before ++ .recalled id :: after →
    ∃ v : Workflow, v.Inside w ∧ v.id = id ∧ ∃ early late, v.id ∉ announced early ∧
      before = .opened w.id :: (v.narrate early ++ late)
  leaves : (announced w.compile.journal).filter (· ∈ w.leafIds) = w.leafIds

theorem compile_recalls (w : Workflow) :
    w.compile.journal.countP CompileRecord.isRecalled = w.compile.stats.recalled := by
  have hRecalls : (w.realize .start).2.Recalls := realize_recalls w .start rfl
  show List.countP _ (CompileRecord.opened w.id :: (w.realize .start).2.journal.toList ++ [_]) = _
  rw [List.countP_append, List.countP_cons, hRecalls]
  rfl

section Journal

variable (hCoherent : w.Coherent)
include hCoherent

theorem compile_journal : w.compile.journal = .opened w.id :: w.narrate [] ++
    [.finished w.network.order w.network.size w.network.entries.size w.network.exits.size
      w.compile.stats.recalled] := by
  have hWalk := realize_narrates w .start [] [] hCoherent .self (Progress.follows_start w)
  show .opened w.id :: (w.realize .start).2.journal.toList ++ _ = _
  rw [hWalk]
  rfl

theorem compile_announcements : announcements w.compile.journal = (w.tour []).map announcement := by
  rw [compile_journal hCoherent, announcements_append, ← (narrate_start hCoherent).announcements]
  exact List.append_nil _

theorem compile_announced : announced w.compile.journal = (w.tour []).map Workflow.id := by
  rw [announced, compile_announcements hCoherent, List.map_map]
  rfl

theorem compiling_mem_journal {id : WorkflowId} {label : String} :
    .compiling id label ∈ w.compile.journal ↔
      ∃ v : Workflow, v.Inside w ∧ v.id = id ∧ v.label = label := by
  rw [← mem_announcements, compile_announcements hCoherent, List.mem_map]
  simp only [mem_tour hCoherent, announcement, Prod.mk.injEq]

/-- Among what is announced, the leaves come in their order. -/
theorem announced_leaves :
    (announced w.compile.journal).filter (· ∈ w.leafIds) = w.leafIds := by
  have hTest : ∀ v ∈ w.tour [], decide (v.id ∈ w.leafIds) = v.isLeaf := by
    intro v hv
    have hInside := (mem_tour hCoherent).1 hv
    rw [Bool.eq_iff_iff, decide_eq_true_iff]
    constructor
    · intro hMem
      obtain ⟨leaf, hListed, hId⟩ := List.mem_map.1 hMem
      have hLeaf := (mem_leaves hCoherent).1 hListed
      exact hCoherent leaf v hLeaf.2 hInside hId ▸ hLeaf.1
    · intro hLeaf
      exact List.mem_map_of_mem ((mem_leaves hCoherent).2 ⟨hLeaf, hInside⟩)
  have hFilter : (w.tour []).filter (fun v => v.id ∈ w.leafIds) = w.leaves := by
    rw [← filter_tour hCoherent]
    exact List.filter_congr hTest
  rw [compile_announced hCoherent, List.filter_map, leafIds]
  exact congrArg (List.map Workflow.id) hFilter

theorem Coherent.onRecord : w.OnRecord where
  journal := compile_journal hCoherent
  every := fun v hv => (compiling_mem_journal hCoherent).2 ⟨v, hv, rfl, rfl⟩
  only := fun _ _ hMem => (compiling_mem_journal hCoherent).1 hMem
  once := by
    rw [compile_announced hCoherent]
    exact nodup_ids_foldl_addNew w.preorder List.nodup_nil
  recalled := compile_recalls w
  follows := by
    intro before id after hSplit
    rw [compile_journal hCoherent, List.cons_append] at hSplit
    cases before with
    | nil => cases (List.cons.inj hSplit).1
    | cons head rest =>
        obtain ⟨rfl, hRest⟩ := List.cons.inj hSplit
        have hFaithful := (narrate_start hCoherent).faithful.concat_other
          (r := .finished w.network.order w.network.size w.network.entries.size
            w.network.exits.size w.compile.stats.recalled) rfl
        obtain ⟨v, hInside, hId, early, late, hNew, rfl⟩ := hFaithful rest id after hRest
        exact ⟨v, hInside, hId, early, late, hNew, rfl⟩
  leaves := announced_leaves hCoherent

end Journal

/-- The compilation of a built workflow is on record. -/
theorem onRecord_of_built (hBuilt : Built w) : w.OnRecord :=
  hBuilt.wellMade.coherent.onRecord

/-- Packing is announced on the first side and recalled on the second. -/
theorem onRecord_both : Built Sample.both ∧ Sample.both.OnRecord ∧
    Sample.both.compile.journal =
      [.opened ⟨5⟩, .compiling ⟨5⟩ "union(expr_5)", .compiling ⟨3⟩ "seq(expr_3)",
        .compiling ⟨0⟩ "pick", .compiling ⟨1⟩ "pack", .compiling ⟨4⟩ "seq(expr_4)", .recalled ⟨1⟩,
        .compiling ⟨2⟩ "ship", .finished 6 5 1 1 1] :=
  ⟨Sample.built_both, onRecord_of_built Sample.built_both, by decide +kernel⟩

end Workflow

end ActivityNetwork
