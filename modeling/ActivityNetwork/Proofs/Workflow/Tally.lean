import ActivityNetwork.Proofs.Workflow.Leaves
import ActivityNetwork.Workflow.Compilation

/-!
# What a compilation counts

A compilation finishes every part of a workflow once, from the inside out.  `finish` lists the
parts in this order by plain recursion, and the counts of the compilation are read off the list
(`compile_compiled`, `compile_asked`): it compiles as many workflows as are listed, and it asks
for the root and for what each listed workflow is put together from.  Whatever it asks for and
does not compile, it recalls.

The invariant of the recursion is `Progress.Keeps`: the memo has exactly the ids of the list, and
of the workflow ahead it has no part without the parts of that part.
-/

namespace ActivityNetwork

namespace CompileStats

/-- How many workflows were asked for: each was compiled or recalled. -/
def asked (s : CompileStats) : Nat :=
  s.compiled + s.recalled

end CompileStats

namespace Workflow

/-- How many workflows are asked for when the parts of `w` are put together. -/
def arity : Workflow → Nat
  | seq .. => 2
  | overlap .. => 2
  | holding .. => 1
  | _ => 0

/-- How many workflows are asked for when the parts of all these are put together. -/
def totalArity : List Workflow → Nat
  | [] => 0
  | w :: rest => w.arity + totalArity rest

/-- The parts of a workflow from the inside out, once for each path to them. -/
def unfold : Workflow → List Workflow
  | w@(seq _ first second) => first.unfold ++ second.unfold ++ [w]
  | w@(overlap _ first second) => first.unfold ++ second.unfold ++ [w]
  | w@(holding _ _ _ expansion) => expansion.unfold ++ [w]
  | leaf => [leaf]

/-- What was finished before, and behind it the parts of `w` with new ids. -/
def finish (w : Workflow) (done : List Workflow) : List Workflow :=
  w.unfold.foldl addNew done

variable {w v first second : Workflow} {done : List Workflow}

/-! ## The order in which parts are finished -/

theorem mem_unfold : v ∈ w.unfold ↔ v.Inside w := by
  induction w with
  | activity id name duration =>
      rw [inside_of_isLeaf rfl]
      exact List.mem_singleton
  | request id resource =>
      rw [inside_of_isLeaf rfl]
      exact List.mem_singleton
  | release id resource =>
      rw [inside_of_isLeaf rfl]
      exact List.mem_singleton
  | seq id first second ihFirst ihSecond =>
      rw [unfold, List.mem_append, List.mem_append, List.mem_singleton, ihFirst, ihSecond,
        inside_seq, or_comm]
  | overlap id first second ihFirst ihSecond =>
      rw [unfold, List.mem_append, List.mem_append, List.mem_singleton, ihFirst, ihSecond,
        inside_overlap, or_comm]
  | holding id process resources expansion _ ihExpansion =>
      rw [unfold, List.mem_append, List.mem_singleton, ihExpansion, inside_holding, or_comm]

theorem mem_ids_finish (id : WorkflowId) (w : Workflow) (done : List Workflow) :
    id ∈ (w.finish done).map Workflow.id ↔
      id ∈ done.map Workflow.id ∨ ∃ v : Workflow, v.Inside w ∧ v.id = id := by
  rw [finish, mem_ids_foldl_addNew]
  simp only [List.mem_map, mem_unfold]

theorem finish_of_known (h : ∀ v : Workflow, v.Inside w → v.id ∈ done.map Workflow.id) :
    w.finish done = done :=
  foldl_addNew_of_known fun v hv => h v (mem_unfold.1 hv)

theorem finish_of_isLeaf (hLeaf : w.isLeaf = true) (done : List Workflow) :
    w.finish done = addNew done w := by
  rcases isLeaf_cases hLeaf with
    ⟨id, name, duration, rfl⟩ | ⟨id, resource, rfl⟩ | ⟨id, resource, rfl⟩
  · rfl
  · rfl
  · rfl

theorem finish_seq (id : WorkflowId) (first second : Workflow) (done : List Workflow) :
    (seq id first second).finish done =
      addNew (second.finish (first.finish done)) (seq id first second) := by
  simp [finish, unfold]

theorem finish_overlap (id : WorkflowId) (first second : Workflow) (done : List Workflow) :
    (overlap id first second).finish done =
      addNew (second.finish (first.finish done)) (overlap id first second) := by
  simp [finish, unfold]

theorem finish_holding (id : WorkflowId) (process : Workflow) (resources : List Resource)
    (expansion : Workflow) (done : List Workflow) :
    (holding id process resources expansion).finish done =
      addNew (expansion.finish done) (holding id process resources expansion) := by
  simp [finish, unfold]

theorem totalArity_append (xs ys : List Workflow) :
    totalArity (xs ++ ys) = totalArity xs + totalArity ys := by
  induction xs with
  | nil => rw [List.nil_append, totalArity, Nat.zero_add]
  | cons x xs ih => rw [List.cons_append, totalArity, totalArity, ih, Nat.add_assoc]

theorem arity_of_isLeaf (hLeaf : w.isLeaf = true) : w.arity = 0 := by
  rcases isLeaf_cases hLeaf with
    ⟨id, name, duration, rfl⟩ | ⟨id, resource, rfl⟩ | ⟨id, resource, rfl⟩
  · rfl
  · rfl
  · rfl

end Workflow

namespace Progress

open Workflow

/-- The memo has the finished workflows, and of the workflow ahead it has whole parts only. -/
structure Keeps (p : Progress) (done : List Workflow) (w : Workflow) : Prop where
  memo : ∀ id, p.memo.find? id ≠ none ↔ id ∈ done.map Workflow.id
  complete : ∀ v : Workflow, v.Inside w → v.id ∈ done.map Workflow.id →
    ∀ u : Workflow, u.Inside v → u.id ∈ done.map Workflow.id

/-- What asking for `w` counts: its new parts are compiled, and for each of these the parts that
it is put together from are asked for. -/
structure Counts (before after : Progress) (done : List Workflow) (w : Workflow) : Prop where
  memo : ∀ id, after.memo.find? id ≠ none ↔ id ∈ (w.finish done).map Workflow.id
  compiled : after.stats.compiled + done.length =
    before.stats.compiled + (w.finish done).length
  asked : after.stats.asked + totalArity done =
    before.stats.asked + 1 + totalArity (w.finish done)

variable {p before between after : Progress} {done : List Workflow} {w part first second : Workflow}

theorem keeps_start (w : Workflow) : start.Keeps [] w where
  memo := fun id => by simp [start, OrderedMap.find?_empty]
  complete := fun _ _ hMem => absurd hMem List.not_mem_nil

theorem Keeps.known (hKeeps : p.Keeps done w) (hDone : w.id ∈ done.map Workflow.id) :
    w.finish done = done :=
  finish_of_known (hKeeps.complete w .self hDone)

/-- A workflow that is done is recalled. -/
theorem counts_of_done (hKeeps : p.Keeps done w) (hDone : w.id ∈ done.map Workflow.id) :
    p.Counts (p.meetAgain w.id) done w where
  memo := fun id => by rw [hKeeps.known hDone, memo_meetAgain, hKeeps.memo]
  compiled := by
    rw [hKeeps.known hDone]
    rfl
  asked := by
    rw [hKeeps.known hDone]
    simp only [CompileStats.asked, meetAgain, record]
    omega

/-- Whatever `work` does, it is done for a new workflow only, and its outcome is kept. -/
theorem counts_once {work : Progress → Network × Progress} (hKeeps : p.Keeps done w)
    (hWork : w.id ∉ done.map Workflow.id →
      p.Counts ((work (p.record (.compiling w.id w.label))).2.store w.id
        (work (p.record (.compiling w.id w.label))).1) done w) :
    p.Counts (p.once w work).2 done w := by
  cases hFind : p.memo.find? w.id with
  | some network =>
      have hDone : w.id ∈ done.map Workflow.id := (hKeeps.memo w.id).1 (by simp [hFind])
      rw [once_of_done work hFind]
      exact counts_of_done hKeeps hDone
  | none =>
      have hNew : w.id ∉ done.map Workflow.id := fun hMem => (hKeeps.memo w.id).2 hMem hFind
      rw [once_of_new work hFind]
      exact hWork hNew

/-- Entering a workflow changes no count. -/
theorem Keeps.enter (hKeeps : p.Keeps done w) (hInside : part.Inside w) (r : CompileRecord) :
    (p.record r).Keeps done part where
  memo := hKeeps.memo
  complete := fun v hv hMem => hKeeps.complete v (hv.trans hInside) hMem

/-- After the first side the second one finds whole parts in the memo, too. -/
theorem Keeps.next (hKeeps : before.Keeps done second) (hFirst : before.Counts between done first)
    (hShared : ∀ u v : Workflow, u.Inside first → v.Inside second → u.id = v.id → u = v) :
    between.Keeps (first.finish done) second where
  memo := hFirst.memo
  complete := by
    intro v hv hMem u hu
    rw [mem_ids_finish] at hMem ⊢
    rcases hMem with hOld | ⟨x, hx, hId⟩
    · exact Or.inl (hKeeps.complete v hv hOld u hu)
    · have hEq : x = v := hShared x v hx hv hId
      exact Or.inr ⟨u, hu.trans (hEq ▸ hx), rfl⟩

/-- Putting a new workflow into the memo, once what it is put together from was asked for. -/
theorem counts_store {finished : List Workflow} {network : Network}
    (hMemo : ∀ id, after.memo.find? id ≠ none ↔ id ∈ finished.map Workflow.id)
    (hCompiled : after.stats.compiled + done.length = before.stats.compiled + finished.length)
    (hAsked : after.stats.asked + totalArity done =
      before.stats.asked + w.arity + totalArity finished)
    (hFinish : w.finish done = addNew finished w)
    (hNew : w.id ∉ finished.map Workflow.id) :
    before.Counts (after.store w.id network) done w := by
  have hConcat : w.finish done = finished ++ [w] := by
    rw [hFinish, addNew, if_neg hNew]
  constructor
  · intro id
    rw [hConcat, find?_store, List.map_append, List.mem_append, ← hMemo, List.map_singleton,
      List.mem_singleton]
    by_cases hId : id = w.id
    · simp [hId]
    · simp [hId]
  · rw [hConcat, List.length_append, List.length_singleton]
    simp only [store]
    omega
  · rw [hConcat, totalArity_append]
    simp only [CompileStats.asked, store, totalArity] at hAsked ⊢
    omega

/-- No part of a new workflow carries its id. -/
theorem id_not_finished (hCoherent : w.Coherent) (hPart : part.Inside w)
    (hSmaller : sizeOf part < sizeOf w) (hNew : w.id ∉ done.map Workflow.id) :
    w.id ∉ (part.finish done).map Workflow.id := by
  rw [mem_ids_finish]
  rintro (hOld | ⟨v, hv, hId⟩)
  · exact hNew hOld
  · exact hCoherent.id_ne hv hPart hSmaller hId

theorem counts_leaf (hKeeps : p.Keeps done w) (hLeaf : w.isLeaf = true)
    (hNew : w.id ∉ done.map Workflow.id) (r : CompileRecord) (n : Nat) (network : Network) :
    p.Counts (((p.record r).allocate n).store w.id network) done w := by
  refine counts_store hKeeps.memo rfl ?_ (finish_of_isLeaf hLeaf done) hNew
  rw [arity_of_isLeaf hLeaf]
  rfl

end Progress

namespace Workflow

/-- What is to be shown of a part: asking for it counts its new parts. -/
private def Tallied (w : Workflow) : Prop :=
  ∀ (p : Progress) (done : List Workflow), w.Coherent → p.Keeps done w →
    p.Counts (w.realize p).2 done w

/-- Two sides of one coherent workflow, asked for one after the other. -/
private theorem counts_once_sides {w first second : Workflow} {p : Progress}
    {done : List Workflow} (together : Network → Network → Network)
    (ihFirst : first.Tallied) (ihSecond : second.Tallied)
    (hCoherent : w.Coherent) (hKeeps : p.Keeps done w)
    (hFirst : first.Inside w) (hSecond : second.Inside w)
    (hFirstSize : sizeOf first < sizeOf w) (hSecondSize : sizeOf second < sizeOf w)
    (hArity : w.arity = 2)
    (hFinish : w.finish done = addNew (second.finish (first.finish done)) w)
    {work : Progress → Network × Progress}
    (hWork : ∀ p, work p = (together (first.realize p).1 (second.realize (first.realize p).2).1,
      (second.realize (first.realize p).2).2)) :
    p.Counts (p.once w work).2 done w := by
  refine Progress.counts_once hKeeps fun hNew => ?_
  have hCountFirst := ihFirst _ _ (hCoherent.mono hFirst)
    (hKeeps.enter hFirst (.compiling w.id w.label))
  have hNext := (hKeeps.enter hSecond (.compiling w.id w.label)).next hCountFirst
    fun u v hu hv => hCoherent u v (hu.trans hFirst) (hv.trans hSecond)
  have hCountSecond := ihSecond _ _ (hCoherent.mono hSecond) hNext
  rw [hWork]
  refine Progress.counts_store hCountSecond.memo ?_ ?_ hFinish ?_
  · have hCompiledFirst := hCountFirst.compiled
    have hCompiledSecond := hCountSecond.compiled
    change _ = p.stats.compiled + _ at hCompiledFirst
    dsimp only
    omega
  · have hAskedFirst := hCountFirst.asked
    have hAskedSecond := hCountSecond.asked
    change _ = p.stats.asked + _ + _ at hAskedFirst
    rw [hArity]
    dsimp only
    omega
  · exact Progress.id_not_finished hCoherent hSecond hSecondSize
      (Progress.id_not_finished hCoherent hFirst hFirstSize hNew)

/-- Asking for a coherent workflow counts its new parts. -/
theorem realize_counts (w : Workflow) (p : Progress) (done : List Workflow)
    (hCoherent : w.Coherent) (hKeeps : p.Keeps done w) : p.Counts (w.realize p).2 done w := by
  induction w generalizing p done with
  | activity id name duration =>
      exact Progress.counts_once hKeeps fun hNew => Progress.counts_leaf hKeeps rfl hNew _ _ _
  | request id resource =>
      exact Progress.counts_once hKeeps fun hNew => Progress.counts_leaf hKeeps rfl hNew _ _ _
  | release id resource =>
      exact Progress.counts_once hKeeps fun hNew => Progress.counts_leaf hKeeps rfl hNew _ _ _
  | seq id first second ihFirst ihSecond =>
      exact counts_once_sides Network.inSequence ihFirst ihSecond hCoherent hKeeps
        (.seqFirst .self) (.seqSecond .self) (by simp only [seq.sizeOf_spec]; omega)
        (by simp only [seq.sizeOf_spec]; omega) rfl (finish_seq id first second done) fun _ => rfl
  | overlap id first second ihFirst ihSecond =>
      exact counts_once_sides Network.overlaid ihFirst ihSecond hCoherent hKeeps
        (.overlapFirst .self) (.overlapSecond .self) (by simp only [overlap.sizeOf_spec]; omega)
        (by simp only [overlap.sizeOf_spec]; omega) rfl (finish_overlap id first second done)
        fun _ => rfl
  | holding id process resources expansion _ ihExpansion =>
      have hPart : expansion.Inside (holding id process resources expansion) := .expansion .self
      have hSmaller : sizeOf expansion < sizeOf (holding id process resources expansion) := by
        simp only [holding.sizeOf_spec]
        omega
      refine Progress.counts_once hKeeps fun hNew => ?_
      have hCount := ihExpansion _ _ (hCoherent.mono hPart) (hKeeps.enter hPart (.compiling id
        (holding id process resources expansion).label))
      refine Progress.counts_store hCount.memo hCount.compiled hCount.asked
        (finish_holding id process resources expansion done) ?_
      exact Progress.id_not_finished hCoherent hPart hSmaller hNew

variable {w : Workflow}

theorem compile_counts (hCoherent : w.Coherent) : Progress.start.Counts (w.realize .start).2 [] w :=
  realize_counts w .start [] hCoherent (Progress.keeps_start w)

/-- Every part is compiled once. -/
theorem compile_compiled (hCoherent : w.Coherent) :
    w.compile.stats.compiled = (w.finish []).length := by
  have h := (compile_counts hCoherent).compiled
  show (w.realize .start).2.stats.compiled = _
  simpa [Progress.start, CompileStats.zero] using h

/-- Asked for are the workflow itself and what each of its parts is put together from. -/
theorem compile_asked (hCoherent : w.Coherent) :
    w.compile.stats.asked = 1 + totalArity (w.finish []) := by
  have h := (compile_counts hCoherent).asked
  show (w.realize .start).2.stats.asked = _
  simpa [Progress.start, CompileStats.zero, CompileStats.asked, totalArity] using h

end Workflow

end ActivityNetwork
