import ActivityNetwork.Proofs.Workflow.Leaves
import ActivityNetwork.Workflow.Compilation

/-!
# Compilation without memory

`layout` builds the network of a workflow by plain recursion: no memo, no counter, only a
function that says which number the first node of each leaf has.  A compilation computes the
layout in which the leaves, in the order of `leaves`, take their nodes in turn
(`network_eq_layout`).  It also keeps the layout of every part (`kept_eq_layout`).

The simulation invariant is `Progress.Ready`: for the list of leaves met so far, whatever is in
the memo is the layout of its key under the numbering of that list.  The list only grows at its
end, so that numbers given once never change.
-/

namespace ActivityNetwork

namespace Workflow

/-- How many nodes a leaf takes: both ends of an activity, or the one node of a marker. -/
def width : Workflow → Nat
  | activity .. => 2
  | _ => 1

/-- How many nodes the leaves of the list take together. -/
def totalWidth : List Workflow → Nat
  | [] => 0
  | leaf :: rest => leaf.width + totalWidth rest

/-- The number of the first node of a leaf, where the leaves of the list take their nodes in
turn. -/
def firstNode : List Workflow → WorkflowId → Nat
  | [], _ => 0
  | leaf :: rest, id => if leaf.id = id then 0 else leaf.width + firstNode rest id

/-- The network of a workflow whose leaves have the given first nodes. -/
def layout (number : WorkflowId → Nat) : Workflow → Network
  | activity id name duration => .activity ⟨number id⟩ ⟨number id + 1⟩ name duration
  | request id resource => .marker ⟨number id⟩ (.request resource)
  | release id resource => .marker ⟨number id⟩ (.release resource)
  | seq _ first second => (first.layout number).inSequence (second.layout number)
  | overlap _ first second => (first.layout number).overlaid (second.layout number)
  | holding _ _ _ expansion => expansion.layout number

/-! ## Numbering -/

theorem firstNode_append_of_mem {found : List Workflow} {id : WorkflowId} (added : List Workflow)
    (h : id ∈ found.map Workflow.id) : firstNode (found ++ added) id = firstNode found id := by
  induction found with
  | nil => cases h
  | cons leaf rest ih =>
      rw [List.cons_append, firstNode, firstNode]
      by_cases hId : leaf.id = id
      · rw [if_pos hId, if_pos hId]
      · have hRest : id ∈ rest.map Workflow.id :=
          (List.mem_cons.1 h).resolve_left fun hEq => hId hEq.symm
        rw [if_neg hId, if_neg hId, ih hRest]

theorem firstNode_of_prefix {found longer : List Workflow} {id : WorkflowId}
    (hPrefix : found <+: longer) (h : id ∈ found.map Workflow.id) :
    firstNode longer id = firstNode found id := by
  obtain ⟨added, rfl⟩ := hPrefix
  exact firstNode_append_of_mem added h

/-- A leaf that is added begins behind the nodes of all leaves before. -/
theorem firstNode_append_of_not_mem {found : List Workflow} {id : WorkflowId}
    (added : List Workflow) (hNew : id ∉ found.map Workflow.id) :
    firstNode (found ++ added) id = totalWidth found + firstNode added id := by
  induction found with
  | nil => simp [totalWidth]
  | cons leaf rest ih =>
      rw [List.map_cons, List.mem_cons, not_or] at hNew
      rw [List.cons_append, firstNode, if_neg fun hId => hNew.1 hId.symm, ih hNew.2, totalWidth,
        Nat.add_assoc]

theorem firstNode_concat {found : List Workflow} {leaf : Workflow}
    (h : leaf.id ∉ found.map Workflow.id) :
    firstNode (found ++ [leaf]) leaf.id = totalWidth found := by
  rw [firstNode_append_of_not_mem [leaf] h, firstNode, if_pos rfl, Nat.add_zero]

/-- All nodes of a leaf are among those of the list. -/
theorem firstNode_add_width_le {found : List Workflow} {leaf : Workflow} (hLeaf : leaf ∈ found)
    (hNodup : (found.map Workflow.id).Nodup) :
    firstNode found leaf.id + leaf.width ≤ totalWidth found := by
  induction found with
  | nil => cases hLeaf
  | cons other rest ih =>
      rw [List.map_cons, List.nodup_cons] at hNodup
      rw [firstNode, totalWidth]
      rcases List.mem_cons.1 hLeaf with rfl | hRest
      · rw [if_pos rfl]
        omega
      · have hNe : other.id ≠ leaf.id := fun hEq => hNodup.1 (hEq ▸ List.mem_map_of_mem hRest)
        rw [if_neg hNe]
        have hBelow := ih hRest hNodup.2
        omega

theorem totalWidth_append (found added : List Workflow) :
    totalWidth (found ++ added) = totalWidth found + totalWidth added := by
  induction found with
  | nil => simp [totalWidth]
  | cons x rest ih =>
      rw [List.cons_append, totalWidth, ih, totalWidth]
      omega

theorem totalWidth_concat (found : List Workflow) (leaf : Workflow) :
    totalWidth (found ++ [leaf]) = totalWidth found + leaf.width :=
  totalWidth_append found [leaf]

/-- The nodes of different leaves lie apart: one leaf ends before the other one begins. -/
theorem firstNode_apart {found : List Workflow} {a b : Workflow} (hA : a ∈ found)
    (hB : b ∈ found) (hNodup : (found.map Workflow.id).Nodup) (hNe : a ≠ b) :
    firstNode found a.id + a.width ≤ firstNode found b.id ∨
      firstNode found b.id + b.width ≤ firstNode found a.id := by
  induction found with
  | nil => cases hA
  | cons leaf rest ih =>
      rw [List.map_cons, List.nodup_cons] at hNodup
      have hHead : ∀ x ∈ rest, leaf.id ≠ x.id := fun x hx hEq =>
        hNodup.1 (hEq ▸ List.mem_map_of_mem hx)
      simp only [firstNode]
      rcases List.mem_cons.1 hA with rfl | hRestA <;> rcases List.mem_cons.1 hB with rfl | hRestB
      · exact absurd rfl hNe
      · rw [if_pos rfl, if_neg (hHead b hRestB)]
        omega
      · rw [if_pos rfl, if_neg (hHead a hRestA)]
        omega
      · rw [if_neg (hHead a hRestA), if_neg (hHead b hRestB)]
        have hApart := ih hRestA hRestB hNodup.2
        omega

/-! ## Layouts -/

/-- A layout depends on the numbers of its own leaves only. -/
theorem layout_congr {w : Workflow} {number other : WorkflowId → Nat}
    (h : ∀ leaf : Workflow, leaf.LeafOf w → number leaf.id = other leaf.id) :
    w.layout number = w.layout other := by
  induction w with
  | activity id name duration =>
      have hId : number id = other id := h _ ⟨rfl, .self⟩
      rw [layout, layout, hId]
  | request id resource =>
      have hId : number id = other id := h _ ⟨rfl, .self⟩
      rw [layout, layout, hId]
  | release id resource =>
      have hId : number id = other id := h _ ⟨rfl, .self⟩
      rw [layout, layout, hId]
  | seq id first second ihFirst ihSecond =>
      rw [layout, layout, ihFirst fun leaf hLeaf => h leaf (leafOf_seq.2 (Or.inl hLeaf)),
        ihSecond fun leaf hLeaf => h leaf (leafOf_seq.2 (Or.inr hLeaf))]
  | overlap id first second ihFirst ihSecond =>
      rw [layout, layout, ihFirst fun leaf hLeaf => h leaf (leafOf_overlap.2 (Or.inl hLeaf)),
        ihSecond fun leaf hLeaf => h leaf (leafOf_overlap.2 (Or.inr hLeaf))]
  | holding id process resources expansion _ ihExpansion =>
      rw [layout, layout, ihExpansion fun leaf hLeaf => h leaf (leafOf_holding.2 hLeaf)]

/-- Leaves that are found later do not move what is laid out already. -/
theorem layout_of_prefix {w : Workflow} {found longer : List Workflow}
    (hPrefix : found <+: longer)
    (hKnown : ∀ leaf : Workflow, leaf.LeafOf w → leaf.id ∈ found.map Workflow.id) :
    w.layout (firstNode longer) = w.layout (firstNode found) :=
  layout_congr fun leaf hLeaf => firstNode_of_prefix hPrefix (hKnown leaf hLeaf)

theorem realize_seq (id : WorkflowId) (first second : Workflow) (p : Progress) :
    (seq id first second).realize p = p.once (seq id first second) fun p =>
      ((first.realize p).1.inSequence (second.realize (first.realize p).2).1,
        (second.realize (first.realize p).2).2) := rfl

theorem realize_overlap (id : WorkflowId) (first second : Workflow) (p : Progress) :
    (overlap id first second).realize p = p.once (overlap id first second) fun p =>
      ((first.realize p).1.overlaid (second.realize (first.realize p).2).1,
        (second.realize (first.realize p).2).2) := rfl

end Workflow

namespace Progress

open Workflow

/-- What the memo has of the workflow ahead is laid out over the leaves found so far. -/
structure Ready (p : Progress) (found : List Workflow) (w : Workflow) : Prop where
  found_done : ∀ id ∈ found.map Workflow.id, p.memo.find? id ≠ none
  done : ∀ v : Workflow, v.Inside w → p.memo.find? v.id ≠ none → ∀ u : Workflow, u.Inside v →
    p.memo.find? u.id = some (u.layout (firstNode found)) ∧
      (u.isLeaf = true → u.id ∈ found.map Workflow.id)
  allocated : p.stats.allocated = totalWidth found

/-- What realizing `w` does: it makes the layout, and keeps the layouts of all parts. -/
structure Realizes (before after : Progress) (found : List Workflow) (w : Workflow)
    (network : Network) : Prop where
  network : network = w.layout (firstNode (w.collect found))
  own : ∀ v : Workflow, v.Inside w →
    after.memo.find? v.id = some (v.layout (firstNode (w.collect found)))
  other : ∀ id, (∀ v : Workflow, v.Inside w → v.id ≠ id) →
    after.memo.find? id = before.memo.find? id
  allocated : after.stats.allocated = totalWidth (w.collect found)

variable {p before after : Progress} {found : List Workflow} {w part first second : Workflow}
  {network : Network}

theorem ready_start (w : Workflow) : start.Ready [] w where
  found_done := by simp
  done := fun _ _ hDone => absurd (OrderedMap.find?_empty _) hDone
  allocated := rfl

/-- The leaves of a part that is done have been found. -/
theorem Ready.known (hReady : p.Ready found w) (hDone : p.memo.find? w.id ≠ none) :
    ∀ leaf : Workflow, leaf.LeafOf w → leaf.id ∈ found.map Workflow.id :=
  fun leaf hLeaf => (hReady.done w .self hDone leaf hLeaf.2).2 hLeaf.1

/-- A workflow that is done is looked up, and nothing else changes. -/
theorem realizes_of_done (hReady : p.Ready found w) (hDone : p.memo.find? w.id = some network) :
    Realizes p (p.meetAgain w.id) found w network := by
  have hSome : p.memo.find? w.id ≠ none := by simp [hDone]
  have hSame : w.collect found = found := collect_of_known (hReady.known hSome)
  constructor
  · have hOwn := (hReady.done w .self hSome w .self).1
    rw [hDone] at hOwn
    rw [hSame]
    exact Option.some.inj hOwn
  · intro v hInside
    rw [hSame]
    exact (hReady.done w .self hSome v hInside).1
  · exact fun _ _ => rfl
  · rw [hSame]
    exact hReady.allocated

/-- Whatever `work` does, it is done for a new workflow only, and its outcome is kept. -/
theorem realizes_once {work : Progress → Network × Progress} (hReady : p.Ready found w)
    (hWork : p.memo.find? w.id = none →
      Realizes p ((work (p.record (.compiling w.id w.label))).2.store w.id
        (work (p.record (.compiling w.id w.label))).1) found w
        (work (p.record (.compiling w.id w.label))).1) :
    Realizes p (p.once w work).2 found w (p.once w work).1 := by
  cases hFind : p.memo.find? w.id with
  | some network =>
      rw [once_of_done work hFind]
      exact realizes_of_done hReady hFind
  | none =>
      rw [once_of_new work hFind]
      exact hWork hFind

/-- Entering a workflow leaves the compilation ready for its parts. -/
theorem Ready.enter (hReady : p.Ready found w) (hInside : part.Inside w) (r : CompileRecord) :
    (p.record r).Ready found part where
  found_done := hReady.found_done
  done := fun v hv hDone => hReady.done v (hv.trans hInside) hDone
  allocated := hReady.allocated

/-- After the first side the compilation is ready for the second one. -/
theorem Ready.next (hReady : before.Ready found second)
    (hFirst : Realizes before after found first network)
    (hShared : ∀ u v : Workflow, u.Inside first → v.Inside second → u.id = v.id → u = v) :
    after.Ready (first.collect found) second where
  found_done := by
    intro id hId
    by_cases hFirstId : ∃ v : Workflow, v.Inside first ∧ v.id = id
    · obtain ⟨v, hv, rfl⟩ := hFirstId
      simp [hFirst.own v hv]
    · have hOther : ∀ v : Workflow, v.Inside first → v.id ≠ id := fun v hv hEq =>
        hFirstId ⟨v, hv, hEq⟩
      rw [hFirst.other id hOther]
      rcases (mem_ids_collect id first found).1 hId with hOld | ⟨leaf, hLeaf, hEq⟩
      · exact hReady.found_done id hOld
      · exact absurd hEq (hOther leaf hLeaf.2)
  done := by
    intro v hv hDone u hu
    by_cases hShare : ∃ x : Workflow, x.Inside first ∧ x.id = v.id
    · obtain ⟨x, hx, hId⟩ := hShare
      have hEq : x = v := hShared x v hx hv hId
      have hInside : u.Inside first := hu.trans (hEq ▸ hx)
      exact ⟨hFirst.own u hInside, fun hLeaf =>
        (mem_ids_collect u.id first found).2 (Or.inr ⟨u, ⟨hLeaf, hInside⟩, rfl⟩)⟩
    · -- `v` was done before the first side; its parts may have been met there again.
      have hOther : ∀ x : Workflow, x.Inside first → x.id ≠ v.id := fun x hx hEq =>
        hShare ⟨x, hx, hEq⟩
      rw [hFirst.other v.id hOther] at hDone
      obtain ⟨hLayout, hLeafKnown⟩ := hReady.done v hv hDone u hu
      have hKnown : ∀ leaf : Workflow, leaf.LeafOf u → leaf.id ∈ found.map Workflow.id :=
        fun leaf hLeaf => (hReady.done v hv hDone leaf (hLeaf.2.trans hu)).2 hLeaf.1
      refine ⟨?_, fun hLeaf => (mem_ids_collect u.id first found).2 (Or.inl (hLeafKnown hLeaf))⟩
      by_cases hPart : ∃ x : Workflow, x.Inside first ∧ x.id = u.id
      · obtain ⟨x, hx, hId⟩ := hPart
        have hEq : x = u := hShared x u hx (hu.trans hv) hId
        exact hFirst.own u (hEq ▸ hx)
      · rw [hFirst.other u.id fun x hx hEq => hPart ⟨x, hx, hEq⟩, hLayout,
          layout_of_prefix (prefix_collect first found) hKnown]
  allocated := hFirst.allocated

/-- Realizing a leaf that is not done yet. -/
theorem realizes_leaf (hReady : p.Ready found w) (hLeaf : w.isLeaf = true)
    (hNew : p.memo.find? w.id = none) (r : CompileRecord)
    (hNetwork : network = w.layout fun _ => p.stats.allocated) :
    Realizes p (((p.record r).allocate w.width).store w.id network) found w network := by
  have hUnknown : w.id ∉ found.map Workflow.id := fun h => hReady.found_done _ h hNew
  have hCollect : w.collect found = found ++ [w] := by
    rw [collect_of_isLeaf hLeaf, addNew, if_neg hUnknown]
  -- The leaf begins where the nodes handed out so far end.
  have hLayout : network = w.layout (firstNode (w.collect found)) := by
    rw [hNetwork]
    apply layout_congr
    intro leaf hLeafOf
    rw [(leafOf_of_isLeaf hLeaf).1 hLeafOf, hCollect, firstNode_concat hUnknown,
      hReady.allocated]
  constructor
  · exact hLayout
  · intro v hv
    rw [(inside_of_isLeaf hLeaf).1 hv, find?_store, if_pos rfl, ← hLayout]
  · intro id hOther
    rw [find?_store, if_neg fun hId => hOther w .self hId.symm]
    rfl
  · show p.stats.allocated + w.width = _
    rw [hCollect, totalWidth_concat, hReady.allocated]

/-- Realizing both sides and putting them together is realizing the workflow. -/
theorem realizes_sides {between : Progress} {a b : Network} (r : CompileRecord)
    (hCoherent : w.Coherent)
    (hFirst : Realizes (before.record r) between found first a)
    (hSecond : Realizes between after (first.collect found) second b)
    (hInside : ∀ v : Workflow, v.Inside w ↔ v = w ∨ v.Inside first ∨ v.Inside second)
    (hFirstSize : sizeOf first < sizeOf w) (hSecondSize : sizeOf second < sizeOf w)
    (hCollect : w.collect found = second.collect (first.collect found))
    (hNetwork : network = w.layout (firstNode (w.collect found))) :
    Realizes before (after.store w.id network) found w network := by
  have hFirstIn : first.Inside w := (hInside first).2 (Or.inr (Or.inl .self))
  have hSecondIn : second.Inside w := (hInside second).2 (Or.inr (Or.inr .self))
  constructor
  · exact hNetwork
  · intro v hv
    rw [find?_store]
    rcases (hInside v).1 hv with rfl | hvFirst | hvSecond
    · rw [if_pos rfl, ← hNetwork]
    · rw [if_neg (hCoherent.id_ne hvFirst hFirstIn hFirstSize), hCollect]
      -- The second side comes to `v` again, or leaves it as the first side has laid it out.
      by_cases hShare : ∃ x : Workflow, x.Inside second ∧ x.id = v.id
      · obtain ⟨x, hx, hId⟩ := hShare
        have hEq : x = v := hCoherent x v (hx.trans hSecondIn) hv hId
        exact hSecond.own v (hEq ▸ hx)
      · have hKnown : ∀ leaf : Workflow, leaf.LeafOf v →
            leaf.id ∈ (first.collect found).map Workflow.id := fun leaf hLeaf =>
          (mem_ids_collect leaf.id first found).2 (Or.inr ⟨leaf, hLeaf.trans hvFirst, rfl⟩)
        rw [hSecond.other v.id fun x hx hEq => hShare ⟨x, hx, hEq⟩, hFirst.own v hvFirst,
          layout_of_prefix (prefix_collect second _) hKnown]
    · rw [if_neg (hCoherent.id_ne hvSecond hSecondIn hSecondSize), hCollect]
      exact hSecond.own v hvSecond
  · intro id hOther
    rw [find?_store, if_neg fun hId => hOther w .self hId.symm,
      hSecond.other id fun v hv => hOther v (hv.trans hSecondIn),
      hFirst.other id fun v hv => hOther v (hv.trans hFirstIn), memo_record]
  · rw [hCollect]
    exact hSecond.allocated

end Progress

namespace Workflow

/-- What is to be shown of a part: a compilation under way that comes to it lays it out. -/
private def LaidOut (w : Workflow) : Prop :=
  ∀ (p : Progress) (found : List Workflow), w.Coherent → p.Ready found w →
    p.Realizes (w.realize p).2 found w (w.realize p).1

/-- Two sides of one coherent workflow, realized one after the other and put together. -/
private theorem realizes_once_sides {w first second : Workflow} {p : Progress}
    {found : List Workflow} {together : Network → Network → Network}
    (ihFirst : first.LaidOut) (ihSecond : second.LaidOut)
    (hCoherent : w.Coherent) (hReady : p.Ready found w)
    (hInside : ∀ v : Workflow, v.Inside w ↔ v = w ∨ v.Inside first ∨ v.Inside second)
    (hFirstSize : sizeOf first < sizeOf w) (hSecondSize : sizeOf second < sizeOf w)
    (hCollect : w.collect found = second.collect (first.collect found))
    (hLayout : ∀ number, w.layout number = together (first.layout number) (second.layout number))
    {work : Progress → Network × Progress}
    (hWork : ∀ p, work p = (together (first.realize p).1 (second.realize (first.realize p).2).1,
      (second.realize (first.realize p).2).2)) :
    p.Realizes (p.once w work).2 found w (p.once w work).1 := by
  have hFirst : first.Inside w := (hInside first).2 (Or.inr (Or.inl .self))
  have hSecond : second.Inside w := (hInside second).2 (Or.inr (Or.inr .self))
  refine Progress.realizes_once hReady fun _ => ?_
  have hReadyFirst := hReady.enter hFirst (.compiling w.id w.label)
  have hReadySecond := hReady.enter hSecond (.compiling w.id w.label)
  have hRealizeFirst := ihFirst _ _ (hCoherent.mono hFirst) hReadyFirst
  have hReadyNext := hReadySecond.next hRealizeFirst fun u v hu hv =>
    hCoherent u v (hu.trans hFirst) (hv.trans hSecond)
  have hRealizeSecond := ihSecond _ _ (hCoherent.mono hSecond) hReadyNext
  rw [hWork]
  refine Progress.realizes_sides _ hCoherent hRealizeFirst hRealizeSecond hInside hFirstSize
    hSecondSize hCollect ?_
  -- Realizing the second side changes no number of the first.
  have hKnown : ∀ leaf : Workflow, leaf.LeafOf first →
      leaf.id ∈ (first.collect found).map Workflow.id := fun leaf hLeaf =>
    (mem_ids_collect leaf.id first found).2 (Or.inr ⟨leaf, hLeaf, rfl⟩)
  rw [hLayout, hCollect, hRealizeSecond.network, hRealizeFirst.network,
    layout_of_prefix (prefix_collect second _) hKnown]

/-- A compilation under way lays out every coherent workflow that it comes to. -/
theorem realize_realizes (w : Workflow) (p : Progress) (found : List Workflow)
    (hCoherent : w.Coherent) (hReady : p.Ready found w) :
    p.Realizes (w.realize p).2 found w (w.realize p).1 := by
  induction w generalizing p found with
  | activity id name duration =>
      exact Progress.realizes_once hReady fun hNew =>
        Progress.realizes_leaf hReady rfl hNew _ rfl
  | request id resource =>
      exact Progress.realizes_once hReady fun hNew =>
        Progress.realizes_leaf hReady rfl hNew _ rfl
  | release id resource =>
      exact Progress.realizes_once hReady fun hNew =>
        Progress.realizes_leaf hReady rfl hNew _ rfl
  | seq id first second ihFirst ihSecond =>
      rw [realize_seq]
      exact realizes_once_sides ihFirst ihSecond hCoherent hReady (fun _ => inside_seq)
        (by simp only [seq.sizeOf_spec]; omega) (by simp only [seq.sizeOf_spec]; omega)
        (collect_seq id first second found) (fun _ => rfl) fun _ => rfl
  | overlap id first second ihFirst ihSecond =>
      rw [realize_overlap]
      exact realizes_once_sides ihFirst ihSecond hCoherent hReady (fun _ => inside_overlap)
        (by simp only [overlap.sizeOf_spec]; omega) (by simp only [overlap.sizeOf_spec]; omega)
        (collect_overlap id first second found) (fun _ => rfl) fun _ => rfl
  | holding id process resources expansion _ ihExpansion =>
      refine Progress.realizes_once hReady fun _ => ?_
      have hPart : expansion.Inside (holding id process resources expansion) := .expansion .self
      have hRealize := ihExpansion _ _ (hCoherent.mono hPart) (hReady.enter hPart (.compiling id
        (holding id process resources expansion).label))
      have hSmaller : sizeOf expansion < sizeOf (holding id process resources expansion) := by
        simp only [holding.sizeOf_spec]
        omega
      constructor
      · exact hRealize.network
      · intro v hv
        rw [Progress.find?_store]
        rcases inside_holding.1 hv with rfl | hvPart
        · rw [if_pos rfl]
          exact congrArg some hRealize.network
        · rw [if_neg (hCoherent.id_ne hvPart hPart hSmaller)]
          exact hRealize.own v hvPart
      · intro other hOther
        rw [Progress.find?_store, if_neg fun hId => hOther _ .self hId.symm]
        exact hRealize.other other fun v hv => hOther v (.expansion hv)
      · exact hRealize.allocated

/-- The number that a compilation of `whole` gives to the first node of a leaf. -/
def numbering (whole : Workflow) : WorkflowId → Nat :=
  firstNode whole.leaves

/-- The network that a compilation of `whole` keeps for one of its parts. -/
def kept? (whole part : Workflow) : Option Network :=
  (whole.realize .start).2.memo.find? part.id

/-- A compilation makes the layout of a workflow. -/
theorem network_eq_layout {w : Workflow} (hCoherent : w.Coherent) :
    w.network = w.layout w.numbering := by
  have h := realize_realizes w .start [] hCoherent (Progress.ready_start w)
  rw [numbering, leaves_eq_collect hCoherent]
  exact h.network

/-- A compilation hands out as many nodes as the leaves take together. -/
theorem compile_allocated {w : Workflow} (hCoherent : w.Coherent) :
    w.compile.stats.allocated = totalWidth w.leaves := by
  have h := realize_realizes w .start [] hCoherent (Progress.ready_start w)
  rw [leaves_eq_collect hCoherent]
  exact h.allocated

/-- A compilation keeps the layout of every part. -/
theorem kept_eq_layout {w part : Workflow} (hCoherent : w.Coherent) (hInside : part.Inside w) :
    w.kept? part = some (part.layout w.numbering) := by
  have h := realize_realizes w .start [] hCoherent (Progress.ready_start w)
  rw [numbering, leaves_eq_collect hCoherent]
  exact h.own part hInside

end Workflow

end ActivityNetwork
