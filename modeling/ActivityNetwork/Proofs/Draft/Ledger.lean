import ActivityNetwork.Proofs.Draft.Planning

/-!
# The ledger

The ledger lists everything that was ever made, in the order in which it was made, whether it can
still be got at or not.  It is `Recorded` if ids ascend along it, if whatever a listed workflow is
put together from is listed before it, and if the process of every holding lies behind its
expansion.

A plan keeps that by making nothing but workflows that fit (`Fits`).  What is to be seen of a plan
is therefore `Plan.Ensures`: whatever ids are taken, each workflow fits what is listed by then, and
in the end something holds of the outcome and the ledger.  There is one such lemma for each
operation, and it also says how long the ledger has become by then; what an operation costs is known
from there (`Plan.Makes.cost`).
-/

namespace ActivityNetwork

open Workflow

/-- A new workflow with this id fits what is known: it is put together from known workflows, and its
process lies behind its expansion. -/
structure Fits (known : List Workflow) (id : WorkflowId) (w : Workflow) : Prop where
  own : w.id = id
  parts : ∀ place part, w.part? place = some part → part ∈ known
  behind : ∀ own process resources expansion, w = holding own process resources expansion →
    process.Inside expansion

/-- Everything that was made, in this order, up to a supply. -/
structure Recorded (s : Supply) (made : List Workflow) : Prop where
  ascending : made.Pairwise fun u v => u.id.index < v.id.index
  used : ∀ w ∈ made, w.id.index < s.workflows
  parts : ∀ w ∈ made, ∀ place part, w.part? place = some part →
    part ∈ made ∧ part.id.index < w.id.index
  behind : ∀ own process resources expansion, holding own process resources expansion ∈ made →
    process.Inside expansion

section Fits

variable {known : List Workflow} {id : WorkflowId} {first second w : Workflow}

theorem fits_of_isLeaf (hId : w.id = id) (hLeaf : w.isLeaf = true) : Fits known id w := by
  refine ⟨hId, fun place part hPart => ?_, fun own process resources expansion hEq => ?_⟩
  · rcases isLeaf_cases hLeaf with
      ⟨id, name, duration, rfl⟩ | ⟨id, resource, rfl⟩ | ⟨id, resource, rfl⟩ <;>
      cases place <;> cases hPart
  · rw [hEq] at hLeaf
    cases hLeaf

theorem fits_seq (id : WorkflowId) (hFirst : first ∈ known) (hSecond : second ∈ known) :
    Fits known id (seq id first second) := by
  refine ⟨rfl, fun place part hPart => ?_, fun _ _ _ _ hEq => by cases hEq⟩
  cases place <;> cases hPart
  · exact hFirst
  · exact hSecond

theorem fits_overlap (id : WorkflowId) (hFirst : first ∈ known) (hSecond : second ∈ known) :
    Fits known id (overlap id first second) := by
  refine ⟨rfl, fun place part hPart => ?_, fun _ _ _ _ hEq => by cases hEq⟩
  cases place <;> cases hPart
  · exact hFirst
  · exact hSecond

theorem fits_holding (id : WorkflowId) (resources : List Resource) {process expansion : Workflow}
    (hProcess : process ∈ known) (hExpansion : expansion ∈ known)
    (hBehind : process.Inside expansion) :
    Fits known id (holding id process resources expansion) := by
  refine ⟨rfl, fun place part hPart => ?_, fun _ _ _ _ hEq => ?_⟩
  · cases place <;> cases hPart
    · exact hProcess
    · exact hExpansion
  · cases hEq
    exact hBehind

end Fits

namespace Recorded

variable {s t : Supply} {made : List Workflow} {w : Workflow}

theorem empty (s : Supply) : Recorded s [] where
  ascending := .nil
  used := fun _ hMem => absurd hMem List.not_mem_nil
  parts := fun _ hMem => absurd hMem List.not_mem_nil
  behind := fun _ _ _ _ hMem => absurd hMem List.not_mem_nil

/-- Ids that others take leave gaps. -/
theorem spend (h : Recorded s made) (hLe : s.workflows ≤ t.workflows) : Recorded t made :=
  { h with used := fun w hw => Nat.lt_of_lt_of_le (h.used w hw) hLe }

/-- One more workflow, with the next id. -/
theorem add (h : Recorded s made) (hFits : Fits made ⟨s.workflows⟩ w) :
    Recorded { s with workflows := s.workflows + 1 } (made ++ [w]) where
  ascending := by
    refine List.pairwise_append.2 ⟨h.ascending, List.pairwise_singleton _ _, fun u hu v hv => ?_⟩
    rw [List.mem_singleton.1 hv, hFits.own]
    exact h.used u hu
  used := by
    intro v hv
    rcases List.mem_append.1 hv with hOld | hNew
    · exact Nat.lt_succ_of_lt (h.used v hOld)
    · rw [List.mem_singleton.1 hNew, hFits.own]
      exact Nat.lt_succ_self _
  parts := by
    intro v hv place part hPart
    rcases List.mem_append.1 hv with hOld | hNew
    · obtain ⟨hMem, hLt⟩ := h.parts v hOld place part hPart
      exact ⟨List.mem_append_left _ hMem, hLt⟩
    · rw [List.mem_singleton.1 hNew] at hPart ⊢
      have hMem := hFits.parts place part hPart
      refine ⟨List.mem_append_left _ hMem, ?_⟩
      rw [hFits.own]
      exact h.used part hMem
  behind := by
    intro own process resources expansion hMem
    rcases List.mem_append.1 hMem with hOld | hNew
    · exact h.behind own process resources expansion hOld
    · exact hFits.behind own process resources expansion (List.mem_singleton.1 hNew).symm

end Recorded

namespace Plan

variable {α β : Type}

/-- Whatever ids are taken, what is made fits what is known by then, and in the end the outcome is
as it should be. -/
def Ensures : Plan α → List Workflow → (α → List Workflow → Prop) → Prop
  | done a, known, good => good a known
  | refused _, _, _ => True
  | making form next, known, good =>
      ∀ id, Fits known id (form id) ∧ (next (form id)).Ensures (known ++ [form id]) good

/-- The plan makes `n` workflows until it is done, and its outcome is known by then. -/
def Makes (p : Plan Workflow) (known : List Workflow) (n : Nat) : Prop :=
  p.Ensures known fun w later => w ∈ later ∧ later.length = known.length + n

variable {p : Plan α} {f : α → Plan β} {known : List Workflow} {s t : Supply}
  {good between : α → List Workflow → Prop} {best : β → List Workflow → Prop}

/-! ## Reading a plan -/

theorem Ensures.bind (hFirst : p.Ensures known between)
    (hNext : ∀ a later, known ⊆ later → between a later → (f a).Ensures later best) :
    (p >>= f).Ensures known best := by
  induction p generalizing known with
  | done a => exact hNext a known (List.Subset.refl _) hFirst
  | refused fault => trivial
  | making form next ih =>
      intro id
      obtain ⟨hFits, hRest⟩ := hFirst id
      refine ⟨hFits, ih (form id) hRest fun a later hSub => hNext a later ?_⟩
      exact fun w hw => hSub (List.mem_append_left _ hw)

theorem Ensures.mono (hPlan : p.Ensures known between)
    (hGood : ∀ a later, known ⊆ later → between a later → good a later) : p.Ensures known good := by
  rw [← bind_done p]
  exact hPlan.bind hGood

theorem ensures_new {form : WorkflowId → Workflow} {good : Workflow → List Workflow → Prop}
    (hFits : ∀ id, Fits known id (form id)) (hGood : ∀ id, good (form id) (known ++ [form id])) :
    (new form).Ensures known good :=
  fun id => ⟨hFits id, hGood id⟩

/-- Carrying out a plan keeps the ledger as it should be, also when the plan is refused midway. -/
theorem Ensures.recorded (hPlan : p.Ensures known good) (h : Recorded s known) :
    Recorded (Draft.spent (p.run s)) (known ++ p.made s.workflows) := by
  induction p generalizing known s with
  | done a =>
      rw [made, List.append_nil]
      exact h
  | refused fault =>
      rw [made, List.append_nil]
      exact h
  | making form next ih =>
      -- The rest of the plan goes on with the new workflow at the end of the ledger.
      obtain ⟨hFits, hRest⟩ := hPlan ⟨s.workflows⟩
      rw [made, List.append_cons]
      exact ih (form ⟨s.workflows⟩) hRest (h.add hFits)

theorem Ensures.outcome {a : α} (hPlan : p.Ensures known good) (hDone : p.run s = .ok a t) :
    good a (known ++ p.made s.workflows) := by
  induction p generalizing known s with
  | done b =>
      cases hDone
      rw [made, List.append_nil]
      exact hPlan
  | refused fault => cases hDone
  | making form next ih =>
      obtain ⟨-, hRest⟩ := hPlan ⟨s.workflows⟩
      rw [made, List.append_cons]
      exact ih (form ⟨s.workflows⟩) (s := { s with workflows := s.workflows + 1 }) hRest hDone

/-- What a plan costs if it is not refused. -/
theorem Makes.cost {p : Plan Workflow} {w : Workflow} {n : Nat} (hPlan : p.Makes known n)
    (hDone : p.run s = .ok w t) : t = { s with workflows := s.workflows + n } := by
  have hLength := (hPlan.outcome hDone).2
  rw [List.length_append] at hLength
  have hSpent := spent_run p s
  rw [hDone] at hSpent
  rw [Nat.add_left_cancel hLength] at hSpent
  exact hSpent

/-! ## What the operations make -/

variable {first second process w : Workflow} {ws : List Workflow} {resources : List Resource}
  {n : Nat}

theorem makes_new {form : WorkflowId → Workflow} (hFits : ∀ id, Fits known id (form id)) :
    (new form).Makes known 1 :=
  ensures_new hFits fun _ =>
    ⟨List.mem_append_right _ (List.mem_singleton_self _), List.length_append⟩

theorem makes_leaf {form : WorkflowId → Workflow} (hId : ∀ id, (form id).id = id)
    (hLeaf : ∀ id, (form id).isLeaf = true) : (new form).Makes known 1 :=
  makes_new fun id => fits_of_isLeaf (hId id) (hLeaf id)

theorem ensures_sequence (hFirst : first ∈ known) (hSecond : second ∈ known) :
    (sequence first second).Ensures known fun w later =>
      (w ∈ later ∧ later.length = known.length + 1) ∧ ∃ id, w = seq id first second := by
  unfold sequence
  cases second.leaves.find? (·.id ∈ first.leafIds) with
  | some leaf => trivial
  | none =>
      refine ensures_new (fun id => fits_seq id hFirst hSecond) fun id => ⟨?_, id, rfl⟩
      exact ⟨List.mem_append_right _ (List.mem_singleton_self _), List.length_append⟩

theorem makes_sequence (hFirst : first ∈ known) (hSecond : second ∈ known) :
    (sequence first second).Makes known 1 :=
  (ensures_sequence hFirst hSecond).mono fun _ _ _ hw => hw.1

theorem makes_merge (hFirst : first ∈ known) (hSecond : second ∈ known) :
    (merge first second).Makes known 1 := by
  refine fun id => ⟨fits_overlap id hFirst hSecond, ?_⟩
  dsimp only
  cases (overlap id first second).network.topologicalOrder with
  | ok order => exact ⟨List.mem_append_right _ (List.mem_singleton_self _), List.length_append⟩
  | error fault => cases fault <;> trivial

/-- A fold makes as much as all of its steps together. -/
theorem makes_foldlM {step : Workflow → α → Plan Workflow} {items : List α} {start : Workflow}
    (hStep : ∀ later acc, known ⊆ later → acc ∈ later → ∀ item ∈ items,
      (step acc item).Makes later n)
    (hStart : start ∈ known) : (items.foldlM step start).Makes known (n * items.length) := by
  induction items generalizing known start with
  | nil => exact ⟨hStart, rfl⟩
  | cons item items ih =>
      rw [List.foldlM_cons]
      have hOne := hStep known start (List.Subset.refl _) hStart item List.mem_cons_self
      refine hOne.bind fun acc later hSub hAcc => ?_
      have hRest := ih (fun last acc hLast hMem other hOther =>
        hStep last acc (List.Subset.trans hSub hLast) hMem other (List.mem_cons_of_mem _ hOther))
        hAcc.1
      refine hRest.mono fun w last _ hw => ⟨hw.1, ?_⟩
      rw [hw.2, hAcc.2, List.length_cons, Nat.mul_succ]
      omega

theorem makes_chain (hWs : ∀ w ∈ ws, w ∈ known) : (chain ws).Makes known (ws.length - 1) := by
  cases ws with
  | nil => trivial
  | cons first rest =>
      rw [List.length_cons, Nat.add_sub_cancel, ← Nat.one_mul rest.length]
      refine makes_foldlM (fun later acc hSub hAcc w hw => ?_) (hWs first List.mem_cons_self)
      exact makes_sequence hAcc (hSub (hWs w (List.mem_cons_of_mem _ hw)))

/-- Each item is planned for `n` workflows, and a union is made for each item but the first. -/
theorem makes_mergeEach {plan : α → Plan Workflow} {items : List α}
    (hPlan : ∀ later, known ⊆ later → ∀ item ∈ items, (plan item).Makes later n) :
    (mergeEach plan items).Makes known (n * items.length + (items.length - 1)) := by
  cases items with
  | nil => trivial
  | cons first rest =>
      have hFirst := hPlan known (List.Subset.refl _) first List.mem_cons_self
      refine hFirst.bind fun start later hSub hStart => ?_
      -- Every further item takes its own plan and one union.
      have hRest : (rest.foldlM (fun union item => plan item >>= merge union) start).Makes later
          ((n + 1) * rest.length) := by
        refine makes_foldlM (fun last union hLast hUnion item hItem => ?_) hStart.1
        have hItemPlan := hPlan last (List.Subset.trans hSub hLast) item
          (List.mem_cons_of_mem _ hItem)
        refine hItemPlan.bind fun w after hAfter hw => ?_
        refine (makes_merge (hAfter hUnion) hw.1).mono fun u total _ hu => ⟨hu.1, ?_⟩
        rw [hu.2, hw.2]
        omega
      refine hRest.mono fun w last _ hw => ⟨hw.1, ?_⟩
      rw [hw.2, hStart.2, List.length_cons, Nat.add_sub_cancel, Nat.mul_succ, Nat.succ_mul]
      omega

/-- Plans in a row make what each of them makes. -/
theorem ensures_mapM {plan : α → Plan Workflow} {items : List α}
    (hPlan : ∀ later, known ⊆ later → ∀ item ∈ items, (plan item).Makes later n) :
    (items.mapM plan).Ensures known fun ws later =>
      ws ⊆ later ∧ ws.length = items.length ∧ later.length = known.length + n * items.length := by
  induction items generalizing known with
  | nil =>
      rw [List.mapM_nil]
      exact ⟨List.nil_subset _, rfl, rfl⟩
  | cons item items ih =>
      rw [List.mapM_cons]
      refine (hPlan known (List.Subset.refl _) item List.mem_cons_self).bind ?_
      intro w later hSub hw
      have hRest := ih fun last hLast other hOther =>
        hPlan last (List.Subset.trans hSub hLast) other (List.mem_cons_of_mem _ hOther)
      refine hRest.bind fun ws last hLast hWs => ?_
      refine ⟨List.cons_subset.2 ⟨hLast hw.1, hWs.1⟩, ?_, ?_⟩
      · rw [List.length_cons, List.length_cons, hWs.2.1]
      · rw [hWs.2.2, hw.2, List.length_cons, Nat.mul_succ]
        omega

/-- Two spacers, two sequences for each branch, and the unions. -/
theorem makes_simultaneous {branches : List Workflow} (hBranches : ∀ w ∈ branches, w ∈ known) :
    (simultaneous branches).Makes known (3 * branches.length + 1) := by
  refine (makes_leaf (fun _ => rfl) fun _ => rfl).bind fun entry afterEntry hSubEntry hEntry => ?_
  refine (makes_leaf (fun _ => rfl) fun _ => rfl).bind fun exit afterExit hSubExit hExit => ?_
  have hFramed : (branches.mapM fun branch => chain [entry, branch, exit]).Ensures afterExit
      fun ws later => ws ⊆ later ∧ ws.length = branches.length ∧
        later.length = afterExit.length + 2 * branches.length := by
    refine ensures_mapM fun later hSub branch hBranch => makes_chain ?_
    intro w hw
    simp only [List.mem_cons, List.not_mem_nil, or_false] at hw
    rcases hw with rfl | rfl | rfl
    · exact hSub (hSubExit hEntry.1)
    · exact hSub (hSubExit (hSubEntry (hBranches w hBranch)))
    · exact hSub hExit.1
  refine hFramed.bind fun framed later _ hWs => ?_
  obtain ⟨hKnown, hCount, hLater⟩ := hWs
  cases framed with
  | nil => trivial
  | cons first rest =>
      have hMerged : (mergeEach done (first :: rest)).Makes later
          (0 * (first :: rest).length + ((first :: rest).length - 1)) :=
        makes_mergeEach fun last hLast w hw => ⟨hLast (hKnown hw), rfl⟩
      refine hMerged.mono fun w last _ hw => ⟨hw.1, ?_⟩
      rw [hw.2, hLater, hExit.2, hEntry.2, ← hCount, List.length_cons]
      omega

/-- A chain of three has its middle as a part. -/
theorem ensures_chain_three {a b c : Workflow} (ha : a ∈ known) (hb : b ∈ known) (hc : c ∈ known) :
    (chain [a, b, c]).Ensures known fun w later =>
      w ∈ later ∧ later.length = known.length + 2 ∧ b.Inside w := by
  have hChain : chain [a, b, c] = sequence a b >>= fun front => sequence front c := by
    simp [chain]
  rw [hChain]
  refine (ensures_sequence ha hb).bind fun front later hSub hFront => ?_
  obtain ⟨⟨hKnown, hLater⟩, inner, rfl⟩ := hFront
  refine (ensures_sequence hKnown (hSub hc)).mono fun w last _ hw => ?_
  obtain ⟨⟨hMem, hLast⟩, outer, rfl⟩ := hw
  exact ⟨hMem, by rw [hLast, hLater], .seqFirst (.seqSecond .self)⟩

/-- As many requests and releases as resources, the unions of either, two sequences, and the holding
itself. -/
theorem makes_holding (hProcess : process ∈ known) (resources : List Resource) :
    (holding process resources).Makes known (4 * resources.length + 1) := by
  unfold holding
  split
  · trivial
  · rename_i hNonempty
    have hLength : 0 < resources.length := by
      rw [List.length_pos_iff]
      simpa using hNonempty
    cases Resource.firstRepeat? [] resources with
    | some r => trivial
    | none =>
        have hRequests : (mergeEach (fun r => new (.request · r)) resources).Makes known
            (1 * resources.length + (resources.length - 1)) :=
          makes_mergeEach fun _ _ _ _ => makes_leaf (fun _ => rfl) fun _ => rfl
        refine hRequests.bind fun requests afterRequests hSubRequests hRequest => ?_
        have hReleases : (mergeEach (fun r => new (.release · r)) resources.reverse).Makes
            afterRequests (1 * resources.reverse.length + (resources.reverse.length - 1)) :=
          makes_mergeEach fun _ _ _ _ => makes_leaf (fun _ => rfl) fun _ => rfl
        refine hReleases.bind fun releases afterReleases hSubReleases hRelease => ?_
        have hChain := ensures_chain_three (hSubReleases hRequest.1)
          (hSubReleases (hSubRequests hProcess)) hRelease.1
        refine hChain.bind fun expansion afterChain hSubChain hExpansion => ?_
        have hKnown : process ∈ afterChain := hSubChain (hSubReleases (hSubRequests hProcess))
        refine (makes_new fun id => fits_holding id resources hKnown hExpansion.1
          hExpansion.2.2).mono fun w later _ hw => ⟨hw.1, ?_⟩
        rw [hw.2, hExpansion.2.1, hRelease.2, hRequest.2, List.length_reverse]
        omega

end Plan

end ActivityNetwork
