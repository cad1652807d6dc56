import ActivityNetwork.Proofs.Draft.Run
import ActivityNetwork.Proofs.Workflow.Twins

/-!
# Drafting twice

The same draft is carried out in two places, where different ids have been handed out before.  As
far as twins go in, twins come out; or both fail in the same way.  `Tandem P rel d e` says so of the
drafts `d` and `e` that begin with a pairing `P` of ids: if both succeed, the pairing has grown by
the new ids and relates the outcomes.

Ids are paired when they are handed out at the same moment of both courses, so all paired ids have
been handed out (`Pairing.Issued`), new ids cannot be confused with them, and the pairing stays one
to one.
-/

namespace ActivityNetwork

open Workflow

/-- The same way to fail, whatever the fault says about it. -/
def Fault.SameVariant : Fault → Fault → Prop
  | .circularDependency .., .circularDependency .. => True
  | .emptyResources, .emptyResources => True
  | .duplicateResource _, .duplicateResource _ => True
  | .emptyComposition a, .emptyComposition b => a = b
  | .notFound .., .notFound .. => True
  | .cycle _, .cycle _ => True
  | _, _ => False

theorem Fault.SameVariant.refl (f : Fault) : f.SameVariant f := by
  cases f <;> trivial

namespace Pairing

variable {P : Pairing} {s t u v : Supply}

/-- The pairing is one to one and pairs only what has been handed out. -/
structure Issued (P : Pairing) (s t : Supply) : Prop extends P.OneToOne where
  workflows_below : ∀ i j, P.workflows i j → i.index < s.workflows ∧ j.index < t.workflows
  resources_below : ∀ i j, P.resources i j → i.index < s.resources ∧ j.index < t.resources

/-- The pairing with one more pair of workflow ids. -/
def withWorkflow (P : Pairing) (i j : WorkflowId) : Pairing :=
  ⟨fun k l => P.workflows k l ∨ k = i ∧ l = j, P.resources⟩

/-- The pairing with one more pair of resource ids. -/
def withResource (P : Pairing) (i j : ResourceId) : Pairing :=
  ⟨P.workflows, fun k l => P.resources k l ∨ k = i ∧ l = j⟩

theorem grows_withWorkflow (P : Pairing) (i j : WorkflowId) : P.Grows (P.withWorkflow i j) :=
  ⟨fun _ _ h => Or.inl h, fun _ _ h => h⟩

theorem grows_withResource (P : Pairing) (i j : ResourceId) : P.Grows (P.withResource i j) :=
  ⟨fun _ _ h => h, fun _ _ h => Or.inl h⟩

theorem Issued.of_grows {Q : Pairing} (hIssued : Q.Issued s t) (hGrows : P.Grows Q) :
    P.Issued s t where
  workflows := ⟨fun i j k hik hjk => hIssued.workflows.1 (hGrows.workflows i k hik)
      (hGrows.workflows j k hjk), fun i j k hij hik =>
    hIssued.workflows.2 (hGrows.workflows i j hij) (hGrows.workflows i k hik)⟩
  resources := ⟨fun i j k hik hjk => hIssued.resources.1 (hGrows.resources i k hik)
      (hGrows.resources j k hjk), fun i j k hij hik =>
    hIssued.resources.2 (hGrows.resources i j hij) (hGrows.resources i k hik)⟩
  workflows_below := fun i j h => hIssued.workflows_below i j (hGrows.workflows i j h)
  resources_below := fun i j h => hIssued.resources_below i j (hGrows.resources i j h)

/-- A new pair keeps a relation one to one. -/
theorem biUnique_insert {α β : Type} {r : α → β → Prop} {a : α} {b : β} (h : Relator.BiUnique r)
    (ha : ∀ y, ¬ r a y) (hb : ∀ x, ¬ r x b) :
    Relator.BiUnique fun x y => r x y ∨ x = a ∧ y = b := by
  constructor
  · rintro x y z (hx | ⟨rfl, rfl⟩) (hy | ⟨rfl, hEq⟩)
    · exact h.1 hx hy
    · exact absurd (hEq ▸ hx) (hb x)
    · exact absurd hy (hb y)
    · rfl
  · rintro x y z (hy | ⟨rfl, rfl⟩) (hz | ⟨hEq, rfl⟩)
    · exact h.2 hy hz
    · exact absurd (hEq ▸ hy) (ha y)
    · exact absurd hz (ha z)
    · rfl

/-- Ids that are handed out at the same moment can be paired. -/
theorem Issued.withWorkflow (hIssued : P.Issued s t) :
    (P.withWorkflow ⟨s.workflows⟩ ⟨t.workflows⟩).Issued { s with workflows := s.workflows + 1 }
      { t with workflows := t.workflows + 1 } where
  workflows := biUnique_insert hIssued.workflows
    (fun j h => Nat.lt_irrefl _ (hIssued.workflows_below _ j h).1)
    fun i h => Nat.lt_irrefl _ (hIssued.workflows_below i _ h).2
  resources := hIssued.resources
  workflows_below := by
    rintro i j (h | ⟨rfl, rfl⟩)
    · obtain ⟨hi, hj⟩ := hIssued.workflows_below i j h
      exact ⟨Nat.lt_succ_of_lt hi, Nat.lt_succ_of_lt hj⟩
    · exact ⟨Nat.lt_succ_self _, Nat.lt_succ_self _⟩
  resources_below := hIssued.resources_below

theorem Issued.withResource (hIssued : P.Issued s t) :
    (P.withResource ⟨s.resources⟩ ⟨t.resources⟩).Issued { s with resources := s.resources + 1 }
      { t with resources := t.resources + 1 } where
  workflows := hIssued.workflows
  resources := biUnique_insert hIssued.resources
    (fun j h => Nat.lt_irrefl _ (hIssued.resources_below _ j h).1)
    fun i h => Nat.lt_irrefl _ (hIssued.resources_below i _ h).2
  workflows_below := hIssued.workflows_below
  resources_below := by
    rintro i j (h | ⟨rfl, rfl⟩)
    · obtain ⟨hi, hj⟩ := hIssued.resources_below i j h
      exact ⟨Nat.lt_succ_of_lt hi, Nat.lt_succ_of_lt hj⟩
    · exact ⟨Nat.lt_succ_self _, Nat.lt_succ_self _⟩

end Pairing

namespace Draft

section Steps

variable {α β γ δ : Type} {P Q : Pairing} {rel : Pairing → α → β → Prop}
  {result : Pairing → γ → δ → Prop} {d : Draft α} {e : Draft β} {f : α → Draft γ} {g : β → Draft δ}

/-- Both successes, with the pairing grown so that it relates the outcomes, or failures of the same
variant. -/
inductive Abreast (P : Pairing) (rel : Pairing → α → β → Prop) :
    EStateM.Result Fault Supply α → EStateM.Result Fault Supply β → Prop
  | ok {Q a b s t} (hGrows : P.Grows Q) (hIssued : Q.Issued s t) (hRel : rel Q a b) :
      Abreast P rel (.ok a s) (.ok b t)
  | error {f g s t} (hSame : f.SameVariant g) (hIssued : P.Issued s t) :
      Abreast P rel (.error f s) (.error g t)

/-- Begun where the same ids are paired, the drafts end abreast. -/
def Tandem (P : Pairing) (rel : Pairing → α → β → Prop) (d : Draft α) (e : Draft β) : Prop :=
  ∀ s t, P.Issued s t → Abreast P rel (d s) (e t)

theorem Abreast.of_grows {x : EStateM.Result Fault Supply α} {y : EStateM.Result Fault Supply β}
    (h : Abreast Q rel x y) (hGrows : P.Grows Q) : Abreast P rel x y := by
  cases h with
  | ok hGrowsQ hIssued hRel => exact .ok (hGrows.trans hGrowsQ) hIssued hRel
  | error hSame hIssued => exact .error hSame (hIssued.of_grows hGrows)

theorem tandem_pure {a : α} {b : β} (h : rel P a b) : Tandem P rel (pure a) (pure b) :=
  fun _ _ hIssued => .ok (.refl P) hIssued h

theorem tandem_throw {f g : Fault} (h : f.SameVariant g) :
    Tandem P rel (throw f : Draft α) (throw g : Draft β) :=
  fun _ _ hIssued => .error h hIssued

/-- Drafts may rely on the pairing being one to one. -/
theorem Tandem.of_oneToOne (h : P.OneToOne → Tandem P rel d e) : Tandem P rel d e :=
  fun s t hIssued => h hIssued.toOneToOne s t hIssued

/-- The second drafts go on with a pairing that has grown. -/
theorem Tandem.bind (hFirst : Tandem P rel d e)
    (hNext : ∀ Q, P.Grows Q → ∀ a b, rel Q a b → Tandem Q result (f a) (g b)) :
    Tandem P result (d >>= f) (e >>= g) := by
  intro s t hIssued
  have hBetween := hFirst s t hIssued
  generalize hd : d s = x at hBetween
  generalize he : e t = y at hBetween
  cases hBetween with
  | error hSame hIssued =>
      rw [bind_of_error hd, bind_of_error he]
      exact .error hSame hIssued
  | ok hGrows hIssuedQ hRel =>
      rw [bind_of_ok hd, bind_of_ok he]
      exact (hNext _ hGrows _ _ hRel _ _ hIssuedQ).of_grows hGrows

theorem tandem_newWorkflowId (P : Pairing) :
    Tandem P (fun Q i j => Q.workflows i j) newWorkflowId newWorkflowId :=
  fun s t hIssued => .ok (P.grows_withWorkflow ⟨s.workflows⟩ ⟨t.workflows⟩)
    hIssued.withWorkflow (Or.inr ⟨rfl, rfl⟩)

theorem tandem_newResourceId (P : Pairing) :
    Tandem P (fun Q i j => Q.resources i j) newResourceId newResourceId :=
  fun s t hIssued => .ok (P.grows_withResource ⟨s.resources⟩ ⟨t.resources⟩)
    hIssued.withResource (Or.inr ⟨rfl, rfl⟩)

/-- Workflows that are made in the same way from new ids. -/
theorem tandem_new {make other : WorkflowId → Workflow}
    (hMake : ∀ Q, P.Grows Q → ∀ i j, Q.workflows i j → (make i).Twin Q (other j)) :
    Tandem P Workflow.Twin (do return make (← newWorkflowId))
      (do return other (← newWorkflowId)) :=
  (tandem_newWorkflowId P).bind fun Q hGrows i j hId => tandem_pure (hMake Q hGrows i j hId)

/-- A fold over related items does the same in both places. -/
theorem tandem_foldlM {related : α → β → Prop} {step : Workflow → α → Draft Workflow}
    {other : Workflow → β → Draft Workflow} {items : List α} {others : List β}
    (hItems : List.Forall₂ related items others)
    (hStep : ∀ Q, P.Grows Q → ∀ acc rest, acc.Twin Q rest → ∀ a b, related a b →
      Tandem Q Workflow.Twin (step acc a) (other rest b))
    {start begin : Workflow} (hStart : start.Twin P begin) :
    Tandem P Workflow.Twin (items.foldlM step start) (others.foldlM other begin) := by
  suffices hGrown : ∀ Q, P.Grows Q → ∀ start begin : Workflow, start.Twin Q begin →
      Tandem Q Workflow.Twin (items.foldlM step start) (others.foldlM other begin) from
    hGrown P (.refl P) start begin hStart
  clear hStart start begin
  induction hItems with
  | nil => exact fun Q _ start begin hStart => tandem_pure hStart
  | cons hItem _ ih =>
      intro Q hGrows start begin hStart
      rw [List.foldlM_cons, List.foldlM_cons]
      refine (hStep Q hGrows start begin hStart _ _ hItem).bind fun R hGrowsR acc rest hAcc => ?_
      exact ih R (hGrows.trans hGrowsR) acc rest hAcc

/-- Drafts in a row, one for each of the related items. -/
theorem tandem_mapM {related : α → β → Prop} {draft : α → Draft Workflow}
    {other : β → Draft Workflow} {items : List α} {others : List β}
    (hItems : List.Forall₂ related items others)
    (hDraft : ∀ Q, P.Grows Q → ∀ a b, related a b → Tandem Q Workflow.Twin (draft a) (other b)) :
    Tandem P (fun Q => List.Forall₂ (Workflow.Twin Q)) (items.mapM draft) (others.mapM other) := by
  suffices hGrown : ∀ Q, P.Grows Q →
      Tandem Q (fun R => List.Forall₂ (Workflow.Twin R)) (items.mapM draft) (others.mapM other) from
    hGrown P (.refl P)
  induction hItems with
  | nil =>
      intro Q _
      rw [List.mapM_nil, List.mapM_nil]
      exact tandem_pure .nil
  | cons hItem _ ih =>
      intro Q hGrows
      rw [List.mapM_cons, List.mapM_cons]
      refine (hDraft Q hGrows _ _ hItem).bind fun R hGrowsR w v hTwin => ?_
      refine (ih R (hGrows.trans hGrowsR)).bind fun S hGrowsS ws vs hTwins => ?_
      exact tandem_pure (.cons (hTwin.mono hGrowsS) hTwins)

end Steps

variable {P : Pairing} {a b c d : Workflow} {r q : Resource} {rs qs : List Resource}
  {ws vs : List Workflow}

/-! ## One workflow and two workflows -/

theorem tandem_resource (P : Pairing) (label : String) :
    Tandem P Resource.Twin (resource label) (resource label) :=
  (tandem_newResourceId P).bind fun _ _ _ _ hId => tandem_pure ⟨hId, rfl⟩

theorem tandem_activity (P : Pairing) (name : String) (duration : Duration) :
    Tandem P Workflow.Twin (activity name duration) (activity name duration) :=
  tandem_new fun _ _ _ _ hId => .activity hId name duration

theorem tandem_request (h : r.Twin P q) : Tandem P Workflow.Twin (request r) (request q) :=
  tandem_new fun _ hGrows _ _ hId => .request hId (h.mono hGrows)

theorem tandem_release (h : r.Twin P q) : Tandem P Workflow.Twin (release r) (release q) :=
  tandem_new fun _ hGrows _ _ hId => .release hId (h.mono hGrows)

/-- What is looked for among related items is found in both lists or in none. -/
theorem find?_eq_none_iff_of_forall₂ {α β : Type} {related : α → β → Prop} {xs : List α}
    {ys : List β} {p : α → Bool} {q : β → Bool} (h : List.Forall₂ related xs ys)
    (hTest : ∀ x y, related x y → p x = q y) : xs.find? p = none ↔ ys.find? q = none := by
  induction h with
  | nil => simp
  | @cons x y _ _ hItem _ ih =>
      rw [List.find?_cons, List.find?_cons, hTest x y hItem]
      cases q y with
      | true => simp
      | false => exact ih

theorem tandem_sequence (hFirst : a.Twin P b) (hSecond : c.Twin P d) :
    Tandem P Workflow.Twin (sequence a c) (sequence b d) := by
  refine .of_oneToOne fun hP => ?_
  -- A leaf is shared on one side exactly if its twin is shared on the other.
  have hShared : c.leaves.find? (·.id ∈ a.leafIds) = none ↔
      d.leaves.find? (·.id ∈ b.leafIds) = none := by
    refine find?_eq_none_iff_of_forall₂ (leaves_twin hP hSecond) fun x y hLeaf => ?_
    exact decide_eq_decide.2 (List.rel_mem hP.workflows hLeaf.id (leafIds_twin hP hFirst))
  unfold sequence
  cases hOther : d.leaves.find? (·.id ∈ b.leafIds) with
  | none =>
      rw [hShared.2 hOther]
      exact tandem_new fun _ hGrows _ _ hId => .seq hId (hFirst.mono hGrows) (hSecond.mono hGrows)
  | some leaf =>
      cases hOne : c.leaves.find? (·.id ∈ a.leafIds) with
      | none =>
          rw [hShared.1 hOne] at hOther
          cases hOther
      | some other => exact tandem_throw trivial

theorem tandem_merge (hFirst : a.Twin P b) (hSecond : c.Twin P d) :
    Tandem P Workflow.Twin (merge a c) (merge b d) := by
  refine (tandem_newWorkflowId P).bind fun Q hGrows i j hId => .of_oneToOne fun hQ => ?_
  have hTwin : (overlap i a c).Twin Q (overlap j b d) :=
    .overlap hId (hFirst.mono hGrows) (hSecond.mono hGrows)
  have hNetwork := network_twin hQ hTwin
  -- The unions are sorted alike, so both are accepted or both are refused.
  have hOrder := Network.topologicalOrder_congr hNetwork.keys hNetwork.edges
  dsimp only
  rw [hOrder]
  cases (overlap j b d).network.topologicalOrder with
  | ok order => exact tandem_pure hTwin
  | error fault =>
      cases fault with
      | cycle nodes => exact tandem_throw trivial
      | _ => exact tandem_throw (.refl _)

/-! ## Many workflows -/

theorem tandem_chain (h : List.Forall₂ (Workflow.Twin P) ws vs) :
    Tandem P Workflow.Twin (chain ws) (chain vs) := by
  cases h with
  | nil => exact tandem_throw rfl
  | cons hFirst hRest =>
      refine tandem_foldlM hRest (fun Q hGrows acc rest hAcc w v hTwin => ?_) hFirst
      exact tandem_sequence hAcc (hTwin.mono hGrows)

theorem tandem_mergeEach {α β : Type} {related : α → β → Prop} {draft : α → Draft Workflow}
    {other : β → Draft Workflow} {items : List α} {others : List β}
    (hItems : List.Forall₂ related items others)
    (hDraft : ∀ Q, P.Grows Q → ∀ x y, related x y → Tandem Q Workflow.Twin (draft x) (other y)) :
    Tandem P Workflow.Twin (mergeEach draft items) (mergeEach other others) := by
  cases hItems with
  | nil => exact tandem_throw rfl
  | cons hFirst hRest =>
      refine (hDraft P (.refl P) _ _ hFirst).bind fun Q hGrows start begin hStart => ?_
      refine tandem_foldlM hRest (fun R hGrowsR acc rest hAcc x y hItem => ?_) hStart
      refine (hDraft R (hGrows.trans hGrowsR) x y hItem).bind fun S hGrowsS w v hTwin => ?_
      exact tandem_merge (hAcc.mono hGrowsS) hTwin

theorem tandem_mergeAll (h : List.Forall₂ (Workflow.Twin P) ws vs) :
    Tandem P Workflow.Twin (mergeAll ws) (mergeAll vs) :=
  tandem_mergeEach h fun _ hGrows _ _ hTwin => tandem_pure (hTwin.mono hGrows)

theorem tandem_simultaneous (h : List.Forall₂ (Workflow.Twin P) ws vs) :
    Tandem P Workflow.Twin (simultaneous ws) (simultaneous vs) := by
  refine (tandem_activity P "idle" .zero).bind fun Q hGrows entry entryTwin hEntry => ?_
  refine (tandem_activity Q "idle" .zero).bind fun R hGrowsR exit exitTwin hExit => ?_
  have hFramed : Tandem R (fun S => List.Forall₂ (Workflow.Twin S))
      (ws.mapM fun branch => chain [entry, branch, exit])
      (vs.mapM fun branch => chain [entryTwin, branch, exitTwin]) := by
    refine tandem_mapM h fun S hGrowsS w v hTwin => tandem_chain ?_
    refine .cons (hEntry.mono (hGrowsR.trans hGrowsS)) (.cons (hTwin.mono ?_)
      (.cons (hExit.mono hGrowsS) .nil))
    exact hGrows.trans (hGrowsR.trans hGrowsS)
  refine hFramed.bind fun S _ framed framedTwin hTwins => ?_
  cases hTwins with
  | nil => exact tandem_throw rfl
  | cons hFirst hRest => exact tandem_mergeAll (.cons hFirst hRest)

/-! ## Holding resources -/

/-- A resource is repeated on one side exactly if its twin is repeated on the other. -/
theorem firstRepeat?_eq_none_iff_of_twins (hP : P.OneToOne) {seen others : List ResourceId}
    (hSeen : List.Forall₂ P.resources seen others) (h : List.Forall₂ (Resource.Twin P) rs qs) :
    Resource.firstRepeat? seen rs = none ↔ Resource.firstRepeat? others qs = none := by
  induction h generalizing seen others with
  | nil => exact Iff.rfl
  | @cons r q rs qs hTwin _ ih =>
      have hMem : r.id ∈ seen ↔ q.id ∈ others := List.rel_mem hP.resources hTwin.1 hSeen
      rw [Resource.firstRepeat?, Resource.firstRepeat?]
      by_cases hRepeated : r.id ∈ seen
      · rw [if_pos hRepeated, if_pos (hMem.1 hRepeated)]
        simp
      · rw [if_neg hRepeated, if_neg fun hOther => hRepeated (hMem.2 hOther)]
        exact ih (List.rel_append hSeen (.cons hTwin.1 .nil))

/-- What is done once the resources have been checked. -/
theorem tandem_expand (hProcess : a.Twin P b) (h : List.Forall₂ (Resource.Twin P) rs qs) :
    Tandem P Workflow.Twin
      (do
        let requests ← mergeEach request rs
        let releases ← mergeEach release rs.reverse
        let expansion ← chain [requests, a, releases]
        return .holding (← newWorkflowId) a rs expansion)
      (do
        let requests ← mergeEach request qs
        let releases ← mergeEach release qs.reverse
        let expansion ← chain [requests, b, releases]
        return .holding (← newWorkflowId) b qs expansion) := by
  refine (tandem_mergeEach h fun Q hGrows r q hTwin => tandem_request (hTwin.mono hGrows)).bind
    fun Q hGrows requests requestsTwin hRequests => ?_
  refine (tandem_mergeEach (List.rel_reverse h) fun R hGrowsR r q hTwin =>
    tandem_release (hTwin.mono (hGrows.trans hGrowsR))).bind
      fun R hGrowsR releases releasesTwin hReleases => ?_
  have hGrown := hGrows.trans hGrowsR
  have hParts : List.Forall₂ (Workflow.Twin R) [requests, a, releases]
      [requestsTwin, b, releasesTwin] :=
    .cons (hRequests.mono hGrowsR) (.cons (hProcess.mono hGrown) (.cons hReleases .nil))
  refine (tandem_chain hParts).bind fun S hGrowsS expansion expansionTwin hExpansion => ?_
  refine tandem_new fun T hGrowsT i j hId => ?_
  have hGrownT := hGrown.trans (hGrowsS.trans hGrowsT)
  exact .holding hId (hProcess.mono hGrownT) (h.imp fun _ _ hTwin => hTwin.mono hGrownT)
    (hExpansion.mono hGrowsT)

theorem tandem_holding (hProcess : a.Twin P b) (h : List.Forall₂ (Resource.Twin P) rs qs) :
    Tandem P Workflow.Twin (holding a rs) (holding b qs) := by
  refine .of_oneToOne fun hP => ?_
  have hRepeat := firstRepeat?_eq_none_iff_of_twins hP .nil h
  have hEmpty : rs.isEmpty = qs.isEmpty := by
    cases h with
    | nil => rfl
    | cons => rfl
  unfold holding
  rw [hEmpty]
  by_cases hNone : qs.isEmpty = true
  · rw [if_pos hNone, if_pos hNone]
    exact tandem_throw trivial
  · rw [if_neg hNone, if_neg hNone]
    cases hOther : Resource.firstRepeat? [] qs with
    | some q =>
        cases hOne : Resource.firstRepeat? [] rs with
        | none =>
            rw [hRepeat.1 hOne] at hOther
            cases hOther
        | some r => exact tandem_throw trivial
    | none =>
        rw [hRepeat.2 hOther]
        exact tandem_expand hProcess h

end Draft

end ActivityNetwork
