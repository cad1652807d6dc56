import ActivityNetwork.Proofs.Draft.Advancing
import ActivityNetwork.Proofs.Draft.Tandem

/-!
# Scripts

A script is a list of steps, each of which calls an operation on what earlier steps have made.  It
is played while others take ids, too: before each step any number of unrelated actions may happen,
with any operands, whether they succeed or fail.

What comes of a script does not depend on any of this.  Played twice, from any supplies and among
any other actions, it has twin outcomes at every step (`play_twin`).  So each step succeeds both
times or fails both times in the same way, and what it makes compiles to the same network but for
the ids of resources (`script_independent`).
-/

namespace ActivityNetwork

open Workflow

/-- What has come of a step. -/
inductive Outcome where
  | workflow (w : Workflow)
  | resource (r : Resource)
  | failed (fault : Fault)
  /-- An operand was not there, so nothing was called. -/
  | skipped

namespace Outcome

def workflow? : Outcome → Option Workflow
  | workflow w => some w
  | _ => none

def resource? : Outcome → Option Resource
  | resource r => some r
  | _ => none

end Outcome

/-- Something that takes ids: a call of an operation, or a new resource. -/
inductive Action where
  | call (c : Call)
  | resource (label : String)

namespace Action

def draft : Action → Draft Outcome
  | call c => do return .workflow (← c.draft)
  | resource label => do return .resource (← Draft.resource label)

/-- What comes of the action, and the supply after it. -/
def perform (a : Action) (s : Supply) : Outcome × Supply :=
  match a.draft s with
  | .ok outcome t => (outcome, t)
  | .error fault t => (.failed fault, t)

end Action

/-- The supply after a number of actions elsewhere. -/
def Supply.after (s : Supply) (actions : List Action) : Supply :=
  actions.foldl (fun s a => (a.perform s).2) s

/-- A step of a script.  Operands are given by the positions of the steps that have made them. -/
inductive Step where
  | activity (name : String) (duration : Duration)
  | idle
  | resource (label : String)
  | request (resource : Nat)
  | release (resource : Nat)
  | sequence (first second : Nat)
  | merge (first second : Nat)
  | chain (ws : List Nat)
  | mergeAll (ws : List Nat)
  | simultaneous (branches : List Nat)
  | holding (process : Nat) (resources : List Nat)

section Play

/-- The workflow that an earlier step has made. -/
def workflowAt (done : List Outcome) (i : Nat) : Option Workflow :=
  done[i]?.bind Outcome.workflow?

/-- The resource that an earlier step has made. -/
def resourceAt (done : List Outcome) (i : Nat) : Option Resource :=
  done[i]?.bind Outcome.resource?

namespace Step

/-- What the step calls, if its operands are there. -/
def action? (done : List Outcome) : Step → Option Action
  | activity name duration => some (.call (.activity name duration))
  | idle => some (.call .idle)
  | resource label => some (.resource label)
  | request i => do return .call (.request (← resourceAt done i))
  | release i => do return .call (.release (← resourceAt done i))
  | sequence i j => do return .call (.sequence (← workflowAt done i) (← workflowAt done j))
  | merge i j => do return .call (.merge (← workflowAt done i) (← workflowAt done j))
  | chain is => do return .call (.chain (← is.mapM (workflowAt done)))
  | mergeAll is => do return .call (.mergeAll (← is.mapM (workflowAt done)))
  | simultaneous is => do return .call (.simultaneous (← is.mapM (workflowAt done)))
  | holding i js => do
      return .call (.holding (← workflowAt done i) (← js.mapM (resourceAt done)))

/-- What comes of the step, and the supply after it. -/
def perform (step : Step) (done : List Outcome) (s : Supply) : Outcome × Supply :=
  match step.action? done with
  | some a => a.perform s
  | none => (.skipped, s)

end Step

/-- Plays the steps after those that are done.  `elsewhere i` is what happens before step `i`. -/
def play (elsewhere : Nat → List Action) : List Step → List Outcome → Supply → List Outcome
  | [], done, _ => done
  | step :: rest, done, s =>
      let (outcome, s) := step.perform done (s.after (elsewhere done.length))
      play elsewhere rest (done ++ [outcome]) s

/-- What comes of each step of a script. -/
def outcomes (elsewhere : Nat → List Action) (script : List Step) (s : Supply) : List Outcome :=
  play elsewhere script [] s

end Play

/-! ## The same up to the ids of resources -/

/-- The resource under its new id. -/
def Resource.rename (σ : ResourceId → ResourceId) (r : Resource) : Resource :=
  { r with id := σ r.id }

/-- The mark with its resource under its new id. -/
def NodeKind.rename (σ : ResourceId → ResourceId) : NodeKind → NodeKind
  | boundary => boundary
  | request r => request (r.rename σ)
  | release r => release (r.rename σ)

/-- The network with all resources under new ids, and everything else as it is. -/
def Network.renameResources (σ : ResourceId → ResourceId) (g : Network) : Network :=
  { g with nodes := g.nodes.mapValues fun _ kind => kind.rename σ }

namespace Outcome

/-- The same has come of both steps: the same network with the same counts, the same resource under
its new id, or a failure of the same variant. -/
def Matches (σ : ResourceId → ResourceId) : Outcome → Outcome → Prop
  | workflow w, workflow v =>
      v.network = w.network.renameResources σ ∧ v.compile.stats = w.compile.stats
  | resource r, resource q => q = r.rename σ
  | failed f, failed g => f.SameVariant g
  | skipped, skipped => True
  | _, _ => False

/-- The ids of the resources among the outcomes. -/
def resourceIds (outcomes : List Outcome) : Set ResourceId :=
  { i | ∃ r : Resource, Outcome.resource r ∈ outcomes ∧ r.id = i }

end Outcome

/-! ## Twin steps -/

section Twins

variable {P Q : Pairing} {s t u v : Supply} {done others : List Outcome}

/-- Twin workflows or resources, or failures of the same variant. -/
inductive Outcome.Twin (P : Pairing) : Outcome → Outcome → Prop
  | workflow {w v} (h : w.Twin P v) : Twin P (.workflow w) (.workflow v)
  | resource {r q} (h : r.Twin P q) : Twin P (.resource r) (.resource q)
  | failed {f g} (h : f.SameVariant g) : Twin P (.failed f) (.failed g)
  | skipped : Twin P .skipped .skipped

theorem Outcome.Twin.mono {a b : Outcome} (h : a.Twin P b) (hGrows : P.Grows Q) : a.Twin Q b := by
  cases h with
  | workflow h => exact .workflow (h.mono hGrows)
  | resource h => exact .resource (h.mono hGrows)
  | failed h => exact .failed h
  | skipped => exact .skipped

/-- The same operation on twin operands. -/
inductive Call.Twin (P : Pairing) : Call → Call → Prop
  | activity (name duration) : Twin P (.activity name duration) (.activity name duration)
  | idle : Twin P .idle .idle
  | request {r q} (h : r.Twin P q) : Twin P (.request r) (.request q)
  | release {r q} (h : r.Twin P q) : Twin P (.release r) (.release q)
  | sequence {a b c d} (hFirst : a.Twin P b) (hSecond : c.Twin P d) :
      Twin P (.sequence a c) (.sequence b d)
  | merge {a b c d} (hFirst : a.Twin P b) (hSecond : c.Twin P d) :
      Twin P (.merge a c) (.merge b d)
  | chain {ws vs} (h : List.Forall₂ (Workflow.Twin P) ws vs) : Twin P (.chain ws) (.chain vs)
  | mergeAll {ws vs} (h : List.Forall₂ (Workflow.Twin P) ws vs) :
      Twin P (.mergeAll ws) (.mergeAll vs)
  | simultaneous {ws vs} (h : List.Forall₂ (Workflow.Twin P) ws vs) :
      Twin P (.simultaneous ws) (.simultaneous vs)
  | holding {a b rs qs} (hProcess : a.Twin P b) (h : List.Forall₂ (Resource.Twin P) rs qs) :
      Twin P (.holding a rs) (.holding b qs)

theorem Call.Twin.tandem {a b : Call} (h : a.Twin P b) :
    Draft.Tandem P Workflow.Twin a.draft b.draft := by
  cases h with
  | activity name duration => exact Draft.tandem_activity P name duration
  | idle => exact Draft.tandem_activity P "idle" .zero
  | request h => exact Draft.tandem_request h
  | release h => exact Draft.tandem_release h
  | sequence hFirst hSecond => exact Draft.tandem_sequence hFirst hSecond
  | merge hFirst hSecond => exact Draft.tandem_merge hFirst hSecond
  | chain h => exact Draft.tandem_chain h
  | mergeAll h => exact Draft.tandem_mergeAll h
  | simultaneous h => exact Draft.tandem_simultaneous h
  | holding hProcess h => exact Draft.tandem_holding hProcess h

/-- The same action on twin operands. -/
inductive Action.Twin (P : Pairing) : Action → Action → Prop
  | call {a b} (h : a.Twin P b) : Twin P (.call a) (.call b)
  | resource (label) : Twin P (.resource label) (.resource label)

theorem Action.Twin.tandem {a b : Action} (h : a.Twin P b) :
    Draft.Tandem P Outcome.Twin a.draft b.draft := by
  cases h with
  | call h => exact h.tandem.bind fun _ _ _ _ hTwin => Draft.tandem_pure (.workflow hTwin)
  | resource label =>
      exact (Draft.tandem_resource P label).bind fun _ _ _ _ hTwin =>
        Draft.tandem_pure (.resource hTwin)

theorem Action.Twin.perform {a b : Action} (h : a.Twin P b) (hIssued : P.Issued s t) :
    ∃ Q, P.Grows Q ∧ Q.Issued (a.perform s).2 (b.perform t).2 ∧
      (a.perform s).1.Twin Q (b.perform t).1 := by
  have hAbreast := h.tandem s t hIssued
  unfold Action.perform
  generalize a.draft s = x at hAbreast
  generalize b.draft t = y at hAbreast
  cases hAbreast with
  | ok hGrows hIssued hTwin => exact ⟨_, hGrows, hIssued, hTwin⟩
  | error hSame hIssued => exact ⟨P, .refl P, hIssued, .failed hSame⟩

/-! ### Operands -/

/-- What is done with related operands, if they are there. -/
theorem rel_bind {α β γ δ : Type} {r : α → β → Prop} {q : γ → δ → Prop} {x : Option α}
    {y : Option β} {f : α → Option γ} {g : β → Option δ} (h : Option.Rel r x y)
    (hNext : ∀ a b, r a b → Option.Rel q (f a) (g b)) : Option.Rel q (x >>= f) (y >>= g) := by
  cases h with
  | some h => exact hNext _ _ h
  | none => exact .none

theorem rel_getElem? {α β : Type} {r : α → β → Prop} {as : List α} {bs : List β}
    (h : List.Forall₂ r as bs) (i : Nat) : Option.Rel r as[i]? bs[i]? := by
  induction h generalizing i with
  | nil => exact .none
  | cons hHead _ ih =>
      cases i with
      | zero => exact .some hHead
      | succ i => exact ih i

theorem rel_mapM {α β γ : Type} {r : β → γ → Prop} {f : α → Option β} {g : α → Option γ}
    (h : ∀ a, Option.Rel r (f a) (g a)) (as : List α) :
    Option.Rel (List.Forall₂ r) (as.mapM f) (as.mapM g) := by
  induction as with
  | nil =>
      rw [List.mapM_nil, List.mapM_nil]
      exact .some .nil
  | cons a as ih =>
      rw [List.mapM_cons, List.mapM_cons]
      exact rel_bind (h a) fun b c hHead => rel_bind ih fun bs cs hRest =>
        .some (.cons hHead hRest)

theorem Outcome.Twin.workflow? {a b : Outcome} (h : a.Twin P b) :
    Option.Rel (Workflow.Twin P) a.workflow? b.workflow? := by
  cases h with
  | workflow h => exact .some h
  | resource h => exact .none
  | failed h => exact .none
  | skipped => exact .none

theorem Outcome.Twin.resource? {a b : Outcome} (h : a.Twin P b) :
    Option.Rel (Resource.Twin P) a.resource? b.resource? := by
  cases h with
  | workflow h => exact .none
  | resource h => exact .some h
  | failed h => exact .none
  | skipped => exact .none

theorem workflowAt_twin (h : List.Forall₂ (Outcome.Twin P) done others) (i : Nat) :
    Option.Rel (Workflow.Twin P) (workflowAt done i) (workflowAt others i) :=
  rel_bind (rel_getElem? h i) fun _ _ hTwin => hTwin.workflow?

theorem resourceAt_twin (h : List.Forall₂ (Outcome.Twin P) done others) (i : Nat) :
    Option.Rel (Resource.Twin P) (resourceAt done i) (resourceAt others i) :=
  rel_bind (rel_getElem? h i) fun _ _ hTwin => hTwin.resource?

/-- A step finds twin operands among twin outcomes, or misses one among both. -/
theorem action?_twin (h : List.Forall₂ (Outcome.Twin P) done others) (step : Step) :
    Option.Rel (Action.Twin P) (step.action? done) (step.action? others) := by
  have hWorkflows := workflowAt_twin h
  have hResources := resourceAt_twin h
  cases step with
  | activity name duration => exact .some (.call (.activity name duration))
  | idle => exact .some (.call .idle)
  | resource label => exact .some (.resource label)
  | request i => exact rel_bind (hResources i) fun _ _ h => .some (.call (.request h))
  | release i => exact rel_bind (hResources i) fun _ _ h => .some (.call (.release h))
  | sequence i j =>
      exact rel_bind (hWorkflows i) fun _ _ hFirst => rel_bind (hWorkflows j) fun _ _ hSecond =>
        .some (.call (.sequence hFirst hSecond))
  | merge i j =>
      exact rel_bind (hWorkflows i) fun _ _ hFirst => rel_bind (hWorkflows j) fun _ _ hSecond =>
        .some (.call (.merge hFirst hSecond))
  | chain is => exact rel_bind (rel_mapM hWorkflows is) fun _ _ h => .some (.call (.chain h))
  | mergeAll is => exact rel_bind (rel_mapM hWorkflows is) fun _ _ h => .some (.call (.mergeAll h))
  | simultaneous is =>
      exact rel_bind (rel_mapM hWorkflows is) fun _ _ h => .some (.call (.simultaneous h))
  | holding i js =>
      exact rel_bind (hWorkflows i) fun _ _ hProcess => rel_bind (rel_mapM hResources js)
        fun _ _ h => .some (.call (.holding hProcess h))

/-! ### Steps -/

theorem Step.perform_twin (h : List.Forall₂ (Outcome.Twin P) done others) (step : Step)
    (hIssued : P.Issued s t) :
    ∃ Q, P.Grows Q ∧ Q.Issued (step.perform done s).2 (step.perform others t).2 ∧
      (step.perform done s).1.Twin Q (step.perform others t).1 := by
  have hAction := action?_twin h step
  unfold Step.perform
  generalize step.action? done = x at hAction
  generalize step.action? others = y at hAction
  cases hAction with
  | some h => exact h.perform hIssued
  | none => exact ⟨P, .refl P, hIssued, .skipped⟩

theorem Action.reaches_perform (a : Action) (s : Supply) : s.Reaches (a.perform s).2 := by
  have hAdvances : Draft.Advances a.draft := by
    cases a with
    | call c => exact (Draft.advances_draft c).bind fun w =>
          Draft.advances_pure (Outcome.workflow w)
    | resource label =>
        exact (Draft.advances_resource label).bind fun r =>
          Draft.advances_pure (Outcome.resource r)
  have hAfter := hAdvances s
  unfold Action.perform
  cases hDraft : a.draft s with
  | ok outcome t =>
      rw [hDraft] at hAfter
      exact hAfter
  | error fault t =>
      rw [hDraft] at hAfter
      exact hAfter

theorem Supply.reaches_after (actions : List Action) (s : Supply) :
    s.Reaches (s.after actions) := by
  induction actions generalizing s with
  | nil => exact .refl s
  | cons a rest ih => exact (a.reaches_perform s).trans (ih (a.perform s).2)

/-- What happens elsewhere takes other ids, so nothing that is paired is handed out again. -/
theorem Pairing.Issued.of_reaches (hIssued : P.Issued s t) (hs : s.Reaches u) (ht : t.Reaches v) :
    P.Issued u v where
  toOneToOne := hIssued.toOneToOne
  workflows_below := fun i j h =>
    ⟨Nat.lt_of_lt_of_le (hIssued.workflows_below i j h).1 hs.workflows,
      Nat.lt_of_lt_of_le (hIssued.workflows_below i j h).2 ht.workflows⟩
  resources_below := fun i j h =>
    ⟨Nat.lt_of_lt_of_le (hIssued.resources_below i j h).1 hs.resources,
      Nat.lt_of_lt_of_le (hIssued.resources_below i j h).2 ht.resources⟩

/-! ## Scripts played twice -/

/-- From twin outcomes on, the rest of a script has twin outcomes. -/
theorem play_twin (here there : Nat → List Action) (script : List Step)
    (h : List.Forall₂ (Outcome.Twin P) done others) (hIssued : P.Issued s t) :
    ∃ Q, Q.OneToOne ∧
      List.Forall₂ (Outcome.Twin Q) (play here script done s) (play there script others t) := by
  -- The induction is on the steps to come.  Those before them are twins under ids that both
  -- courses have handed out, and each step keeps it so.
  induction script generalizing P done others s t with
  | nil => exact ⟨P, hIssued.toOneToOne, h⟩
  | cons step rest ih =>
      have hBefore := hIssued.of_reaches (s.reaches_after (here done.length))
        (t.reaches_after (there others.length))
      obtain ⟨Q, hGrows, hIssuedQ, hOutcome⟩ := step.perform_twin h hBefore
      have hKept : List.Forall₂ (Outcome.Twin Q) done others := h.imp fun _ _ hTwin =>
        hTwin.mono hGrows
      exact ih (List.rel_append hKept (.cons hOutcome .nil)) hIssuedQ

/-- Nothing is paired before the first step. -/
def Pairing.empty : Pairing :=
  ⟨fun _ _ => False, fun _ _ => False⟩

theorem Pairing.issued_empty (s t : Supply) : Pairing.empty.Issued s t where
  workflows := ⟨fun _ _ _ h => h.elim, fun _ _ _ h => h.elim⟩
  resources := ⟨fun _ _ _ h => h.elim, fun _ _ _ h => h.elim⟩
  workflows_below := fun _ _ h => h.elim
  resources_below := fun _ _ h => h.elim

theorem Outcome.Twin.exists_of_mem {a : Outcome} (h : List.Forall₂ (Outcome.Twin P) done others)
    (hMem : a ∈ done) : ∃ b, a.Twin P b := by
  induction h with
  | nil => exact absurd hMem List.not_mem_nil
  | cons hHead _ ih =>
      cases hMem with
      | head => exact ⟨_, hHead⟩
      | tail _ hMem => exact ih hMem

/-- A renaming that gives every paired resource id the id that it is paired with. -/
def Pairing.Follows (P : Pairing) (σ : ResourceId → ResourceId) : Prop :=
  ∀ i j, P.resources i j → σ i = j

theorem Pairing.OneToOne.exists_follows (hP : P.OneToOne) : ∃ σ, P.Follows σ := by
  classical
  refine ⟨fun i => if h : ∃ j, P.resources i j then h.choose else i, fun i j hPaired => ?_⟩
  have hSome : ∃ j, P.resources i j := ⟨j, hPaired⟩
  show (if h : ∃ j, P.resources i j then h.choose else i) = j
  rw [dif_pos hSome]
  exact hP.resources.2 hSome.choose_spec hPaired

section Follows

variable {σ : ResourceId → ResourceId} (hFollows : P.Follows σ)
include hFollows

theorem Resource.Twin.eq_rename {r q : Resource} (h : r.Twin P q) : q = r.rename σ := by
  cases r
  cases q
  obtain ⟨hId, hLabel⟩ := h
  rw [Resource.rename, Resource.mk.injEq]
  exact ⟨(hFollows _ _ hId).symm, hLabel.symm⟩

theorem NodeKind.Twin.eq_rename {k l : NodeKind} (h : k.Twin P l) : l = k.rename σ := by
  cases k with
  | boundary =>
      cases l with
      | boundary => rfl
      | request => exact h.elim
      | release => exact h.elim
  | request r =>
      cases l with
      | boundary => exact h.elim
      | request q => exact congrArg NodeKind.request (Resource.Twin.eq_rename hFollows h)
      | release => exact h.elim
  | release r =>
      cases l with
      | boundary => exact h.elim
      | request => exact h.elim
      | release q => exact congrArg NodeKind.release (Resource.Twin.eq_rename hFollows h)

theorem Network.Twin.eq_renameResources {g h : Network} (hTwin : g.Twin P h) :
    h = g.renameResources σ := by
  refine Network.ext_fields ?_ hTwin.edges.symm hTwin.entries.symm hTwin.exits.symm
  have hEntries : List.Forall₂ Eq h.nodes.entries
      (g.nodes.entries.map fun n => (n.1, n.2.rename σ)) := by
    rw [List.forall₂_map_right_iff]
    refine hTwin.nodes.flip.imp fun m n hNode => ?_
    exact Prod.ext hNode.1.symm (hNode.2.eq_rename hFollows)
  rw [List.forall₂_eq_eq_eq] at hEntries
  exact OrderedMap.ext_entries hEntries

theorem Outcome.Twin.matches {a b : Outcome} (hP : P.OneToOne) (h : a.Twin P b) :
    a.Matches σ b := by
  cases h with
  | workflow h =>
      exact ⟨(network_twin hP h).eq_renameResources hFollows, (stats_twin hP h).symm⟩
  | resource h => exact h.eq_rename hFollows
  | failed h => exact h
  | skipped => trivial

/-- Different resources stay different under their new ids. -/
theorem injOn_resourceIds (hP : P.OneToOne) (h : List.Forall₂ (Outcome.Twin P) done others) :
    Set.InjOn σ (Outcome.resourceIds done) := by
  have hPaired : ∀ i ∈ Outcome.resourceIds done, P.resources i (σ i) := by
    rintro i ⟨r, hMem, rfl⟩
    obtain ⟨other, hTwin⟩ := Outcome.Twin.exists_of_mem h hMem
    cases hTwin with
    | resource hTwin => exact (hFollows _ _ hTwin.1).symm ▸ hTwin.1
  intro i hi k hk hEq
  exact hP.resources.1 (hPaired i hi) (hEq ▸ hPaired k hk)

end Follows

end Twins

/-- What comes of a script does not depend on which ids have been handed out before, or are handed
out in between to others.  One renaming of resources leads from all outcomes of one course to those
of the other. -/
theorem script_independent (script : List Step) (here there : Nat → List Action) (s t : Supply) :
    ∃ σ : ResourceId → ResourceId,
      Set.InjOn σ (Outcome.resourceIds (outcomes here script s)) ∧
        List.Forall₂ (Outcome.Matches σ) (outcomes here script s) (outcomes there script t) := by
  obtain ⟨P, hP, hTwins⟩ := play_twin here there script .nil (Pairing.issued_empty s t)
  obtain ⟨σ, hFollows⟩ := hP.exists_follows
  exact ⟨σ, injOn_resourceIds hFollows hP hTwins, hTwins.imp fun _ _ h => h.matches hFollows hP⟩

/-- Where others take an id before each step, the sequence has other ids, and the same sides. -/
example :
    workflowAt (outcomes (fun _ => [.call .idle])
      [.activity "pick" ⟨2⟩, .activity "pack" ⟨3⟩, .sequence 0 1] ⟨7, 0⟩) 2 =
        some (.seq ⟨12⟩ (.activity ⟨8⟩ "pick" ⟨2⟩) (.activity ⟨10⟩ "pack" ⟨3⟩)) := rfl

end ActivityNetwork
