import ActivityNetwork.Proofs.Draft.Framing
import ActivityNetwork.Proofs.Draft.Uniting
import ActivityNetwork.Proofs.Workflow.Cohesion

/-!
# Branches side by side

What putting branches between two spacers does to them.  The places of the framed branches lie in
three layers: the entry spacer, the branches, the exit spacer.  A link stays in its layer or leads
up (`linkAmong_frames_cases`).  So the spacers neither make a contradiction nor add an order between
branches, and the operation succeeds exactly if the branches themselves can be merged
(`acyclic_frames_iff`, `path_frames_iff`).

On the other hand every place of a framed branch comes from the entry spacer and leads to the exit
spacer (`path_from_entry`, `path_to_exit`).  That makes the spacers the only entry and the only exit
of the whole, and it makes the whole hang together.
-/

namespace ActivityNetwork

open Relation

namespace OrderedSet

theorem toList_eq_singleton {α : Type} {s : OrderedSet α} {a : α} (h : ∀ x, x ∈ s ↔ x = a) :
    s.toList = [a] := by
  have hPerm : s.toList.Perm [a] := by
    refine (List.perm_ext_iff_of_nodup s.nodup (List.nodup_singleton a)).2 fun x => ?_
    rw [mem_toList, h, List.mem_singleton]
  exact List.perm_singleton.1 hPerm

end OrderedSet

namespace Workflow

variable {w leaf : Workflow} {x y : Place}

theorem chart_entries_of_isLeaf (hLeaf : leaf.isLeaf = true) :
    leaf.chart.entries = {leaf.entryPlace} := by
  rcases isLeaf_cases hLeaf with
    ⟨id, name, duration, rfl⟩ | ⟨id, resource, rfl⟩ | ⟨id, resource, rfl⟩
  · rfl
  · rfl
  · rfl

theorem chart_exits_of_isLeaf (hLeaf : leaf.isLeaf = true) :
    leaf.chart.exits = {leaf.exitPlace} := by
  rcases isLeaf_cases hLeaf with
    ⟨id, name, duration, rfl⟩ | ⟨id, resource, rfl⟩ | ⟨id, resource, rfl⟩
  · rfl
  · rfl
  · rfl

/-! ## Workflows with one entry and one exit -/

section Ends

variable (hMade : w.WellMade) (hx : x ∈ w.chart.places)
include hMade hx

/-- Where everything comes from one place, that place is the only entry. -/
theorem WellMade.entries_of_first
    (hFirst : ∀ y ∈ w.chart.places, ReflTransGen w.chart.Link x y) : w.chart.entries = {x} := by
  have hOnly : ∀ y ∈ w.chart.entries, y = x := by
    intro y hy
    obtain ⟨hPlace, hFree⟩ := (hMade.framed.entries y).1 hy
    rcases ReflTransGen.cases_tail (hFirst y hPlace) with hSame | ⟨z, -, hLink⟩
    · exact hSame
    · exact absurd hLink (hFree z)
  obtain ⟨entry, hEntry, -⟩ := exists_entry hMade.chart_acyclic hMade.framed hx
  exact Set.eq_singleton_iff_nonempty_unique_mem.2 ⟨⟨entry, hEntry⟩, hOnly⟩

/-- Where everything leads to one place, that place is the only exit. -/
theorem WellMade.exits_of_last
    (hLast : ∀ y ∈ w.chart.places, ReflTransGen w.chart.Link y x) : w.chart.exits = {x} := by
  have hOnly : ∀ y ∈ w.chart.exits, y = x := by
    intro y hy
    obtain ⟨hPlace, hFree⟩ := (hMade.framed.exits y).1 hy
    rcases ReflTransGen.cases_head (hLast y hPlace) with hSame | ⟨z, hLink, -⟩
    · exact hSame
    · exact absurd hLink (hFree z)
  obtain ⟨exit, hExit, -⟩ := exists_exit hMade.chart_acyclic hMade.framed hx
  exact Set.eq_singleton_iff_nonempty_unique_mem.2 ⟨⟨exit, hExit⟩, hOnly⟩

end Ends

theorem network_entries_of_chart (hCoherent : w.Coherent) (hEntries : w.chart.entries = {x}) :
    w.network.entries.toList = [placeNode w.numbering x] := by
  refine OrderedSet.toList_eq_singleton fun id => ?_
  rw [(network_renders hCoherent).mem_entries, hEntries]
  simp [eq_comm]

theorem network_exits_of_chart (hCoherent : w.Coherent) (hExits : w.chart.exits = {x}) :
    w.network.exits.toList = [placeNode w.numbering x] := by
  refine OrderedSet.toList_eq_singleton fun id => ?_
  rw [(network_renders hCoherent).mem_exits, hExits]
  simp [eq_comm]

/-- A network in which everything comes from one place hangs together. -/
theorem network_connected (hCoherent : w.Coherent)
    (hFirst : ∀ y ∈ w.chart.places, ReflTransGen w.chart.Link x y) :
    w.network.disconnected = [] :=
  (network_cohesive_iff hCoherent).2
    (Chart.cohesive_of_hub fun y hy => Chart.connected_of_path (hFirst y hy))

end Workflow

namespace Draft

open Workflow

variable {s t : Supply} {shelf branches : List Workflow} {entry exit branch w leaf : Workflow}
  {n : Nat} {x y : Place}

/-! ## Links of framed branches -/

theorem exists_frame_of_mem (hMem : w ∈ frames entry exit n branches) :
    ∃ m, ∃ branch ∈ branches, w = frame entry exit m branch := by
  induction branches generalizing n with
  | nil => cases hMem
  | cons branch rest ih =>
      rcases List.mem_cons.1 hMem with rfl | hRest
      · exact ⟨n, branch, List.mem_cons_self, rfl⟩
      · obtain ⟨m, other, hOther, hEq⟩ := ih hRest
        exact ⟨m, other, List.mem_cons_of_mem _ hOther, hEq⟩

theorem exists_mem_frames (hBranch : branch ∈ branches) :
    ∃ m, frame entry exit m branch ∈ frames entry exit n branches := by
  induction branches generalizing n with
  | nil => cases hBranch
  | cons other rest ih =>
      rcases List.mem_cons.1 hBranch with rfl | hRest
      · exact ⟨n, List.mem_cons_self⟩
      · obtain ⟨m, hMem⟩ := ih (n := n + 2) hRest
        exact ⟨m, List.mem_cons_of_mem _ hMem⟩

theorem leafOf_frame {m : Nat} :
    leaf.LeafOf (frame entry exit m branch) ↔
      (leaf.LeafOf entry ∨ leaf.LeafOf branch) ∨ leaf.LeafOf exit := by
  rw [frame, leafOf_seq, leafOf_seq]

theorem link_frame {m : Nat} :
    (frame entry exit m branch).chart.Link x y ↔
      (((entry.chart.Link x y ∨ branch.chart.Link x y) ∨
          x ∈ entry.chart.exits ∧ y ∈ branch.chart.entries) ∨ exit.chart.Link x y) ∨
        x ∈ branch.chart.exits ∧ y ∈ exit.chart.entries := by
  simp only [frame, chart, Chart.link_inSequence]
  rfl

/-- Two spacers around branches, where all that was put together is well made. -/
structure WellFramed (entry exit : Workflow) (n : Nat) (branches : List Workflow) : Prop
    extends Spacers entry exit branches where
  nonempty : branches ≠ []
  made : ∀ w ∈ frames entry exit n branches, w.WellMade

/-- The place belongs to one of the branches. -/
def AmongBranches (branches : List Workflow) (x : Place) : Prop :=
  ∃ branch ∈ branches, x ∈ branch.chart.places

/-- A link of framed branches stays in its layer or leads up. -/
theorem linkAmong_frames_cases (hLink : LinkAmong (frames entry exit n branches) x y) :
    (entry.chart.Link x y ∨ LinkAmong branches x y ∨ exit.chart.Link x y) ∨
      (x ∈ entry.chart.places ∧ AmongBranches branches y) ∨
        AmongBranches branches x ∧ y ∈ exit.chart.places := by
  obtain ⟨w, hw, hLink⟩ := hLink
  obtain ⟨m, branch, hBranch, rfl⟩ := exists_frame_of_mem hw
  rcases link_frame.1 hLink with (((h | h) | ⟨hx, hy⟩) | h) | ⟨hx, hy⟩
  · exact Or.inl (Or.inl h)
  · exact Or.inl (Or.inr (Or.inl ⟨branch, hBranch, h⟩))
  · exact Or.inr (Or.inl ⟨mem_places_of_mem_exits hx, branch, hBranch,
      mem_places_of_mem_entries hy⟩)
  · exact Or.inl (Or.inr (Or.inr h))
  · exact Or.inr (Or.inr ⟨⟨branch, hBranch, mem_places_of_mem_exits hx⟩,
      mem_places_of_mem_entries hy⟩)

theorem linkAmong_frames_of_branches (hLink : LinkAmong branches x y) :
    LinkAmong (frames entry exit n branches) x y := by
  obtain ⟨branch, hBranch, h⟩ := hLink
  obtain ⟨m, hMem⟩ := exists_mem_frames (n := n) hBranch
  exact ⟨_, hMem, link_frame.2 (Or.inl (Or.inl (Or.inl (Or.inr h))))⟩

theorem amongBranches_of_link (hLink : LinkAmong branches x y) :
    AmongBranches branches x ∧ AmongBranches branches y := by
  obtain ⟨branch, hBranch, h⟩ := hLink
  obtain ⟨hx, hy⟩ := mem_places_of_link h
  exact ⟨⟨branch, hBranch, hx⟩, branch, hBranch, hy⟩

/-- What is left are the links of the entry spacer. -/
theorem entry_link_of_rest (hLink : LinkAmong (frames entry exit n branches) x y)
    (hx : ¬ AmongBranches branches x) (hy : ¬ AmongBranches branches y)
    (hExit : x ∉ exit.chart.places) : entry.chart.Link x y := by
  rcases linkAmong_frames_cases hLink with (h | h | h) | ⟨-, h⟩ | ⟨h, -⟩
  · exact h
  · exact absurd (amongBranches_of_link h).1 hx
  · exact absurd (mem_places_of_link h).1 hExit
  · exact absurd h hy
  · exact absurd h hx

section Layers

variable (hFramed : WellFramed entry exit n branches)
include hFramed

theorem WellFramed.frame_made (hBranch : branch ∈ branches) :
    ∃ m, frame entry exit m branch ∈ frames entry exit n branches ∧
      (frame entry exit m branch).WellMade := by
  obtain ⟨m, hMem⟩ := exists_mem_frames (n := n) hBranch
  exact ⟨m, hMem, hFramed.made _ hMem⟩

theorem WellFramed.exists_branch : ∃ branch, branch ∈ branches :=
  List.exists_mem_of_ne_nil branches hFramed.nonempty

theorem WellFramed.entry_below (hEntry : x ∈ entry.chart.places) : ¬ AmongBranches branches x := by
  intro hAmong
  obtain ⟨branch, hBranch, hx⟩ := hAmong
  obtain ⟨m, -, hMade⟩ := hFramed.frame_made hBranch
  exact (hMade.mono (.seqFirst .self)).places_apart hEntry hx

theorem WellFramed.entry_not_exit (hEntry : x ∈ entry.chart.places) : x ∉ exit.chart.places := by
  obtain ⟨branch, hBranch⟩ := hFramed.exists_branch
  obtain ⟨m, -, hMade⟩ := hFramed.frame_made hBranch
  exact hMade.places_apart (places_mono (.seqFirst .self) hEntry)

theorem WellFramed.branch_not_exit (hAmong : AmongBranches branches x) :
    x ∉ exit.chart.places := by
  obtain ⟨branch, hBranch, hx⟩ := hAmong
  obtain ⟨m, -, hMade⟩ := hFramed.frame_made hBranch
  exact hMade.places_apart (places_mono (.seqSecond .self) hx)

/-- No link leads out of the exit spacer. -/
theorem WellFramed.link_of_exit (hLink : LinkAmong (frames entry exit n branches) x y)
    (hExit : x ∈ exit.chart.places) : exit.chart.Link x y := by
  rcases linkAmong_frames_cases hLink with (h | h | h) | ⟨h, -⟩ | ⟨h, -⟩
  · exact absurd hExit (hFramed.entry_not_exit (mem_places_of_link h).1)
  · exact absurd hExit (hFramed.branch_not_exit (amongBranches_of_link h).1)
  · exact h
  · exact absurd hExit (hFramed.entry_not_exit h)
  · exact absurd hExit (hFramed.branch_not_exit h)

/-- A link leads out of the branches into the exit spacer only. -/
theorem WellFramed.link_of_branch (hLink : LinkAmong (frames entry exit n branches) x y)
    (hAmong : AmongBranches branches x) : LinkAmong branches x y ∨ y ∈ exit.chart.places := by
  rcases linkAmong_frames_cases hLink with (h | h | h) | ⟨h, -⟩ | ⟨-, h⟩
  · exact absurd hAmong (hFramed.entry_below (mem_places_of_link h).1)
  · exact Or.inl h
  · exact absurd (mem_places_of_link h).1 (hFramed.branch_not_exit hAmong)
  · exact absurd hAmong (hFramed.entry_below h)
  · exact Or.inr h

/-- The spacers make no cycle. -/
theorem WellFramed.acyclic_frames_iff :
    Acyclic (LinkAmong (frames entry exit n branches)) ↔ Acyclic (LinkAmong branches) := by
  refine ⟨fun hAcyclic => hAcyclic.mono fun _ _ => linkAmong_frames_of_branches, fun hAcyclic => ?_⟩
  -- The exit spacer is the upper layer; below it the branches are the upper one.
  refine acyclic_of_layers (· ∈ exit.chart.places) ?_ ?_
    (acyclic_of_layers (AmongBranches branches) ?_ ?_ ?_)
  · exact fun x y hLink hExit => (mem_places_of_link (hFramed.link_of_exit hLink hExit)).2
  · refine (framed_of_isLeaf hFramed.exit_leaf).1.mono fun x y hStep => ?_
    exact hFramed.link_of_exit hStep.1 hStep.2.1
  · intro x y hStep hAmong
    rcases hFramed.link_of_branch hStep.1 hAmong with hLink | hExit
    · exact (amongBranches_of_link hLink).2
    · exact absurd hExit hStep.2.2
  · refine hAcyclic.mono fun x y hStep => ?_
    obtain ⟨⟨hLink, -, hNotExit⟩, hAmong, -⟩ := hStep
    exact (hFramed.link_of_branch hLink hAmong).resolve_right hNotExit
  · refine (framed_of_isLeaf hFramed.entry_leaf).1.mono fun x y hStep => ?_
    obtain ⟨⟨hLink, hNotExit, -⟩, hx, hy⟩ := hStep
    exact entry_link_of_rest hLink hx hy hNotExit

/-- Between places of branches the spacers add no path. -/
theorem WellFramed.path_frames_iff (hx : AmongBranches branches x)
    (hy : AmongBranches branches y) :
    TransGen (LinkAmong (frames entry exit n branches)) x y ↔
      TransGen (LinkAmong branches) x y := by
  refine ⟨fun hPath => ?_, TransGen.mono (fun _ _ => linkAmong_frames_of_branches) _ _⟩
  -- A path that ends in front of the exit spacer has never left the branches.
  have hStays : y ∉ exit.chart.places → TransGen (LinkAmong branches) x y := by
    clear hy
    induction hPath with
    | single hStep =>
        exact fun hNotExit => .single ((hFramed.link_of_branch hStep hx).resolve_right hNotExit)
    | @tail m y _ hStep ih =>
        intro hNotExit
        have hBefore : m ∉ exit.chart.places := fun hExit =>
          hNotExit (mem_places_of_link (hFramed.link_of_exit hStep hExit)).2
        have hFront := ih hBefore
        obtain ⟨_, -, hLast⟩ := TransGen.tail'_iff.1 hFront
        have hAmong := (amongBranches_of_link hLast).2
        exact hFront.tail ((hFramed.link_of_branch hStep hAmong).resolve_right hNotExit)
  exact hStays (hFramed.branch_not_exit hy)

end Layers

/-! ## Paths from spacer to spacer -/

/-- What is joined is a leaf of a branch or one of the spacers. -/
theorem exists_frame_of_leafOf (hJoins : w.Joins (frames entry exit n branches))
    (hLeaf : leaf.LeafOf w) :
    ∃ m branch, frame entry exit m branch ∈ frames entry exit n branches ∧
      leaf.LeafOf (frame entry exit m branch) := by
  obtain ⟨v, hv, hLeafOf⟩ := (hJoins.leaves leaf).1 hLeaf
  obtain ⟨m, branch, -, rfl⟩ := exists_frame_of_mem hv
  exact ⟨m, branch, hv, hLeafOf⟩

theorem link_of_frame (hJoins : w.Joins (frames entry exit n branches)) {v : Workflow}
    (hv : v ∈ frames entry exit n branches) (hLink : v.chart.Link x y) : w.chart.Link x y :=
  hJoins.link_iff.2 ⟨v, hv, hLink⟩

section Joined

variable (hFramed : WellFramed entry exit n branches)
  (hJoins : w.Joins (frames entry exit n branches))
include hFramed hJoins

theorem WellFramed.leafOf_branch (hBranch : branch ∈ branches) (hLeaf : leaf.LeafOf branch) :
    leaf.LeafOf w := by
  obtain ⟨m, hMem, -⟩ := hFramed.frame_made hBranch
  exact (hJoins.leaves leaf).2 ⟨_, hMem, leafOf_frame.2 (Or.inl (Or.inr hLeaf))⟩

theorem WellFramed.leafOf_entry : entry.LeafOf w := by
  obtain ⟨branch, hBranch⟩ := hFramed.exists_branch
  obtain ⟨m, hMem, -⟩ := hFramed.frame_made hBranch
  have hSelf : entry.LeafOf entry := ⟨hFramed.entry_leaf, .self⟩
  exact (hJoins.leaves entry).2 ⟨_, hMem, leafOf_frame.2 (Or.inl (Or.inl hSelf))⟩

theorem WellFramed.leafOf_exit : exit.LeafOf w := by
  obtain ⟨branch, hBranch⟩ := hFramed.exists_branch
  obtain ⟨m, hMem, -⟩ := hFramed.frame_made hBranch
  have hSelf : exit.LeafOf exit := ⟨hFramed.exit_leaf, .self⟩
  exact (hJoins.leaves exit).2 ⟨_, hMem, leafOf_frame.2 (Or.inr hSelf)⟩

/-- Each framed branch has the entry spacer for its only entry, so all its places come from
there. -/
theorem WellFramed.path_from_entry (hx : x ∈ w.chart.places) :
    ReflTransGen w.chart.Link entry.entryPlace x := by
  obtain ⟨leaf, hLeaf, hPlace⟩ := mem_places_chart.1 hx
  obtain ⟨m, branch, hMem, hLeafOf⟩ := exists_frame_of_leafOf hJoins hLeaf
  have hMade := hFramed.made _ hMem
  obtain ⟨first, hFirst, hPath⟩ := exists_entry hMade.chart_acyclic hMade.framed
    (mem_places_chart.2 ⟨leaf, hLeafOf, hPlace⟩)
  have hSpacer : first ∈ entry.chart.entries := hFirst
  rw [chart_entries_of_isLeaf hFramed.entry_leaf, Set.mem_singleton_iff] at hSpacer
  rw [← hSpacer]
  exact ReflTransGen.mono (fun _ _ hLink => link_of_frame hJoins hMem hLink) _ _ hPath

theorem WellFramed.path_to_exit (hx : x ∈ w.chart.places) :
    ReflTransGen w.chart.Link x exit.exitPlace := by
  obtain ⟨leaf, hLeaf, hPlace⟩ := mem_places_chart.1 hx
  obtain ⟨m, branch, hMem, hLeafOf⟩ := exists_frame_of_leafOf hJoins hLeaf
  have hMade := hFramed.made _ hMem
  obtain ⟨last, hLast, hPath⟩ := exists_exit hMade.chart_acyclic hMade.framed
    (mem_places_chart.2 ⟨leaf, hLeafOf, hPlace⟩)
  have hSpacer : last ∈ exit.chart.exits := hLast
  rw [chart_exits_of_isLeaf hFramed.exit_leaf, Set.mem_singleton_iff] at hSpacer
  rw [← hSpacer]
  exact ReflTransGen.mono (fun _ _ hLink => link_of_frame hJoins hMem hLink) _ _ hPath

/-- The entry spacer is left before any leaf of a branch is entered. -/
theorem WellFramed.path_into_branch (hBranch : branch ∈ branches) (hLeaf : leaf.LeafOf branch) :
    TransGen w.chart.Link entry.exitPlace leaf.entryPlace := by
  obtain ⟨m, hMem, hMade⟩ := hFramed.frame_made hBranch
  have hPath := seq_path (hMade.mono (.seqFirst .self)) ⟨hFramed.entry_leaf, .self⟩ hLeaf
  refine TransGen.mono (fun _ _ hLink => link_of_frame hJoins hMem ?_) _ _ hPath
  exact link_mono (.seqFirst .self) hLink

/-- Any leaf of a branch is left before the exit spacer is entered. -/
theorem WellFramed.path_out_of_branch (hBranch : branch ∈ branches)
    (hLeaf : leaf.LeafOf branch) : TransGen w.chart.Link leaf.exitPlace exit.entryPlace := by
  obtain ⟨m, hMem, hMade⟩ := hFramed.frame_made hBranch
  have hFront : leaf.LeafOf (seq ⟨m⟩ entry branch) := leafOf_seq.2 (Or.inr hLeaf)
  have hPath := seq_path hMade hFront ⟨hFramed.exit_leaf, .self⟩
  exact TransGen.mono (fun _ _ hLink => link_of_frame hJoins hMem hLink) _ _ hPath

end Joined

/-! ## What the operation makes -/

/-- The branches run side by side in `w`, from the entry spacer to the exit spacer, in the order
that they have in their union. -/
structure SideBySide (entry exit w union : Workflow) (branches : List Workflow) : Prop where
  /-- The start of the entry spacer is the only entry. -/
  entries : ∃ x, w.EnteredAt entry x ∧ w.network.entries.toList = [x]
  /-- The end of the exit spacer is the only exit. -/
  exits : ∃ x, w.LeftAt exit x ∧ w.network.exits.toList = [x]
  accepted : Policy.accepts ⟨true, true, true, 0⟩ w.network = true
  after_entry : ∀ branch ∈ branches, ∀ leaf : Workflow, leaf.LeafOf branch →
    ∃ x y, w.LeftAt entry x ∧ w.EnteredAt leaf y ∧ w.network.Before x y
  before_exit : ∀ branch ∈ branches, ∀ leaf : Workflow, leaf.LeafOf branch →
    ∃ x y, w.LeftAt leaf x ∧ w.EnteredAt exit y ∧ w.network.Before x y
  /-- Leaves of branches are ordered as they are without the spacers. -/
  order : ∀ a ∈ branches, ∀ b ∈ branches, ∀ p q : Workflow, p.LeafOf a → q.LeafOf b →
    ∃ x y u v, w.LeftAt p x ∧ w.EnteredAt q y ∧ union.LeftAt p u ∧ union.EnteredAt q v ∧
      (w.network.Before x y ↔ union.network.Before u v)

/-- One entry, one exit, and all nodes together are what the strictest policy asks for. -/
theorem accepts_of_single {g : Network} {a b : NodeId} (hSound : g.Sound)
    (hEntries : g.entries.toList = [a]) (hExits : g.exits.toList = [b])
    (hConnected : g.disconnected = []) : Policy.accepts ⟨true, true, true, 0⟩ g = true := by
  have hEntry : g.entries.size = 1 := congrArg List.length hEntries
  have hExit : g.exits.size = 1 := congrArg List.length hExits
  refine Policy.accepts_iff_sound.2 ⟨hSound, ?_⟩
  simp [Policy.extraViolations, hEntry, hExit, hConnected]

theorem WellFramed.sideBySide {union : Workflow} (hFramed : WellFramed entry exit n branches)
    (hMade : w.WellMade) (hJoins : w.Joins (frames entry exit n branches))
    (hMadeUnion : union.WellMade) (hUnion : union.Joins branches) :
    SideBySide entry exit w union branches := by
  have hCoherent := hMade.coherent
  have hEntry := hFramed.leafOf_entry hJoins
  have hExit := hFramed.leafOf_exit hJoins
  have hFrom : ∀ x ∈ w.chart.places, ReflTransGen w.chart.Link entry.entryPlace x := fun x hx =>
    hFramed.path_from_entry hJoins hx
  have hTo : ∀ x ∈ w.chart.places, ReflTransGen w.chart.Link x exit.exitPlace := fun x hx =>
    hFramed.path_to_exit hJoins hx
  have hEntries := network_entries_of_chart hCoherent
    (hMade.entries_of_first (entryPlace_mem hEntry) hFrom)
  have hExits := network_exits_of_chart hCoherent (hMade.exits_of_last (exitPlace_mem hExit) hTo)
  constructor
  · exact ⟨_, enteredAt_of_leaf hCoherent hEntry, hEntries⟩
  · exact ⟨_, leftAt_of_leaf hCoherent hExit, hExits⟩
  · exact accepts_of_single hMade.network_sound hEntries hExits (network_connected hCoherent hFrom)
  · intro branch hBranch leaf hLeaf
    have hLeafOf := hFramed.leafOf_branch hJoins hBranch hLeaf
    refine ⟨_, _, leftAt_of_leaf hCoherent hEntry, enteredAt_of_leaf hCoherent hLeafOf, ?_⟩
    rw [before_iff_path hCoherent hEntry hLeafOf]
    exact hFramed.path_into_branch hJoins hBranch hLeaf
  · intro branch hBranch leaf hLeaf
    have hLeafOf := hFramed.leafOf_branch hJoins hBranch hLeaf
    refine ⟨_, _, leftAt_of_leaf hCoherent hLeafOf, enteredAt_of_leaf hCoherent hExit, ?_⟩
    rw [before_iff_path hCoherent hLeafOf hExit]
    exact hFramed.path_out_of_branch hJoins hBranch hLeaf
  · intro a ha b hb p q hp hq
    have hpWhole := hFramed.leafOf_branch hJoins ha hp
    have hqWhole := hFramed.leafOf_branch hJoins hb hq
    have hpUnion := (hUnion.leaves p).2 ⟨a, ha, hp⟩
    have hqUnion := (hUnion.leaves q).2 ⟨b, hb, hq⟩
    refine ⟨_, _, _, _, leftAt_of_leaf hCoherent hpWhole, enteredAt_of_leaf hCoherent hqWhole,
      leftAt_of_leaf hMadeUnion.coherent hpUnion, enteredAt_of_leaf hMadeUnion.coherent hqUnion, ?_⟩
    rw [before_iff_path hCoherent hpWhole hqWhole,
      before_iff_path hMadeUnion.coherent hpUnion hqUnion]
    have hWholeLink : w.chart.Link = LinkAmong (frames entry exit n branches) :=
      funext₂ fun _ _ => propext hJoins.link_iff
    have hUnionLink : union.chart.Link = LinkAmong branches :=
      funext₂ fun _ _ => propext hUnion.link_iff
    rw [hWholeLink, hUnionLink]
    exact hFramed.path_frames_iff ⟨a, ha, exitPlace_mem hp⟩ ⟨b, hb, entryPlace_mem hq⟩

/-- The operation unites the framed branches. -/
theorem simultaneous_unites (hStocked : Stocked s shelf)
    (hReached : ∀ branch ∈ branches, Reached shelf branch) (hNonempty : branches ≠ []) :
    ∃ t fuller, Stocked t fuller ∧
      WellFramed (entrySpacer s) (exitSpacer s) (s.workflows + 2) branches ∧
      Unites (mergeAll (frames (entrySpacer s) (exitSpacer s) (s.workflows + 2) branches)) fuller
        (frames (entrySpacer s) (exitSpacer s) (s.workflows + 2) branches) ∧
      simultaneous branches s =
        mergeAll (frames (entrySpacer s) (exitSpacer s) (s.workflows + 2) branches) t := by
  obtain ⟨t, fuller, hFuller, hFrames, hSame⟩ :=
    simultaneous_eq_mergeAll hStocked hReached hNonempty
  have hSome : frames (entrySpacer s) (exitSpacer s) (s.workflows + 2) branches ≠ [] := by
    obtain ⟨branch, hBranch⟩ := List.exists_mem_of_ne_nil branches hNonempty
    obtain ⟨m, hMem⟩ : ∃ m, frame (entrySpacer s) (exitSpacer s) m branch ∈
        frames (entrySpacer s) (exitSpacer s) (s.workflows + 2) branches :=
      exists_mem_frames hBranch
    exact List.ne_nil_of_mem hMem
  refine ⟨t, fuller, hFuller, ?_, unites_mergeAll hSome hFrames, hSame⟩
  exact
    { spacers_new hStocked hReached with
      nonempty := hNonempty
      made := fun w hw => hFuller.wellMade (hFrames w hw) }

/-- Branches can be put side by side exactly if there are some and they can be merged.  Whatever
comes out begins and ends with a spacer and keeps the order that the branches have in their
union. -/
theorem simultaneous_of_run (hRun : Run s shelf) (hBranches : branches ⊆ shelf)
    (early late : Supply) (hEarly : s.workflows ≤ early.workflows)
    (hLate : s.workflows ≤ late.workflows) :
    ((∃ w t, simultaneous branches early = .ok w t) ↔
      branches ≠ [] ∧ ∃ union t, mergeAll branches late = .ok union t) ∧
    ∀ w t union u, simultaneous branches early = .ok w t → mergeAll branches late = .ok union u →
      SideBySide (entrySpacer early) (exitSpacer early) w union branches := by
  have hReached : ∀ branch ∈ branches, Reached shelf branch := fun branch hBranch =>
    reached_of_mem (hBranches hBranch)
  have hStockedEarly := hRun.stocked.spend hEarly
  have hStockedLate := hRun.stocked.spend hLate
  by_cases hNonempty : branches = []
  · subst hNonempty
    refine ⟨⟨fun hSome => ?_, fun hSome => absurd rfl hSome.1⟩, fun w t union u _ hDone => ?_⟩
    · obtain ⟨w, t, hDone⟩ := hSome
      cases hDone
    · cases hDone
  · obtain ⟨t, fuller, hFuller, hFramed, hUnites, hSame⟩ :=
      simultaneous_unites hStockedEarly hReached hNonempty
    have hUnitesBranches := unites_mergeAll hNonempty hReached
    constructor
    · rw [hSame, hUnites.ok_iff hFuller, hUnitesBranches.ok_iff hStockedLate,
        hFramed.acyclic_frames_iff]
      exact ⟨fun hAcyclic => ⟨hNonempty, hAcyclic⟩, fun h => h.2⟩
    · intro w u union v hDone hMerged
      rw [hSame] at hDone
      obtain ⟨hMade, hJoins⟩ := hUnites.joins hFuller hDone
      obtain ⟨hMadeUnion, hUnion⟩ := hUnitesBranches.joins hStockedLate hMerged
      exact hFramed.sideBySide hMade hJoins hMadeUnion hUnion

/-- Both sequences of packing side by side, although they share an activity. -/
theorem simultaneous_front_back :
    Run ⟨5, 0⟩ [Sample.back, Sample.front, Sample.ship, Sample.pack, Sample.pick] ∧
      ∃ w t, simultaneous [Sample.front, Sample.back] ⟨5, 0⟩ = .ok w t ∧
        SideBySide (entrySpacer ⟨5, 0⟩) (exitSpacer ⟨5, 0⟩) w Sample.both
          [Sample.front, Sample.back] := by
  have hMerged : mergeAll [Sample.front, Sample.back] ⟨5, 0⟩ = .ok Sample.both ⟨6, 0⟩ := by
    rw [← Sample.merge_front_back]
    rfl
  have hBranches : [Sample.front, Sample.back] ⊆
      [Sample.back, Sample.front, Sample.ship, Sample.pack, Sample.pick] := by simp
  obtain ⟨hOk, hShape⟩ := simultaneous_of_run Sample.run_sides hBranches ⟨5, 0⟩ ⟨5, 0⟩
    (Nat.le_refl _) (Nat.le_refl _)
  obtain ⟨w, t, hDone⟩ := hOk.2 ⟨by simp, Sample.both, _, hMerged⟩
  exact ⟨Sample.run_sides, w, t, hDone, hShape w t Sample.both _ hDone hMerged⟩

end Draft

end ActivityNetwork
