import Mathlib.Data.List.Basic
import Mathlib.Logic.Relation

/-!
# Searching with a stack

A search goes from place to place.  Each round takes the top of a stack.  A place that was met
before is passed over; any other one is noted as met, and whatever comes next to it is put on the
stack.  Nothing keeps a place from lying on the stack many times, and how high the stack will grow
is not known beforehand.

What bounds the search is its `debt`: what lies on the stack, and what the places not met yet would
put there.  Every round lowers the debt by exactly one, whichever of the two things it does
(`debt_round`).  So a search among finitely many places is over after as many rounds as it had debt
at first (`stack_rounds`), and then it has met what can be reached from its start and nothing else
(`Explores.mem_met_iff`).
-/

namespace ActivityNetwork

open Relation

/-- What a search has met so far, in this order, and what it still has to look at, the next place
first. -/
structure Search (α : Type) where
  met : List α
  stack : List α

namespace Search

variable {α κ : Type} [DecidableEq κ]

def start (x : α) : Search α :=
  ⟨[], [x]⟩

/-- Looks at the top of the stack.  Places with the same key count as the same place. -/
def round (key : α → κ) (next : α → List α) (s : Search α) : Search α :=
  match s.stack with
  | [] => s
  | x :: rest =>
      if key x ∈ s.met.map key then ⟨s.met, rest⟩ else ⟨s.met ++ [x], next x ++ rest⟩

/-- So many rounds, one after the other. -/
def rounds (key : α → κ) (next : α → List α) : Nat → Search α → Search α
  | 0, s => s
  | n + 1, s => rounds key next n (s.round key next)

/-- What the places not met yet would put on the stack. -/
def pending (key : α → κ) (next : α → List α) (places met : List α) : Nat :=
  ((places.filter (key · ∉ met.map key)).flatMap next).length

/-- How many times something will still be taken from the stack at most. -/
def debt (key : α → κ) (next : α → List α) (places : List α) (s : Search α) : Nat :=
  s.stack.length + pending key next places s.met

variable {key : α → κ} {next : α → List α} {s : Search α} {x y : α} {met rest places : List α}

/-! ## Rounds -/

theorem round_of_nil (hNone : s.stack = []) : s.round key next = s := by
  rw [round, hNone]

theorem round_of_met (rest : List α) (hMet : key x ∈ met.map key) :
    round key next ⟨met, x :: rest⟩ = ⟨met, rest⟩ :=
  if_pos hMet

theorem round_of_new (rest : List α) (hNew : key x ∉ met.map key) :
    round key next ⟨met, x :: rest⟩ = ⟨met ++ [x], next x ++ rest⟩ :=
  if_neg hNew

/-- A round does nothing, passes a place over or meets it. -/
theorem round_cases (key : α → κ) (next : α → List α) (s : Search α) :
    (s.stack = [] ∧ s.round key next = s) ∨
      ∃ x rest, s.stack = x :: rest ∧
        (key x ∈ s.met.map key ∧ s.round key next = ⟨s.met, rest⟩ ∨
          key x ∉ s.met.map key ∧ s.round key next = ⟨s.met ++ [x], next x ++ rest⟩) := by
  obtain ⟨met, stack⟩ := s
  cases stack with
  | nil => exact Or.inl ⟨rfl, round_of_nil rfl⟩
  | cons x rest =>
      refine Or.inr ⟨x, rest, rfl, ?_⟩
      by_cases hMet : key x ∈ met.map key
      · exact Or.inl ⟨hMet, round_of_met rest hMet⟩
      · exact Or.inr ⟨hMet, round_of_new rest hMet⟩

theorem rounds_of_nil (n : Nat) (hNone : s.stack = []) : s.rounds key next n = s := by
  induction n with
  | zero => rfl
  | succ n ih => rw [rounds, round_of_nil hNone, ih]

theorem rounds_add (m n : Nat) (s : Search α) :
    s.rounds key next (m + n) = (s.rounds key next m).rounds key next n := by
  induction m generalizing s with
  | zero => rw [Nat.zero_add, rounds]
  | succ m ih => rw [Nat.succ_add, rounds, rounds, ih]

/-- A search that is over at two moments is the same at both. -/
theorem rounds_eq_of_done {m n : Nat} (hm : (s.rounds key next m).stack = [])
    (hn : (s.rounds key next n).stack = []) : s.rounds key next m = s.rounds key next n := by
  rcases Nat.le_total m n with hLe | hLe
  · obtain ⟨k, rfl⟩ := Nat.exists_eq_add_of_le hLe
    rw [rounds_add, rounds_of_nil k hm]
  · obtain ⟨k, rfl⟩ := Nat.exists_eq_add_of_le hLe
    rw [rounds_add, rounds_of_nil k hn]

/-! ## The end of a search -/

/-- Meeting a place takes what comes next to it out of what is pending. -/
theorem pending_concat (hKeys : (places.map key).Nodup) (hx : x ∈ places)
    (hNew : key x ∉ met.map key) :
    pending key next places met = (next x).length + pending key next places (met ++ [x]) := by
  have hMem : ∀ y, key y ∈ (met ++ [x]).map key ↔ key y ∈ met.map key ∨ key y = key x := by
    simp
  simp only [pending, hMem]
  induction places with
  | nil => cases hx
  | cons y others ih =>
      rw [List.map_cons, List.nodup_cons] at hKeys
      rcases List.mem_cons.1 hx with rfl | hOther
      · -- No other place has the key of `x`.
        have hRest : others.filter (fun z => ¬ (key z ∈ met.map key ∨ key z = key x)) =
            others.filter (key · ∉ met.map key) := by
          refine List.filter_congr fun z hz => ?_
          have hNe : key z ≠ key x := fun hEq => hKeys.1 (hEq ▸ List.mem_map_of_mem hz)
          simp [hNe]
        rw [List.filter_cons_of_pos (by simpa using hNew), List.filter_cons_of_neg (by simp), hRest,
          List.flatMap_cons, List.length_append]
      · have hNe : key y ≠ key x := fun hEq => hKeys.1 (hEq ▸ List.mem_map_of_mem hOther)
        have hRest := ih hKeys.2 hOther
        by_cases hMet : key y ∈ met.map key
        · rw [List.filter_cons_of_neg (by simpa using hMet),
            List.filter_cons_of_neg
              (by simp only [decide_eq_true_eq, not_not]; exact Or.inl hMet)]
          exact hRest
        · rw [List.filter_cons_of_pos (by simpa using hMet),
            List.filter_cons_of_pos (by simpa [hNe] using hMet), List.flatMap_cons,
            List.flatMap_cons, List.length_append, List.length_append, hRest]
          omega

/-- Every round that finds something on the stack lowers the debt by one. -/
theorem debt_round (hKeys : (places.map key).Nodup) (hStack : s.stack ⊆ places)
    (hMore : s.stack ≠ []) :
    debt key next places (s.round key next) + 1 = debt key next places s := by
  rcases round_cases key next s with ⟨hNone, -⟩ | ⟨x, rest, hTop, ⟨-, hRound⟩ | ⟨hNew, hRound⟩⟩
  · exact absurd hNone hMore
  · rw [hRound, debt, debt, hTop, List.length_cons]
    exact Nat.add_right_comm _ _ _
  · have hx : x ∈ places := hStack (hTop ▸ List.mem_cons_self)
    rw [hRound, debt, debt, hTop, pending_concat hKeys hx hNew, List.length_cons]
    simp only [List.length_append]
    omega

theorem stack_round_subset (hNext : ∀ x ∈ places, next x ⊆ places) (hStack : s.stack ⊆ places) :
    (s.round key next).stack ⊆ places := by
  rcases round_cases key next s with ⟨-, hRound⟩ | ⟨x, rest, hTop, ⟨-, hRound⟩ | ⟨-, hRound⟩⟩
  · rw [hRound]
    exact hStack
  all_goals rw [hTop, List.cons_subset] at hStack
  · rw [hRound]
    exact hStack.2
  · rw [hRound]
    exact List.append_subset.2 ⟨hNext x hStack.1, hStack.2⟩

/-- After as many rounds as there is debt the search is over. -/
theorem stack_rounds (hKeys : (places.map key).Nodup) (hNext : ∀ x ∈ places, next x ⊆ places)
    (hStack : s.stack ⊆ places) {n : Nat} (hEnough : debt key next places s ≤ n) :
    (s.rounds key next n).stack = [] := by
  induction n generalizing s with
  | zero =>
      rw [debt] at hEnough
      show s.stack = []
      exact List.length_eq_zero_iff.1 (by omega)
  | succ n ih =>
      by_cases hNone : s.stack = []
      · rw [rounds_of_nil (n + 1) hNone, hNone]
      · -- The round is paid for by the debt that it settles.
        have hDebt : debt key next places (s.round key next) + 1 = debt key next places s :=
          debt_round hKeys hStack hNone
        exact ih (stack_round_subset hNext hStack) (by omega)

/-! ## What a search meets -/

/-- What a search from `x` has to do with the places that can be reached from `x`: it keeps to
them, and those that come next to a place that was met are met or wait on the stack. -/
structure Explores (key : α → κ) (next : α → List α) (x : α) (s : Search α) : Prop where
  sound : ∀ y, y ∈ s.met ∨ y ∈ s.stack → ReflTransGen (fun a b => b ∈ next a) x y
  origin : key x ∈ s.met.map key ∨ x ∈ s.stack
  settled : ∀ y ∈ s.met, ∀ z ∈ next y, key z ∈ s.met.map key ∨ z ∈ s.stack

omit [DecidableEq κ] in
theorem explores_start (key : α → κ) (next : α → List α) (x : α) :
    (start x).Explores key next x where
  sound := by
    rintro y (hMet | hStack)
    · cases hMet
    · rw [List.mem_singleton.1 hStack]
  origin := Or.inr (List.mem_singleton_self x)
  settled := fun _ hMet => absurd hMet List.not_mem_nil

theorem Explores.round (h : s.Explores key next x) : (s.round key next).Explores key next x := by
  rcases round_cases key next s with
    ⟨-, hRound⟩ | ⟨top, rest, hTop, ⟨hMet, hRound⟩ | ⟨hNew, hRound⟩⟩
  · rw [hRound]
    exact h
  · -- What is taken from the stack was met before.
    have hWaits : ∀ y, key y ∈ s.met.map key ∨ y ∈ s.stack →
        key y ∈ s.met.map key ∨ y ∈ rest := by
      rintro y (hOld | hStack)
      · exact Or.inl hOld
      · rw [hTop] at hStack
        rcases List.mem_cons.1 hStack with rfl | hRest
        · exact Or.inl hMet
        · exact Or.inr hRest
    rw [hRound]
    constructor
    · rintro y (hOld | hRest)
      · exact h.sound y (Or.inl hOld)
      · exact h.sound y (Or.inr (hTop ▸ List.mem_cons_of_mem _ hRest))
    · exact hWaits x h.origin
    · exact fun y hy z hz => hWaits z (h.settled y hy z hz)
  · have hReach : ReflTransGen (fun a b => b ∈ next a) x top :=
      h.sound top (Or.inr (hTop ▸ List.mem_cons_self))
    have hWaits : ∀ y, key y ∈ s.met.map key ∨ y ∈ s.stack →
        key y ∈ (s.met ++ [top]).map key ∨ y ∈ next top ++ rest := by
      rw [List.map_append, hTop]
      rintro y (hOld | hStack)
      · exact Or.inl (List.mem_append_left _ hOld)
      · rcases List.mem_cons.1 hStack with rfl | hRest
        · exact Or.inl (List.mem_append_right _ (List.mem_singleton_self _))
        · exact Or.inr (List.mem_append_right _ hRest)
    rw [hRound]
    constructor
    · rintro y (hMet | hStack)
      · rcases List.mem_append.1 hMet with hOld | hTopMet
        · exact h.sound y (Or.inl hOld)
        · exact List.mem_singleton.1 hTopMet ▸ hReach
      · rcases List.mem_append.1 hStack with hNext | hRest
        · exact hReach.tail hNext
        · exact h.sound y (Or.inr (hTop ▸ List.mem_cons_of_mem _ hRest))
    · exact hWaits x h.origin
    · intro y hy z hz
      rcases List.mem_append.1 hy with hOld | hTopMet
      · exact hWaits z (h.settled y hOld z hz)
      · rw [List.mem_singleton.1 hTopMet] at hz
        exact Or.inr (List.mem_append_left _ hz)

theorem Explores.rounds (h : s.Explores key next x) (n : Nat) :
    (s.rounds key next n).Explores key next x := by
  induction n generalizing s with
  | zero => exact h
  | succ n ih => exact ih h.round

omit [DecidableEq κ] in
/-- A search that is over has met what can be reached, provided that different places which can be
reached have different keys. -/
theorem Explores.mem_met_iff (h : s.Explores key next x) (hNone : s.stack = [])
    (hKeys : ∀ y z, ReflTransGen (fun a b => b ∈ next a) x y →
      ReflTransGen (fun a b => b ∈ next a) x z → key y = key z → y = z) :
    y ∈ s.met ↔ ReflTransGen (fun a b => b ∈ next a) x y := by
  have hMet : ∀ z, ReflTransGen (fun a b => b ∈ next a) x z →
      key z ∈ s.met.map key ∨ z ∈ s.stack → z ∈ s.met := by
    rintro z hz (hKey | hStack)
    · obtain ⟨v, hv, hEq⟩ := List.mem_map.1 hKey
      exact hKeys v z (h.sound v (Or.inl hv)) hz hEq ▸ hv
    · rw [hNone] at hStack
      cases hStack
  constructor
  · exact fun hy => h.sound y (Or.inl hy)
  · intro hReach
    induction hReach with
    | refl => exact hMet x .refl h.origin
    | tail hPath hStep ih => exact hMet _ (hPath.tail hStep) (h.settled _ ih _ hStep)

end Search

end ActivityNetwork
