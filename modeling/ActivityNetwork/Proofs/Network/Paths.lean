import ActivityNetwork.Network.Basic
import Mathlib.Data.Finite.Defs
import Mathlib.Data.Set.Finite.Basic
import Mathlib.Logic.Relation
import Mathlib.Order.WellFounded
import Mathlib.Data.Fintype.EquivFin

/-!
# Directed paths

Paths along a relation and along the edges of a network.  The one argument about finite sets
that everything else rests on is `Acyclic.exists_minimal`: without cycles, a finite set that is
not empty has a member that no other member leads to.  Following edges forwards or backwards
in a finite acyclic network therefore ends at a sink or at a source.
-/

namespace ActivityNetwork

open Relation

/-- No member of `α` leads back to itself in one step or more. -/
def Acyclic {α : Type} (r : α → α → Prop) : Prop :=
  ∀ x, ¬ TransGen r x x

section Relations

variable {α : Type} {r q : α → α → Prop} {s : Set α}

theorem Acyclic.mono (hAcyclic : Acyclic r) (h : ∀ x y, q x y → r x y) : Acyclic q :=
  fun x hCycle => hAcyclic x (TransGen.mono h x x hCycle)

theorem Acyclic.swap (hAcyclic : Acyclic r) : Acyclic (Function.swap r) :=
  fun x hCycle => hAcyclic x (transGen_swap.1 hCycle)

theorem Acyclic.exists_minimal (hAcyclic : Acyclic r) (hFinite : s.Finite)
    (hNonempty : s.Nonempty) : ∃ x ∈ s, ∀ y ∈ s, ¬ r y x := by
  have hFiniteType : Finite s := hFinite
  -- What the paths put on the finite set is a well-founded order.
  let inside : s → s → Prop := fun x y => TransGen r x y
  have hTrans : IsTrans s inside := ⟨fun _ _ _ hxy hyz => hxy.trans hyz⟩
  have hIrrefl : Std.Irrefl inside := ⟨fun x hCycle => hAcyclic x hCycle⟩
  have hWellFounded : WellFounded inside := Finite.wellFounded_of_trans_of_irrefl inside
  obtain ⟨x, hx⟩ := hNonempty
  obtain ⟨least, -, hLeast⟩ := hWellFounded.has_min Set.univ ⟨⟨x, hx⟩, trivial⟩
  refine ⟨least, least.2, fun y hy hStep => ?_⟩
  exact hLeast ⟨y, hy⟩ trivial (TransGen.single hStep)

/-- Going backwards within a finite set ends at a member that nothing leads to. -/
theorem Acyclic.exists_first (hAcyclic : Acyclic r) (hFinite : s.Finite) {x : α} (hx : x ∈ s)
    (hBack : ∀ y ∈ s, ∀ z, r z y → z ∈ s) :
    ∃ y ∈ s, ReflTransGen r y x ∧ ∀ z, ¬ r z y := by
  let behind : Set α := { y | y ∈ s ∧ ReflTransGen r y x }
  have hBehind : behind.Finite := hFinite.subset fun _ hy => hy.1
  obtain ⟨y, ⟨hy, hPath⟩, hLeast⟩ := hAcyclic.exists_minimal hBehind ⟨x, hx, .refl⟩
  refine ⟨y, hy, hPath, fun z hStep => ?_⟩
  exact hLeast z ⟨hBack y hy z hStep, .head hStep hPath⟩ hStep

/-- Going forwards within a finite set ends at a member that leads nowhere. -/
theorem Acyclic.exists_last (hAcyclic : Acyclic r) (hFinite : s.Finite) {x : α} (hx : x ∈ s)
    (hForth : ∀ y ∈ s, ∀ z, r y z → z ∈ s) :
    ∃ y ∈ s, ReflTransGen r x y ∧ ∀ z, ¬ r y z := by
  obtain ⟨y, hy, hPath, hLast⟩ := hAcyclic.swap.exists_first hFinite hx hForth
  exact ⟨y, hy, reflTransGen_swap.1 hPath, hLast⟩

/-- Two layers without cycles have no cycle together if no step leads back from the upper one. -/
theorem acyclic_of_layers (upper : α → Prop) (hStay : ∀ x y, r x y → upper x → upper y)
    (hUpper : Acyclic fun x y => r x y ∧ upper x ∧ upper y)
    (hLower : Acyclic fun x y => r x y ∧ ¬ upper x ∧ ¬ upper y) : Acyclic r := by
  intro x hCycle
  by_cases hx : upper x
  · -- From an upper member on, a path stays in the upper layer.
    have hPath : ∀ y, TransGen r x y →
        TransGen (fun x y => r x y ∧ upper x ∧ upper y) x y ∧ upper y := by
      intro y hxy
      induction hxy with
      | single hStep =>
          have hy := hStay _ _ hStep hx
          exact ⟨.single ⟨hStep, hx, hy⟩, hy⟩
      | tail _ hStep ih =>
          have hz := hStay _ _ hStep ih.2
          exact ⟨ih.1.tail ⟨hStep, ih.2, hz⟩, hz⟩
    exact hUpper x (hPath x hCycle).1
  · -- A path that ends in the lower layer has never left it.
    have hPath : ∀ y, TransGen r x y → ¬ upper y →
        TransGen (fun x y => r x y ∧ ¬ upper x ∧ ¬ upper y) x y := by
      intro y hxy
      induction hxy with
      | single hStep => exact fun hy => .single ⟨hStep, hx, hy⟩
      | tail _ hStep ih =>
          intro hz
          have hy := fun hUp => hz (hStay _ _ hStep hUp)
          exact (ih hy).tail ⟨hStep, hy, hz⟩
    exact hLower x (hPath x hCycle hx)

end Relations

namespace Network

/-- An edge leads from `a` to `b`. -/
def Link (g : Network) (a b : NodeId) : Prop :=
  ∃ e ∈ g.edges, e.source = a ∧ e.target = b

/-- A directed path of one edge or more leads from `a` to `b`. -/
def Before (g : Network) : NodeId → NodeId → Prop :=
  TransGen g.Link

/-- Every edge end is a node. -/
def Closed (g : Network) : Prop :=
  ∀ e ∈ g.edges, e.source ∈ g.nodes.keys ∧ e.target ∈ g.nodes.keys

theorem mem_successors_iff_link {g : Network} {a b : NodeId} :
    b ∈ g.successors a ↔ g.Link a b :=
  mem_successors

theorem mem_predecessors_iff_link {g : Network} {a b : NodeId} :
    a ∈ g.predecessors b ↔ g.Link a b := by
  rw [mem_predecessors, Link]
  simp only [and_comm]

theorem Closed.of_link {g : Network} (hClosed : g.Closed) {a b : NodeId} (h : g.Link a b) :
    a ∈ g.nodes.keys ∧ b ∈ g.nodes.keys := by
  obtain ⟨e, he, rfl, rfl⟩ := h
  exact hClosed e he

theorem mem_sources_iff_link {g : Network} {id : NodeId} :
    id ∈ g.sources ↔ id ∈ g.nodes.keys ∧ ∀ other, ¬ g.Link other id := by
  rw [mem_sources]
  refine and_congr_right fun _ => ?_
  constructor
  · intro h other hLink
    obtain ⟨e, he, -, hTarget⟩ := hLink
    exact h e he hTarget
  · intro h e he hTarget
    exact h e.source ⟨e, he, rfl, hTarget⟩

theorem mem_sinks_iff_link {g : Network} {id : NodeId} :
    id ∈ g.sinks ↔ id ∈ g.nodes.keys ∧ ∀ other, ¬ g.Link id other := by
  rw [mem_sinks]
  refine and_congr_right fun _ => ?_
  constructor
  · intro h other hLink
    obtain ⟨e, he, hSource, -⟩ := hLink
    exact h e he hSource
  · intro h e he hSource
    exact h e.target ⟨e, he, hSource, rfl⟩

theorem finite_nodes (g : Network) : { id | id ∈ g.nodes.keys }.Finite :=
  List.finite_toSet g.nodes.keys.toList

end Network

end ActivityNetwork
