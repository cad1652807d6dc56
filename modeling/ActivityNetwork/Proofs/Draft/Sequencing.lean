import ActivityNetwork.Proofs.Draft.Numbering
import ActivityNetwork.Proofs.Workflow.Shifting
import ActivityNetwork.Proofs.Workflow.Tally

/-!
# What a sequence compiles to

The sides of a sequence share no leaf, and so no part at all.  The compilation of the second side
therefore finds nothing in the memo that it could use, although the memo is not empty, and repeats
what it would do on its own, with numbers that begin where the first side has ended.  What comes
out are both networks, listed one behind the other, and the links between them
(`network_appended_of_sequence`).
-/

namespace ActivityNetwork

namespace Workflow

variable {id : WorkflowId} {first second w : Workflow}

/-- The network of `second`, with its nodes numbered on behind those of `first`. -/
def networkBehind (first second : Workflow) : Network :=
  second.network.rename (NodeId.shift first.network.order)

/-- The compilation of `w` is that of `first` and, behind it, that of `second`, with a link from
every exit of the first to every entry of the second. -/
structure Appends (first second w : Workflow) : Prop where
  nodes : w.network.nodes.entries =
    first.network.nodes.entries ++ (first.networkBehind second).nodes.entries
  edges : w.network.edges.toList =
    first.network.edges.toList ++ (first.networkBehind second).edges.toList ++
      first.network.exits.toList.flatMap fun x =>
        (first.networkBehind second).entries.toList.map (Edge.dependency x)
  /-- No link was an edge before. -/
  links_new : ∀ x ∈ first.network.exits, ∀ y ∈ (first.networkBehind second).entries,
    Edge.dependency x y ∉ first.network.edges ∧
      Edge.dependency x y ∉ (first.networkBehind second).edges
  entries : w.network.entries = first.network.entries
  exits : w.network.exits = (first.networkBehind second).exits
  /-- Besides the parts of both sides, only the sequence itself is compiled. -/
  compiled : w.compile.stats.compiled =
    first.compile.stats.compiled + second.compile.stats.compiled + 1
  recalled : w.compile.stats.recalled =
    first.compile.stats.recalled + second.compile.stats.recalled
  allocated : w.compile.stats.allocated =
    first.compile.stats.allocated + second.compile.stats.allocated

section Sides

variable (hMade : (seq id first second).WellMade)
include hMade

theorem WellMade.seq_first : first.WellMade :=
  hMade.mono (.seqFirst .self)

theorem WellMade.seq_second : second.WellMade :=
  hMade.mono (.seqSecond .self)

/-- The sides have not even a part in common: it would bring its leaves with it. -/
theorem WellMade.seq_ids_apart {u v : Workflow} (hu : u.Inside first) (hv : v.Inside second) :
    u.id ≠ v.id := by
  intro hId
  have hEq : u = v := hMade.coherent u v (.seqFirst hu) (.seqSecond hv) hId
  obtain ⟨leaf, hLeaf⟩ := exists_leafOf u
  exact hMade.apart id first second .self leaf (hLeaf.trans hu) (hLeaf.trans (hEq ▸ hv))

/-! ### Numbers -/

theorem WellMade.seq_leaves : (seq id first second).leaves = first.leaves ++ second.leaves := by
  have hNew : ∀ x ∈ second.flatten, x.id ∉ (first.collect []).map Workflow.id := by
    intro x hx hMem
    rcases (mem_ids_collect x.id first []).1 hMem with hNil | ⟨leaf, hLeaf, hId⟩
    · cases hNil
    · exact hMade.seq_ids_apart hLeaf.2 (mem_flatten.1 hx).2 hId
  rw [leaves_eq_collect hMade.coherent, leaves_eq_collect hMade.seq_first.coherent,
    leaves_eq_collect hMade.seq_second.coherent, collect_seq, collect,
    foldl_addNew_of_apart _ hNew]
  rfl

/-- The first side keeps its numbers. -/
theorem WellMade.seq_numbering_first {leaf : Workflow} (hLeaf : leaf.LeafOf first) :
    (seq id first second).numbering leaf.id = first.numbering leaf.id := by
  have hListed := (mem_leaves hMade.seq_first.coherent).2 hLeaf
  rw [numbering, hMade.seq_leaves]
  exact firstNode_append_of_mem second.leaves (List.mem_map_of_mem hListed)

/-- The second side begins behind the nodes of the first. -/
theorem WellMade.seq_numbering_second {leaf : Workflow} (hLeaf : leaf.LeafOf second) :
    (seq id first second).numbering leaf.id = first.network.order + second.numbering leaf.id := by
  have hNew : leaf.id ∉ first.leaves.map Workflow.id := by
    intro hMem
    obtain ⟨other, hOther, hId⟩ := List.mem_map.1 hMem
    have hLeafFirst := (mem_leaves hMade.seq_first.coherent).1 hOther
    exact hMade.seq_ids_apart hLeafFirst.2 hLeaf.2 hId
  rw [numbering, hMade.seq_leaves, network_order hMade.seq_first.coherent]
  exact firstNode_append_of_not_mem second.leaves hNew

theorem WellMade.seq_network :
    (seq id first second).network = first.network.inSequence (first.networkBehind second) := by
  have hFirst : first.layout (seq id first second).numbering = first.network := by
    rw [network_eq_layout hMade.seq_first.coherent]
    exact layout_congr fun leaf hLeaf => hMade.seq_numbering_first hLeaf
  have hSecond : second.layout (seq id first second).numbering = first.networkBehind second := by
    rw [networkBehind, network_eq_layout hMade.seq_second.coherent, ← layout_shift]
    exact layout_congr fun leaf hLeaf => hMade.seq_numbering_second hLeaf
  rw [network_eq_layout hMade.coherent, layout, hFirst, hSecond]

/-! ### Counts -/

theorem WellMade.seq_finish :
    (seq id first second).finish [] =
      first.finish [] ++ second.finish [] ++ [seq id first second] := by
  have hNew : ∀ x ∈ second.unfold, x.id ∉ (first.finish []).map Workflow.id := by
    intro x hx hMem
    rcases (mem_ids_finish x.id first []).1 hMem with hNil | ⟨u, hu, hId⟩
    · cases hNil
    · exact hMade.seq_ids_apart hu (mem_unfold.1 hx) hId
  have hSides : second.finish (first.finish []) = first.finish [] ++ second.finish [] :=
    foldl_addNew_of_apart (first.finish []) hNew
  have hSelf : (seq id first second).id ∉
      (first.finish [] ++ second.finish []).map Workflow.id := by
    rw [← hSides]
    -- None of the parts that were finished before carries the id of the whole.
    refine Progress.id_not_finished hMade.coherent (.seqSecond .self)
      (by simp only [seq.sizeOf_spec]; omega) ?_
    exact Progress.id_not_finished hMade.coherent (.seqFirst .self)
      (by simp only [seq.sizeOf_spec]; omega) List.not_mem_nil
  rw [finish_seq, hSides, addNew, if_neg hSelf]

theorem WellMade.seq_compiled :
    (seq id first second).compile.stats.compiled =
      first.compile.stats.compiled + second.compile.stats.compiled + 1 := by
  rw [compile_compiled hMade.coherent, compile_compiled hMade.seq_first.coherent,
    compile_compiled hMade.seq_second.coherent, hMade.seq_finish, List.length_append,
    List.length_append, List.length_singleton]

theorem WellMade.seq_asked :
    (seq id first second).compile.stats.asked =
      first.compile.stats.asked + second.compile.stats.asked + 1 := by
  have hOwn : totalArity [seq id first second] = 2 := rfl
  rw [compile_asked hMade.coherent, compile_asked hMade.seq_first.coherent,
    compile_asked hMade.seq_second.coherent, hMade.seq_finish, totalArity_append,
    totalArity_append, hOwn]
  omega

theorem WellMade.seq_allocated :
    (seq id first second).compile.stats.allocated =
      first.compile.stats.allocated + second.compile.stats.allocated := by
  rw [compile_allocated hMade.coherent, compile_allocated hMade.seq_first.coherent,
    compile_allocated hMade.seq_second.coherent, hMade.seq_leaves, totalWidth_append]

end Sides

/-! ## Both networks -/

/-- The nodes of one network end where those behind it begin. -/
theorem networkBehind_apart (hFirst : first.Coherent) (second : Workflow) :
    ∀ node ∈ first.network.nodes.keys, node ∉ (first.networkBehind second).nodes.keys := by
  intro node hNode hBehind
  rw [← OrderedSet.mem_toList, network_keys hFirst, List.mem_map] at hNode
  obtain ⟨i, hi, rfl⟩ := hNode
  rw [networkBehind, Network.rename, OrderedMap.keys_mapKeys, OrderedSet.mem_map] at hBehind
  obtain ⟨other, -, hEq⟩ := hBehind
  have hIndex : first.network.order + other.index = i := congrArg NodeId.index hEq
  have hBelow := List.mem_range.1 hi
  omega

theorem WellMade.appends (hMade : (seq id first second).WellMade) :
    Appends first second (seq id first second) := by
  have hFirst := hMade.seq_first
  have hSecond := hMade.seq_second
  have hApart := networkBehind_apart hFirst.coherent second
  have hClosed : first.network.Closed := network_closed hFirst.coherent
  have hClosedBehind : (first.networkBehind second).Closed :=
    (network_closed hSecond.coherent).rename _
  have hExits : ∀ x ∈ first.network.exits, x ∈ first.network.nodes.keys := fun x hx =>
    (Network.mem_sinks.1 ((hFirst.network_sound.exits x).1 hx)).1
  have hEntries : ∀ y ∈ (first.networkBehind second).entries,
      y ∈ (first.networkBehind second).nodes.keys := by
    intro y hy
    obtain ⟨x, hx, rfl⟩ := OrderedSet.mem_map.1 hy
    have hKey := (Network.mem_sources.1 ((hSecond.network_sound.entries x).1 hx)).1
    exact Network.mem_keys_rename.2 ⟨x, hKey, rfl⟩
  constructor
  · rw [hMade.seq_network]
    exact Network.nodes_inSequence_of_apart hApart
  · rw [hMade.seq_network]
    exact Network.edges_inSequence_of_apart hApart hClosed hClosedBehind hExits hEntries
  · intro x hx y hy
    exact Network.links_new_of_apart hApart hClosed hClosedBehind hExits hEntries _
      (Network.mem_links.2 ⟨x, hx, y, hy, rfl⟩)
  · rw [hMade.seq_network]
    rfl
  · rw [hMade.seq_network]
    rfl
  · exact hMade.seq_compiled
  · have hAsked := hMade.seq_asked
    have hCompiled := hMade.seq_compiled
    simp only [CompileStats.asked] at hAsked
    omega
  · exact hMade.seq_allocated

/-- Whenever two workflows are put in sequence, the outcome compiles to both networks, the second
one behind the first. -/
theorem network_appended_of_sequence {s t : Supply} {shelf : List Workflow} (hRun : Run s shelf)
    (hFirst : first ∈ shelf) (hSecond : second ∈ shelf)
    (hDone : Draft.sequence first second s = .ok w t) : Appends first second w := by
  have hKeeps := Draft.keeps_sequence (reached_of_mem hFirst) (reached_of_mem hSecond)
  have hStocked := hKeeps.stocked hRun.stocked hDone
  have hMade := hStocked.wellMade (reached_of_mem List.mem_cons_self)
  rw [Draft.sequence_ok hDone] at hMade ⊢
  exact hMade.appends

/-- Picking and packing, and shipping behind them. -/
theorem network_appended_front_ship :
    Run ⟨5, 0⟩ [Sample.back, Sample.front, Sample.ship, Sample.pack, Sample.pick] ∧
      Draft.sequence Sample.front Sample.ship ⟨5, 0⟩ =
        .ok (seq ⟨5⟩ Sample.front Sample.ship) ⟨6, 0⟩ ∧
      Appends Sample.front Sample.ship (seq ⟨5⟩ Sample.front Sample.ship) :=
  ⟨Sample.run_sides, rfl,
    network_appended_of_sequence Sample.run_sides (by simp) (by simp) rfl⟩

end Workflow

end ActivityNetwork
