import ActivityNetwork.Proofs.Workflow.Rendering

/-!
# Networks that differ in numbers only

Node ids mean nothing outside their network.  Two networks are isomorphic if some renaming of
nodes turns one into the other: node by node with the kinds, edge by edge with the kinds, and
frontier by frontier.

Two renderings of one chart are always isomorphic, by the renaming that takes the node of each
place to the node of the same place (`Renders.exists_iso`).
-/

namespace ActivityNetwork

namespace Edge

/-- The same edge between renamed nodes. -/
def rename (f : NodeId → NodeId) (e : Edge) : Edge :=
  ⟨f e.source, f e.target, e.kind⟩

end Edge

namespace Network

/-- The renaming turns `g` into `h`, and no two nodes of `g` into one. -/
structure Iso (f : NodeId → NodeId) (g h : Network) : Prop where
  bijective : Set.BijOn f { id | id ∈ g.nodes.keys } { id | id ∈ h.nodes.keys }
  nodes : { n | n ∈ h.nodes.entries } = (fun n => (f n.1, n.2)) '' { n | n ∈ g.nodes.entries }
  edges : { e | e ∈ h.edges } = Edge.rename f '' { e | e ∈ g.edges }
  entries : { id | id ∈ h.entries } = f '' { id | id ∈ g.entries }
  exits : { id | id ∈ h.exits } = f '' { id | id ∈ g.exits }

variable {g h : Network} {p q : Place → NodeId} {c : Chart}

/-- The nodes of a rendering are those of the places. -/
theorem Renders.bijOn (hRenders : g.Renders p c) (hInj : Set.InjOn p c.places) :
    Set.BijOn p c.places { id | id ∈ g.nodes.keys } := by
  refine ⟨fun x hx => hRenders.mem_keys.2 ⟨x, hx, rfl⟩, hInj, ?_⟩
  intro id hNode
  exact hRenders.mem_keys.1 hNode

/-- A chart has only one rendering up to the numbers of nodes. -/
theorem Renders.exists_iso (hg : g.Renders p c) (hh : h.Renders q c)
    (hp : Set.InjOn p c.places) (hq : Set.InjOn q c.places)
    (hArcs : ∀ e ∈ c.arcs, e.source ∈ c.places ∧ e.target ∈ c.places)
    (hEntries : c.entries ⊆ c.places) (hExits : c.exits ⊆ c.places) :
    ∃ f : NodeId → NodeId, Iso f g h ∧ ∀ x ∈ c.places, f (p x) = q x := by
  have hNonempty : Nonempty Place := ⟨.marker ⟨0⟩⟩
  -- From a node of `g` back to its place, and from there to the node of `h`.
  let f : NodeId → NodeId := q ∘ Function.invFunOn p c.places
  have hf : ∀ x ∈ c.places, f (p x) = q x := fun x hx =>
    congrArg q (hp.leftInvOn_invFunOn hx)
  have hImage : ∀ s ⊆ c.places, q '' s = f '' (p '' s) := by
    intro s hs
    rw [Set.image_image]
    exact Set.image_congr fun x hx => (hf x (hs hx)).symm
  refine ⟨f, ⟨?_, ?_, ?_, ?_, ?_⟩, hf⟩
  · have hInverse := (hg.bijOn hp).invOn_invFunOn
    have hBack : Set.BijOn (Function.invFunOn p c.places) { id | id ∈ g.nodes.keys } c.places :=
      (Set.bijOn_comm hInverse).2 (hg.bijOn hp)
    exact (hh.bijOn hq).comp hBack
  · rw [hg.nodes, hh.nodes, Set.image_image]
    refine Set.image_congr fun n hn => ?_
    rw [hf n.1 ⟨n, hn, rfl⟩]
  · rw [hg.edges, hh.edges, Set.image_image]
    refine Set.image_congr fun e he => ?_
    simp only [Arc.edge, Edge.rename, hf _ (hArcs e he).1, hf _ (hArcs e he).2]
  · rw [hg.entries, hh.entries, hImage _ hEntries]
  · rw [hg.exits, hh.exits, hImage _ hExits]

end Network

namespace Workflow

/-- Workflows of one chart have isomorphic networks.  The renaming takes each place of a leaf to
the same place of that leaf. -/
theorem exists_iso_of_chart_eq {u v : Workflow} (hu : u.Coherent) (hv : v.Coherent)
    (hChart : u.chart = v.chart) :
    ∃ f : NodeId → NodeId, Network.Iso f u.network v.network ∧
      ∀ x ∈ u.chart.places, f (placeNode u.numbering x) = placeNode v.numbering x := by
  refine Network.Renders.exists_iso (network_renders hu) (hChart ▸ network_renders hv)
    (numbering_injOn hu) (hChart ▸ numbering_injOn hv) ?_ ?_ ?_
  · exact fun e he => mem_places_of_mem_arcs he
  · exact fun x hx => mem_places_of_mem_entries hx
  · exact fun x hx => mem_places_of_mem_exits hx

end Workflow

end ActivityNetwork
