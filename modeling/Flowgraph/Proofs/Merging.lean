import Mathlib.Data.List.Forall2
import Flowgraph.Proofs.Blocks
import Flowgraph.Proofs.Guards
import Flowgraph.Proofs.Loops

/-!
# The edges of a merged graph

Merging loses no connection.  An edge between live nodes that lies in no block leaves the last node
of one block and enters the first node of another, so different edges become edges between different
blocks, and a walk over blocks can be followed node by node.

That the two blocks differ is a fact about the graphs of function bodies.  A block with an edge from
its last node to its first is a cycle, so one of its edges goes round a loop.  That edge leads to
the guard of the loop, which has two ways out and is therefore the last node of the block.  But the
guard is also entered from outside the loop, and then it is not inside a block.

## Main definitions

* `Graph.outerEdges` : the edges between live nodes that lie in no block.
* `Graph.StandsFor` : an edge between blocks stands for an edge between nodes.

## Main results

* `Graph.OfPiece.rooted` : the graph of a layout has blocks.
* `Graph.OfPiece.not_reaches_back` : no block has an edge to itself.
* `Graph.merged_edges_correspond` : merging keeps the edges between blocks, with their order and
  labels, and which blocks lead to which.
-/

namespace Flowgraph

theorem forall₂_filter_filterMap {α β : Type} {r : α → β → Prop} {p : α → Bool}
    {f : α → Option β} {l : List α} (hnone : ∀ a ∈ l, p a = false → f a = none)
    (hsome : ∀ a ∈ l, p a = true → ∃ b, f a = some b ∧ r a b) :
    List.Forall₂ r (l.filter p) (l.filterMap f) := by
  induction l with
  | nil => exact .nil
  | cons a l ih =>
    have ih := ih (fun x hx => hnone x (by simp [hx])) fun x hx => hsome x (by simp [hx])
    cases hp : p a with
    | false =>
      rw [List.filter_cons_of_neg (by simp [hp]), List.filterMap_cons_none (hnone a (by simp) hp)]
      exact ih
    | true =>
      obtain ⟨b, hb, hr⟩ := hsome a (by simp) hp
      rw [List.filter_cons_of_pos hp, List.filterMap_cons_some hb]
      exact .cons hr ih

namespace Graph

/-- The edges between live nodes that lie in no block. -/
def outerEdges (g : Graph) : List Edge :=
  g.edges.filter fun e => g.isLive e.source && g.isLive e.target && !g.merges e

/-- The edge `f` between blocks stands for the edge `e` between nodes: it has the label of `e`, and
`e` leads from the last node of the one block to the first node of the other. -/
structure StandsFor (g : Graph) (e f : Edge) : Prop where
  source : ∃ block, g.merged.blocks[f.source]? = some block ∧ block.getLast? = some e.source
  target : ∃ block, g.merged.blocks[f.target]? = some block ∧ block.head? = some e.target
  label : e.label = f.label

variable {g : Graph} {e f : Edge}

theorem mem_outerEdges : e ∈ g.outerEdges ↔
    e ∈ g.edges ∧ g.isLive e.source ∧ g.isLive e.target ∧ e ∉ g.mergingEdges := by
  simp only [outerEdges, List.mem_filter, Bool.and_eq_true, Bool.not_eq_true', mem_mergingEdges,
    not_and, Bool.not_eq_true, and_assoc]
  exact and_congr_right fun he => by simp [he]

/-- Where an outer edge leaves, a block ends. -/
theorem not_links_source (he : e ∈ g.outerEdges) (x : NodeId) :
    ¬ Edge.Links g.mergingEdges e.source x := by
  rintro ⟨m, hm, hs, -⟩
  obtain ⟨he, -, -, hout⟩ := mem_outerEdges.1 he
  rw [eq_of_source_eq hm he hs.symm] at hout
  exact hout hm

/-- Where an outer edge leads, a block begins. -/
theorem not_links_target (he : e ∈ g.outerEdges) (x : NodeId) :
    ¬ Edge.Links g.mergingEdges x e.target := by
  rintro ⟨m, hm, -, ht⟩
  obtain ⟨he, hlive, -, hout⟩ := mem_outerEdges.1 he
  rw [eq_of_target_eq hm he hlive ht.symm] at hout
  exact hout hm

theorem StandsFor.parallel {e' f' : Edge} (h : g.StandsFor e f) (h' : g.StandsFor e' f')
    (hp : f.parallel f') : e.parallel e' := by
  obtain ⟨hs, ht⟩ := Edge.parallel_iff.1 hp
  obtain ⟨block, hb, hl⟩ := h.source
  obtain ⟨block', hb', hl'⟩ := h'.source
  obtain ⟨next, hn, hh⟩ := h.target
  obtain ⟨next', hn', hh'⟩ := h'.target
  obtain rfl : block = block' := Option.some.inj (hb.symm.trans (hs ▸ hb'))
  obtain rfl : next = next' := Option.some.inj (hn.symm.trans (ht ▸ hn'))
  exact Edge.parallel_iff.2
    ⟨Option.some.inj (hl.symm.trans hl'), Option.some.inj (hh.symm.trans hh')⟩

/-! ## Edges between blocks -/

theorem edgeBetween?_eq_some_iff (he : e ∈ g.edges) :
    edgeBetween? g.mergingEdges g.chains e = some f ↔ e ∉ g.mergingEdges ∧
      blockOf? g.chains e.source = some f.source ∧ blockOf? g.chains e.target = some f.target ∧
      e.label = f.label := by
  -- an edge inside a block has no parallel, so the test for one is a test for the edge
  have hany : g.mergingEdges.any (·.parallel e) = true ↔ e ∈ g.mergingEdges := by
    rw [List.any_eq_true]
    refine ⟨fun ⟨m, hm, hp⟩ => ?_, fun hm => ⟨e, hm, by simp⟩⟩
    rw [eq_of_source_eq hm he (Edge.parallel_iff.1 hp).1.symm]
    exact hm
  rw [edgeBetween?]
  split
  next h => simp [hany.1 h]
  next h =>
    rw [hany] at h
    obtain ⟨source, target, label⟩ := f
    simp [h, Option.bind_eq_some_iff]

namespace Rooted

variable {u v : NodeId} {b c : Nat}

/-- An edge between blocks stands for the edge it comes from. -/
theorem standsFor (hr : g.Rooted) (he : e ∈ g.outerEdges)
    (hs : blockOf? g.chains e.source = some f.source)
    (ht : blockOf? g.chains e.target = some f.target) (hl : e.label = f.label) :
    g.StandsFor e f := by
  obtain ⟨h, hh, hu⟩ := hr.blockOf?_eq_some_iff.1 hs
  obtain ⟨h', hh', hv⟩ := hr.blockOf?_eq_some_iff.1 ht
  have hmem := List.mem_of_getElem? hh
  have hmem' := List.mem_of_getElem? hh'
  refine ⟨⟨_, by rw [merged, getElem?_chains, hh]; rfl, ?_⟩,
    ⟨_, by rw [merged, getElem?_chains, hh']; rfl, ?_⟩, hl⟩
  · exact Edge.getLast?_chain (not_links_source he) _ h ((hr.mem_chain_iff hmem).2 hu)
  · -- the block begins where it is entered
    have heq : h' = e.target :=
      g.chained_mergingEdges.head_unique (mem_heads.1 hmem').2 (not_links_target he) hv .refl
    rw [← heq]
    exact head?_chain_of_mem_heads hmem'

/-- What has an edge between blocks is an outer edge. -/
theorem mem_outerEdges_of_edgeBetween? (hr : g.Rooted) (he : e ∈ g.edges)
    (hf : edgeBetween? g.mergingEdges g.chains e = some f) : e ∈ g.outerEdges := by
  obtain ⟨hm, hs, ht, -⟩ := (edgeBetween?_eq_some_iff he).1 hf
  exact mem_outerEdges.2
    ⟨he, hr.isLive_iff_blockOf?.2 ⟨_, hs⟩, hr.isLive_iff_blockOf?.2 ⟨_, ht⟩, hm⟩

theorem standsFor_of_edgeBetween? (hr : g.Rooted) (he : e ∈ g.edges)
    (hf : edgeBetween? g.mergingEdges g.chains e = some f) : g.StandsFor e f := by
  obtain ⟨-, hs, ht, hl⟩ := (edgeBetween?_eq_some_iff he).1 hf
  exact hr.standsFor (hr.mem_outerEdges_of_edgeBetween? he hf) hs ht hl

/-- The edges between blocks stand for the outer edges, one for one and in their order. -/
theorem forall₂_standsFor (hr : g.Rooted) :
    List.Forall₂ g.StandsFor g.outerEdges
      (g.edges.filterMap (edgeBetween? g.mergingEdges g.chains)) := by
  have houter : ∀ e ∈ g.edges,
      (g.isLive e.source && g.isLive e.target && !g.merges e) = true ↔ e ∈ g.outerEdges := by
    intro e he
    rw [outerEdges, List.mem_filter, and_iff_right he]
  refine forall₂_filter_filterMap (fun e he hp => ?_) fun e he hp => ?_
  · -- an edge that is not outer lies in a block, or one of its ends is in none
    rw [← Bool.not_eq_true, houter e he] at hp
    exact Option.eq_none_iff_forall_ne_some.2 fun f hf =>
      hp (hr.mem_outerEdges_of_edgeBetween? he hf)
  · obtain ⟨-, hu, hv, hm⟩ := mem_outerEdges.1 ((houter e he).1 hp)
    obtain ⟨b, hb⟩ := hr.isLive_iff_blockOf?.1 hu
    obtain ⟨c, hc⟩ := hr.isLive_iff_blockOf?.1 hv
    have hf : edgeBetween? g.mergingEdges g.chains e = some ⟨b, c, e.label⟩ :=
      (edgeBetween?_eq_some_iff he).2 ⟨hm, hb, hc, rfl⟩
    exact ⟨_, hf, hr.standsFor_of_edgeBetween? he hf⟩

/-- No two outer edges become edges between the same blocks. -/
theorem merged_edges_eq (hr : g.Rooted) :
    g.merged.edges = g.edges.filterMap (edgeBetween? g.mergingEdges g.chains) := by
  refine keepFirst_eq_self Edge.parallel (List.pairwise_filterMap.2 ?_)
  refine hr.simple.imp_of_mem fun {e e'} he he' hne f hf f' hf' => ?_
  have hs := hr.standsFor_of_edgeBetween? he hf
  have hs' := hr.standsFor_of_edgeBetween? he' hf'
  rw [← Bool.not_eq_true] at hne ⊢
  exact fun hp => hne (hs.parallel hs' hp)

theorem mem_merged_edges (hr : g.Rooted) :
    f ∈ g.merged.edges ↔ ∃ e ∈ g.outerEdges, blockOf? g.chains e.source = some f.source ∧
      blockOf? g.chains e.target = some f.target ∧ e.label = f.label := by
  rw [hr.merged_edges_eq, List.mem_filterMap]
  constructor
  · rintro ⟨e, he, hf⟩
    exact ⟨e, hr.mem_outerEdges_of_edgeBetween? he hf, ((edgeBetween?_eq_some_iff he).1 hf).2⟩
  · rintro ⟨e, he, h⟩
    obtain ⟨he, -, -, hm⟩ := mem_outerEdges.1 he
    exact ⟨e, he, (edgeBetween?_eq_some_iff he).2 ⟨hm, h⟩⟩

/-! ## Walks over blocks -/

/-- The edges inside blocks do not leave them. -/
theorem blockOf?_of_links (hr : g.Rooted) (hu : blockOf? g.chains u = some b)
    (h : Edge.Links g.mergingEdges u v) : blockOf? g.chains v = some b := by
  obtain ⟨x, hx, hxu⟩ := hr.blockOf?_eq_some_iff.1 hu
  exact hr.blockOf?_eq_some_iff.2 ⟨x, hx, hxu.tail h⟩

/-- A walk over nodes is a walk over their blocks. -/
theorem reaches_merged (hr : g.Rooted) (hu : blockOf? g.chains u = some b)
    (h : Edge.Reaches g.edges u v) (hv : blockOf? g.chains v = some c) :
    Edge.Reaches g.merged.edges b c := by
  induction h generalizing c with
  | refl =>
    obtain rfl : b = c := Option.some.inj (hu.symm.trans hv)
    exact .refl
  | @tail w v hw hl ih =>
    have hlive := hr.isLive_of_reaches (hr.isLive_iff_blockOf?.2 ⟨b, hu⟩) hw
    obtain ⟨b', hb'⟩ := hr.isLive_iff_blockOf?.1 hlive
    obtain ⟨e, he, rfl, rfl⟩ := hl
    -- the last edge of the walk lies in a block, or it is an edge between blocks
    by_cases hm : e ∈ g.mergingEdges
    · have hsame := hr.blockOf?_of_links hb' ⟨e, hm, rfl, rfl⟩
      obtain rfl : b' = c := Option.some.inj (hsame.symm.trans hv)
      exact ih hb'
    · have houter : e ∈ g.outerEdges :=
        mem_outerEdges.2 ⟨he, hlive, hr.isLive_iff_blockOf?.2 ⟨c, hv⟩, hm⟩
      have hf : ⟨b', c, e.label⟩ ∈ g.merged.edges := hr.mem_merged_edges.2 ⟨e, houter, hb', hv, rfl⟩
      exact (ih hb').tail ⟨_, hf, rfl, rfl⟩

/-- The edges of a block lead from every node of it to the one where the block ends. -/
theorem reaches_last (hr : g.Rooted) (hu : blockOf? g.chains u = some b)
    (hv : blockOf? g.chains v = some b) (hlast : ∀ x, ¬ Edge.Links g.mergingEdges v x) :
    Edge.Reaches g.mergingEdges u v := by
  obtain ⟨h, hh, hhu⟩ := hr.blockOf?_eq_some_iff.1 hu
  obtain ⟨h', hh', hhv⟩ := hr.blockOf?_eq_some_iff.1 hv
  obtain rfl : h = h' := Option.some.inj (hh.symm.trans hh')
  rcases g.chained_mergingEdges.reaches_or_reaches hhu hhv with huv | hvu
  · exact huv
  · rcases hvu.cases_head with rfl | ⟨x, hx, -⟩
    · exact .refl
    · exact absurd hx (hlast x)

/-- The edges of a block lead from the node where the block begins to every node of it. -/
theorem reaches_of_first (hr : g.Rooted) (hu : blockOf? g.chains u = some b)
    (hv : blockOf? g.chains v = some b) (hfirst : ∀ x, ¬ Edge.Links g.mergingEdges x u) :
    Edge.Reaches g.mergingEdges u v := by
  obtain ⟨h, hh, hhu⟩ := hr.blockOf?_eq_some_iff.1 hu
  obtain ⟨h', hh', hhv⟩ := hr.blockOf?_eq_some_iff.1 hv
  obtain rfl : h = h' := Option.some.inj (hh.symm.trans hh')
  rcases hhu.cases_tail with rfl | ⟨x, -, hx⟩
  · exact hhv
  · exact absurd hx (hfirst x)

/-- A walk over blocks can be followed node by node. -/
theorem reaches_of_merged (hr : g.Rooted) (hu : blockOf? g.chains u = some b)
    (h : Edge.Reaches g.merged.edges b c) :
    b = c ∨ ∀ v, blockOf? g.chains v = some c → Edge.Reaches g.edges u v := by
  induction h with
  | refl => exact .inl rfl
  | @tail c' c hc' hl ih =>
    obtain ⟨f, hf, rfl, rfl⟩ := hl
    obtain ⟨e, he, hs, ht, -⟩ := hr.mem_merged_edges.1 hf
    -- up to the end of the block before, along the edge, and on to any node of the next block
    have hsource : Edge.Reaches g.edges u e.source := by
      rcases ih with rfl | ih
      · exact reaches_of_merging (hr.reaches_last hu hs (not_links_source he))
      · exact ih e.source hs
    exact .inr fun v hv => (hsource.tail ⟨e, (mem_outerEdges.1 he).1, rfl, rfl⟩).trans
      (reaches_of_merging (hr.reaches_of_first ht hv (not_links_target he)))

/-- The initial block begins with the entry. -/
theorem initial_block (hr : g.Rooted) :
    ∃ block, g.merged.blocks[g.merged.initial]? = some block ∧ block.head? = some g.entry := by
  have hmem := hr.entry_mem_heads
  obtain ⟨b, hb⟩ := List.getElem?_of_mem hmem
  have hblock : blockOf? g.chains g.entry = some b := hr.blockOf?_eq_some_iff.2 ⟨_, hb, .refl⟩
  refine ⟨_, ?_, head?_chain_of_mem_heads hmem⟩
  rw [merged, hblock, Option.getD_some, getElem?_chains, hb, Option.map_some]

end Rooted

/-! ## No block leads to itself -/

namespace OfPiece

variable {d : Piece} {flat : Bool} {plan : Plan}

/-- The graph of a layout has blocks. -/
theorem rooted (hg : g.OfPiece d) (hd : plan.DrawnWhole d flat) (hf : plan.Fits 0) : g.Rooted where
  isLive_iff u := by
    rw [hg.isLive_iff, hg.entry, Edge.Reaches, Edge.Reaches, hg.links]
    exact and_iff_right_of_imp (hd.lt_length_of_reaches hf)
  not_links_entry u hl := by
    rw [hg.links, hg.entry] at hl
    exact absurd (hd.links_bounds hf hl).2.1 (Nat.lt_irrefl 0)
  simple := by
    rw [hg.edges, Edge.firstPerPair_eq]
    exact pairwise_keepFirst _ _

/-- A guard has two ways out, so a block ends there. -/
theorem not_links_guard (hg : g.OfPiece d) {v extent : Nat} (hguard : d.Guard v extent)
    (x : NodeId) : ¬ Edge.Links g.mergingEdges v x := by
  rintro ⟨m, hm, hs, -⟩
  have target_eq : ∀ t ∈ (d.row v).out, t.2 = m.target := by
    intro t ht
    obtain ⟨e, he, hes, het⟩ : Edge.Links g.edges v t.2 := by
      rw [hg.links]
      exact Piece.links_iff.2 (.inl ⟨t, ht, rfl⟩)
    rw [← het, eq_of_source_eq hm he (hes.trans hs.symm)]
  obtain ⟨t, ht, s, hs, hne⟩ := hguard.splits
  exact hne ((target_eq t ht).trans (target_eq s hs).symm)

/-- A guard is entered from outside its loop as well, so no edge from the loop to the guard lies in
a block. -/
theorem not_mem_mergingEdges_guard (hg : g.OfPiece d) (hd : plan.DrawnWhole d flat)
    (hf : plan.Fits 0) {extent : Nat} (hguard : d.Guard e.target extent)
    (hle : e.target ≤ e.source) (hlt : e.source < e.target + extent) : e ∉ g.mergingEdges := by
  intro hm
  have hr := hg.rooted hd hf
  have hl := links_of_merging ⟨e, hm, rfl, rfl⟩
  have hwalk := (hr.isLive_iff _).1 (hr.isLive_of_links (isLive_source hm) hl)
  rw [Edge.Reaches, hg.links, hg.entry] at hwalk
  have hpos := (hd.links_bounds hf (hg.links ▸ hl)).2.1
  have hentry : ¬ ((e.target : Nat) ≤ 0 ∧ 0 < (e.target : Nat) + extent) :=
    fun h => absurd (Nat.lt_of_lt_of_le hpos h.1) (Nat.lt_irrefl 0)
  -- the walk from the entry comes in by an edge from outside the loop
  obtain ⟨p, w, hp, hout, hlink, rfl⟩ :=
    hguard.entered.exists_links hwalk hentry ⟨Nat.le_refl _, Nat.lt_of_le_of_lt hle hlt⟩
  obtain ⟨f, hf, rfl, ht⟩ : Edge.Links g.edges p e.target := hg.links ▸ hlink
  have hlive : g.isLive f.source := by
    rw [hr.isLive_iff, Edge.Reaches, hg.links, hg.entry]
    exact hp
  obtain rfl := eq_of_target_eq hm hf hlive ht
  exact hout ⟨hle, hlt⟩

/-- No outer edge leads from a block to the same block. -/
theorem not_reaches_back (hg : g.OfPiece d) (hd : plan.DrawnWhole d flat) (hf : plan.Fits 0)
    (he : e ∈ g.outerEdges) : ¬ Edge.Reaches g.mergingEdges e.target e.source := by
  intro hback
  have hc := g.chained_mergingEdges
  -- only the source of the edge has no edge inside the block
  have hlast : ∀ z, Edge.Reaches g.mergingEdges e.target z →
      (∀ x, ¬ Edge.Links g.mergingEdges z x) → z = e.source := by
    intro z hz hz'
    rcases hc.reaches_or_reaches hz hback with h | h
    · exact (h.cases_head).resolve_right fun ⟨x, hx, _⟩ => hz' x hx
    · exact ((h.cases_head).resolve_right fun ⟨x, hx, _⟩ => not_links_source he x hx).symm
  -- so some edge leads from every node of the block to the block
  have hnext : ∀ z, Edge.Reaches g.mergingEdges e.target z → ∃ f ∈ g.edges, f.source = z ∧
      Edge.Reaches g.mergingEdges e.target f.target ∧ (f ∈ g.mergingEdges ∨ f = e) := by
    intro z hz
    by_cases h : ∃ x, Edge.Links g.mergingEdges z x
    · obtain ⟨x, f, hm, rfl, rfl⟩ := h
      exact ⟨f, (mem_mergingEdges.1 hm).1, rfl, hz.tail ⟨f, hm, rfl, rfl⟩, .inl hm⟩
    · exact ⟨e, (mem_outerEdges.1 he).1, (hlast z hz fun x hx => h ⟨x, hx⟩).symm, .refl, .inr rfl⟩
  have hstay : ¬ d.Returns (Edge.Reaches g.mergingEdges e.target) :=
    fun h => hd.not_returns h e.target .refl
  simp only [Piece.Returns, not_forall] at hstay
  obtain ⟨z, hz, hno⟩ := hstay
  obtain ⟨f, hfe, rfl, hft, hfm⟩ := hnext z hz
  -- the edge on from such a node goes round a loop
  have hfd : f ∈ d.edges := hg.mem_edges hfe
  have hloop : f.label = .loopBack := by
    by_contra hl
    refine hno ⟨(f.label, f.target), ?_, hl, hft⟩
    cases hx : f.label.isException with
    | false => exact .inl (Piece.mem_out_row.2 ⟨hfd, hx⟩)
    | true => exact .inr (Piece.mem_thrown_row.2 ⟨hfd, hx⟩)
  have hout : (f.label, f.target) ∈ (d.row f.source).out :=
    Piece.mem_out_row.2 ⟨hfd, by rw [hloop]; rfl⟩
  obtain ⟨extent, hguard, hle, hlt⟩ := hd.guard_of_loopBack hf hout hloop
  rcases hfm with hm | rfl
  · exact hg.not_mem_mergingEdges_guard hd hf hguard hle hlt hm
  · -- the block ends where it begins, and the guard leads to itself
    have hself := hlast f.target .refl (hg.not_links_guard hguard)
    refine hguard.irrefl ?_
    rw [← hg.links]
    exact ⟨f, hfe, hself.symm, rfl⟩

end OfPiece

theorem rooted_ofBody {options : Options} {body : List Stmt} (h : ofBody options body = .ok g) :
    g.Rooted := by
  obtain ⟨plan, hp, hg, -⟩ := ofPiece_ofBody h
  exact hg.rooted (Piece.drawnWhole_ofPlan options.flatDispatch plan) (Plan.fits_ofBody hp)

/-- Merging loses no edge and changes no connection.  The edges between blocks stand for the edges
between live nodes that lie in no block, one for one, in their order and with their labels, each of
them leading from the last node of its block to the first node of the other; so none of them is
dropped for another.  No block has an edge to itself, and the initial block begins with the entry.
The live nodes are the nodes of blocks, and of two nodes in different blocks one leads to the other
exactly if the block of the one leads to the block of the other. -/
theorem merged_edges_correspond {options : Options} {body : List Stmt} {g : Graph}
    (h : ofBody options body = .ok g) :
    List.Forall₂ g.StandsFor g.outerEdges g.merged.edges ∧
    g.merged.edges = g.edges.filterMap (edgeBetween? g.mergingEdges g.merged.blocks) ∧
    (∀ f ∈ g.merged.edges, f.source ≠ f.target) ∧
    (∃ block, g.merged.blocks[g.merged.initial]? = some block ∧ block.head? = some g.entry) ∧
    (∀ u, g.isLive u ↔ ∃ b, blockOf? g.merged.blocks u = some b) ∧
    ∀ u v b c, blockOf? g.merged.blocks u = some b → blockOf? g.merged.blocks v = some c → b ≠ c →
      (Edge.Reaches g.edges u v ↔ Edge.Reaches g.merged.edges b c) := by
  obtain ⟨plan, hp, hg, -⟩ := ofPiece_ofBody h
  have hd := Piece.drawnWhole_ofPlan options.flatDispatch plan
  have hf := Plan.fits_ofBody hp
  have hr := hg.rooted hd hf
  refine ⟨?_, hr.merged_edges_eq, fun f hfe hself => ?_, hr.initial_block,
    fun u => hr.isLive_iff_blockOf?, fun u v b c hu hv hbc => ⟨fun hw => ?_, fun hw => ?_⟩⟩
  · rw [hr.merged_edges_eq]
    exact hr.forall₂_standsFor
  -- an edge from a block to itself would lead back to the first node of the block
  · obtain ⟨e, he, hs, ht, -⟩ := hr.mem_merged_edges.1 hfe
    exact hg.not_reaches_back hd hf he
      (hr.reaches_of_first ht (hself ▸ hs) (not_links_target he))
  · exact hr.reaches_merged hu hw hv
  · exact (hr.reaches_of_merged hu hw).resolve_left hbc v hv

end Graph

/-- A loop over an `if` that continues in one branch; a statement follows the `if`. -/
def loopOverBranch : List Stmt :=
  let site (id : Nat) : Site := ⟨id, ⟨id, id + 1⟩⟩
  [.simple (site 1),
    .loop (site 2) (.condition ⟨2, 3⟩)
      [.branch (site 3) ⟨3, 4⟩ [.jump (site 4) .continuing] [⟨⟨5, 6⟩, none, [.simple (site 6)]⟩],
        .simple (site 5)] []]

theorem merged_edges_correspond_loopOverBranch : ∃ g, Graph.ofBody {} loopOverBranch = .ok g ∧
    g.merged.blocks = [[0, 1], [2], [3, 9], [4], [6], [7, 5, 8]] ∧
    List.Forall₂ g.StandsFor g.outerEdges g.merged.edges ∧
    (Edge.Reaches g.edges 7 4 ↔ Edge.Reaches g.merged.edges 5 3) := by
  have h : ∃ g, Graph.ofBody {} loopOverBranch = .ok g ∧
      g.merged.blocks = [[0, 1], [2], [3, 9], [4], [6], [7, 5, 8]] := ⟨_, rfl, rfl⟩
  obtain ⟨g, hg, hb⟩ := h
  obtain ⟨hedges, -, -, -, -, hreaches⟩ := Graph.merged_edges_correspond hg
  refine ⟨g, hg, hb, hedges, hreaches 7 4 5 3 ?_ ?_ (by decide)⟩
  · rw [hb]
    rfl
  · rw [hb]
    rfl

end Flowgraph
