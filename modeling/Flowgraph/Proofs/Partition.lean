import Mathlib.Data.List.Nodup
import Flowgraph.Proofs.Merging

/-!
# Blocks partition the live nodes

An edge joins its two ends if control can go nowhere else from the one and come from nowhere else to
the other, and if nothing about the two nodes keeps them apart.  The blocks of the merged graph are
the longest chains of joined nodes: every live node is in one block, two nodes follow each other in
a block exactly if an edge joins them, and blocks stand in the order of their first nodes.

Following the edges from the first node of a block comes to an end by itself.  It could only go on
for good along a cycle, and a chain of edges that each are the only way into their target enters no
cycle.

## Main definitions

* `Graph.Joins` : the edge joins its two ends.

## Main results

* `Edge.chain_eq_of_le` : a chain ends by itself.
* `Graph.Rooted.mem_mergingEdges_iff` : the edges inside blocks are those that join their ends.
* `Graph.merged_blocks_partition` : the blocks are the longest chains of joined nodes.
-/

namespace Flowgraph

/-! ## Chains that end by themselves -/

namespace Edge

variable {edges : List Edge} {u s t : NodeId}

theorem chain_prefix_chain {bound bound' : Nat} (h : bound ≤ bound') (u : NodeId) :
    chain edges bound u <+: chain edges bound' u := by
  induction bound generalizing bound' u with
  | zero => exact List.nil_prefix
  | succ bound ih =>
    obtain ⟨bound', rfl⟩ : ∃ n, bound' = n + 1 := ⟨bound' - 1, by omega⟩
    rw [chain, chain, List.cons_prefix_cons]
    refine ⟨rfl, ?_⟩
    split
    next v _ => exact ih (by omega) v
    next => exact List.prefix_rfl

/-- From a node without an edge into it, a chain that may be as long as there are nodes ends by
itself: allowing for more nodes makes it no longer. -/
theorem chain_eq_of_le (hc : Chained edges) {bound bound' : Nat} (hu : ∀ x, ¬ Links edges x u)
    (hlt : ∀ v, Reaches edges u v → v < bound) (h : bound ≤ bound') :
    chain edges bound' u = chain edges bound u := by
  -- both chains hold what the edges lead to, each node once
  have hperm : (chain edges bound u).Perm (chain edges bound' u) :=
    (List.perm_ext_iff_of_nodup (nodup_chain_of_not_links hc bound hu)
      (nodup_chain_of_not_links hc bound' hu)).2 fun v => by
        rw [mem_chain_iff hc hu hlt,
          mem_chain_iff hc hu fun v hv => Nat.lt_of_lt_of_le (hlt v hv) h]
  exact ((chain_prefix_chain h u).eq_of_length hperm.length_eq).symm

theorem links_of_infix_chain (bound : Nat) (u : NodeId) (h : [s, t] <:+: chain edges bound u) :
    Links edges s t := by
  induction bound generalizing u with
  | zero =>
    rw [chain] at h
    exact absurd (List.infix_nil.1 h) (List.cons_ne_nil _ _)
  | succ bound ih =>
    rw [chain] at h
    rcases List.infix_cons_iff.1 h with h | h
    · -- the pair stands at the front of the chain
      obtain ⟨rfl, h⟩ := List.cons_prefix_cons.1 h
      split at h
      next v hv =>
        cases bound with
        | zero =>
          rw [chain] at h
          exact absurd (List.prefix_nil.1 h) (List.cons_ne_nil _ _)
        | succ bound =>
          obtain ⟨rfl, -⟩ := List.cons_prefix_cons.1 h
          exact links_of_next? hv
      next => exact absurd (List.prefix_nil.1 h) (List.cons_ne_nil _ _)
    · split at h
      next v _ => exact ih v h
      next => exact absurd (List.infix_nil.1 h) (List.cons_ne_nil _ _)

/-- Where an edge leads from a node of a chain, the chain goes on if it may. -/
theorem infix_chain_succ (hc : Chained edges) (hl : Links edges s t) (bound : Nat) (u : NodeId)
    (h : s ∈ chain edges bound u) : [s, t] <:+: chain edges (bound + 1) u := by
  induction bound generalizing u with
  | zero => simp [chain] at h
  | succ bound ih =>
    -- the chain may stop at `s` for want of steps, which is why one more is allowed
    rw [chain] at h
    rcases List.mem_cons.1 h with rfl | h
    · refine List.IsPrefix.isInfix ?_
      rw [chain, hc.next?_eq hl]
      simp only [chain]
      exact List.cons_prefix_cons.2 ⟨rfl, List.cons_prefix_cons.2 ⟨rfl, List.nil_prefix⟩⟩
    · split at h
      next v hv =>
        rw [chain, hv]
        exact List.infix_cons (ih v h)
      next => simp at h

end Edge

/-! ## Edges that join their ends -/

theorem countP_eq_one {α : Type} {p : α → Bool} {l : List α} {a : α} (hn : l.Nodup) (ha : a ∈ l)
    (hp : p a) (hu : ∀ b ∈ l, p b → b = a) : l.countP p = 1 := by
  have hperm : (l.filter p).Perm [a] :=
    (List.perm_ext_iff_of_nodup (hn.filter p) (List.nodup_singleton a)).2 fun b => by
      rw [List.mem_filter, List.mem_singleton]
      refine ⟨fun h => hu b h.1 h.2, ?_⟩
      rintro rfl
      exact ⟨ha, hp⟩
  rw [List.countP_eq_length_filter, hperm.length_eq, List.length_singleton]

namespace Graph

/-- The edge joins its two ends.  Control can reach it, it is not an exception's, it is the only
edge out of the one end and the only edge into the other from where control can be, neither end
raises or suspends, and the same border is the nearest around both. -/
structure Joins (g : Graph) (e : Edge) : Prop where
  mem : e ∈ g.edges
  live : g.isLive e.source
  normal : e.label.isException = false
  only_out : ∀ f ∈ g.edges, f.source = e.source → f = e
  only_in : ∀ f ∈ g.edges, f.target = e.target → g.isLive f.source → f = e
  source : ∃ n, g.nodes[e.source]? = some n ∧ n.content.raises = false ∧ n.content.suspends = false
  target : ∃ n, g.nodes[e.target]? = some n ∧ n.content.raises = false ∧ n.content.suspends = false
  barrier : g.regions.barrier (g.regionOf e.source) = g.regions.barrier (g.regionOf e.target)

variable {g : Graph} {e : Edge} {u : NodeId}

theorem isMergeable_iff : g.isMergeable u ↔
    ∃ n, g.nodes[u]? = some n ∧ n.content.raises = false ∧ n.content.suspends = false := by
  cases hn : g.nodes[u]? with
  | none => simp [isMergeable, hn]
  | some n => simp [isMergeable, hn, Node.isMergeable]

theorem nodup_liveNodes (g : Graph) : g.liveNodes.Nodup :=
  List.nodup_range.filter _

theorem joins_of_mem_mergingEdges (h : e ∈ g.mergingEdges) : g.Joins e := by
  obtain ⟨he, hm⟩ := mem_mergingEdges.1 h
  simp only [merges, Bool.and_eq_true, Bool.not_eq_true', beq_iff_eq] at hm
  obtain ⟨⟨⟨⟨⟨⟨⟨-, hlive⟩, hl⟩, -⟩, -⟩, hs⟩, ht⟩, hb⟩ := hm
  exact ⟨he, hlive, hl, fun f hf hfs => eq_of_source_eq h hf hfs,
    fun f hf hft hfl => eq_of_target_eq h hf hfl hft, isMergeable_iff.1 hs, isMergeable_iff.1 ht,
    hb⟩

namespace Rooted

theorem nodup_edges (hr : g.Rooted) : g.edges.Nodup := by
  refine hr.simple.imp fun {e f} hp he => ?_
  rw [he, Edge.parallel_iff.2 ⟨rfl, rfl⟩] at hp
  cases hp

/-- An edge that joins its ends does not lead back to where it leaves: control would have to be
there already to get there. -/
theorem source_ne_target (hr : g.Rooted) (h : g.Joins e) : e.source ≠ e.target := by
  intro hself
  have hwalk := (hr.isLive_iff _).1 h.live
  -- no walk from the entry comes to the node, since its last edge would be this one
  have hne : ∀ v, Edge.Reaches g.edges g.entry v → v ≠ e.target := by
    intro v hv
    induction hv with
    | refl => exact fun he => hr.not_links_entry e.source ⟨e, h.mem, rfl, he.symm⟩
    | @tail w v hw hl ih =>
      rintro rfl
      obtain ⟨f, hf, rfl, ht⟩ := hl
      have heq := h.only_in f hf ht ((hr.isLive_iff _).2 hw)
      exact ih (by rw [heq, hself])
  exact hne _ hwalk hself

/-- The edges inside blocks are those that join their ends. -/
theorem mem_mergingEdges_iff (hr : g.Rooted) : e ∈ g.mergingEdges ↔ g.Joins e := by
  refine ⟨joins_of_mem_mergingEdges, fun h => mem_mergingEdges.2 ⟨h.mem, ?_⟩⟩
  have hout : g.outDegree e.source = 1 :=
    countP_eq_one hr.nodup_edges h.mem (by simp) fun f hf hs => h.only_out f hf (by simpa using hs)
  have hin : g.liveInDegree e.target = 1 := by
    refine countP_eq_one hr.nodup_edges h.mem (by simp [h.live]) fun f hf hs => ?_
    simp only [Bool.and_eq_true, beq_iff_eq] at hs
    exact h.only_in f hf hs.1 hs.2
  simp [merges, hr.source_ne_target h, h.live, h.normal, hout, hin, isMergeable_iff.2 h.source,
    isMergeable_iff.2 h.target, h.barrier]

/-! ## Blocks -/

theorem chain_eq (hr : g.Rooted) (hu : u ∈ g.heads) {bound : Nat} (h : g.nodes.length ≤ bound) :
    Edge.chain g.mergingEdges bound u = Edge.chain g.mergingEdges g.nodes.length u := by
  obtain ⟨hlive, hu⟩ := mem_heads.1 hu
  exact Edge.chain_eq_of_le g.chained_mergingEdges hu
    (fun v hv => lt_length_of_isLive (hr.isLive_of_reaches hlive (reaches_of_merging hv))) h

/-- Every live node is in one block, and no other node is in any. -/
theorem flatten_chains_perm (hr : g.Rooted) : g.chains.flatten.Perm g.liveNodes := by
  -- going back along joining edges from a node leads to one head only
  have hdisjoint : g.chains.Pairwise List.Disjoint := by
    rw [chains_eq, List.pairwise_map]
    refine List.Pairwise.imp_of_mem (fun {h h'} hh hh' hne v hv hv' => ?_) g.nodup_heads
    exact hne (head_unique hh hh' ((hr.mem_chain_iff hh).1 hv) ((hr.mem_chain_iff hh').1 hv'))
  have hnodup : ∀ block ∈ g.chains, block.Nodup := by
    intro block hb
    obtain ⟨h, hh, rfl⟩ := List.mem_map.1 hb
    exact Edge.nodup_chain_of_not_links g.chained_mergingEdges _ (mem_heads.1 hh).2
  refine (List.perm_ext_iff_of_nodup (List.nodup_flatten.2 ⟨hnodup, hdisjoint⟩)
    g.nodup_liveNodes).2 fun v => ?_
  rw [mem_liveNodes, hr.isLive_iff_blockOf?, List.mem_flatten]
  constructor
  · rintro ⟨block, hb, hv⟩
    exact exists_blockOf? hb hv
  · rintro ⟨b, hb⟩
    obtain ⟨block, hblock, hv⟩ := mem_of_blockOf? hb
    exact ⟨block, List.mem_of_getElem? hblock, hv⟩

/-- Two nodes follow each other in a block exactly if an edge inside blocks leads from the one to
the other. -/
theorem exists_infix_iff (hr : g.Rooted) {s t : NodeId} :
    (∃ block ∈ g.chains, [s, t] <:+: block) ↔ Edge.Links g.mergingEdges s t := by
  constructor
  · rintro ⟨block, hb, hi⟩
    obtain ⟨h, -, rfl⟩ := List.mem_map.1 hb
    exact Edge.links_of_infix_chain _ h hi
  · intro hl
    have hlive : g.isLive s := by
      obtain ⟨e, he, rfl, -⟩ := hl
      exact isLive_source he
    obtain ⟨h, hh, hs⟩ := hr.exists_head hlive
    refine ⟨_, List.mem_map_of_mem hh, ?_⟩
    -- the chain has room for the node after `s`, since more room makes it no longer
    rw [← hr.chain_eq hh (Nat.le_succ _)]
    exact Edge.infix_chain_succ g.chained_mergingEdges hl _ h ((hr.mem_chain_iff hh).2 hs)

end Rooted

theorem pairwise_heads (g : Graph) : g.heads.Pairwise (· < ·) :=
  (List.pairwise_lt_range.filter _).filter _

/-- The blocks of the merged graph are the longest chains of joined nodes.  Following the edges
inside blocks from the first node of a block ends by itself: allowing for more nodes than there are
gives the same blocks.  Every live node is in exactly one block, once, and no other node is in any.
Two nodes follow each other in a block exactly if an edge joins them.  Blocks are not empty, and
they stand in the order of their first nodes. -/
theorem merged_blocks_partition {options : Options} {body : List Stmt} {g : Graph}
    (h : ofBody options body = .ok g) :
    (∀ bound, g.nodes.length ≤ bound →
      g.heads.map (Edge.chain g.mergingEdges bound) = g.merged.blocks) ∧
    g.merged.blocks.flatten.Perm g.liveNodes ∧
    (∀ s t, (∃ block ∈ g.merged.blocks, [s, t] <:+: block) ↔
      ∃ e, g.Joins e ∧ e.source = s ∧ e.target = t) ∧
    ∃ firsts : List NodeId, g.merged.blocks.map List.head? = firsts.map some ∧
      firsts.Pairwise (· < ·) := by
  obtain ⟨plan, hp, hg, -⟩ := ofPiece_ofBody h
  have hr := hg.rooted (Piece.drawnWhole_ofPlan options.flatDispatch plan) (Plan.fits_ofBody hp)
  refine ⟨fun bound hb => ?_, hr.flatten_chains_perm, fun s t => ?_, g.heads, ?_, g.pairwise_heads⟩
  · exact List.map_congr_left fun u hu => hr.chain_eq hu hb
  · refine hr.exists_infix_iff.trans (exists_congr fun e => ?_)
    rw [hr.mem_mergingEdges_iff]
  · rw [merged, chains_eq, List.map_map]
    exact List.map_congr_left fun u hu => head?_chain_of_mem_heads hu

end Graph

/-- A branch that returns and goes on with code out of reach, a `yield`, and a `try` with a handler
between two statements. -/
def yieldBeforeTry : List Stmt :=
  let site (id : Nat) : Site := ⟨id, ⟨id, id + 1⟩⟩
  [.simple (site 1),
    .branch (site 2) ⟨2, 3⟩ [.jump (site 3) .returning, .simple (site 4)] [],
    .yield (site 5),
    .attempt (site 6) [.simple (site 7)] [⟨⟨8, 9⟩, none, [.simple (site 9)]⟩] [] [],
    .simple (site 10)]

theorem merged_blocks_partition_yieldBeforeTry : ∃ g, Graph.ofBody {} yieldBeforeTry = .ok g ∧
    g.merged.blocks = [[0, 1, 2], [3], [4], [6], [7, 10, 11], [8], [9]] ∧
    g.merged.blocks.flatten.Perm g.liveNodes ∧
    ((∃ block ∈ g.merged.blocks, [7, 10] <:+: block) ↔
      ∃ e, g.Joins e ∧ e.source = 7 ∧ e.target = 10) := by
  have h : ∃ g, Graph.ofBody {} yieldBeforeTry = .ok g ∧
      g.merged.blocks = [[0, 1, 2], [3], [4], [6], [7, 10, 11], [8], [9]] := ⟨_, rfl, rfl⟩
  obtain ⟨g, hg, hb⟩ := h
  obtain ⟨-, hperm, hinfix, -⟩ := Graph.merged_blocks_partition hg
  exact ⟨g, hg, hb, hperm, hinfix 7 10⟩

end Flowgraph
