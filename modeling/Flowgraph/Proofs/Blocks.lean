import Flowgraph.Graph.Merged
import Flowgraph.Proofs.Walk

/-!
# The blocks of a merged graph

The edges inside blocks leave and reach every node at most once, so from a node without an edge
into it they lead along a chain that never comes back to itself.  Every live node is on exactly one
such chain: the chain is found by going back along the walk that leads to the node from the entry.

## Main definitions

* `Edge.Chained` : edges that leave and reach every node at most once.
* `Graph.heads` : the nodes where blocks begin.
* `Graph.Rooted` : the live nodes of the graph are those that walks from its entry lead to.

## Main results

* `Edge.mem_chain_iff` : a chain holds what its edges lead to.
* `Graph.Rooted.exists_head`, `Graph.head_unique` : every live node is in one block.
* `Graph.Rooted.blockOf?_eq_some_iff` : the block of a node.
-/

namespace Flowgraph

/-! ## Chains of edges -/

namespace Edge

/-- At most one of the edges leaves a node, and at most one leads to it. -/
structure Chained (edges : List Edge) : Prop where
  out_unique : ∀ e ∈ edges, ∀ f ∈ edges, e.source = f.source → e = f
  in_unique : ∀ e ∈ edges, ∀ f ∈ edges, e.target = f.target → e = f

namespace Chained

variable {edges : List Edge} {u v w : NodeId}

theorem target_unique (h : Chained edges) (hv : Links edges u v) (hw : Links edges u w) :
    v = w := by
  obtain ⟨e, he, rfl, rfl⟩ := hv
  obtain ⟨f, hf, hs, rfl⟩ := hw
  rw [h.out_unique e he f hf hs.symm]

theorem source_unique (h : Chained edges) (hu : Links edges u w) (hv : Links edges v w) :
    u = v := by
  obtain ⟨e, he, rfl, rfl⟩ := hu
  obtain ⟨f, hf, rfl, ht⟩ := hv
  rw [h.in_unique e he f hf ht.symm]

/-- Of two nodes that edges lead to from the same node, one comes after the other. -/
theorem reaches_or_reaches (h : Chained edges) (hv : Reaches edges u v) (hw : Reaches edges u w) :
    Reaches edges v w ∨ Reaches edges w v :=
  Relation.ReflTransGen.total_of_right_unique (fun _ _ _ => h.target_unique) hv hw

/-- Only one node without an edge into it leads to a node. -/
theorem head_unique (h : Chained edges) (hu : ∀ x, ¬ Links edges x u)
    (hv : ∀ x, ¬ Links edges x v) (huw : Reaches edges u w) (hvw : Reaches edges v w) : u = v := by
  -- both chains are followed backwards, and they meet the same edge at every node
  induction huw with
  | refl =>
    cases hvw with
    | refl => rfl
    | tail _ hl => exact absurd hl (hu _)
  | tail _ hl ih =>
    cases hvw with
    | refl => exact absurd hl (hv _)
    | tail hr hl' =>
      obtain rfl := h.source_unique hl hl'
      exact ih hr

/-- From a node to which edges do not come back, they come back to no node. -/
theorem not_cyclic (h : Chained edges) (hu : ¬ Relation.TransGen (Links edges) u u)
    (hl : Links edges u v) : ¬ Relation.TransGen (Links edges) v v := by
  intro hv
  obtain ⟨w, hw, hwv⟩ := Relation.TransGen.tail'_iff.1 hv
  obtain rfl := h.source_unique hl hwv
  exact hu (.head' hl hw)

end Chained

variable {edges : List Edge} {u v : NodeId}

theorem next?_eq_none_iff : next? edges u = none ↔ ∀ v, ¬ Links edges u v := by
  simp only [next?, Option.map_eq_none_iff, List.find?_eq_none, beq_iff_eq, Links]
  constructor
  · rintro h v ⟨e, he, hs, -⟩
    exact h e he hs
  · intro h e he hs
    exact h _ ⟨e, he, hs, rfl⟩

theorem links_of_next? (h : next? edges u = some v) : Links edges u v := by
  obtain ⟨e, he, rfl⟩ := Option.map_eq_some_iff.1 h
  exact ⟨e, List.mem_of_find?_eq_some he, by simpa using List.find?_some he, rfl⟩

theorem Chained.next?_eq (h : Chained edges) (hl : Links edges u v) : next? edges u = some v := by
  cases hn : next? edges u with
  | none => exact absurd hl (next?_eq_none_iff.1 hn v)
  | some w => rw [h.target_unique (links_of_next? hn) hl]

theorem reaches_of_mem_chain (bound : Nat) (u : NodeId) (h : v ∈ chain edges bound u) :
    Reaches edges u v := by
  induction bound generalizing u with
  | zero => simp [chain] at h
  | succ bound ih =>
    rw [chain] at h
    rcases List.mem_cons.1 h with rfl | h
    · exact .refl
    · split at h
      next w hw => exact .head (links_of_next? hw) (ih w h)
      next => simp at h

/-- A chain that is shorter than it may be ends where no edge goes on. -/
theorem mem_chain_of_links (hc : Chained edges) {w : NodeId} (hl : Links edges v w) (bound : Nat)
    (u : NodeId) (hb : (chain edges bound u).length < bound) (h : v ∈ chain edges bound u) :
    w ∈ chain edges bound u := by
  induction bound generalizing u with
  | zero => simp at hb
  | succ bound ih =>
    rw [chain] at h hb ⊢
    rcases List.mem_cons.1 h with rfl | h
    · -- `v` is first, and the chain has room for the node after it
      rw [hc.next?_eq hl] at hb ⊢
      cases bound with
      | zero => simp [chain] at hb
      | succ bound => simp [chain]
    · split at h
      next x hx =>
        simp only [hx, List.length_cons, Nat.add_lt_add_iff_right] at hb ⊢
        exact List.mem_cons_of_mem _ (ih x hb h)
      next => simp at h

theorem nodup_chain (hc : Chained edges) (bound : Nat) (u : NodeId)
    (hu : ¬ Relation.TransGen (Links edges) u u) : (chain edges bound u).Nodup := by
  induction bound generalizing u with
  | zero => exact .nil
  | succ bound ih =>
    rw [chain]
    split
    next v hv =>
      have hl := links_of_next? hv
      exact List.nodup_cons.2 ⟨fun h => hu (.head' hl (reaches_of_mem_chain bound v h)),
        ih v (hc.not_cyclic hu hl)⟩
    next => simp

theorem nodup_chain_of_not_links (hc : Chained edges) (bound : Nat) (hu : ∀ x, ¬ Links edges x u) :
    (chain edges bound u).Nodup := by
  refine nodup_chain hc bound u fun hcycle => ?_
  obtain ⟨x, -, hl⟩ := Relation.TransGen.tail'_iff.1 hcycle
  exact hu x hl

/-- From a node without an edge into it, a chain that may be as long as there are nodes holds all
that its edges lead to. -/
theorem mem_chain_iff (hc : Chained edges) {bound : Nat} (hu : ∀ x, ¬ Links edges x u)
    (hlt : ∀ v, Reaches edges u v → v < bound) :
    v ∈ chain edges bound u ↔ Reaches edges u v := by
  refine ⟨reaches_of_mem_chain bound u, fun h => ?_⟩
  have hnodup := nodup_chain_of_not_links hc bound hu
  have hsub : chain edges bound u ⊆ List.range bound := fun x hx =>
    List.mem_range.2 (hlt x (reaches_of_mem_chain bound u hx))
  rcases Nat.lt_or_ge (chain edges bound u).length bound with hlen | hlen
  · -- the chain ends before the bound, where no edge goes on
    induction h with
    | refl =>
      cases bound with
      | zero => simp at hlen
      | succ bound => simp [chain]
    | tail _ hl ih => exact mem_chain_of_links hc hl bound u hlen ih
  · -- the chain is as long as the bound allows, so no node is missing
    by_contra hv
    have hle := (List.nodup_cons.2 ⟨hv, hnodup⟩).length_le_of_subset
      (List.cons_subset.2 ⟨List.mem_range.2 (hlt v h), hsub⟩)
    simp only [List.length_cons, List.length_range] at hle
    omega

theorem head?_chain {bound : Nat} (hb : 0 < bound) (u : NodeId) :
    (chain edges bound u).head? = some u := by
  cases bound with
  | zero => simp at hb
  | succ bound => rfl

/-- A chain ends with its node from which no edge goes on. -/
theorem getLast?_chain (hv : ∀ x, ¬ Links edges v x) (bound : Nat) (u : NodeId)
    (h : v ∈ chain edges bound u) : (chain edges bound u).getLast? = some v := by
  induction bound generalizing u with
  | zero => simp [chain] at h
  | succ bound ih =>
    rw [chain] at h ⊢
    rcases List.mem_cons.1 h with rfl | h
    · simp [next?_eq_none_iff.2 hv]
    · split at h
      next w hw => simp [List.getLast?_cons, ih w h]
      next => simp at h

end Edge

/-! ## The edges inside blocks -/

theorem eq_of_countP_eq_one {α : Type} {p : α → Bool} {l : List α} {a b : α}
    (h : l.countP p = 1) (ha : a ∈ l) (hb : b ∈ l) (hpa : p a) (hpb : p b) : a = b := by
  rw [List.countP_eq_length_filter] at h
  obtain ⟨c, hc⟩ := List.length_eq_one_iff.1 h
  have ha' : a ∈ l.filter p := List.mem_filter.2 ⟨ha, hpa⟩
  have hb' : b ∈ l.filter p := List.mem_filter.2 ⟨hb, hpb⟩
  rw [hc, List.mem_singleton] at ha' hb'
  rw [ha', hb']

namespace Graph

/-- The nodes where blocks begin. -/
def heads (g : Graph) : List NodeId :=
  g.liveNodes.filter fun u => !g.mergingEdges.any (·.target == u)

theorem chains_eq (g : Graph) :
    g.chains = g.heads.map (Edge.chain g.mergingEdges g.nodes.length) := rfl

variable {g : Graph} {e f : Edge} {u v : NodeId}

theorem lt_length_of_isLive (h : g.isLive u) : u < g.nodes.length := by
  refine Nat.lt_of_not_le fun hle => ?_
  simp [isLive, List.getElem?_eq_none hle] at h

theorem mem_liveNodes : u ∈ g.liveNodes ↔ g.isLive u := by
  simp only [liveNodes, List.mem_filter, List.mem_range, and_iff_right_iff_imp]
  exact lt_length_of_isLive

theorem mem_heads : u ∈ g.heads ↔ g.isLive u ∧ ∀ x, ¬ Edge.Links g.mergingEdges x u := by
  simp only [heads, List.mem_filter, mem_liveNodes, Bool.not_eq_true', List.any_eq_false,
    beq_iff_eq, Edge.Links]
  refine and_congr_right fun _ => ⟨?_, ?_⟩
  · rintro h x ⟨e, he, -, ht⟩
    exact h e he ht
  · intro h e he ht
    exact h _ ⟨e, he, rfl, ht⟩

theorem nodup_heads (g : Graph) : g.heads.Nodup :=
  (List.nodup_range.filter _).filter _

theorem mem_mergingEdges : e ∈ g.mergingEdges ↔ e ∈ g.edges ∧ g.merges e := by
  simp [mergingEdges]

/-- An edge inside a block is the only one out of its source. -/
theorem eq_of_source_eq (he : e ∈ g.mergingEdges) (hf : f ∈ g.edges)
    (h : f.source = e.source) : f = e := by
  obtain ⟨he, hm⟩ := mem_mergingEdges.1 he
  simp only [merges, Bool.and_eq_true, beq_iff_eq] at hm
  obtain ⟨⟨⟨⟨⟨-, hout⟩, -⟩, -⟩, -⟩, -⟩ := hm
  exact eq_of_countP_eq_one hout hf he (by simpa using h) (by simp)

theorem isLive_source (he : e ∈ g.mergingEdges) : g.isLive e.source := by
  have hm := (mem_mergingEdges.1 he).2
  simp only [merges, Bool.and_eq_true] at hm
  exact hm.1.1.1.1.1.1.2

/-- An edge inside a block is the only one into its target from a live node. -/
theorem eq_of_target_eq (he : e ∈ g.mergingEdges) (hf : f ∈ g.edges) (hlive : g.isLive f.source)
    (h : f.target = e.target) : f = e := by
  have hsource := isLive_source he
  obtain ⟨he, hm⟩ := mem_mergingEdges.1 he
  simp only [merges, Bool.and_eq_true, beq_iff_eq] at hm
  obtain ⟨⟨⟨⟨-, hin⟩, -⟩, -⟩, -⟩ := hm
  exact eq_of_countP_eq_one hin hf he (by simp [h, hlive]) (by simp [hsource])

theorem chained_mergingEdges (g : Graph) : Edge.Chained g.mergingEdges where
  out_unique _ he _ hf h := eq_of_source_eq hf (mem_mergingEdges.1 he).1 h
  in_unique _ he _ hf h := eq_of_target_eq hf (mem_mergingEdges.1 he).1 (isLive_source he) h

theorem links_of_merging (h : Edge.Links g.mergingEdges u v) : Edge.Links g.edges u v := by
  obtain ⟨e, he, hs, ht⟩ := h
  exact ⟨e, (mem_mergingEdges.1 he).1, hs, ht⟩

theorem reaches_of_merging (h : Edge.Reaches g.mergingEdges u v) : Edge.Reaches g.edges u v :=
  Relation.ReflTransGen.mono (fun _ _ => links_of_merging) u v h

/-- The live nodes of the graph are those that walks from its entry lead to, no edge leads to the
entry, and no two edges connect the same nodes. -/
structure Rooted (g : Graph) : Prop where
  isLive_iff : ∀ u, g.isLive u ↔ Edge.Reaches g.edges g.entry u
  not_links_entry : ∀ u, ¬ Edge.Links g.edges u g.entry
  simple : g.edges.Pairwise fun e f => e.parallel f = false

namespace Rooted

theorem isLive_of_reaches (hr : g.Rooted) (hu : g.isLive u) (h : Edge.Reaches g.edges u v) :
    g.isLive v :=
  (hr.isLive_iff v).2 (((hr.isLive_iff u).1 hu).trans h)

theorem isLive_of_links (hr : g.Rooted) (hu : g.isLive u) (h : Edge.Links g.edges u v) :
    g.isLive v :=
  hr.isLive_of_reaches hu (.single h)

theorem entry_mem_heads (hr : g.Rooted) : g.entry ∈ g.heads :=
  mem_heads.2 ⟨(hr.isLive_iff _).2 .refl, fun x h => hr.not_links_entry x (links_of_merging h)⟩

/-- Every live node is in a block.  Going on from a node of a block leads to the next one, or to a
node where a block begins. -/
theorem exists_head (hr : g.Rooted) (hu : g.isLive u) :
    ∃ h ∈ g.heads, Edge.Reaches g.mergingEdges h u := by
  have hwalk := (hr.isLive_iff u).1 hu
  clear hu
  induction hwalk with
  | refl => exact ⟨g.entry, hr.entry_mem_heads, .refl⟩
  | @tail u v hwalk hl ih =>
    obtain ⟨h, hh, hhu⟩ := ih
    have hu : g.isLive u := (hr.isLive_iff u).2 hwalk
    by_cases hv : ∃ x, Edge.Links g.mergingEdges x v
    · -- the edge inside the block is the only one into the node, so the walk takes it
      obtain ⟨x, e, he, rfl, rfl⟩ := hv
      obtain ⟨f, hf, rfl, ht⟩ := hl
      obtain rfl := eq_of_target_eq he hf hu ht
      exact ⟨h, hh, hhu.tail ⟨f, he, rfl, rfl⟩⟩
    · exact ⟨v, mem_heads.2 ⟨hr.isLive_of_links hu hl, fun x hx => hv ⟨x, hx⟩⟩, .refl⟩

theorem mem_chain_iff (hr : g.Rooted) {h : NodeId} (hh : h ∈ g.heads) :
    u ∈ Edge.chain g.mergingEdges g.nodes.length h ↔ Edge.Reaches g.mergingEdges h u := by
  obtain ⟨hlive, hh⟩ := mem_heads.1 hh
  exact Edge.mem_chain_iff g.chained_mergingEdges hh fun v hv =>
    lt_length_of_isLive (hr.isLive_of_reaches hlive (reaches_of_merging hv))

end Rooted

theorem head?_chain_of_mem_heads {h : NodeId} (hh : h ∈ g.heads) :
    (Edge.chain g.mergingEdges g.nodes.length h).head? = some h :=
  Edge.head?_chain (Nat.zero_lt_of_lt (lt_length_of_isLive (mem_heads.1 hh).1)) h

/-- A node is in one block only. -/
theorem head_unique {h h' : NodeId} (hh : h ∈ g.heads) (hh' : h' ∈ g.heads)
    (hu : Edge.Reaches g.mergingEdges h u) (hu' : Edge.Reaches g.mergingEdges h' u) : h = h' :=
  g.chained_mergingEdges.head_unique (mem_heads.1 hh).2 (mem_heads.1 hh').2 hu hu'

theorem getElem?_chains (g : Graph) (b : Nat) :
    g.chains[b]? = (g.heads[b]?).map (Edge.chain g.mergingEdges g.nodes.length) := by
  simp [chains_eq]

theorem mem_of_blockOf? {blocks : List (List NodeId)} {b : Nat} (h : blockOf? blocks u = some b) :
    ∃ block, blocks[b]? = some block ∧ u ∈ block := by
  obtain ⟨hb, hu, -⟩ := List.findIdx?_eq_some_iff_getElem.1 h
  exact ⟨blocks[b], List.getElem?_eq_getElem hb, by simpa using hu⟩

theorem exists_blockOf? {blocks : List (List NodeId)} {block : List NodeId} (hb : block ∈ blocks)
    (hu : u ∈ block) : ∃ b, blockOf? blocks u = some b := by
  refine Option.isSome_iff_exists.1 ?_
  rw [blockOf?, List.findIdx?_isSome]
  exact List.any_eq_true.2 ⟨block, hb, by simpa using hu⟩

/-- The block of a node is the one whose first node leads to it. -/
theorem Rooted.blockOf?_eq_some_iff (hr : g.Rooted) {b : Nat} :
    blockOf? g.chains u = some b ↔
      ∃ h, g.heads[b]? = some h ∧ Edge.Reaches g.mergingEdges h u := by
  have himp : ∀ b, blockOf? g.chains u = some b →
      ∃ h, g.heads[b]? = some h ∧ Edge.Reaches g.mergingEdges h u := by
    intro b hb
    obtain ⟨block, hblock, hu⟩ := mem_of_blockOf? hb
    rw [getElem?_chains, Option.map_eq_some_iff] at hblock
    obtain ⟨h, hh, rfl⟩ := hblock
    exact ⟨h, hh, (hr.mem_chain_iff (List.mem_of_getElem? hh)).1 hu⟩
  refine ⟨himp b, fun ⟨h, hh, hu⟩ => ?_⟩
  -- the node is found in some block; that block begins with the same node, hence is this one
  have hmem := List.mem_of_getElem? hh
  obtain ⟨c, hc⟩ := exists_blockOf? (List.mem_map_of_mem hmem) ((hr.mem_chain_iff hmem).2 hu)
  obtain ⟨h', hh', hu'⟩ := himp c hc
  obtain rfl := head_unique hmem (List.mem_of_getElem? hh') hu hu'
  have hlt := (List.getElem?_eq_some_iff.1 hh).1
  rw [(List.getElem?_inj hlt g.nodup_heads).1 (hh.trans hh'.symm)]
  exact hc

/-- The live nodes are the nodes of blocks. -/
theorem Rooted.isLive_iff_blockOf? (hr : g.Rooted) :
    g.isLive u ↔ ∃ b, blockOf? g.chains u = some b := by
  constructor
  · intro hu
    obtain ⟨h, hh, hhu⟩ := hr.exists_head hu
    obtain ⟨b, hb⟩ := List.getElem?_of_mem hh
    exact ⟨b, hr.blockOf?_eq_some_iff.2 ⟨h, hb, hhu⟩⟩
  · rintro ⟨b, hb⟩
    obtain ⟨h, hh, hu⟩ := hr.blockOf?_eq_some_iff.1 hb
    exact hr.isLive_of_reaches (mem_heads.1 (List.mem_of_getElem? hh)).1 (reaches_of_merging hu)

end Graph

end Flowgraph
