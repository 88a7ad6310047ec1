import Flowgraph.Graph.Build
import Flowgraph.Proofs.Drawing
import Flowgraph.Proofs.Planning
import Flowgraph.Proofs.Search

/-!
# The graph of a layout

What the graph of a function body has to do with the layout it is made from: the same nodes, one
edge for each pair of nodes that the layout connects, and the exits at the nodes that control can
reach.

## Main definitions

* `Graph.OfPiece` : the graph is made from the layout.

## Main results

* `Graph.ofPiece_ofBody` : the graph of a body is made from the layout of its plan.
* `Graph.OfPiece.isLive_iff` : the nodes that control can reach.
* `Graph.OfPiece.links` : the connections of the graph.
-/

namespace Flowgraph

/-! ## Rows and lists -/

namespace Piece

theorem mem_out_row {d : Piece} {u : Nat} {t : Label × NodeId} :
    t ∈ (d.row u).out ↔ ⟨u, t.2, t.1⟩ ∈ d.edges ∧ t.1.isException = false := by
  obtain ⟨label, v⟩ := t
  simp only [row, List.mem_map, List.mem_filter, Bool.and_eq_true, beq_iff_eq, Bool.not_eq_true']
  constructor
  · rintro ⟨⟨s, t, l⟩, ⟨he, rfl, hl⟩, h⟩
    cases h
    exact ⟨he, hl⟩
  · rintro ⟨he, hl⟩
    exact ⟨_, ⟨he, rfl, hl⟩, rfl⟩

theorem mem_thrown_row {d : Piece} {u : Nat} {t : Label × NodeId} :
    t ∈ (d.row u).thrown ↔ ⟨u, t.2, t.1⟩ ∈ d.edges ∧ t.1.isException = true := by
  obtain ⟨label, v⟩ := t
  simp only [row, List.mem_map, List.mem_filter, Bool.and_eq_true, beq_iff_eq]
  constructor
  · rintro ⟨⟨s, t, l⟩, ⟨he, rfl, hl⟩, h⟩
    cases h
    exact ⟨he, hl⟩
  · rintro ⟨he, hl⟩
    exact ⟨_, ⟨he, rfl, hl⟩, rfl⟩

theorem mem_leaves_row {d : Piece} {u : Nat} {c : ExitCause} :
    c ∈ (d.row u).leaves ↔ ⟨u, c⟩ ∈ d.exits := by
  simp only [row, List.mem_map, List.mem_filter, beq_iff_eq]
  constructor
  · rintro ⟨⟨w, c'⟩, ⟨he, rfl⟩, rfl⟩
    exact he
  · intro he
    exact ⟨_, ⟨he, rfl⟩, rfl⟩

/-- A piece connects two nodes by an edge that control or an exception follows. -/
theorem links_iff {d : Piece} {u v : Nat} :
    Edge.Links d.edges u v ↔
      (∃ t ∈ (d.row u).out, t.2 = v) ∨ ∃ t ∈ (d.row u).thrown, t.2 = v := by
  constructor
  · rintro ⟨⟨s, t, l⟩, he, rfl, rfl⟩
    cases hl : l.isException with
    | false => exact .inl ⟨(l, t), mem_out_row.2 ⟨he, hl⟩, rfl⟩
    | true => exact .inr ⟨(l, t), mem_thrown_row.2 ⟨he, hl⟩, rfl⟩
  · rintro (⟨t, ht, rfl⟩ | ⟨t, ht, rfl⟩)
    · exact ⟨_, (mem_out_row.1 ht).1, rfl, rfl⟩
    · exact ⟨_, (mem_thrown_row.1 ht).1, rfl, rfl⟩

/-- The edges that control follows by itself lead where the layout says, unless one of them is
parallel to an edge that only exceptions follow. -/
theorem exists_followed_iff {d : Piece} {u v : Nat}
    (hapart : ∀ t ∈ (d.row u).out, ∀ s ∈ (d.row u).thrown, t.2 ≠ s.2) :
    (∃ e ∈ Edge.firstPerPair d.edges,
        e.source = u ∧ e.target = v ∧ e.label.isException = false) ↔
      ∃ t ∈ (d.row u).out, t.2 = v := by
  rw [Edge.firstPerPair_eq]
  constructor
  · rintro ⟨e, he, rfl, rfl, hl⟩
    have he := (keepFirst_sublist _ _).subset he
    exact ⟨(e.label, e.target), mem_out_row.2 ⟨he, hl⟩, rfl⟩
  · -- the first of the parallel edges is kept, and it is not an exception's
    rintro ⟨t, ht, rfl⟩
    obtain ⟨e, he, hp⟩ := exists_mem_keepFirst Edge.parallel (by simp) (mem_out_row.1 ht).1
    obtain ⟨hs, ht'⟩ := Edge.parallel_iff.1 hp
    refine ⟨e, he, hs, ht', ?_⟩
    cases hl : e.label.isException with
    | false => rfl
    | true =>
      obtain ⟨source, target, label⟩ := e
      cases hs
      cases ht'
      have he := (keepFirst_sublist _ _).subset he
      exact absurd rfl (hapart t ht (label, t.2) (mem_thrown_row.2 ⟨he, hl⟩))

end Piece

/-- Nothing leaves a number that is not of a node. -/
theorem Piece.row_eq_nil {d : Piece} (hd : ∀ u, d.row u ≠ .nil → u < d.nodes.length) {u : Nat}
    (hu : d.nodes[u]? = none) : d.row u = .nil := by
  by_contra h
  simpa [hu] using List.getElem?_eq_some_iff.2 ⟨hd u h, rfl⟩

theorem Plan.DrawnWhole.lt_length_of_row_ne {d : Piece} {flat : Bool} {plan : Plan}
    (h : plan.DrawnWhole d flat) {u : Nat} (hu : d.row u ≠ .nil) : u < d.nodes.length := by
  rw [h.length_nodes]
  by_contra hn
  exact hu (h.row_eq_nil u (by omega))

theorem Exit.firstPerStatement_eq (exits : List Exit) :
    firstPerStatement exits = keepFirst (fun e f => e.cause.sameExit f.cause) exits := rfl

@[simp] theorem ExitCause.sameExit_self (c : ExitCause) : c.sameExit c = true := by
  cases c <;> simp [sameExit]

/-! ## Graphs of layouts -/

/-- The graph is made from the layout. -/
structure Graph.OfPiece (g : Graph) (d : Piece) : Prop where
  nodes : g.nodes = Node.markDead (Edge.inReach (Edge.firstPerPair d.edges) 0) d.nodes
  edges : g.edges = Edge.firstPerPair d.edges
  entry : g.entry = 0
  exits : g.exits = Exit.firstPerStatement
    (d.exits.filter fun e => (Edge.inReach (Edge.firstPerPair d.edges) 0).contains e.node)

namespace Graph

/-- The graph of a body is made from the layout of its plan. -/
theorem ofPiece_ofBody {options : Options} {body : List Stmt} {g : Graph}
    (h : ofBody options body = .ok g) :
    ∃ plan, Plan.ofBody options (RegionTree.ofBody body) body = .ok plan ∧
      g.OfPiece (Piece.ofPlan options.flatDispatch plan).1 ∧
      g.regions = RegionTree.ofBody body := by
  simp only [ofBody, bind_eq_ok] at h
  obtain ⟨plan, hp, h⟩ := h
  simp only [ofLayout] at h
  split at h
  · -- the two checks of the layout have passed
    cases h
  · split at h
    · cases h
    · cases h
      exact ⟨plan, hp, ⟨rfl, rfl, rfl, rfl⟩, rfl⟩

namespace OfPiece

variable {g : Graph} {d : Piece}

/-- A node of the graph is the node of the layout, marked as dead or not. -/
theorem getElem?_nodes (h : g.OfPiece d) (u : Nat) :
    g.nodes[u]? = (d.nodes[u]?).map fun n =>
      { n with dead := !(Edge.inReach (Edge.firstPerPair d.edges) 0).contains u } := by
  simp [h.nodes, Node.markDead]

/-- Whether control can reach a node changes nothing else about the node. -/
theorem exists_dead (h : g.OfPiece d) {u : Nat} {n : Node} (hn : d.nodes[u]? = some n) :
    ∃ dead, g.nodes[u]? = some { n with dead } := by
  rw [h.getElem?_nodes, hn]
  exact ⟨_, rfl⟩

theorem mem_edges (h : g.OfPiece d) {e : Edge} (he : e ∈ g.edges) : e ∈ d.edges := by
  rw [h.edges, Edge.firstPerPair_eq] at he
  exact (keepFirst_sublist _ _).subset he

theorem links (h : g.OfPiece d) : Edge.Links g.edges = Edge.Links d.edges := by
  rw [h.edges, Edge.links_firstPerPair]

/-- Control can reach the nodes that walks from the entry lead to. -/
theorem isLive_iff (h : g.OfPiece d) {u : Nat} :
    g.isLive u ↔ u < d.nodes.length ∧ Edge.Reaches d.edges 0 u := by
  -- a node is marked as dead if the search over the kept edges misses it
  have hr : u ∈ Edge.inReach (Edge.firstPerPair d.edges) 0 ↔ Edge.Reaches d.edges 0 u := by
    rw [Edge.mem_inReach, Edge.Reaches, Edge.links_firstPerPair]
  rw [isLive, h.getElem?_nodes]
  by_cases hu : u < d.nodes.length
  · simp [hu, hr]
  · simp [hu]

theorem mem_exits (h : g.OfPiece d) {x : Exit} (hx : x ∈ g.exits) :
    x.cause ∈ (d.row x.node).leaves ∧ Edge.Reaches d.edges 0 x.node := by
  rw [h.exits, Exit.firstPerStatement_eq] at hx
  have hx := (keepFirst_sublist _ _).subset hx
  rw [List.mem_filter, List.contains_iff_mem, Edge.mem_inReach, Edge.Reaches,
    Edge.links_firstPerPair] at hx
  exact ⟨Piece.mem_leaves_row.2 hx.1, hx.2⟩

/-- Every exit at a node that control can reach is there, up to copies of its statement. -/
theorem exists_mem_exits (h : g.OfPiece d) {u : Nat} {c : ExitCause}
    (hu : Edge.Reaches d.edges 0 u) (hc : c ∈ (d.row u).leaves) :
    ∃ x ∈ g.exits, x.cause.sameExit c := by
  rw [h.exits, Exit.firstPerStatement_eq]
  refine exists_mem_keepFirst (fun e f : Exit => e.cause.sameExit f.cause) (by simp)
    (a := ⟨u, c⟩) (List.mem_filter.2 ⟨Piece.mem_leaves_row.1 hc, ?_⟩)
  rw [List.contains_iff_mem, Edge.mem_inReach, Edge.Reaches, Edge.links_firstPerPair]
  exact hu

theorem pairwise_exits (h : g.OfPiece d) :
    g.exits.Pairwise fun x y => x.cause.sameExit y.cause = false := by
  rw [h.exits, Exit.firstPerStatement_eq]
  exact pairwise_keepFirst _ _

end OfPiece

end Graph

end Flowgraph
