import Flowgraph.Proofs.Guards
import Flowgraph.Proofs.Loops
import Flowgraph.Proofs.Survey

/-!
# Reducible graphs

Control goes backwards in the graph of a body only where a loop goes round again.  Without the edges
that do so the graph has no cycle; each of them leads to the test of a loop statement; and no walk
from the entry gets into a loop past its test.  Joins and the ends of loops are numbered before the
code that leads to them, so the numbers of the nodes say nothing about any of this.

That a graph has no cycle and that loops are entered at their guards is known from the layout.  What
is added here is which statement a guard belongs to, for which the headers of loops are followed
from the tree through its plan into the layout.

## Main definitions

* `Piece.TestsOneOf` : a node tests one of the given headers.
* `Graph.Forward` : an edge that does not go round a loop connects two nodes.

## Main results

* `Plan.heads_of_drawn` : what goes round a loop goes to the test of a loop of the plan.
* `Graph.loopBack_only_backward` : graphs of bodies are reducible.
-/

namespace Flowgraph

/-! ## Where loops go round -/

/-- Asks of a loop that it is one of the statements. -/
def loopsAmong (stmts : List Stmt) : Survey where
  loop header := ∃ site head body orelse, .loop site head body orelse ∈ stmts ∧ header = head.span

theorem covers_loopsAmong (stmts : List Stmt) : (loopsAmong stmts).Covers stmts where
  loop site head body orelse hm := ⟨site, head, body, orelse, hm, rfl⟩
  copy _ _ _ _ _ _ _ _ _ := trivial

/-- The node is a test with one of the headers. -/
def Piece.TestsOneOf (d : Piece) (heads : Span → Prop) (u : Nat) : Prop :=
  ∃ n, d.nodes[u]? = some n ∧ ∃ header, n.content = .test header ∧ heads header

/-- What goes round a loop at the node `u` goes to a test with one of the headers. -/
abbrev Piece.RoundsTests (d : Piece) (heads : Span → Prop) (u : Nat) : Prop :=
  RoundTo (d.TestsOneOf heads) (d.row u).out

section Heads

variable {d : Piece} {Q : Survey}

mutual

/-- What goes round a loop goes to the test of a loop of the plan, unless it leaves the plan. -/
theorem Plan.heads_of_drawn (env : Env) (base : Nat) (next handlers : List (Label × NodeId)) :
    (plan : Plan) → plan.Drawn d env base next handlers → plan.Passes Q →
      RoundTo (d.TestsOneOf Q.loop) next → (∀ ends ∈ env.loops, d.TestsOneOf Q.loop ends.head) →
      Throughout (d.RoundsTests Q.loop) base plan.size
  | .idle, h, _, hn, _ | .block _, h, _, hn, _ | .yield _, h, _, hn, _ => .one (h.roundTo hn)
  | .jump before site means route, h, hh, _, hl => by
    have h0 : d.RoundsTests Q.loop base := h.1.roundTo (Route.roundTo_out hl)
    have hr := route.heads_of_drawn env (base + 1) site means h.2 hh hl
    exact (Throughout.one h0).append hr rfl
  | .raise site route, h, hh, _, hl => by
    have h0 : d.RoundsTests Q.loop base := h.1.roundTo (Route.roundTo_out hl)
    have hr := route.heads_of_drawn env (base + 1) site .raising h.2 hh hl
    exact (Throughout.one h0).append hr rfl
  | .hold before header region body, h, hh, hn, hl => by
    have h0 : d.RoundsTests Q.loop base := h.1.roundTo (roundTo_singleton (by simp))
    have hb := body.heads_of_drawn (env.within region) (base + 1) next [] h.2 hh hn hl
    exact (Throughout.one h0).append hb rfl
  | .seq first rest, h, hh, hn, hl => by
    have hf := first.heads_of_drawn env base _ handlers h.1 hh.1 (roundTo_singleton (by simp)) hl
    have hr := rest.heads_of_drawn env (base + first.size) next [] h.2 hh.2 hn hl
    exact hf.append hr rfl
  | .branch test body rest, h, hh, hn, hl => by
    obtain ⟨h0, h1, hb, hr⟩ := h
    have h0 : d.RoundsTests Q.loop base := h0.roundTo (roundTo_test _ _)
    have h1 : d.RoundsTests Q.loop (base + 1) := h1.roundTo hn
    have hb := body.heads_of_drawn env (base + 2) _ [] hb hh.1 (roundTo_singleton (by simp)) hl
    have hr := rest.heads_of_drawn env (base + 2 + body.size) (base + 1) hr hh.2 hl
    exact ((Throughout.two h0 h1).append hb rfl).append hr (by omega)
  | .loop header body orelse, h, hh, hn, hl => by
    obtain ⟨h0, h1, hb, ho⟩ := h
    obtain ⟨hheader, hhb, hho⟩ := hh
    -- the body goes round to the test of this loop
    have hbase : d.TestsOneOf Q.loop base := ⟨_, h0.node, header, rfl, hheader⟩
    have h0 : d.RoundsTests Q.loop base := h0.roundTo (roundTo_test _ _)
    have h1 : d.RoundsTests Q.loop (base + 1) := h1.roundTo hn
    have hb := body.heads_of_drawn (env.inLoop ⟨base, base + 1⟩) (base + 2) _ [] hb hhb
      (by simpa [RoundTo] using hbase) (by simpa [Env.inLoop] using ⟨hbase, hl⟩)
    have ho := orelse.heads_of_drawn env (base + 2 + body.size) _ ho hho
      (roundTo_singleton (by simp)) hl
    exact ((Throughout.two h0 h1).append hb rfl).append ho (by omega)
  | .dispatch subject region cases, h, hh, hn, hl => by
    obtain ⟨h0, h1, hc⟩ := h
    have h0 : d.RoundsTests Q.loop base := h0.roundTo (cases.roundTo_subject _ _ _)
    have h1 : d.RoundsTests Q.loop (base + 1) := h1.roundTo hn
    have hc := cases.heads_of_drawn (env.within region) (base + 2) (base + 1) 0 true hc hh hl
    exact (Throughout.two h0 h1).append hc rfl
  | .attempt region body handlers' orelse final, h, hh, hn, hl => by
    obtain ⟨h0, hb, hh', ho, hfin⟩ := h
    obtain ⟨hhb, hhh, hho, hhf⟩ := hh
    have h0 : d.RoundsTests Q.loop base := h0.roundTo hn
    have hb := body.heads_of_drawn (env.within region) (base + 1) _ _ hb hhb
      (orelse.roundTo_bridge _ _) hl
    have hh' := handlers'.heads_of_drawn env (base + 1 + body.size) _ hh' hhh
      (roundTo_singleton (by simp)) hl
    have ho := orelse.heads_of_drawn env (base + 1 + body.size + handlers'.size) _ ho hho
      (roundTo_singleton (by simp)) hl
    have hfin := final.heads_of_drawn env (base + 1 + body.size + handlers'.size + orelse.size) _
      hfin hhf (roundTo_singleton (by simp)) hl
    exact ((((Throughout.one h0).append hb rfl).append hh' (by omega)).append ho
      (by omega)).append hfin (by omega)

theorem Alternatives.heads_of_drawn (env : Env) (base join : Nat) : (rest : Alternatives) →
    rest.Drawn d env base join → rest.Passes Q →
      (∀ ends ∈ env.loops, d.TestsOneOf Q.loop ends.head) →
      Throughout (d.RoundsTests Q.loop) base rest.size
  | .done, _, _, _ => .zero
  | .otherwise body, h, hh, hl =>
    body.heads_of_drawn env base _ [] h hh (roundTo_singleton (by simp)) hl
  | .test header body rest, h, hh, hl => by
    obtain ⟨h0, hb, hr⟩ := h
    have h0 : d.RoundsTests Q.loop base := h0.roundTo (roundTo_test _ _)
    have hb := body.heads_of_drawn env (base + 1) _ [] hb hh.1 (roundTo_singleton (by simp)) hl
    have hr := rest.heads_of_drawn env (base + 1 + body.size) join hr hh.2 hl
    exact ((Throughout.one h0).append hb rfl).append hr (by omega)

theorem Cases.heads_of_drawn (env : Env) (base join index : Nat) (reached : Bool) :
    (cases : Cases) → cases.Drawn d env base join index reached → cases.Passes Q →
      (∀ ends ∈ env.loops, d.TestsOneOf Q.loop ends.head) →
      Throughout (d.RoundsTests Q.loop) base cases.size
  | .nil, _, _, _ => .zero
  | .cons patterns catchAll body rest, h, hh, hl => by
    have ha : Throughout (d.RoundsTests Q.loop) base patterns.length :=
      fun u hu hu' => Cases.roundTo_alternative h hu hu'
    obtain ⟨-, hb, hr⟩ := h
    have hb := body.heads_of_drawn env (base + patterns.length) _ [] hb hh.1
      (roundTo_singleton (by simp)) hl
    have hr := rest.heads_of_drawn env (base + patterns.length + body.size) join (index + 1) _ hr
      hh.2 hl
    exact (ha.append hb rfl).append hr (by omega)

theorem Handlers.heads_of_drawn (env : Env) (base : Nat) (next : List (Label × NodeId)) :
    (handlers : Handlers) → handlers.Drawn d env base next → handlers.Passes Q →
      RoundTo (d.TestsOneOf Q.loop) next → (∀ ends ∈ env.loops, d.TestsOneOf Q.loop ends.head) →
      Throughout (d.RoundsTests Q.loop) base handlers.size
  | .nil, _, _, _, _ => .zero
  | .cons region handler rest, h, hh, hn, hl =>
    (handler.heads_of_drawn (env.within region) base next [] h.1 hh.1 hn hl).append
      (rest.heads_of_drawn env (base + handler.size) next h.2 hh.2 hn hl) rfl

theorem Annex.heads_of_drawn (env : Env) (base : Nat) (next : List (Label × NodeId)) :
    (annex : Annex) → annex.Drawn d env base next → annex.Passes Q →
      RoundTo (d.TestsOneOf Q.loop) next → (∀ ends ∈ env.loops, d.TestsOneOf Q.loop ends.head) →
      Throughout (d.RoundsTests Q.loop) base annex.size
  | .absent, _, _, _, _ => .zero
  | .present region body, h, hh, hn, hl =>
    body.heads_of_drawn (env.within region) base next [] h hh hn hl

theorem Route.heads_of_drawn (env : Env) (base : Nat) (site : Site) (means : Jump) :
    (route : Route) → route.Drawn d env base site means → route.Passes Q →
      (∀ ends ∈ env.loops, d.TestsOneOf Q.loop ends.head) →
      Throughout (d.RoundsTests Q.loop) base route.size
  | .arrive, _, _, _ => .zero
  | .leaveLoop rest, h, hh, hl =>
    rest.heads_of_drawn env.outsideLoop base site means h hh
      fun ends he => hl ends (List.mem_of_mem_tail he)
  | .release header region outside rest, h, hh, hl => by
    obtain ⟨h0, h1, hr⟩ := h
    have h0 : d.RoundsTests Q.loop base := h0.roundTo (roundTo_singleton (by simp))
    have h1 : d.RoundsTests Q.loop (base + 1) := h1.roundTo (Route.roundTo_out hl)
    have hr := rest.heads_of_drawn env (base + 2) site means hr hh hl
    exact (Throughout.two h0 h1).append hr rfl
  | .replay final outside body rest, h, hh, hl => by
    obtain ⟨hb, hr⟩ := h
    have hb := body.heads_of_drawn (env.copy final) base _ [] hb hh.2.1
      (roundTo_singleton (by simp)) hl
    rw [Route.size]
    cases hc : body.completes with
    -- a copy that does not complete is followed by nothing
    | false => exact hb.append .zero rfl
    | true =>
      obtain ⟨h1, hr⟩ := hr hc
      have h1 : d.RoundsTests Q.loop (base + body.size) := h1.roundTo (Route.roundTo_out hl)
      have hr := rest.heads_of_drawn env (base + body.size + 1) site means hr hh.2.2 hl
      exact hb.append ((Throughout.one h1).append hr rfl) rfl
  | .swallow final body, h, hh, hl =>
    body.heads_of_drawn (env.copy final) base [] [] h hh.2 roundTo_nil hl

end

end Heads

/-- An edge that goes round a loop leads to the test of a loop of the plan. -/
theorem Plan.DrawnWhole.testsOneOf_of_loopBack {d : Piece} {flat : Bool} {plan : Plan}
    {Q : Survey} (h : plan.DrawnWhole d flat) (hh : plan.Passes Q) {u : Nat}
    {t : Label × NodeId} (ht : t ∈ (d.row u).out) (hl : t.1 = .loopBack) :
    d.TestsOneOf Q.loop t.2 := by
  have hu := h.lt_of_links (Piece.links_iff.2 (.inl ⟨t, ht, rfl⟩))
  rcases Nat.eq_zero_or_pos u with rfl | hpos
  · rw [h.entry.row] at ht
    exact roundTo_singleton (by simp) t ht hl
  · exact plan.heads_of_drawn _ 1 _ _ h.body hh (roundTo_singleton (by simp))
      (by simp [Env.ofFunction]) u hpos hu t ht hl

/-! ## Paths into a loop -/

/-- A path into a range of nodes from elsewhere passes the node where the range is entered. -/
theorem Piece.EnteredBy.mem_of_isChain {d : Piece} {base size entry u v : Nat}
    (h : d.EnteredAt base size entry) {path : List Nat} (hc : path.IsChain (Edge.Links d.edges))
    (hu : path.head? = some u) (hv : path.getLast? = some v)
    (hout : ¬ (base ≤ u ∧ u < base + size)) (hin : base ≤ v ∧ v < base + size) : entry ∈ path := by
  -- by induction on the path: its second node is outside too, or it is the entry
  induction path generalizing u with
  | nil => simp at hu
  | cons x path ih =>
    obtain rfl : x = u := by simpa using hu
    cases path with
    | nil =>
      obtain rfl : x = v := by simpa using hv
      exact absurd hin hout
    | cons y path =>
      obtain ⟨hl, hc⟩ := List.isChain_cons_cons.1 hc
      by_cases hy : base ≤ y ∧ y < base + size
      · obtain rfl := (h x y hl hy.1 hy.2).resolve_left hout
        simp
      · exact List.mem_cons_of_mem _ (ih hc rfl (by simpa using hv) hy)

namespace Graph

/-- An edge that does not go round a loop connects the two nodes. -/
def Forward (g : Graph) (u v : NodeId) : Prop :=
  ∃ e ∈ g.edges, e.source = u ∧ e.target = v ∧ e.label ≠ .loopBack

namespace OfPiece

variable {g : Graph} {d : Piece} {flat : Bool} {plan : Plan}

theorem mem_out_of_loopBack (hg : g.OfPiece d) {e : Edge} (he : e ∈ g.edges)
    (hl : e.label = .loopBack) : (e.label, e.target) ∈ (d.row e.source).out :=
  Piece.mem_out_row.2 ⟨hg.mem_edges he, by rw [hl]; rfl⟩

/-- A cycle is a set of nodes in which control can stay, so it goes round a loop somewhere. -/
theorem not_transGen_forward (hg : g.OfPiece d) (hd : plan.DrawnWhole d flat) (u : NodeId) :
    ¬ Relation.TransGen g.Forward u u := by
  intro hcycle
  refine hd.not_returns (D := fun v => Relation.TransGen g.Forward v u) ?_ u hcycle
  intro v hv
  obtain ⟨w, ⟨e, he, rfl, rfl, hl⟩, hw⟩ := Relation.TransGen.head'_iff.1 hv
  -- the next node of the cycle leads to `u` as well, if need be once round
  refine ⟨(e.label, e.target), ?_, hl, Relation.TransGen.trans_right hw hcycle⟩
  cases hx : e.label.isException with
  | false => exact .inl (Piece.mem_out_row.2 ⟨hg.mem_edges he, hx⟩)
  | true => exact .inr (Piece.mem_thrown_row.2 ⟨hg.mem_edges he, hx⟩)

/-- A path from the entry into a loop passes the guard of the loop. -/
theorem guard_mem_of_isChain (hg : g.OfPiece d) (hd : plan.DrawnWhole d flat) (hf : plan.Fits 0)
    {e : Edge} (he : e ∈ g.edges) (hl : e.label = .loopBack) {path : List NodeId}
    (hc : path.IsChain (Edge.Links g.edges)) (hu : path.head? = some g.entry)
    (hv : path.getLast? = some e.source) : e.target ∈ path := by
  obtain ⟨extent, hguard, hle, hlt⟩ := hd.guard_of_loopBack hf (hg.mem_out_of_loopBack he hl) hl
  have hpos := (hd.links_bounds hf ⟨e, hg.mem_edges he, rfl, rfl⟩).2.1
  rw [hg.links] at hc
  rw [hg.entry] at hu
  exact hguard.entered.mem_of_isChain hc hu hv
    (fun h => absurd (Nat.lt_of_lt_of_le hpos h.1) (Nat.lt_irrefl 0)) ⟨hle, hlt⟩

end OfPiece

/-- Control goes backwards only where a loop goes round again.  Without the edges that do so the
graph has no cycle; such an edge leads to the test of a loop statement of the body; and every path
from the entry to the node that it leaves passes that test. -/
theorem loopBack_only_backward {options : Options} {body : List Stmt} {g : Graph}
    (h : ofBody options body = .ok g) :
    (∀ u, ¬ Relation.TransGen g.Forward u u) ∧
    ∀ e ∈ g.edges, e.label = .loopBack →
      (∃ site head round orelse n, .loop site head round orelse ∈ bodyStatements body ∧
        g.nodes[e.target]? = some n ∧ n.content = .test head.span) ∧
      ∀ path : List NodeId, path.IsChain (Edge.Links g.edges) → path.head? = some g.entry →
        path.getLast? = some e.source → e.target ∈ path := by
  obtain ⟨plan, hp, hg, -⟩ := ofPiece_ofBody h
  have hd := Piece.drawnWhole_ofPlan options.flatDispatch plan
  have hf := Plan.fits_ofBody hp
  refine ⟨hg.not_transGen_forward hd, fun e he hl => ⟨?_, fun path hc hu hv => ?_⟩⟩
  -- the loops of the plan are loop statements of the body
  · have hh := Plan.passes_ofBody hp (covers_loopsAmong (bodyStatements body))
    obtain ⟨n, hn, header, hc, site, head, round, orelse, hm, rfl⟩ :=
      hd.testsOneOf_of_loopBack hh (hg.mem_out_of_loopBack he hl) hl
    obtain ⟨dead, hn⟩ := hg.exists_dead hn
    exact ⟨site, head, round, orelse, _, hm, hn, hc⟩
  · exact hg.guard_mem_of_isChain hd hf he hl hc hu hv

end Graph

/-- A loop that goes round by a `continue` inside a `with`, under a `finally` clause. -/
def continueThroughFinal : List Stmt :=
  let site (id : Nat) : Site := ⟨id, ⟨id, id + 1⟩⟩
  [.loop (site 1) (.items false ⟨1, 2⟩ ⟨3, 4⟩)
    [.attempt (site 2)
      [.hold (site 3) false ⟨6, 7⟩ [.simple (site 4), .jump (site 5) .continuing]] [] []
      [.simple (site 6)]] []]

theorem loopBack_only_backward_continueThroughFinal :
    ∃ g, Graph.ofBody {} continueThroughFinal = .ok g ∧ ⟨9, 1, .loopBack⟩ ∈ g.edges ∧
      (∀ u, ¬ Relation.TransGen g.Forward u u) ∧
      ∀ path : List NodeId, path.IsChain (Edge.Links g.edges) → path.head? = some g.entry →
        path.getLast? = some 9 → 1 ∈ path := by
  have h : ∃ g, Graph.ofBody {} continueThroughFinal = .ok g ∧ ⟨9, 1, .loopBack⟩ ∈ g.edges :=
    ⟨_, rfl, by decide⟩
  obtain ⟨g, hg, he⟩ := h
  obtain ⟨hacyclic, hback⟩ := Graph.loopBack_only_backward hg
  exact ⟨g, hg, he, hacyclic, (hback _ he rfl).2⟩

end Flowgraph
