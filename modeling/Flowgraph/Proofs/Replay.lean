import Flowgraph.Proofs.Unwinding

/-!
# Copies of a `finally` clause

A `finally` clause stands once in its place, and once more on the way of every jump that leaves the
statement.  All of these are built from the same statements at the same spot, only in other drafts,
so each of them is the first one with its nodes renamed.

## Main results

* `Draft.Closed.holdsClause_attempt` : a `try` holds its `finally` clause.
* `Draft.Visits.holdsClause` : a jump that runs a clause makes a copy of it.
* `Draft.replays_copy_clause` : the copies of a clause are the clause, renamed.
-/

namespace Flowgraph

/-! ## One edge per pair of nodes, node by node -/

namespace Piece

/-- What a piece says about a node depends on the edges out of it only. -/
theorem row_congr {p q : Piece} {u : Nat}
    (he : p.edges.filter (·.source == u) = q.edges.filter (·.source == u))
    (hx : p.exits.filter (·.node == u) = q.exits.filter (·.node == u)) : p.row u = q.row u := by
  have hout : ∀ P : Edge → Bool, p.edges.filter (fun e => e.source == u && P e) =
      q.edges.filter (fun e => e.source == u && P e) := fun P => by
    have hcomm : (fun e : Edge => e.source == u && P e) = fun e => P e && e.source == u := by
      funext e
      exact Bool.and_comm _ _
    rw [hcomm, ← List.filter_filter, ← List.filter_filter, he]
  rw [row, row, hx, hout, hout]

theorem filter_edges_simple (p : Piece) (u : Nat) :
    p.simple.edges.filter (·.source == u) = Edge.firstPerPair (p.edges.filter (·.source == u)) := by
  refine keepFirst_filter Edge.parallel (·.source == u) fun e _ o _ h => ?_
  rw [(Edge.parallel_iff.1 h).1]

theorem filter_edges_of_row {p : Piece} {u : Nat} (h : p.row u = .nil) :
    p.edges.filter (·.source == u) = [] := by
  rw [List.filter_eq_nil_iff]
  rintro e he hu
  exact row_ne_nil_of_mem_edges he (beq_iff_eq.1 hu ▸ h)

theorem filter_exits_of_row {p : Piece} {u : Nat} (h : p.row u = .nil) :
    p.exits.filter (·.node == u) = [] :=
  List.map_eq_nil_iff.1 (congrArg Row.leaves h)

theorem row_simple_append_left {p q : Piece} {u : Nat} (h : p.row u = .nil) :
    (p ++ q).simple.row u = q.simple.row u := by
  refine row_congr ?_ ?_
  · rw [filter_edges_simple, filter_edges_simple, edges_append, List.filter_append,
      filter_edges_of_row h, List.nil_append]
  · rw [exits_simple, exits_simple, exits_append, List.filter_append, filter_exits_of_row h,
      List.nil_append]

theorem row_simple_append_right {p q : Piece} {u : Nat} (h : q.row u = .nil) :
    (p ++ q).simple.row u = p.simple.row u := by
  refine row_congr ?_ ?_
  · rw [filter_edges_simple, filter_edges_simple, edges_append, List.filter_append,
      filter_edges_of_row h, List.append_nil]
  · rw [exits_simple, exits_simple, exits_append, List.filter_append, filter_exits_of_row h,
      List.append_nil]

/-- The only edge out of a node is kept. -/
theorem row_simple_of_single {p : Piece} {u : Nat} {x : Label × NodeId} {leaves : List ExitCause}
    (h : p.row u = ⟨[x], [], leaves⟩) : p.simple.row u = ⟨[x], [], leaves⟩ := by
  have hthrown : p.edges.filter (fun e => e.source == u && e.label.isException) = [] :=
    List.map_eq_nil_iff.1 (congrArg Row.thrown h)
  have hout : (p.edges.filter (fun e => e.source == u && !e.label.isException)).length = 1 := by
    have := congrArg (List.length ∘ Row.out) h
    simpa [row] using this
  -- no exception follows an edge out of the node, so this edge is the only one
  have hfilter : p.edges.filter (·.source == u) =
      p.edges.filter (fun e => e.source == u && !e.label.isException) := by
    refine List.filter_congr fun e he => ?_
    have hx := List.filter_eq_nil_iff.1 hthrown e he
    cases hs : e.source == u <;> simp_all
  obtain ⟨e, he⟩ := List.length_eq_one_iff.1 (hfilter ▸ hout)
  rw [← h]
  refine row_congr ?_ rfl
  rw [filter_edges_simple, he]
  rfl

theorem append_assoc (p q r : Piece) : p ++ q ++ r = p ++ (q ++ r) := by
  show append (append p q) r = append p (append q r)
  simp [append]

end Piece

/-! ## The clause in its place -/

/-- The `finally` clause of a `try` is laid out after its other parts, which say nothing about its
nodes but that it leads to the end of the statement. -/
theorem Plan.layout_attempt_final (env : Env) (base : Nat) (region region' : RegionId)
    (body clause : Plan) (handlers : Handlers) (orelse : Annex) :
    ∃ before after : Piece,
      ((attempt region body handlers orelse (.present region' clause)).layout env base none).piece =
        before ++
          (clause.layout (env.within region') (base + before.size) none).piece ++ after ∧
      after.nodes = [] ∧
      ∀ u, base + before.size ≤ u → u < base + before.size + clause.size →
        before.row u = .nil ∧
        after.row u = .after (clause.exitAt (base + before.size)) [(.always, base)] u := by
  have hsize : (Piece.ofNodes [env.node .join] ++
      (body.layout (env.within region) (base + 1) none).piece ++
      (handlers.layout env (base + 1 + body.size) (body.entryAt (base + 1)) 0).1 ++
      (orelse.layoutAfterBody env (base + 1 + body.size + handlers.size)
        (body.exitAt (base + 1))).1).size = 1 + body.size + handlers.size + orelse.size := by
    have hbody : (body.layout (env.within region) (base + 1) none).piece.size = body.size :=
      body.size_layout (env.within region) (base + 1) none
    simp [hbody, handlers.size_layout, orelse.size_layoutAfterBody]
  have hbase : base + (1 + body.size + handlers.size + orelse.size) =
    base + 1 + body.size + handlers.size + orelse.size := by omega
  refine ⟨Piece.ofNodes [env.node .join] ++
      (body.layout (env.within region) (base + 1) none).piece ++
      (handlers.layout env (base + 1 + body.size) (body.entryAt (base + 1)) 0).1 ++
      (orelse.layoutAfterBody env (base + 1 + body.size + handlers.size)
        (body.exitAt (base + 1))).1,
    .edgeFrom (clause.exitAt (base + 1 + body.size + handlers.size + orelse.size)) base .always ++
      .ofEdges (((orelse.exitAt (base + 1 + body.size + handlers.size)
        (body.exitAt (base + 1))).toList ++
        (handlers.layout env (base + 1 + body.size) (body.entryAt (base + 1)) 0).2).map
          fun u => ⟨u, clause.entryAt (base + 1 + body.size + handlers.size + orelse.size),
            .always⟩) ++
      .edgeFrom none (body.entryAt (base + 1)) .always, ?_, rfl, ?_⟩
  · rw [hsize, hbase]
    simp [layout, Annex.layoutBefore, handlers.size_layout, orelse.size_layoutAfterBody,
      Piece.append_assoc]
  · rw [hsize, hbase]
    intro u hu hu'
    have hb := body.entryAt_bounds (base + 1)
    constructor
    · rw [Piece.row_append, Piece.row_append, Piece.row_append, Piece.row_ofNodes,
        body.row_layout_outside (env.within region) (base + 1) none (by omega),
        handlers.row_layout_outside env (base + 1 + body.size) (body.entryAt (base + 1)) 0
          (by omega),
        orelse.row_layoutAfterBody_outside env (base + 1 + body.size + handlers.size)
          (body.exitAt (base + 1)) (by omega),
        Row.caught_of_ne (by omega), Row.after_exitAt_outside (by omega)]
      rfl
    · -- what completes before the clause does so at nodes before it
      have hcompleted := Piece.row_edgeFrom
        (orelse.exitAt (base + 1 + body.size + handlers.size) (body.exitAt (base + 1)))
        (clause.entryAt (base + 1 + body.size + handlers.size + orelse.size)) u .always
      have hhandled := handlers.row_handled env (body.entryAt (base + 1))
        (clause.entryAt (base + 1 + body.size + handlers.size + orelse.size)) u
        (base + 1 + body.size) 0
      rw [Annex.after_exitAt_outside (by omega) (by omega), Piece.edgeFrom] at hcompleted
      rw [handlers.after_outside (by omega)] at hhandled
      rw [Piece.row_append, Piece.row_append, List.map_append, Piece.row_ofEdges_append,
        hcompleted, hhandled]
      simp

/-- Between pieces that only lead on from where a clause completes, the clause has its own edges. -/
theorem Plan.row_simple_layout_between {clause : Plan} {env : Env} {base u : Nat}
    {before after : Piece} {next : Label × NodeId} (hbefore : before.row u = .nil)
    (hafter : after.row u = .after (clause.exitAt base) [next] u) :
    (before ++ (clause.layout env base none).piece ++ after).simple.row u =
      (clause.layout env base none).piece.simple.row u ++ .after (clause.exitAt base) [next] u := by
  rw [Piece.append_assoc, Piece.row_simple_append_left hbefore]
  by_cases hx : clause.exitAt base = some u
  · -- nothing leaves the node where the clause completes but the edge that leads on
    obtain ⟨leaves, hrow⟩ := clause.row_exit_layout env base none hx (by simp)
    rw [hx, Row.after_self] at hafter
    rw [hx, Row.after_self, Piece.row_simple_of_row hrow, Row.mk_append_mk, List.append_nil]
    refine Piece.row_simple_of_single ?_
    rw [Piece.row_append, hrow, hafter, Row.mk_append_mk, List.append_nil]
    rfl
  · rw [Row.after_of_ne_some hx] at hafter ⊢
    rw [Piece.row_simple_append_right hafter, Row.append_nil]

namespace Draft

variable {s t : Draft}

theorem getElem?_extend_between (s : Draft) (p q r : Piece) {i : Nat} (hi : i < q.size) :
    (s.extend (p ++ q ++ r).simple).made.nodes[s.size + p.size + i]? = q.nodes[i]? := by
  rw [Nat.add_assoc, getElem?_extend, Piece.nodes_simple, Piece.nodes_append, Piece.nodes_append,
    List.append_assoc, Piece.size, List.getElem?_append_right (Nat.le_add_right _ _),
    Nat.add_sub_cancel_left, List.getElem?_append_left hi]

/-- A `try` with a `finally` clause holds the clause, which leads to the end of the statement. -/
theorem Closed.holdsClause_attempt (hs : s.Closed) {site : Site} {body : List Stmt}
    {handlers : List Handler} {orelse final : List Stmt} {f : Fragment} (hfinal : final ≠ [])
    (h : s.build [.attempt site body handlers orelse final] = .ok (t, f)) :
    ∃ a whole region base p g, t = s.extend a ∧
      s.context.region site .whole = .ok whole ∧ s.context.region site .final = .ok region ∧
      t.HoldsClause a s.duplicate final s.scopes region base p g [(.always, s.size)] := by
  rw [hs.build_eq, map_eq_ok] at h
  obtain ⟨plan, hplan, ht⟩ := h
  obtain ⟨first, next, hfirst, hnext, rfl⟩ := planBody_cons_eq_ok.1 hplan
  obtain ⟨whole, inner, region, q, handlers', annex, annex', -, hwhole, -, -, -, -, -, -, hannex,
    rfl⟩ := Stmt.plan_attempt_eq_ok hfirst
  obtain ⟨hf, -⟩ | ⟨-, region', clause, hregion, hclause, rfl⟩ := optionalClause_eq_ok.1 hannex
  · exact absurd hf hfinal
  · cases hnext
    obtain ⟨before, after, hpiece, -, hrows⟩ := Plan.layout_attempt_final s.env s.size region
      region' (.orIdle q) (.orIdle clause) handlers' annex
    -- the clause is built after the parts before it
    let r : Draft := { s with region := region', made := s.made ++ .ofNodes before.nodes }
    have hsize : r.size = s.size + before.size := by simp [r, size, Piece.size]
    have hr : r.Closed := by
      refine ⟨fun e he => ?_, fun u hu => ?_⟩
      · have he : e ∈ s.made.edges := by simpa [r] using he
        have := hs.edges e he
        omega
      · have := hs.loops u hu
        omega
    rw [← hsize] at hpiece hrows
    have ht : t = s.extend (before ++ ((Plan.orIdle clause).layout r.env r.size none).piece ++
        after).simple :=
      (congrArg Prod.fst ht).symm.trans (congrArg (s.extend ·.simple) hpiece)
    refine ⟨_, whole, region', r.size, _, _, ht, hwhole, hregion,
      ⟨r, hr, by rw [ht]; rfl, rfl, rfl, ?_, hr.builds hclause⟩,
      ⟨fun i hi => ?_, fun u hu hu' => ?_⟩⟩
    · rw [ht]
      simp [r, List.append_assoc]
    · rw [ht, hsize]
      rw [hsize] at hi
      exact s.getElem?_extend_between before _ after hi
    · have hcsize : ((Plan.orIdle clause).layout r.env r.size none).piece.simple.size =
        (Plan.orIdle clause).size := (Plan.orIdle clause).size_layout r.env r.size none
      rw [hcsize] at hu'
      exact Plan.row_simple_layout_between (hrows u hu hu').1 (hrows u hu hu').2

/-! ## The copies -/

/-- A jump that runs a clause makes a copy of it. -/
theorem Visits.holdsClause {a : Piece} {site : Site} {means : Jump} {stations : List Station}
    {source base : Nat} {visits : List Nat} {last : Option Nat}
    (h : t.Visits a site means stations source base visits last) {clause : List Stmt}
    {outer : List Scope} {region outside : RegionId} {visit : Nat}
    (hmem : (Station.replay clause outer region outside, visit) ∈ stations.zip visits) :
    ∃ p f next, t.HoldsClause a true clause outer region visit p f next := by
  induction h with
  | done => simp at hmem
  | release _ _ _ _ _ ih =>
    rw [List.zip_cons_cons, List.mem_cons] at hmem
    rcases hmem with h | h
    · simp at h
    · exact ih h
  -- the station is this one, or it comes later
  | replay copied _ _ _ _ ih =>
    rw [List.zip_cons_cons, List.mem_cons] at hmem
    rcases hmem with h | h
    · cases h
      exact ⟨_, _, _, copied⟩
    · exact ih h
  | swallow copied _ _ _ =>
    simp only [List.zip_cons_cons, List.zip_nil_right, List.mem_singleton] at hmem
    cases hmem
    exact ⟨_, _, _, copied⟩

theorem extend_inj {p q : Piece} (h : s.extend p = s.extend q) : p = q := by
  have hmade : s.made ++ p = s.made ++ q := congrArg made h
  obtain ⟨nodes, edges, exits⟩ := p
  obtain ⟨nodes', edges', exits'⟩ := q
  have hnodes := congrArg Piece.nodes hmade
  have hedges := congrArg Piece.edges hmade
  have hexits := congrArg Piece.exits hmade
  simp only [Piece.nodes_append, Piece.edges_append, Piece.exits_append,
    List.append_cancel_left_eq] at hnodes hedges hexits
  rw [hnodes, hedges, hexits]

/-- A body makes one piece in a draft. -/
theorem Builds.unique {body : List Stmt} {p q : Piece} {f g : Fragment} (h : s.Builds body p f)
    (h' : s.Builds body q g) : p = q ∧ f = g := by
  have heq := h.eq.symm.trans h'.eq
  injection heq with heq
  injection heq with hdraft hfragment
  exact ⟨extend_inj hdraft, hfragment⟩

/-- Two drafts with the same regions and options that hold the same clause at the same spot hold
the same piece, up to the numbers of its nodes and to whether they belong to a copy. -/
theorem HoldsClause.moves {t' : Draft} {a a' : Piece} {duplicate duplicate' : Bool}
    {clause : List Stmt} {outer : List Scope} {region : RegionId} {base base' : Nat}
    {p p' : Piece} {f f' : Fragment} {next next' : List (Label × NodeId)}
    (h : t.HoldsClause a duplicate clause outer region base p f next)
    (h' : t'.HoldsClause a' duplicate' clause outer region base' p' f' next')
    (hregions : t'.regions = t.regions) (hoptions : t'.options = t.options) :
    p.Moves (shift base base') p' ∧ f' = f.rename (shift base base') := by
  obtain ⟨⟨r, hr, hplace, -, rfl, -, hb⟩, -⟩ := h
  obtain ⟨⟨r', hr', hplace', -, rfl, -, hb'⟩, -⟩ := h'
  -- both drafts are at the same spot, so the clause is built alike in them
  have hsame : r'.toSpot = r.toSpot := by rw [hplace, hplace', hregions, hoptions]
  obtain ⟨failure, hfail, -⟩ | ⟨q, q', g, hq, hq', hmoves⟩ := build_cases hr hr' hsame clause
  · exact absurd (hfail.symm.trans hb.eq) (by simp)
  · obtain ⟨rfl, rfl⟩ := hq.unique hb
    obtain ⟨rfl, rfl⟩ := hq'.unique hb'
    exact ⟨hmoves, rfl⟩

/-- **Copies of a clause**: in two drafts at the same spot, whatever they hold, the same statements
fail for the same reason or add the same nodes, edges and exits up to the numbers of the new nodes
and to whether these belong to a copy; no edge leaves an older node, and none leads to one but to
the ends of the loops around the spot.  So a copy of a `finally` clause that a jump runs on its way
out is the clause that stands in its place in the `try` statement, with its nodes renamed. -/
theorem replays_copy_clause :
    (∀ (s t : Draft) (body : List Stmt), s.Closed → t.Closed → t.toSpot = s.toSpot →
      (∃ failure, s.build body = .error failure ∧ t.build body = .error failure) ∨
      ∃ p q f, s.Builds body p f ∧ t.Builds body q (f.rename (shift s.size t.size)) ∧
        p.Moves (shift s.size t.size) q) ∧
    ∀ (s s' : Draft) (site : Site) (body : List Stmt) (handlers : List Handler)
      (orelse final : List Stmt) (f : Fragment), s.Closed → final ≠ [] →
      s.build [.attempt site body handlers orelse final] = .ok (s', f) →
      ∃ a whole region base p g, s' = s.extend a ∧
        s.context.region site .whole = .ok whole ∧ s.context.region site .final = .ok region ∧
        s'.HoldsClause a s.duplicate final s.scopes region base p g [(.always, s.size)] ∧
        ∀ (t t' : Draft) (source : Nat) (jump : Site) (means : Jump), t.Closed →
          t.regions = s.regions → t.options = s.options → source < t.size →
          (∀ e ∈ t.made.edges, source ≠ e.source) → t.unwind source jump means = .ok t' →
          ∃ b visits last, t' = t.extend b ∧
            t'.Visits b jump means (means.stations t.regions t.scopes) source t.size visits last ∧
            ∀ visit, (.replay final s.scopes region whole, visit) ∈
                (means.stations t.regions t.scopes).zip visits →
              ∃ q next, t'.HoldsClause b true final s.scopes region visit q
                  (g.rename (shift base visit)) next ∧
                p.Moves (shift base visit) q := by
  refine ⟨fun s t body hs ht hp => build_cases hs ht hp body, ?_⟩
  intro s s' site body handlers orelse final f hs hfinal h
  obtain ⟨a, whole, region, base, p, g, rfl, hwhole, hregion, hclause⟩ :=
    hs.holdsClause_attempt hfinal h
  refine ⟨a, whole, region, base, p, g, rfl, hwhole, hregion, hclause, ?_⟩
  intro t t' source jump means ht hregions hoptions hsource hfree hunwind
  -- unwinding runs through its stations, and at this one it builds the clause
  obtain ⟨-, b, visits, last, rfl, -, hv, -⟩ :=
    Ready.unwinds ⟨ht, ht.loops, hsource, hfree⟩ hunwind
  refine ⟨b, visits, last, rfl, hv, fun visit hmem => ?_⟩
  obtain ⟨q, g', next, hcopy⟩ := hv.holdsClause hmem
  obtain ⟨hmoves, rfl⟩ := hclause.moves hcopy hregions hoptions
  exact ⟨q, next, hcopy, hmoves⟩

/-- The draft of the loop before `tryAroundWith` is built. -/
def insideLoop : Draft :=
  { insideWith with
    region := 0
    scopes := [.loop ⟨1, 2⟩]
    made := .ofNodes [⟨.entry, 0, false, false⟩, ⟨.test ⟨6, 10⟩, 0, false, false⟩,
      ⟨.join, 0, false, false⟩] }

theorem closed_insideLoop : insideLoop.Closed := by
  refine ⟨by simp [insideLoop], ?_⟩
  rintro u ⟨ends, he, hu⟩
  obtain rfl : ends = ⟨1, 2⟩ := by simpa [insideLoop, Spot.loops, Scope.loopEnds] using he
  have hsize : insideLoop.size = 3 := rfl
  simp only at hu
  omega

/-- A clause that goes round the loop again, in two drafts; and the clause of `tryAroundWith` in its
place and on the way of the `break`. -/
theorem insideLoop_replays_copy_clause :
    (∃ p q f,
      (insideLoop.replica [.loop ⟨1, 2⟩] 4).Builds [.jump ⟨6, ⟨50, 58⟩⟩ .continuing] p f ∧
      (insideWith.replica [.loop ⟨1, 2⟩] 4).Builds [.jump ⟨6, ⟨50, 58⟩⟩ .continuing] q
        (f.rename (shift 3 6)) ∧ p.Moves (shift 3 6) q) ∧
    ∃ s' f, insideLoop.build [tryAroundWith] = .ok (s', f) ∧
      ∃ t', insideWith.unwind 5 ⟨4, ⟨40, 45⟩⟩ .breaking = .ok t' ∧
        ∃ a b base visit p q g next,
          s'.HoldsClause a false [.simple ⟨5, ⟨50, 55⟩⟩] [.loop ⟨1, 2⟩] 4 base p g
            [(.always, 3)] ∧
          t'.HoldsClause b true [.simple ⟨5, ⟨50, 55⟩⟩] [.loop ⟨1, 2⟩] 4 visit q
            (g.rename (shift base visit)) next ∧
          p.Moves (shift base visit) q := by
  constructor
  · obtain ⟨failure, hfail, -⟩ | h := replays_copy_clause.1 (insideLoop.replica [.loop ⟨1, 2⟩] 4)
      (insideWith.replica [.loop ⟨1, 2⟩] 4) [.jump ⟨6, ⟨50, 58⟩⟩ .continuing]
      ⟨closed_insideLoop.edges, closed_insideLoop.loops⟩
      ⟨closed_insideWith.edges, closed_insideWith.loops⟩ rfl
    · cases hfail
    · exact h
  · obtain ⟨s', f, h⟩ : ∃ s' f, insideLoop.build [tryAroundWith] = .ok (s', f) := ⟨_, _, rfl⟩
    obtain ⟨t', h'⟩ : ∃ t', insideWith.unwind 5 ⟨4, ⟨40, 45⟩⟩ .breaking = .ok t' := ⟨_, rfl⟩
    obtain ⟨a, whole, region, base, p, g, -, hwhole, hregion, hclause, hcopies⟩ :=
      replays_copy_clause.2 _ _ _ _ _ _ _ _ closed_insideLoop (by simp) h
    have hwhole : (.ok 1 : Except Failure RegionId) = .ok whole := hwhole
    have hregion : (.ok 4 : Except Failure RegionId) = .ok region := hregion
    cases hwhole
    cases hregion
    obtain ⟨b, visits, last, -, hv, hcopies⟩ :=
      hcopies insideWith t' 5 _ _ closed_insideWith rfl rfl (by decide) (by decide) h'
    -- the resource is released first, and then the clause is run
    have hstations : Jump.breaking.stations insideWith.regions insideWith.scopes =
      [.release ⟨20, 30⟩ 3 2, .replay [.simple ⟨5, ⟨50, 55⟩⟩] [.loop ⟨1, 2⟩] 4 1] := rfl
    rw [hstations] at hv hcopies
    obtain ⟨visit, hmem⟩ : ∃ visit, (Station.replay [.simple ⟨5, ⟨50, 55⟩⟩] [.loop ⟨1, 2⟩] 4 1,
        visit) ∈ List.zip [.release ⟨20, 30⟩ 3 2,
          .replay [.simple ⟨5, ⟨50, 55⟩⟩] [.loop ⟨1, 2⟩] 4 1] visits := by
      cases hv with
      | release _ _ _ _ rest =>
        cases rest with
        | replay | swallow => exact ⟨insideWith.size + 2, by simp⟩
    obtain ⟨q, next, hcopy, hmoves⟩ := hcopies visit hmem
    exact ⟨s', f, h, t', h', a, b, base, visit, p, q, g, next, hclause, hcopy, hmoves⟩

end Draft

end Flowgraph
