import Flowgraph.Proofs.Draft

/-!
# Unwinding a jump

A jump leaves the constructs around it one by one, innermost first.  At every `with` it releases the
resource, at every `try` with a `finally` clause it runs a copy of that clause, and after each of
these it carries on at a node of its own.  A copy that never completes swallows the jump.  A jump
that got through makes an exit of the function, or an edge to the innermost loop.

What a jump has to do is read off the scopes (`Jump.stations`); what it did is read off the graph
(`Draft.Visits`).  The proof that the two agree follows the scopes: leaving one of them makes a
draft from which the jump unwinds through the others.

## Main definitions

* `Station`, `Jump.stations` : what a jump does on its way out.
* `Draft.HoldsClause` : a draft holds a clause, or a copy of one.
* `Draft.Visits` : a draft leads a jump through stations.
* `Jump.Arrives` : how a jump ends that got through.

## Main results

* `Draft.unwind_visits_stations` : an unwinding adds the way through the stations and nothing else.
-/

namespace Flowgraph

/-! ## What a jump does on its way out -/

/-- Something that a jump does on its way out. -/
inductive Station where
  /-- Release the resource of a `with` in `region`, and carry on in `outside`. -/
  | release (header : Span) (region outside : RegionId)
  /-- Run a copy of a `finally` clause, which stands in `region` with the scopes `outer` around it,
  and carry on in `outside`. -/
  | replay (clause : List Stmt) (outer : List Scope) (region outside : RegionId)

namespace Jump

/-- What a jump does on its way out through scopes, innermost first: a `return` or `raise` leaves
all of them, a `break` or `continue` those inside the innermost loop. -/
def stations (regions : RegionTree) (means : Jump) : List Scope → List Station
  | [] => []
  | .loop _ :: outer => if means.staysInLoop then [] else stations regions means outer
  | .resource header region :: outer =>
    .release header region ((regions.parent? region).getD region) :: stations regions means outer
  | .final clause whole region :: outer =>
    .replay clause outer region whole :: stations regions means outer

/-- The node at which a jump carries on outside of what it has left. -/
def continuation (site : Site) (means : Jump) (outside : RegionId) : Node where
  content := if means = .raising then .raise site else .block [.jump site means]
  region := outside
  duplicate := true

/-- How a jump ends that got through: it leaves the function, or reaches the innermost loop. -/
inductive Arrives (site : Site) (loops : List LoopEnds) : Jump → Row → Prop
  | returns : Arrives site loops .returning ⟨[], [], [.returns site]⟩
  | raises : Arrives site loops .raising ⟨[], [], [.raises site]⟩
  | breaks {ends : LoopEnds} (innermost : loops.head? = some ends) :
    Arrives site loops .breaking ⟨[(.always, ends.exit)], [], []⟩
  | continues {ends : LoopEnds} (innermost : loops.head? = some ends) :
    Arrives site loops .continuing ⟨[(.loopBack, ends.head)], [], []⟩

/-- Outside the innermost loop a `return` or `raise` ends as it does inside. -/
theorem Arrives.leave {site : Site} {loops loops' : List LoopEnds} {means : Jump} {row : Row}
    (h : means.Arrives site loops row) (hm : means.staysInLoop = false) :
    means.Arrives site loops' row := by
  cases h with
  | returns => exact .returns
  | raises => exact .raises
  | breaks | continues => cases hm

end Jump

/-! ## What a jump did -/

namespace Draft

/-- The draft in which a clause is copied that stands in `region` with the scopes `outer`. -/
def replica (s : Draft) (outer : List Scope) (region : RegionId) : Draft :=
  { s with scopes := outer, region, duplicate := true }

/-- The draft `t`, to which `a` was added last, holds the piece `p` from `base` on: its nodes are
there, and `a` says about them what `p` says, and `next` where the piece completes. -/
structure Holds (t : Draft) (a : Piece) (base : Nat) (p : Piece) (exit : Option NodeId)
    (next : List (Label × NodeId)) : Prop where
  nodes : ∀ i, i < p.size → t.made.nodes[base + i]? = p.nodes[i]?
  row : ∀ u, base ≤ u → u < base + p.size → a.row u = p.row u ++ .after exit next u

/-- The draft holds a clause, or a copy of one, from `base` on: the piece that the clause makes when
it is built there, in `region` and with the scopes `outer` around it. -/
structure HoldsClause (t : Draft) (a : Piece) (duplicate : Bool) (clause : List Stmt)
    (outer : List Scope) (region : RegionId) (base : Nat) (p : Piece) (f : Fragment)
    (next : List (Label × NodeId)) : Prop where
  built : ∃ r : Draft, r.Closed ∧ r.toSpot = ⟨t.regions, t.options, region, outer⟩ ∧
    r.duplicate = duplicate ∧ r.size = base ∧ r.made.nodes <+: t.made.nodes ∧ r.Builds clause p f
  holds : t.Holds a base p f.exit next

/-- The draft `t`, to which `a` was added last, leads a jump from the node `source` through
stations.  The nodes from `base` on are made for that, and the numbers of the first nodes made for
each station are `visits`.  The jump ends at the node `last`, or in a copy that never completes. -/
inductive Visits (t : Draft) (a : Piece) (site : Site) (means : Jump) :
    List Station → Nat → Nat → List Nat → Option Nat → Prop
  | done {source : Nat} : Visits t a site means [] source t.size [] (some source)
  | release {header : Span} {region outside : RegionId} {stations : List Station}
      {source base : Nat} {visits : List Nat} {last : Option Nat}
      (leads : a.row source = ⟨[(.always, base)], [], []⟩)
      (node : t.made.nodes[base]? = some ⟨.release header, region, t.duplicate, false⟩)
      (row : a.row base = ⟨[(.always, base + 1)], [], []⟩)
      (carries : t.made.nodes[base + 1]? = some (means.continuation site outside))
      (rest : Visits t a site means stations (base + 1) (base + 2) visits last) :
      Visits t a site means (.release header region outside :: stations) source base
        (base :: visits) last
  | replay {clause : List Stmt} {outer : List Scope} {region outside : RegionId}
      {stations : List Station} {source base : Nat} {visits : List Nat} {last : Option Nat}
      {p : Piece} {f : Fragment} {final : Nat}
      (copied : t.HoldsClause a true clause outer region base p f [(.resume, base + p.size)])
      (leads : a.row source = ⟨[(.always, f.entry)], [], []⟩)
      (completes : f.exit = some final)
      (carries : t.made.nodes[base + p.size]? = some (means.continuation site outside))
      (rest : Visits t a site means stations (base + p.size) (base + p.size + 1) visits last) :
      Visits t a site means (.replay clause outer region outside :: stations) source base
        (base :: visits) last
  | swallow {clause : List Stmt} {outer : List Scope} {region outside : RegionId}
      {stations : List Station} {source base : Nat} {p : Piece} {f : Fragment}
      (copied : t.HoldsClause a true clause outer region base p f [])
      (leads : a.row source = ⟨[(.always, f.entry)], [], []⟩)
      (completes : f.exit = none) (size : t.size = base + p.size) :
      Visits t a site means (.replay clause outer region outside :: stations) source base [base]
        none

/-! ## One scope at a time -/

/-- What layout sees of a draft from which a jump leaves the given scopes. -/
def envOf (s : Draft) (scopes : List Scope) : Env where
  region := s.region
  duplicate := s.duplicate
  flat := s.options.flatDispatch
  loops := Scope.loopEnds scopes

/-- Unwinds a jump through the given scopes. -/
def unwindThrough (s : Draft) (scopes : List Scope) (source : NodeId) (site : Site)
    (means : Jump) : Except Failure Draft := do
  let route ← Route.through site means (Scope.enclosures s.regions s.options.markers scopes)
  return s.add (route.layout (s.envOf scopes) s.size source site means)

variable {s t : Draft} {source : Nat} {site : Site} {means : Jump} {outer : List Scope}

theorem unwindThrough_nil (h : s.unwindThrough [] source site means = .ok t) :
    means.staysInLoop = false ∧ t = s.add (arrival (s.envOf []) source site means) := by
  obtain ⟨route, hroute, h⟩ := bind_eq_ok.1 h
  obtain ⟨hm, rfl⟩ := Route.through_nil_eq_ok.1 hroute
  exact ⟨hm, (pure_eq_ok.1 h).symm⟩

theorem unwindThrough_loop {ends : LoopEnds}
    (h : s.unwindThrough (.loop ends :: outer) source site means = .ok t) :
    if means.staysInLoop then
      t = s.add (arrival (s.envOf (.loop ends :: outer)) source site means)
    else s.unwindThrough outer source site means = .ok t := by
  obtain ⟨route, hroute, h⟩ := bind_eq_ok.1 h
  obtain rfl := pure_eq_ok.1 h
  rcases Route.through_loop_eq_ok.1 hroute with ⟨hm, rfl⟩ | ⟨hm, rest, hrest, rfl⟩
  · rw [if_pos hm]
    rfl
  · rw [if_neg (Bool.eq_false_iff.1 hm), unwindThrough, hrest]
    rfl

theorem carryOn_eq (env : Env) (region : RegionId) (site : Site) (means : Jump) :
    env.carryOn region site means = means.continuation site region := by
  cases means <;> rfl

/-- What is added to leave a `with`. -/
def releasePiece (s : Draft) (source : Nat) (header : Span) (region outside : RegionId)
    (site : Site) (means : Jump) : Piece :=
  .ofNodes [⟨.release header, region, s.duplicate, false⟩, means.continuation site outside] ++
    .edge source s.size .always ++ .edge s.size (s.size + 1) .always

theorem unwindThrough_resource {header : Span} {region : RegionId}
    (h : s.unwindThrough (.resource header region :: outer) source site means = .ok t) :
    (s.add (s.releasePiece source header region ((s.regions.parent? region).getD region) site
      means)).unwindThrough outer (s.size + 1) site means = .ok t := by
  obtain ⟨_, hroute, h⟩ := bind_eq_ok.1 h
  obtain rfl := pure_eq_ok.1 h
  obtain ⟨route, hrest, rfl⟩ := Route.through_resource_eq_ok.1 hroute
  rw [unwindThrough, toSpot_add, hrest, Route.layout, add_append, carryOn_eq, size_add]
  rfl

/-- What is added to carry on after a copy. -/
def resumePiece (source entry last next : Nat) (outside : RegionId) (site : Site) (means : Jump) :
    Piece :=
  .edge source entry .always ++ (.ofNodes [means.continuation site outside] ++
    .edge last next .resume)

theorem Closed.replica (hs : s.Closed)
    (hl : ∀ u, LoopEnds.Among (Scope.loopEnds outer) u → u < s.size) (region : RegionId) :
    (s.replica outer region).Closed :=
  ⟨hs.edges, hl⟩

/-- A `try` is left by building its `finally` clause once more, outside of it. -/
theorem unwindThrough_final {clause : List Stmt} {whole region : RegionId} (hs : s.Closed)
    (hl : ∀ u, LoopEnds.Among (Scope.loopEnds outer) u → u < s.size)
    (h : s.unwindThrough (.final clause whole region :: outer) source site means = .ok t) :
    ∃ p f, (s.replica outer region).Builds clause p f ∧
      ((f.exit = none ∧ t = (s.extend p).add (.edge source f.entry .always)) ∨
      ∃ last, f.exit = some last ∧
        ((s.extend p).add (resumePiece source f.entry last (s.size + p.size) whole site
          means)).unwindThrough outer (s.size + p.size) site means = .ok t) := by
  obtain ⟨route, hroute, h⟩ := bind_eq_ok.1 h
  obtain rfl := pure_eq_ok.1 h
  obtain ⟨_, hbody, hway⟩ := Route.through_final_eq_ok.1 hroute
  obtain ⟨plan, hplan, rfl⟩ := map_eq_ok.1 hbody
  have hr := hs.replica hl region
  have hb := hr.builds hplan
  refine ⟨_, _, hb, ?_⟩
  -- the copy is the layout that the route begins with
  have hcopy : s.add ((Plan.orIdle plan).layout ((s.envOf (.final clause whole region ::
      outer)).copy region) s.size none).piece = s.extend ((Plan.orIdle plan).layout
      (s.replica outer region).env s.size none).piece.simple :=
    hs.add_eq_extend fun e he => .inl (((Plan.orIdle plan).within_layout _ s.size).source e he).1
  have hx := (Plan.orIdle plan).isSome_exitAt s.size
  rcases hway with ⟨hc, rest, hrest, rfl⟩ | ⟨hc, rfl⟩
  · obtain ⟨last, hlast⟩ := Option.isSome_iff_exists.1 (hx.trans hc)
    refine .inr ⟨last, hlast, ?_⟩
    rw [unwindThrough, toSpot_add, toSpot_extend, hrest, Route.layout, Plan.exit_layout, hlast]
    simp only [add_append, hcopy, carryOn_eq, Plan.entry_layout, resumePiece, size_add, size_extend]
    rfl
  · have hnone : (Plan.orIdle plan).exitAt s.size = none := by simpa [hc] using hx
    refine .inl ⟨hnone, ?_⟩
    rw [Route.layout, add_append, hcopy, Plan.entry_layout]
    rfl

end Draft

/-! ## Pieces that lead on from one node -/

theorem LoopEnds.Among.cons {ends : LoopEnds} {loops : List LoopEnds} {u : Nat}
    (h : Among loops u) : Among (ends :: loops) u := by
  obtain ⟨ends', hmem, hu⟩ := h
  exact ⟨ends', List.mem_cons_of_mem ends hmem, hu⟩

/-- The edges and exits of the piece are at the node `source` or at nodes from `base` on. -/
structure Piece.Departs (a : Piece) (source base : Nat) : Prop where
  edges : ∀ e ∈ a.edges, source = e.source ∨ base ≤ e.source
  exits : ∀ x ∈ a.exits, source = x.node ∨ base ≤ x.node

namespace Piece

theorem row_eq_nil_of_forall {a : Piece} {u : Nat} (he : ∀ e ∈ a.edges, u ≠ e.source)
    (hx : ∀ x ∈ a.exits, u ≠ x.node) : a.row u = .nil := by
  rw [row, List.filter_eq_nil_iff.2, List.filter_eq_nil_iff.2, List.filter_eq_nil_iff.2]
  · rfl
  · exact fun x h => by simp [(hx x h).symm]
  · exact fun e h => by simp [(he e h).symm]
  · exact fun e h => by simp [(he e h).symm]

/-- A piece says nothing about an older node that it does not depart from. -/
theorem Departs.row {a : Piece} {source base u : Nat} (h : a.Departs source base)
    (hu : u ≠ source) (hlt : u < base) : a.row u = .nil := by
  refine row_eq_nil_of_forall (fun e he => ?_) fun x hx => ?_
  · have := h.edges e he
    omega
  · have := h.exits x hx
    omega

/-- Two pieces that depart from the same node. -/
theorem Departs.append' {a b : Piece} {source base : Nat} (ha : a.Departs source base)
    (hb : b.Departs source base) : (a ++ b).Departs source base where
  edges := fun e he => (List.mem_append.1 he).elim (ha.edges e) (hb.edges e)
  exits := fun x hx => (List.mem_append.1 hx).elim (ha.exits x) (hb.exits x)

/-- What departs from a new node may be added to what made it. -/
theorem Departs.append {a b : Piece} {source source' base base' : Nat} (ha : a.Departs source base)
    (hb : b.Departs source' base') (hs : base ≤ source') (hbase : base ≤ base') :
    (a ++ b).Departs source base :=
  ha.append' ⟨fun e he => by have := hb.edges e he; omega,
    fun x hx => by have := hb.exits x hx; omega⟩

theorem Within.departs {p : Piece} {base : Nat} {loops : List LoopEnds} (h : p.Within base loops)
    {source : Nat} : p.Departs source base where
  edges := fun e he => .inr (h.source e he).1
  exits := fun x hx => .inr (h.exits x hx).1

theorem Within.row_outside {p : Piece} {base u : Nat} {loops : List LoopEnds}
    (h : p.Within base loops) (hu : u < base ∨ base + p.size ≤ u) : p.row u = .nil := by
  refine row_eq_nil_of_forall (fun e he => ?_) fun x hx => ?_
  · have := h.source e he
    omega
  · have := h.exits x hx
    omega

/-- Nothing is dropped from a piece without parallel edges. -/
theorem simple_eq_self {p : Piece} (h : p.edges.Pairwise fun e o => e.parallel o = false) :
    p.simple = p := by
  rw [simple, Edge.firstPerPair_eq, keepFirst_eq_self _ h]

end Piece

namespace Draft

variable {s t : Draft} {source : Nat} {site : Site} {means : Jump} {outer : List Scope}

/-- The way through stations is still there after something that says nothing about it was added
before it. -/
theorem Visits.prepend {a b : Piece} {stations : List Station} {base : Nat} {visits : List Nat}
    {last : Option Nat} (h : t.Visits a site means stations source base visits last)
    (hb : ∀ u, u = source ∨ base ≤ u → b.row u = .nil) :
    t.Visits (b ++ a) site means stations source base visits last := by
  -- where the new piece says nothing, the rows are those of the old one
  have hrow : ∀ {u : Nat}, b.row u = .nil → (b ++ a).row u = a.row u := fun hu => by
    rw [Piece.row_append, hu, Row.nil_append]
  induction h with
  | done => exact .done
  | release leads node row carries _ ih =>
    refine .release ?_ node ?_ carries (ih fun u hu => hb u (by omega))
    · rw [hrow (hb _ (.inl rfl)), leads]
    · rw [hrow (hb _ (by omega)), row]
  | replay copied leads completes carries _ ih =>
    refine .replay ⟨copied.built, copied.holds.nodes, fun u hu hu' => ?_⟩ ?_ completes carries
      (ih fun u hu => hb u (by omega))
    · rw [hrow (hb u (by omega)), copied.holds.row u hu hu']
    · rw [hrow (hb _ (.inl rfl)), leads]
  | swallow copied leads completes size =>
    refine .swallow ⟨copied.built, copied.holds.nodes, fun u hu hu' => ?_⟩ ?_ completes size
    · rw [hrow (hb u (by omega)), copied.holds.row u hu hu']
    · rw [hrow (hb _ (.inl rfl)), leads]

/-- A jump ends at the node it started from, or at a new one. -/
theorem Visits.le_last {a : Piece} {stations : List Station} {base : Nat} {visits : List Nat}
    {last : Option Nat} (h : t.Visits a site means stations source base visits last) {u : Nat}
    (hu : last = some u) : u = source ∨ base ≤ u := by
  induction h with
  | done => exact .inl (Option.some.inj hu).symm
  | release _ _ _ _ _ ih | replay _ _ _ _ _ ih =>
    have := ih hu
    omega
  | swallow => cases hu

theorem getElem?_extend (s : Draft) (p : Piece) (i : Nat) :
    (s.extend p).made.nodes[s.size + i]? = p.nodes[i]? := by
  rw [made_extend, Piece.nodes_append, size, Piece.size,
    List.getElem?_append_right (Nat.le_add_right _ _), Nat.add_sub_cancel_left]

/-! ## The whole way -/

/-- A jump can be unwound from the node `source` through the scopes. -/
structure Ready (s : Draft) (scopes : List Scope) (source : Nat) : Prop where
  closed : s.Closed
  loops : ∀ u, LoopEnds.Among (Scope.loopEnds scopes) u → u < s.size
  source_lt : source < s.size
  free : ∀ e ∈ s.made.edges, source ≠ e.source

/-- A jump that got through is added as it is. -/
theorem Ready.arrival {scopes : List Scope} (hs : s.Ready scopes source)
    (h : means.staysInLoop = false ∨ (Scope.loopEnds scopes).head?.isSome) :
    s.add (arrival (s.envOf scopes) source site means) =
        s.extend (arrival (s.envOf scopes) source site means) ∧
      (s.extend (arrival (s.envOf scopes) source site means)).Closed ∧
      (arrival (s.envOf scopes) source site means).Departs source s.size ∧
      means.Arrives site (Scope.loopEnds scopes)
        ((arrival (s.envOf scopes) source site means).row source) := by
  have hloops : (s.envOf scopes).loops = Scope.loopEnds scopes := rfl
  -- there is at most one edge, and it leaves the node of the jump
  have hedges : ∀ e ∈ (Flowgraph.arrival (s.envOf scopes) source site means).edges,
      source = e.source ∧ LoopEnds.Among (Scope.loopEnds scopes) e.target := by
    intro e he
    cases means <;> simp [Flowgraph.arrival, hloops] at he
    · obtain ⟨ends, hmem, rfl⟩ := he
      exact ⟨rfl, ends, List.mem_of_head? hmem, .inr rfl⟩
    · obtain ⟨ends, hmem, rfl⟩ := he
      exact ⟨rfl, ends, List.mem_of_head? hmem, .inl rfl⟩
  have hsimple : (Flowgraph.arrival (s.envOf scopes) source site means).simple =
      Flowgraph.arrival (s.envOf scopes) source site means := by
    refine Piece.simple_eq_self ?_
    cases means <;> cases hh : (s.envOf scopes).loops.head? <;> simp [Flowgraph.arrival, hh]
  refine ⟨?_, hs.closed.extend fun e he => ?_,
    ⟨fun e he => .inl (hedges e he).1, fun x hx => .inl ?_⟩, ?_⟩
  · rw [hs.closed.add_eq_extend fun e he => .inr (.inr fun o ho => ?_), hsimple]
    rw [← (hedges e he).1]
    exact (hs.free o ho).symm
  · have hsource := hs.source_lt
    have htarget := hs.loops _ (hedges e he).2
    rw [← (hedges e he).1]
    omega
  · cases means <;> simp [Flowgraph.arrival] at hx <;> rw [hx]
  · rw [row_arrival, if_pos rfl, hloops]
    cases means with
    | returning => exact .returns
    | raising => exact .raises
    | breaking =>
      obtain ⟨ends, he⟩ := Option.isSome_iff_exists.1 (h.resolve_left (by decide))
      rw [Route.out, he]
      exact .breaks he
    | continuing =>
      obtain ⟨ends, he⟩ := Option.isSome_iff_exists.1 (h.resolve_left (by decide))
      rw [Route.out, he]
      exact .continues he

/-- What is made for a jump leaves it ready at one of the new nodes, if nothing leaves that node
yet. -/
theorem Ready.extend {scopes : List Scope} (hs : s.Ready scopes source) {p : Piece} {next : Nat}
    (hsub : ∀ u, LoopEnds.Among (Scope.loopEnds outer) u → LoopEnds.Among (Scope.loopEnds scopes) u)
    (hp : ∀ e ∈ p.edges, s.size + p.size > e.source ∧ s.size + p.size > e.target)
    (hnext : s.size ≤ next) (hlt : next < s.size + p.size)
    (hfree : ∀ e ∈ p.edges, next ≠ e.source) : (s.extend p).Ready outer next where
  closed := hs.closed.extend hp
  loops := fun u hu => by
    have := hs.loops u (hsub u hu)
    rw [size_extend]
    omega
  source_lt := by rwa [size_extend]
  free := fun e he => by
    rcases List.mem_append.1 he with he | he
    -- older edges leave older nodes
    · have := hs.closed.edges e he
      omega
    · exact hfree e he

section Release

variable (s) (source : Nat) (header : Span) (region outside : RegionId) (site : Site) (means : Jump)

theorem edges_releasePiece : (s.releasePiece source header region outside site means).edges =
    [⟨source, s.size, .always⟩, ⟨s.size, s.size + 1, .always⟩] := rfl

theorem departs_releasePiece :
    (s.releasePiece source header region outside site means).Departs source s.size := by
  refine ⟨fun e he => ?_, fun x hx => by simp [releasePiece] at hx⟩
  rw [edges_releasePiece] at he
  simp only [List.mem_cons, List.not_mem_nil, or_false] at he
  rcases he with rfl | rfl
  · exact .inl rfl
  · exact .inr (Nat.le_refl _)

theorem row_releasePiece (u : Nat) :
    (s.releasePiece source header region outside site means).row u =
      .after (some source) [(.always, s.size)] u ++
        .after (some s.size) [(.always, s.size + 1)] u := by
  simp [releasePiece]

end Release

/-- After a resource was released, the jump can be unwound through the scopes outside. -/
theorem Ready.release {header : Span} {region : RegionId}
    (hs : s.Ready (.resource header region :: outer) source) (outside : RegionId) (site : Site)
    (means : Jump) :
    s.add (s.releasePiece source header region outside site means) =
        s.extend (s.releasePiece source header region outside site means) ∧
      (s.extend (s.releasePiece source header region outside site means)).Ready outer
        (s.size + 1) := by
  have hsource := hs.source_lt
  have hsize : (s.releasePiece source header region outside site means).size = 2 := rfl
  have hedges := edges_releasePiece s source header region outside site means
  refine ⟨?_, hs.extend (fun u hu => hu) ?_ (by omega) (by omega) ?_⟩
  -- neither edge was there before, since both lead to new nodes
  · rw [hs.closed.add_eq_extend, Piece.simple_eq_self]
    · rw [hedges]
      simp [Edge.parallel]
    · rw [hedges]
      simp
  · rw [hedges, hsize]
    simp
    omega
  · rw [hedges]
    simp
    omega

/-- A copy of a clause leaves the jump where it was. -/
theorem Ready.copied {scopes : List Scope} (hs : s.Ready scopes source) {p : Piece}
    (hp : p.Within s.size (Scope.loopEnds scopes)) : (s.extend p).Ready scopes source where
  closed := hs.closed.extend fun e he => by
    refine ⟨(hp.source e he).2, ?_⟩
    rcases hp.target e he with h | h
    · exact h.2
    · have := hs.loops _ h
      omega
  loops := fun u hu => by
    have := hs.loops u hu
    rw [size_extend]
    omega
  source_lt := by
    have := hs.source_lt
    rw [size_extend]
    omega
  free := fun e he => by
    rcases List.mem_append.1 he with he | he
    · exact hs.free e he
    · have := hp.source e he
      have := hs.source_lt
      omega

/-- A jump is led into a copy by one more edge. -/
theorem Ready.enter {scopes : List Scope} (hs : s.Ready scopes source) (entry : Nat) :
    s.add (.edge source entry .always) = s.extend (.edge source entry .always) := by
  rw [hs.closed.add_eq_extend, Piece.simple_eq_self (by simp)]
  intro e he
  simp only [Piece.edges_edge, List.mem_singleton] at he
  subst he
  exact .inr (.inr fun o ho => (hs.free o ho).symm)

theorem row_resumePiece (source entry last next : Nat) (outside : RegionId) (site : Site)
    (means : Jump) (u : Nat) : (resumePiece source entry last next outside site means).row u =
      .after (some source) [(.always, entry)] u ++ .after (some last) [(.resume, next)] u := by
  simp [resumePiece]

theorem departs_resumePiece {base source entry last next : Nat} (h : base ≤ last)
    {outside : RegionId} {site : Site} {means : Jump} :
    (resumePiece source entry last next outside site means).Departs source base := by
  refine ⟨fun e he => ?_, fun x hx => by simp [resumePiece] at hx⟩
  have hedges : (resumePiece source entry last next outside site means).edges =
    [⟨source, entry, .always⟩, ⟨last, next, .resume⟩] := rfl
  rw [hedges] at he
  simp only [List.mem_cons, List.not_mem_nil, or_false] at he
  rcases he with rfl | rfl
  · exact .inl rfl
  · exact .inr h

/-- After a copy that completes, the jump can be unwound through the scopes outside. -/
theorem Ready.resume {clause : List Stmt} {whole region : RegionId}
    (hs : s.Ready (.final clause whole region :: outer) source) {entry last : Nat}
    (hentry : entry < s.size) (hlast : last < s.size) (hne : source ≠ last) (outside : RegionId)
    (site : Site) (means : Jump) :
    s.add (resumePiece source entry last s.size outside site means) =
        s.extend (resumePiece source entry last s.size outside site means) ∧
      (s.extend (resumePiece source entry last s.size outside site means)).Ready outer s.size := by
  have hsource := hs.source_lt
  have hsize : (resumePiece source entry last s.size outside site means).size = 1 := rfl
  have hedges : (resumePiece source entry last s.size outside site means).edges =
    [⟨source, entry, .always⟩, ⟨last, s.size, .resume⟩] := rfl
  refine ⟨?_, hs.extend (fun u hu => hu) ?_ (Nat.le_refl _) (by omega) ?_⟩
  · rw [hs.closed.add_eq_extend, Piece.simple_eq_self]
    · rw [hedges]
      simp [Edge.parallel, hne]
    · rw [hedges]
      simp only [List.forall_mem_cons]
      -- no edge left the jump so far, and the other edge leads to a new node
      exact ⟨.inr (.inr fun o ho => (hs.free o ho).symm), .inr (.inl (Nat.le_refl _)), by simp⟩
  · rw [hedges, hsize]
    simp
    omega
  · rw [hedges]
    simp
    omega

/-- The draft `t` is `s` with the way of a jump out of the scopes added, and nothing else. -/
def Unwinds (s t : Draft) (scopes : List Scope) (source : Nat) (site : Site) (means : Jump) :
    Prop :=
  t.Closed ∧ ∃ a visits last, t = s.extend a ∧ a.Departs source s.size ∧
    t.Visits a site means (means.stations s.regions scopes) source s.size visits last ∧
    ∀ u, last = some u → means.Arrives site (Scope.loopEnds scopes) (a.row u)

theorem Ready.unwinds_arrival {scopes : List Scope} (hs : s.Ready scopes source)
    (h : means.staysInLoop = false ∨ (Scope.loopEnds scopes).head?.isSome)
    (hnone : means.stations s.regions scopes = []) :
    s.Unwinds (s.add (Flowgraph.arrival (s.envOf scopes) source site means)) scopes source site
      means := by
  obtain ⟨hadd, hclosed, hdeparts, harrives⟩ := hs.arrival h
  refine ⟨hadd ▸ hclosed, _, [], some source, hadd, hdeparts, ?_, fun u hu => ?_⟩
  · have hsize : (s.add (Flowgraph.arrival (s.envOf scopes) source site means)).size = s.size := by
      rw [size_add, size_arrival, Nat.add_zero]
    rw [hnone, ← hsize]
    exact .done
  · cases hu
    exact harrives

theorem Ready.unwinds_release {header : Span} {region : RegionId}
    (hs : s.Ready (.resource header region :: outer) source)
    (h : (s.extend (s.releasePiece source header region ((s.regions.parent? region).getD region)
      site means)).Unwinds t outer (s.size + 1) site means) :
    s.Unwinds t (.resource header region :: outer) source site means := by
  obtain ⟨hclosed, a, visits, last, rfl, hdeparts, hv, harrives⟩ := h
  have hsource := hs.source_lt
  have hrow := row_releasePiece s source header region ((s.regions.parent? region).getD region)
    site means
  generalize hp : s.releasePiece source header region ((s.regions.parent? region).getD region)
    site means = p at *
  have hsize : (s.extend p).size = s.size + 2 := by rw [← hp, size_extend]; rfl
  rw [hsize] at hdeparts hv
  -- no edge of the piece leaves the place where the jump carries on, or a later node
  have hnil : ∀ u, s.size + 1 ≤ u → p.row u = .nil := fun u hu => by
    rw [hrow, Row.after_of_ne (by omega), Row.after_of_ne (by omega)]
    rfl
  have hnode : ∀ i, ((s.extend p).extend a).made.nodes[s.size + i]? = (p ++ a).nodes[i]? := by
    rw [← extend_append]
    exact s.getElem?_extend (p ++ a)
  -- the new node is the first one visited
  refine ⟨hclosed, p ++ a, s.size :: visits, last, by rw [extend_append], ?_, ?_, fun u hu => ?_⟩
  · exact (hp ▸ departs_releasePiece s source header region _ site means).append hdeparts (by omega)
      (by omega)
  · refine .release ?_ ?_ ?_ ?_ (hv.prepend fun u hu => hnil u (by omega))
    · rw [Piece.row_append, hrow, hdeparts.row (by omega) (by omega), Row.after_self,
        Row.after_of_ne (by omega)]
      rfl
    · rw [← Nat.add_zero s.size, hnode, ← hp]
      rfl
    · rw [Piece.row_append, hrow, hdeparts.row (by omega) (by omega), Row.after_self,
        Row.after_of_ne (by omega)]
      rfl
    · rw [hnode, ← hp]
      rfl
  · have hle := hv.le_last hu
    rw [Piece.row_append, hnil u (by omega), Row.nil_append]
    exact harrives u hu

theorem Ready.unwinds_swallow {clause : List Stmt} {whole region : RegionId}
    (hs : s.Ready (.final clause whole region :: outer) source) {p : Piece} {f : Fragment}
    (hb : (s.replica outer region).Builds clause p f) (hf : f.exit = none) :
    s.Unwinds ((s.extend p).extend (.edge source f.entry .always))
      (.final clause whole region :: outer) source site means := by
  have hsource := hs.source_lt
  have hl : ∀ u, LoopEnds.Among (Scope.loopEnds outer) u → u < s.size := hs.loops
  have hw : p.Within s.size (Scope.loopEnds outer) := hb.within
  have hnode : ∀ i, ((s.extend p).extend (.edge source f.entry .always)).made.nodes[s.size + i]? =
      (p ++ .edge source f.entry .always).nodes[i]? := by
    rw [← extend_append]
    exact s.getElem?_extend _
  refine ⟨(hs.copied hw).closed.extend ?_, p ++ .edge source f.entry .always, [s.size], none,
    by rw [extend_append], ?_, ?_, fun u hu => by cases hu⟩
  · intro e he
    have hentry : s.size + p.size > f.entry := hb.entry.2
    rw [Piece.edges_edge, List.mem_singleton] at he
    subst he
    rw [size_extend]
    exact ⟨Nat.lt_of_lt_of_le hsource (by omega), hentry⟩
  · have hedge : (Piece.edge source f.entry .always).Departs source s.size :=
      ⟨by simp, by simp⟩
    exact hw.departs.append' hedge
  -- the copy does not complete, so it is the last one visited
  · refine .swallow ⟨⟨s.replica outer region, hs.closed.replica hl region, rfl, rfl, rfl,
      ?_, hb⟩, ⟨fun i hi => ?_, fun u hu hu' => ?_⟩⟩ ?_ hf ?_
    · rw [← extend_append]
      exact List.prefix_append _ _
    · rw [hnode, Piece.nodes_append, List.getElem?_append_left hi]
    · rw [Piece.row_append, Piece.row_edge_of_normal rfl, Row.after_of_ne (by omega), hf,
        Row.after_none]
    · rw [Piece.row_append, Piece.row_edge_of_normal rfl, Row.after_self,
        hw.row_outside (.inl hsource)]
      rfl
    · rw [size_extend, size_extend]
      rfl

theorem Ready.unwinds_replay {clause : List Stmt} {whole region : RegionId}
    (hs : s.Ready (.final clause whole region :: outer) source) {p : Piece} {f : Fragment}
    (hb : (s.replica outer region).Builds clause p f) {last : Nat} (hf : f.exit = some last)
    (h : ((s.extend p).extend (resumePiece source f.entry last (s.size + p.size) whole site
      means)).Unwinds t outer (s.size + p.size) site means) :
    s.Unwinds t (.final clause whole region :: outer) source site means := by
  obtain ⟨hclosed, a, visits, final, rfl, hdeparts, hv, harrives⟩ := h
  have hsource := hs.source_lt
  have hl : ∀ u, LoopEnds.Among (Scope.loopEnds outer) u → u < s.size := hs.loops
  have hw : p.Within s.size (Scope.loopEnds outer) := hb.within
  have hle : s.size ≤ last := (hb.exit last hf).1
  have hlt : last < s.size + p.size := (hb.exit last hf).2
  have hrow := row_resumePiece source f.entry last (s.size + p.size) whole site means
  generalize hq : resumePiece source f.entry last (s.size + p.size) whole site means = q at *
  have hsize : ((s.extend p).extend q).size = s.size + p.size + 1 := by
    rw [← hq, size_extend, size_extend]
    rfl
  rw [hsize] at hdeparts hv
  -- neither the copy nor the edges around it say anything about later nodes
  have hnil : ∀ u, s.size + p.size ≤ u → (p ++ q).row u = .nil := fun u hu => by
    rw [Piece.row_append, hrow, hw.row_outside (.inr hu), Row.after_of_ne (by omega),
      Row.after_of_ne (by omega)]
    rfl
  have hnode : ∀ i, (((s.extend p).extend q).extend a).made.nodes[s.size + i]? =
      (p ++ q ++ a).nodes[i]? := by
    rw [← s.extend_append, ← extend_append]
    exact s.getElem?_extend _
  refine ⟨hclosed, p ++ q ++ a, s.size :: visits, final, by rw [extend_append, extend_append],
    ?_, ?_, fun u hu => ?_⟩
  · refine Piece.Departs.append (hw.departs.append' ?_) hdeparts (by omega) (by omega)
    subst hq
    exact departs_resumePiece hle
  · refine .replay ⟨⟨s.replica outer region, hs.closed.replica hl region, rfl, rfl, rfl,
      ?_, hb⟩, ⟨fun i hi => ?_, fun u hu hu' => ?_⟩⟩ ?_ hf ?_
      (hv.prepend fun u hu => hnil u (by omega))
    · rw [← extend_append, ← extend_append]
      exact List.prefix_append _ _
    · rw [hnode, Piece.nodes_append, Piece.nodes_append, List.append_assoc,
        List.getElem?_append_left hi]
    · rw [Piece.row_append, Piece.row_append, hrow, hdeparts.row (by omega) (by omega),
        Row.after_of_ne (by omega), hf, Row.append_nil, Row.nil_append]
    · rw [Piece.row_append, Piece.row_append, hrow, hdeparts.row (by omega) (by omega),
        hw.row_outside (.inl hsource), Row.after_self, Row.after_of_ne (by omega)]
      rfl
    · rw [hnode, Piece.nodes_append, Piece.nodes_append, List.append_assoc,
        Piece.size, List.getElem?_append_right (Nat.le_refl _), Nat.sub_self, ← hq]
      rfl
  · have hle := hv.le_last hu
    rw [Piece.row_append, hnil u (by omega), Row.nil_append]
    exact harrives u hu

/-- Unwinding a jump leads it through its stations. -/
theorem Ready.unwinds {scopes : List Scope} (hs : s.Ready scopes source)
    (h : s.unwindThrough scopes source site means = .ok t) :
    s.Unwinds t scopes source site means := by
  -- by induction on the scopes: leaving one makes a draft that is ready for the others
  induction scopes generalizing s source with
  | nil =>
    obtain ⟨hm, rfl⟩ := unwindThrough_nil h
    exact hs.unwinds_arrival (.inl hm) rfl
  | cons scope outer ih =>
    cases scope with
    | loop ends =>
      have h := unwindThrough_loop h
      cases hm : means.staysInLoop with
      | true =>
        rw [hm, if_pos rfl] at h
        subst h
        exact hs.unwinds_arrival (.inr rfl) (by rw [Jump.stations, hm, if_pos rfl])
      | false =>
        rw [hm, if_neg Bool.false_ne_true] at h
        obtain ⟨hclosed, a, visits, last, ht, hdeparts, hv, harrives⟩ :=
          ih ⟨hs.closed, fun u hu => hs.loops u hu.cons, hs.source_lt, hs.free⟩ h
        refine ⟨hclosed, a, visits, last, ht, hdeparts, ?_, fun u hu => (harrives u hu).leave hm⟩
        rwa [Jump.stations, hm, if_neg Bool.false_ne_true]
    | resource header region =>
      have h := unwindThrough_resource h
      obtain ⟨hadd, hready⟩ := hs.release ((s.regions.parent? region).getD region) site means
      rw [hadd] at h
      exact hs.unwinds_release (ih hready h)
    | final clause whole region =>
      have hl : ∀ u, LoopEnds.Among (Scope.loopEnds outer) u → u < s.size := hs.loops
      obtain ⟨p, f, hb, h⟩ := unwindThrough_final hs.closed hl h
      have hready := hs.copied hb.within
      obtain ⟨hf, rfl⟩ | ⟨last, hf, h⟩ := h
      · rw [hready.enter]
        exact hs.unwinds_swallow hb hf
      · have hsize : (s.extend p).size = s.size + p.size := size_extend s p
        have hne : source ≠ last := by
          have hsource := hs.source_lt
          have hle : s.size ≤ last := (hb.exit last hf).1
          omega
        obtain ⟨hadd, hready⟩ := hready.resume (by rw [hsize]; exact hb.entry.2)
          (by rw [hsize]; exact (hb.exit last hf).2) hne whole site means
        rw [hsize] at hadd hready
        rw [hadd] at h
        exact hs.unwinds_replay hb hf (ih hready h)

/-- **Unwinding a jump**: whatever the scopes around it are, a jump that can be unwound does at
each scope it leaves what that scope asks for, innermost first and once: at a `with` it releases
the resource at a new node, at a `try` it runs a new copy of the `finally` clause, which it enters
where the copy begins and leaves where the copy completes; and it carries on at a new node after
each of them.  A copy that never completes swallows it.  The last of these nodes, or the node that
it started from, makes an exit of the function or has one edge to the innermost loop.  All that is
added to the draft is on this way, and the spot where the draft is extended is the same as
before. -/
theorem unwind_visits_stations {s t : Draft} {source : Nat} {site : Site} {means : Jump}
    (hs : s.Closed) (hsource : source < s.size) (hfree : ∀ e ∈ s.made.edges, source ≠ e.source)
    (h : s.unwind source site means = .ok t) :
    t.Closed ∧ ∃ a visits last, t = s.extend a ∧ a.Departs source s.size ∧
      t.Visits a site means (means.stations s.regions s.scopes) source s.size visits last ∧
      ∀ u, last = some u → means.Arrives site s.loops (a.row u) :=
  Ready.unwinds ⟨hs, hs.loops, hsource, hfree⟩ h

/-- A `try` with a `finally` clause, and in its body a `with` that a `break` leaves. -/
def tryAroundWith : Stmt :=
  .attempt ⟨2, ⟨12, 58⟩⟩ [.hold ⟨3, ⟨20, 45⟩⟩ false ⟨20, 30⟩ [.jump ⟨4, ⟨40, 45⟩⟩ .breaking]] [] []
    [.simple ⟨5, ⟨50, 55⟩⟩]

/-- The draft of a loop around `tryAroundWith` when the `break` has just got its node. -/
def insideWith : Draft where
  regions := .ofBody [.loop ⟨1, ⟨0, 60⟩⟩ (.condition ⟨6, 10⟩) [tryAroundWith] []]
  options := {}
  region := 3
  scopes := [.resource ⟨20, 30⟩ 3, .final [.simple ⟨5, ⟨50, 55⟩⟩] 1 4, .loop ⟨1, 2⟩]
  duplicate := false
  made := .ofNodes [⟨.entry, 0, false, false⟩, ⟨.test ⟨6, 10⟩, 0, false, false⟩,
    ⟨.join, 0, false, false⟩, ⟨.join, 0, false, false⟩, ⟨.block [], 2, false, false⟩,
    ⟨.block [.jump ⟨4, ⟨40, 45⟩⟩ .breaking], 3, false, false⟩]

theorem closed_insideWith : insideWith.Closed := by
  refine ⟨by simp [insideWith], ?_⟩
  rintro u ⟨ends, he, hu⟩
  obtain rfl : ends = ⟨1, 2⟩ := by simpa [insideWith, Spot.loops, Scope.loopEnds] using he
  have hsize : insideWith.size = 6 := rfl
  simp only at hu
  omega

/-- The `break` releases the resource, runs a copy of the clause and reaches the end of the loop. -/
theorem insideWith_visits_stations :
    ∃ t, insideWith.unwind 5 ⟨4, ⟨40, 45⟩⟩ .breaking = .ok t ∧
      ∃ a visits last, t = insideWith.extend a ∧
        t.Visits a ⟨4, ⟨40, 45⟩⟩ .breaking
          [.release ⟨20, 30⟩ 3 2, .replay [.simple ⟨5, ⟨50, 55⟩⟩] [.loop ⟨1, 2⟩] 4 1] 5 6 visits
          last ∧
        ∀ u, last = some u → Jump.Arrives ⟨4, ⟨40, 45⟩⟩ [⟨1, 2⟩] .breaking (a.row u) := by
  obtain ⟨t, h⟩ : ∃ t, insideWith.unwind 5 ⟨4, ⟨40, 45⟩⟩ .breaking = .ok t := ⟨_, rfl⟩
  obtain ⟨-, a, visits, last, ht, -, hv, harrives⟩ :=
    unwind_visits_stations closed_insideWith (by decide) (by decide) h
  exact ⟨t, h, a, visits, last, ht, hv, harrives⟩

end Draft

end Flowgraph
