import Flowgraph.Proofs.Moving

/-!
# Graphs under construction

A draft is a graph that is being built: what was made so far, and the spot where it is extended.
The scopes of a spot are the constructs around it, as planning and layout see them together: a
loop with its two nodes, a `try` with the statements of its `finally` clause, a `with` and its
header.

Building a body extends a draft by the layout of its plan, and unwinding a jump extends it by the
layout of its route.  At most one edge leads from one node to another in a draft, so a layout is
added edge by edge; but if the edges of the draft connect its own nodes, no edge of the layout is
lost to an older one.

## Main definitions

* `Scope`, `Spot`, `Draft` : a graph under construction.
* `Draft.build` : a draft extended by a body.
* `Draft.unwind` : a draft extended by a jump on its way out.
* `Draft.Closed` : the draft mentions its own nodes only.

## Main results

* `Graph.ofBody_eq_build` : the graph of a function is the draft of its body, once it is over.
* `Draft.build_jump` : building a jump unwinds it.
* `Draft.build_cases` : what a body adds depends on the spot only.
-/

namespace Flowgraph

/-! ## Drafts -/

/-- A construct around the spot where a graph is extended. -/
inductive Scope where
  /-- The body of a loop, with the nodes that jumps lead to. -/
  | loop (ends : LoopEnds)
  /-- What the `finally` clause of a `try` watches over: the clause, the region of the statement
  and the region of the clause. -/
  | final (clause : List Stmt) (whole region : RegionId)
  /-- The body of a `with`: its header and its region. -/
  | resource (header : Span) (region : RegionId)

namespace Scope

/-- The enclosures that scopes, innermost first, are for planning. -/
def enclosures (regions : RegionTree) (markers : Bool) : List Scope → List Enclosure
  | [] => []
  | .loop _ :: outer => .loop :: enclosures regions markers outer
  | .final clause whole region :: outer =>
    .final whole region
        ((planBody ⟨regions, markers, enclosures regions markers outer⟩ clause).map .orIdle) ::
      enclosures regions markers outer
  | .resource header region :: outer =>
    .resource header region ((regions.parent? region).getD region) ::
      enclosures regions markers outer

/-- The loops among scopes, innermost first. -/
def loopEnds : List Scope → List LoopEnds
  | [] => []
  | .loop ends :: outer => ends :: loopEnds outer
  | .final .. :: outer | .resource .. :: outer => loopEnds outer

end Scope

/-- Where a graph is extended. -/
structure Spot where
  /-- The regions of the function. -/
  regions : RegionTree
  /-- The switches of the construction. -/
  options : Options
  /-- The region of new nodes. -/
  region : RegionId
  /-- The constructs around new nodes, innermost first. -/
  scopes : List Scope

namespace Spot

/-- What planning sees of a spot. -/
def context (spot : Spot) : Context where
  regions := spot.regions
  markers := spot.options.markers
  around := Scope.enclosures spot.regions spot.options.markers spot.scopes

/-- The loops around a spot, innermost first. -/
def loops (spot : Spot) : List LoopEnds :=
  Scope.loopEnds spot.scopes

end Spot

/-- A graph under construction. -/
structure Draft extends Spot where
  /-- New nodes belong to a copy. -/
  duplicate : Bool
  /-- What was made so far. -/
  made : Piece

/-- Where a part of a graph begins and, if it can complete, where it does. -/
structure Fragment where
  /-- Where the part begins. -/
  entry : NodeId
  /-- Where it completes. -/
  exit : Option NodeId

namespace Draft

/-- The number of nodes of a draft, which is the number of the next one. -/
def size (s : Draft) : Nat :=
  s.made.size

/-- What layout sees of a draft. -/
def env (s : Draft) : Env where
  region := s.region
  duplicate := s.duplicate
  flat := s.options.flatDispatch
  loops := s.loops

/-- Adds a piece, edge by edge: nodes that are connected already stay as they are. -/
def add (s : Draft) (p : Piece) : Draft :=
  { s with made :=
    ⟨s.made.nodes ++ p.nodes, p.edges.foldl Edge.connect s.made.edges, s.made.exits ++ p.exits⟩ }

/-- Adds a piece as it is. -/
def extend (s : Draft) (p : Piece) : Draft :=
  { s with made := s.made ++ p }

/-- Builds a body, after which control has yet to be led to it and on from it. -/
def build (s : Draft) (body : List Stmt) : Except Failure (Draft × Fragment) := do
  let plan ← planBody s.context body
  let stretch := (Plan.orIdle plan).layout s.env s.size none
  return (s.add stretch.piece, ⟨stretch.entry, stretch.exit⟩)

/-- Leads the jump at `site` from the node `source`, which holds it, to where it goes. -/
def unwind (s : Draft) (source : NodeId) (site : Site) (means : Jump) : Except Failure Draft := do
  let route ← Route.through site means s.context.around
  return s.add (route.layout s.env s.size source site means)

/-- The draft of a function before anything is made. -/
def start (options : Options) (regions : RegionTree) : Draft where
  regions := regions
  options := options
  region := RegionTree.root
  scopes := []
  duplicate := false
  made := .nil

@[simp] theorem made_extend (s : Draft) (p : Piece) : (s.extend p).made = s.made ++ p := rfl

@[simp] theorem toSpot_extend (s : Draft) (p : Piece) : (s.extend p).toSpot = s.toSpot := rfl

@[simp] theorem duplicate_extend (s : Draft) (p : Piece) :
    (s.extend p).duplicate = s.duplicate := rfl

@[simp] theorem size_extend (s : Draft) (p : Piece) : (s.extend p).size = s.size + p.size := by
  simp [size]

@[simp] theorem toSpot_add (s : Draft) (p : Piece) : (s.add p).toSpot = s.toSpot := rfl

@[simp] theorem duplicate_add (s : Draft) (p : Piece) : (s.add p).duplicate = s.duplicate := rfl

@[simp] theorem env_add (s : Draft) (p : Piece) : (s.add p).env = s.env := rfl

@[simp] theorem size_add (s : Draft) (p : Piece) : (s.add p).size = s.size + p.size := by
  simp [size, add, Piece.size]

theorem add_append (s : Draft) (p q : Piece) : s.add (p ++ q) = (s.add p).add q := by
  simp [add]

@[simp] theorem add_edgeFrom_none (s : Draft) (v : NodeId) (label : Label) :
    s.add (.edgeFrom none v label) = s := by
  simp [add]

theorem extend_append (s : Draft) (p q : Piece) : s.extend (p ++ q) = (s.extend p).extend q := by
  show ({ s with made := s.made.append (p.append q) } : Draft) =
    { s with made := (s.made.append p).append q }
  simp [Piece.append]

end Draft

/-! ## The graph of a function is a draft that is over -/

theorem Edge.firstPerPair_firstPerPair (edges : List Edge) :
    firstPerPair (firstPerPair edges) = firstPerPair edges := by
  rw [firstPerPair_eq, firstPerPair_eq, keepFirst_eq_self _ (pairwise_keepFirst _ edges)]

/-- A layout may just as well keep one edge per pair of nodes itself. -/
theorem Graph.ofLayout_firstPerPair (regions : RegionTree) (p : Piece) (exit : NodeId) :
    ofLayout regions ⟨p.nodes, Edge.firstPerPair p.edges, p.exits⟩ exit =
      ofLayout regions p exit := by
  simp [ofLayout, Edge.firstPerPair_firstPerPair]

/-- Adds the end of the function, which the body leads to from where it completes. -/
def Draft.finish (s : Draft) (body : Fragment) : Draft :=
  s.add (.edge 0 body.entry .always ++ .ofNodes [s.env.node .exit] ++
    .edgeFrom body.exit s.size .always ++ .ofExit ⟨s.size, .fallsThrough⟩)

/-- The graph of a function is the draft of its body, built after the entry and finished by the
exit. -/
theorem Graph.ofBody_eq_build (options : Options) {body : List Stmt} (h : body ≠ []) :
    ofBody options body = (do
      let start := Draft.start options (RegionTree.ofBody body)
      let built ← (start.add (.ofNodes [start.env.node .entry])).build body
      ofLayout (RegionTree.ofBody body) (built.1.finish built.2).made built.1.size) := by
  have hb : body.isEmpty = false := by simpa using h
  rw [ofBody, Plan.ofBody, hb]
  show ((planBody ⟨RegionTree.ofBody body, options.markers, []⟩ body).map Plan.orIdle).bind _ =
    ((planBody ⟨RegionTree.ofBody body, options.markers, []⟩ body).bind _).bind _
  cases planBody ⟨RegionTree.ofBody body, options.markers, []⟩ body with
  | error failure => rfl
  | ok plan =>
    -- the edges were added one by one, the graph keeps one per pair
    show ofLayout _ _ _ = ofLayout _ _ _
    rw [← ofLayout_firstPerPair]
    simp [Draft.add, Draft.finish, Draft.start, Draft.size, Draft.env, Spot.loops, Scope.loopEnds,
      Edge.firstPerPair, Piece.size, Nat.add_comm]

/-- Building a jump makes a node for it and unwinds it from there. -/
theorem Draft.build_jump (s : Draft) (site : Site) (means : Jump) :
    s.build [.jump site means] = (do
      let content := if means = .raising then .raise site else .block [.jump site means]
      let t ← (s.add (.ofNodes [s.env.node content])).unwind s.size site means
      return (t, ⟨s.size, none⟩)) := by
  -- a jump is planned by its route
  cases means <;>
  · simp only [build, unwind, planBody, Stmt.plan, bind_assoc, toSpot_add]
    cases Route.through site _ s.context.around with
    | error failure => rfl
    | ok route =>
      simp [bind, Except.bind, pure, Except.pure, Option.merge, Plan.orIdle, Plan.layout,
        add_append]

/-! ## Pieces that are added to a draft -/

theorem Edge.foldl_connect {old : List Edge} (new : List Edge)
    (h : ∀ e ∈ new, ∀ o ∈ old, o.parallel e = false) :
    new.foldl connect old = old ++ firstPerPair new := by
  induction new using List.reverseRecOn with
  | nil => simp [firstPerPair]
  | append_singleton new e ih =>
    have ih := ih fun e' he' => h e' (List.mem_append_left _ he')
    -- an older edge is parallel to none of the new ones, so only these are compared
    have ho : old.any (·.parallel e) = false :=
      List.any_eq_false.2 fun o ho => by rw [h e (by simp) o ho]; exact Bool.false_ne_true
    have hlast : firstPerPair (new ++ [e]) = connect (firstPerPair new) e := by
      simp [firstPerPair]
    rw [List.foldl_append, ih, hlast]
    simp only [List.foldl_cons, List.foldl_nil, connect, List.any_append, ho, Bool.false_or]
    split <;> simp

/-- The piece with one edge per pair of nodes. -/
def Piece.simple (p : Piece) : Piece :=
  ⟨p.nodes, Edge.firstPerPair p.edges, p.exits⟩

namespace Piece

@[simp] theorem nodes_simple (p : Piece) : p.simple.nodes = p.nodes := rfl

@[simp] theorem exits_simple (p : Piece) : p.simple.exits = p.exits := rfl

@[simp] theorem size_simple (p : Piece) : p.simple.size = p.size := rfl

theorem mem_edges_of_simple {p : Piece} {e : Edge} (h : e ∈ p.simple.edges) : e ∈ p.edges :=
  (keepFirst_sublist Edge.parallel p.edges).subset h

/-- A node that no edge leaves is left by none of the edges that are kept. -/
theorem row_simple_of_row {p : Piece} {u : Nat} {leaves : List ExitCause}
    (h : p.row u = ⟨[], [], leaves⟩) : p.simple.row u = ⟨[], [], leaves⟩ := by
  have hmem : ∀ e ∈ p.simple.edges, e.source ≠ u := by
    rintro e he rfl
    have hlink : Edge.Links p.edges e.source e.target := ⟨e, mem_edges_of_simple he, rfl, rfl⟩
    rw [links_iff, h] at hlink
    simp at hlink
  have hleaves : (p.exits.filter (·.node == u)).map (·.cause) = leaves := congrArg Row.leaves h
  rw [row, List.filter_eq_nil_iff.2, List.filter_eq_nil_iff.2, exits_simple, hleaves]
  · rfl
  · exact fun e he => by simp [hmem e he]
  · exact fun e he => by simp [hmem e he]

/-- The nodes of the piece are numbered from `base`, and its edges lead from them to them and to
the ends of loops. -/
structure Within (p : Piece) (base : Nat) (loops : List LoopEnds) : Prop where
  source : ∀ e ∈ p.edges, base ≤ e.source ∧ base + p.size > e.source
  target : ∀ e ∈ p.edges,
    base ≤ e.target ∧ base + p.size > e.target ∨ LoopEnds.Among loops e.target
  exits : ∀ x ∈ p.exits, base ≤ x.node ∧ base + p.size > x.node

theorem Within.simple {p : Piece} {base : Nat} {loops : List LoopEnds} (h : p.Within base loops) :
    p.simple.Within base loops where
  source := fun e he => h.source e (mem_edges_of_simple he)
  target := fun e he => h.target e (mem_edges_of_simple he)
  exits := h.exits

end Piece

theorem Plan.within_layout (plan : Plan) (env : Env) (base : Nat) :
    (plan.layout env base none).piece.Within base env.loops := by
  have hsize : (plan.layout env base none).piece.size = plan.size := plan.size_layout env base none
  refine ⟨fun e he => ?_, fun e he => ?_, fun x hx => ?_⟩ <;> rw [hsize]
  · exact (mem_edges_layout he).1
  · exact (mem_edges_layout he).2
  · exact mem_exits_layout hx

theorem Row.after_of_ne_some {x : Option Nat} {u : Nat} (h : x ≠ some u)
    (next : List (Label × NodeId)) : after x next u = nil :=
  if_neg h

/-- Control has yet to be led on from where a plan completes. -/
theorem Plan.row_exit_layout (env : Env) (base : Nat) (previous : Option Nat) :
    (plan : Plan) → {u : Nat} → plan.exitAt base = some u → previous ≠ some u →
      ∃ leaves, (plan.layout env base previous).piece.row u = ⟨[], [], leaves⟩
  | .idle, u, h, hp | .block _, u, h, hp => by
    cases h
    exact ⟨[], by simp [Plan.layout, Row.after_of_ne_some hp]; rfl⟩
  | .yield site, u, h, hp => by
    cases h
    exact ⟨[.suspends site], by simp [Plan.layout, Piece.row_ofExit, Row.after_of_ne_some hp]⟩
  | .jump .., u, h, hp | .raise .., u, h, hp => by simp [exitAt] at h
  | .hold before header region body, u, h, hp => by
    have hu := body.exitAt_bounds (base + 1) h
    have hbase : base ≠ u := by omega
    obtain ⟨leaves, hrow⟩ := body.row_exit_layout (env.within region) (base + 1) none h (by simp)
    refine ⟨leaves, ?_⟩
    simp [Plan.layout, Row.after_of_ne_some hp, Row.after_of_ne hbase, hrow]
  | .seq first rest, u, h, hp => by
    have hu := rest.exitAt_bounds (base + first.size) h
    have hfirst : first.exitAt base ≠ some u := fun he => by
      have := first.exitAt_bounds base he
      omega
    obtain ⟨leaves, hrow⟩ :=
      rest.row_exit_layout env (base + first.size) (first.exitAt base) h hfirst
    refine ⟨leaves, ?_⟩
    simp [Plan.layout, Row.after_of_ne_some hp, hrow,
      first.row_layout_outside env base previous (u := u) (by omega)]
  | .branch test body rest, u, h, hp => by
    cases h
    refine ⟨[], ?_⟩
    simp (disch := omega) [Plan.layout, Row.after_of_ne_some hp,
      Row.after_of_ne (show base ≠ base + 1 by omega),
      body.row_layout_outside env (base + 2) none (u := base + 1) (by omega),
      rest.row_layout_outside env (base + 2 + body.size) base (base + 1) (u := base + 1) (by omega),
      Row.after_exitAt_outside]
    rfl
  | .loop header body orelse, u, h, hp => by
    cases h
    refine ⟨[], ?_⟩
    simp (disch := omega) [Plan.layout, Row.after_of_ne_some hp,
      Row.after_of_ne (show base ≠ base + 1 by omega),
      body.row_layout_outside (env.inLoop ⟨base, base + 1⟩) (base + 2) none (u := base + 1)
        (by omega),
      orelse.row_layoutAfterLoop_outside env (base + 2 + body.size) base (base + 1) (u := base + 1)
        (by omega),
      Row.after_exitAt_outside]
    rfl
  | .dispatch subject region cases, u, h, hp => by
    cases h
    refine ⟨[], ?_⟩
    rw [Plan.layout, Piece.row_append, Piece.row_append,
      cases.row_layout_outside (env.within region) (base + 2) base (base + 1) 0 (some base)
        (u := base + 1) (by omega)]
    -- the edge past the cases leaves the subject
    cases cases.exhaustive <;>
      simp [Row.after_of_ne_some hp, Row.after_of_ne (show base ≠ base + 1 by omega)] <;> rfl
  | .attempt region body handlers orelse final, u, h, hp => by
    cases h
    have hb := body.entryAt_bounds (base + 1)
    refine ⟨[], ?_⟩
    rw [Plan.row_layout_attempt,
      body.row_layout_outside (env.within region) (base + 1) none (by omega),
      handlers.row_layout_outside env (base + 1 + body.size) (body.entryAt (base + 1)) 0 (by omega),
      orelse.row_layoutAfterBody_outside env (base + 1 + body.size + handlers.size)
        (body.exitAt (base + 1)) (by omega),
      final.row_layoutBefore_outside env (base + 1 + body.size + handlers.size + orelse.size) base
        (by omega),
      handlers.after_outside (by omega), Row.after_exitAt_outside (by omega),
      Row.caught_of_ne (by omega), Annex.after_exitAt_outside (by omega) (by omega),
      Row.after_of_ne_some hp]
    rfl

/-- The draft mentions its own nodes only. -/
structure Draft.Closed (s : Draft) : Prop where
  edges : ∀ e ∈ s.made.edges, s.size > e.source ∧ s.size > e.target
  loops : ∀ u, LoopEnds.Among s.loops u → u < s.size

namespace Draft

variable {s t : Draft}

/-- No edge of a piece is lost to an older one, if it leaves or reaches a new node, or leaves a
node that had no edges. -/
theorem Closed.add_eq_extend (hs : s.Closed) {p : Piece}
    (hp : ∀ e ∈ p.edges, s.size ≤ e.source ∨ s.size ≤ e.target ∨
      ∀ o ∈ s.made.edges, o.source ≠ e.source) : s.add p = s.extend p.simple := by
  have hfold : p.edges.foldl Edge.connect s.made.edges =
      s.made.edges ++ Edge.firstPerPair p.edges := by
    refine Edge.foldl_connect _ fun e he o ho => ?_
    have hlt := hs.edges o ho
    rw [Bool.eq_false_iff, ne_eq, Edge.parallel_iff]
    -- older edges stay among the older nodes, so none is parallel to a new edge
    rintro ⟨hsource, htarget⟩
    rw [hsource, htarget] at hlt
    rcases hp e he with h | h | h
    · omega
    · omega
    · exact h o ho hsource
  rw [add, hfold]
  rfl

theorem Closed.extend (hs : s.Closed) {p : Piece}
    (hp : ∀ e ∈ p.edges, s.size + p.size > e.source ∧ s.size + p.size > e.target) :
    (s.extend p).Closed where
  edges := by
    intro e he
    rw [size_extend]
    rcases List.mem_append.1 he with he | he
    · have := hs.edges e he
      omega
    · exact hp e he
  loops := fun u hu => by
    have := hs.loops u hu
    rw [size_extend]
    omega

/-- Building the body extends the draft by a piece, which begins and completes at the nodes of the
fragment. -/
structure Builds (s : Draft) (body : List Stmt) (p : Piece) (f : Fragment) : Prop where
  eq : s.build body = .ok (s.extend p, f)
  within : p.Within s.size s.loops
  entry : s.size ≤ f.entry ∧ s.size + p.size > f.entry
  exit : ∀ u, f.exit = some u → s.size ≤ u ∧ s.size + p.size > u
  open_exit : ∀ u, f.exit = some u → ∃ leaves, p.row u = ⟨[], [], leaves⟩

/-- What building a plan adds to a draft. -/
theorem Closed.build_eq (hs : s.Closed) (body : List Stmt) :
    s.build body = (planBody s.context body).map fun plan =>
      (s.extend ((Plan.orIdle plan).layout s.env s.size none).piece.simple,
        ⟨(Plan.orIdle plan).entryAt s.size, (Plan.orIdle plan).exitAt s.size⟩) := by
  rw [build]
  cases planBody s.context body with
  | error failure => rfl
  | ok plan =>
    have hadd := hs.add_eq_extend fun e he =>
      .inl (((Plan.orIdle plan).within_layout s.env s.size).source e he).1
    simp [bind, Except.bind, pure, Except.pure, Except.map, hadd]

theorem Closed.builds (hs : s.Closed) {body : List Stmt} {plan : Option Plan}
    (h : planBody s.context body = .ok plan) :
    s.Builds body ((Plan.orIdle plan).layout s.env s.size none).piece.simple
      ⟨(Plan.orIdle plan).entryAt s.size, (Plan.orIdle plan).exitAt s.size⟩ := by
  have hsize : ((Plan.orIdle plan).layout s.env s.size none).piece.size =
    (Plan.orIdle plan).size := (Plan.orIdle plan).size_layout s.env s.size none
  refine ⟨?_, ((Plan.orIdle plan).within_layout s.env s.size).simple, ?_, fun u hu => ?_,
    fun u hu => ?_⟩
  · rw [hs.build_eq, h]
    rfl
  · rw [Piece.size_simple, hsize]
    exact (Plan.orIdle plan).entryAt_bounds s.size
  · rw [Piece.size_simple, hsize]
    exact (Plan.orIdle plan).exitAt_bounds s.size hu
  · obtain ⟨leaves, hrow⟩ := (Plan.orIdle plan).row_exit_layout s.env s.size none hu (by simp)
    exact ⟨leaves, Piece.row_simple_of_row hrow⟩

end Draft

/-! ## The same body in another draft -/

/-- A renaming that confuses no two nodes that a piece connects keeps the first of its edges per
pair of nodes. -/
theorem Piece.Moves.simple {f : Nat → Nat} {p q : Piece} (h : p.Moves f q)
    (hf : ∀ e ∈ p.edges, ∀ o ∈ p.edges, (f e.source = f o.source ↔ e.source = o.source) ∧
      (f e.target = f o.target ↔ e.target = o.target)) :
    p.simple.Moves f q.simple where
  nodes := h.nodes
  exits := h.exits
  edges := by
    show Edge.firstPerPair q.edges = (Edge.firstPerPair p.edges).map (Edge.rename f)
    rw [h.edges, Edge.firstPerPair_eq, Edge.firstPerPair_eq]
    refine keepFirst_map _ _ _ fun e he o ho => ?_
    rw [Bool.eq_iff_iff, Edge.parallel_iff, Edge.parallel_iff]
    exact and_congr (hf e he o ho).1 (hf e he o ho).2

/-- The renaming that keeps the nodes before `base` and takes the nodes from there on to those from
`base'` on. -/
def shift (base base' u : Nat) : Nat :=
  if u < base then u else u - base + base'

theorem carries_shift (base base' size : Nat) : Carries (shift base base') base base' size := by
  intro u hu _
  rw [shift, if_neg (by omega)]
  omega

/-- The fragment between the renamed nodes. -/
def Fragment.rename (g : Nat → Nat) (f : Fragment) : Fragment :=
  ⟨g f.entry, f.exit.map g⟩

namespace Draft

variable {s t : Draft}

/-- A shift from one draft to another keeps the loops that both know. -/
theorem Closed.moves_env (hs : s.Closed) (hp : t.toSpot = s.toSpot) :
    s.env.Moves (shift s.size t.size) t.env where
  region := congrArg Spot.region hp
  flat := congrArg (·.options.flatDispatch) hp
  loops := by
    have hl : ∀ ends ∈ s.loops, ends.rename (shift s.size t.size) = ends := by
      intro ends he
      have hhead := hs.loops _ ⟨ends, he, .inl rfl⟩
      have hexit := hs.loops _ ⟨ends, he, .inr rfl⟩
      rw [LoopEnds.rename, shift, if_pos hhead, shift, if_pos hexit]
    show t.loops = s.loops.map _
    rw [List.map_congr_left hl, List.map_id', hp]

/-- Among the new nodes and the ends of loops, no two are confused by the shift. -/
theorem shift_inj {loops : List LoopEnds} {base base' u v : Nat}
    (hl : ∀ u, LoopEnds.Among loops u → u < base ∧ u < base')
    (hu : base ≤ u ∨ LoopEnds.Among loops u) (hv : base ≤ v ∨ LoopEnds.Among loops v) :
    shift base base' u = shift base base' v ↔ u = v := by
  have hu : base ≤ u ∨ u < base ∧ u < base' := hu.imp_right (hl u)
  have hv : base ≤ v ∨ v < base ∧ v < base' := hv.imp_right (hl v)
  unfold shift
  split <;> split <;> omega

/-- In two drafts at the same spot the same body fails for the same reason, or adds the same piece
up to the numbers of new nodes and to whether they belong to a copy. -/
theorem build_cases (hs : s.Closed) (ht : t.Closed) (hp : t.toSpot = s.toSpot)
    (body : List Stmt) :
    (∃ failure, s.build body = .error failure ∧ t.build body = .error failure) ∨
    ∃ p q f, s.Builds body p f ∧ t.Builds body q (f.rename (shift s.size t.size)) ∧
      p.Moves (shift s.size t.size) q := by
  have hcx : t.context = s.context := congrArg Spot.context hp
  cases hplan : planBody s.context body with
  | error failure =>
    refine .inl ⟨failure, ?_, ?_⟩
    · rw [hs.build_eq, hplan]
      rfl
    · rw [ht.build_eq, hcx, hplan]
      rfl
  | ok plan =>
    have hc := carries_shift s.size t.size (Plan.orIdle plan).size
    have htb := ht.builds (hcx ▸ hplan)
    rw [← hc.entryAt, ← hc.exitAt] at htb
    refine .inr ⟨_, _, _, hs.builds hplan, htb, ?_⟩
    refine ((Plan.orIdle plan).moves_layout (hs.moves_env hp) (Option.map_none _) hc).simple ?_
    -- the nodes that the layout connects are new, or ends of loops that both drafts know
    intro e he o ho
    have hw := (Plan.orIdle plan).within_layout s.env s.size
    have hl : ∀ u, LoopEnds.Among s.loops u → u < s.size ∧ u < t.size := fun u hu =>
      ⟨hs.loops u hu, ht.loops u (by rwa [hp])⟩
    exact ⟨shift_inj hl (.inl (hw.source e he).1) (.inl (hw.source o ho).1),
      shift_inj hl ((hw.target e he).imp_left And.left) ((hw.target o ho).imp_left And.left)⟩

end Draft

end Flowgraph
