import Flowgraph.Graph.Build
import Flowgraph.Proofs.Row

/-!
# How a plan is drawn

`Plan.Drawn` says, node by node, how a plan appears in a larger piece: what happens at every node
of the plan, which edges leave it and which exits are at it.  It speaks of all edges of the larger
piece that leave the nodes of the plan, so it pins down the paths through the plan, and it no
longer mentions the order in which nodes and edges were made.

Two things about a plan are settled outside it: `next`, the edges out of the node where the plan
completes, and `handlers`, the exception edges that enclosing `try` statements hang off the node
where the plan begins.

## Main definitions

* `Piece.Shows` : a node of a piece, with its row.
* `Plan.Drawn` : how a plan appears in a piece.
* `Throughout` : a property of all nodes of a part.
* `Plan.Embeds` : a plan sits in a piece.
* `Plan.DrawnWhole` : how the plan of a function appears in its layout.

## Main results

* `Plan.drawn_of_embeds` : where a plan sits in a piece, it is drawn there.
* `Piece.drawnWhole_ofPlan` : the layout of a function draws the plan of its body.
-/

namespace Flowgraph

namespace Piece

/-- The nodes of a piece from `base` on begin with the given ones. -/
def NodesAt (d : Piece) (base : Nat) (nodes : List Node) : Prop :=
  nodes <+: d.nodes.drop base

theorem nodesAt_nil (d : Piece) (base : Nat) : d.NodesAt base [] :=
  List.nil_prefix

theorem nodesAt_cons {d : Piece} {base : Nat} {n : Node} {nodes : List Node} :
    d.NodesAt base (n :: nodes) ↔ d.nodes[base]? = some n ∧ d.NodesAt (base + 1) nodes := by
  unfold NodesAt
  rw [← List.head?_drop, ← List.tail_drop]
  cases d.nodes.drop base with
  | nil => simp
  | cons m ms => simp [List.cons_prefix_cons, eq_comm]

theorem nodesAt_append {d : Piece} {base : Nat} {xs ys : List Node} :
    d.NodesAt base (xs ++ ys) ↔ d.NodesAt base xs ∧ d.NodesAt (base + xs.length) ys := by
  induction xs generalizing base with
  | nil => simp [nodesAt_nil]
  | cons n ns ih =>
    rw [List.cons_append, nodesAt_cons, ih, nodesAt_cons, and_assoc, List.length_cons,
      Nat.add_right_comm, Nat.add_assoc]

/-- The node `u` of a piece and what the piece says about it. -/
structure Shows (d : Piece) (u : Nat) (node : Node) (row : Row) : Prop where
  node : d.nodes[u]? = some node
  row : d.row u = row

/-- The alternatives of a case, from `base` on.  Each leads into the body of the case by `taken`;
in a chain it leads on to the next alternative, and the last one leads on by `onward`. -/
def ShowsAlternatives (d : Piece) (env : Env) (chained : Bool) (taken : Label × NodeId)
    (onward : List (Label × NodeId)) : Nat → List Span → Prop
  | _, [] => True
  | base, [pattern] => d.Shows base (env.node (.caseTest pattern)) ⟨taken :: onward, [], []⟩
  | base, pattern :: rest =>
    d.Shows base (env.node (.caseTest pattern))
      ⟨taken :: if chained then [(.noMatch, base + 1)] else [], [], []⟩ ∧
    ShowsAlternatives d env chained taken onward (base + 1) rest

end Piece

mutual

/-- How a plan, laid out from `base` on, appears in a piece. -/
def Plan.Drawn (d : Piece) (env : Env) (base : Nat) (next handlers : List (Label × NodeId)) :
    Plan → Prop
  | .idle => d.Shows base (env.node .empty) ⟨next, handlers, []⟩
  | .block stmts => d.Shows base (env.node (.block stmts)) ⟨next, handlers, []⟩
  | .yield site => d.Shows base (env.node (.yield site)) ⟨next, handlers, [.suspends site]⟩
  | .jump before site means route =>
    d.Shows base (env.node (.block (before ++ [.jump site means])))
      ⟨route.out env.loops means (base + 1), handlers, route.leaves site means⟩ ∧
    route.Drawn d env (base + 1) site means
  | .raise site route =>
    d.Shows base (env.node (.raise site))
      ⟨route.out env.loops .raising (base + 1), handlers, route.leaves site .raising⟩ ∧
    route.Drawn d env (base + 1) site .raising
  | .hold before header region body =>
    d.Shows base (env.node (.block (before ++ [header])))
      ⟨[(.always, body.entryAt (base + 1))], handlers, []⟩ ∧
    body.Drawn d (env.within region) (base + 1) next []
  | .seq first rest =>
    first.Drawn d env base [(.always, rest.entryAt (base + first.size))] handlers ∧
    rest.Drawn d env (base + first.size) next []
  | .branch test body rest =>
    d.Shows base (env.node (.test test))
      ⟨[(.yes, body.entryAt (base + 2)), (.no, rest.target (base + 2 + body.size) (base + 1))],
        handlers, []⟩ ∧
    d.Shows (base + 1) (env.node .join) ⟨next, [], []⟩ ∧
    body.Drawn d env (base + 2) [(.always, base + 1)] [] ∧
    rest.Drawn d env (base + 2 + body.size) (base + 1)
  | .loop header body orelse =>
    d.Shows base (env.node (.test header))
      ⟨[(.yes, body.entryAt (base + 2)), (.no, orelse.target (base + 2 + body.size) (base + 1))],
        handlers, []⟩ ∧
    d.Shows (base + 1) (env.node .join) ⟨next, [], []⟩ ∧
    body.Drawn d (env.inLoop ⟨base, base + 1⟩) (base + 2) [(.loopBack, base)] [] ∧
    orelse.Drawn d env (base + 2 + body.size) [(.always, base + 1)]
  | .dispatch subject region cases =>
    d.Shows base (env.node (.test subject))
      ⟨cases.offered env.flat .always (base + 2) (base + 1) ++
        (if cases.exhaustive then [] else [(.noMatch, base + 1)]), handlers, []⟩ ∧
    d.Shows (base + 1) (env.node .join) ⟨next, [], []⟩ ∧
    cases.Drawn d (env.within region) (base + 2) (base + 1) 0 true
  | .attempt region body handlers' orelse final =>
    let finish := (.always,
      final.target (base + 1 + body.size + handlers'.size + orelse.size) base)
    d.Shows base (env.node .join) ⟨next, [], []⟩ ∧
    body.Drawn d (env.within region) (base + 1)
      [orelse.bridge (base + 1 + body.size + handlers'.size) finish]
      (handlers'.entries (base + 1 + body.size) 0 ++ handlers) ∧
    handlers'.Drawn d env (base + 1 + body.size) [finish] ∧
    orelse.Drawn d env (base + 1 + body.size + handlers'.size) [finish] ∧
    final.Drawn d env (base + 1 + body.size + handlers'.size + orelse.size) [(.always, base)]

/-- How what follows the failed test of an `if` appears in a piece. -/
def Alternatives.Drawn (d : Piece) (env : Env) (base join : Nat) : Alternatives → Prop
  | .done => True
  | .otherwise body => body.Drawn d env base [(.always, join)] []
  | .test header body rest =>
    d.Shows base (env.node (.test header))
      ⟨[(.yes, body.entryAt (base + 1)), (.no, rest.target (base + 1 + body.size) join)], [], []⟩ ∧
    body.Drawn d env (base + 1) [(.always, join)] [] ∧
    rest.Drawn d env (base + 1 + body.size) join

/-- How the cases of a `match`, counted from `index`, appear in a piece.  After a case that accepts
every subject the remaining ones are no longer `reached`. -/
def Cases.Drawn (d : Piece) (env : Env) (base join index : Nat) (reached : Bool) : Cases → Prop
  | .nil => True
  | .cons patterns catchAll body rest =>
    let chained := !env.flat && reached
    d.ShowsAlternatives env chained (.case index, body.entryAt (base + patterns.length))
      (if chained && !catchAll then
        rest.offered false .noMatch (base + patterns.length + body.size) join
      else [])
      base patterns ∧
    body.Drawn d env (base + patterns.length) [(.always, join)] [] ∧
    rest.Drawn d env (base + patterns.length + body.size) join (index + 1) (reached && !catchAll)

/-- How the handlers of a `try` appear in a piece. -/
def Handlers.Drawn (d : Piece) (env : Env) (base : Nat) (next : List (Label × NodeId)) :
    Handlers → Prop
  | .nil => True
  | .cons region handler rest =>
    handler.Drawn d (env.within region) base next [] ∧
    rest.Drawn d env (base + handler.size) next

/-- How a clause that may be missing appears in a piece. -/
def Annex.Drawn (d : Piece) (env : Env) (base : Nat) (next : List (Label × NodeId)) :
    Annex → Prop
  | .absent => True
  | .present region body => body.Drawn d (env.within region) base next []

/-- How a jump on its way out appears in a piece. -/
def Route.Drawn (d : Piece) (env : Env) (base : Nat) (site : Site) (means : Jump) :
    Route → Prop
  | .arrive => True
  | .leaveLoop rest => rest.Drawn d env.outsideLoop base site means
  | .release header region outside rest =>
    d.Shows base ((env.within region).node (.release header)) ⟨[(.always, base + 1)], [], []⟩ ∧
    d.Shows (base + 1) (env.carryOn outside site means)
      ⟨rest.out env.loops means (base + 2), [], rest.leaves site means⟩ ∧
    rest.Drawn d env (base + 2) site means
  | .replay final outside body rest =>
    body.Drawn d (env.copy final) base [(.resume, base + body.size)] [] ∧
    (body.completes →
      d.Shows (base + body.size) (env.carryOn outside site means)
        ⟨rest.out env.loops means (base + body.size + 1), [], rest.leaves site means⟩ ∧
      rest.Drawn d env (base + body.size + 1) site means)
  | .swallow final body => body.Drawn d (env.copy final) base [] []

end

/-! ## All nodes of a part -/

/-- The property holds of the `size` nodes from `base` on. -/
def Throughout (Q : Nat → Prop) (base size : Nat) : Prop :=
  ∀ u, base ≤ u → u < base + size → Q u

namespace Throughout

variable {Q : Nat → Prop} {base base' size size' : Nat}

theorem zero : Throughout Q base 0 := by
  intro u hu hu'
  omega

theorem one (h : Q base) : Throughout Q base 1 := by
  intro u hu hu'
  obtain rfl : u = base := by omega
  exact h

theorem append (h : Throughout Q base size) (h' : Throughout Q base' size')
    (hb : base + size = base') : Throughout Q base (size + size') := by
  intro u hu hu'
  rcases Nat.lt_or_ge u base' with hlt | hge
  · exact h u hu (by omega)
  · exact h' u hge (by omega)

theorem cons (h : Q base) (h' : Throughout Q (base + 1) size) : Throughout Q base (size + 1) := by
  rw [Nat.add_comm]
  exact (one h).append h' rfl

theorem two (h : Q base) (h' : Q (base + 1)) : Throughout Q base 2 :=
  cons h (one h')

end Throughout

/-! ## A layout draws its plan -/

@[simp] theorem Plan.length_nodes_layout (env : Env) (base : Nat) (previous : Option NodeId)
    (plan : Plan) : (plan.layout env base previous).piece.nodes.length = plan.size :=
  plan.size_layout env base previous

theorem Row.after_apart {previous : Option Nat} {base size u : Nat}
    (h : ∀ w, previous = some w → w < base ∨ base + size ≤ w) (hu : base ≤ u)
    (hu' : u < base + size) (next : List (Label × NodeId)) : after previous next u = nil := by
  refine if_neg fun he => ?_
  have := h u he
  omega

theorem Row.after_previous {previous : Option Nat} {base u : Nat}
    (h : ∀ w, previous = some w → w < base) (hu : base ≤ u) (next : List (Label × NodeId)) :
    after previous next u = nil := by
  refine if_neg fun he => ?_
  have := h u he
  omega

/-- A body goes on to the `else` clause after it, or on its own to where the two complete. -/
theorem Annex.after_continued (annex : Annex) {base u : Nat}
    (h : u < base ∨ base + annex.size ≤ u) (x : Option Nat) (finish : Label × NodeId) :
    Row.after x (annex.continued base) u ++ .after (annex.exitAt base x) [finish] u =
      .after x [annex.bridge base finish] u := by
  cases annex with
  | absent => simp [continued, exitAt, bridge, Row.after_nil]
  | present region body =>
    rw [exitAt, Row.after_exitAt_outside h, Row.append_nil]
    rfl

theorem Annex.after_exitAt_outside {annex : Annex} {body : Plan} {base base' u : Nat}
    (h : u < base ∨ base + annex.size ≤ u) (h' : u < base' ∨ base' + body.size ≤ u)
    (next : List (Label × NodeId)) :
    Row.after (annex.exitAt base (body.exitAt base')) next u = .nil := by
  cases annex with
  | absent => exact Row.after_exitAt_outside h' next
  | present region clause => exact Row.after_exitAt_outside h next

/-- The nodes of a `try`: the join after it, the body, the handlers, the `else` clause and the
`finally` clause. -/
theorem Plan.nodesAt_layout_attempt {d : Piece} {env : Env} {base : Nat} {previous : Option Nat}
    {region : RegionId} {body : Plan} {handlers : Handlers} {orelse final : Annex}
    (h : d.NodesAt base ((attempt region body handlers orelse final).layout env base
      previous).piece.nodes) :
    d.nodes[base]? = some (env.node .join) ∧
    d.NodesAt (base + 1) (body.layout (env.within region) (base + 1) none).piece.nodes ∧
    d.NodesAt (base + 1 + body.size)
      (handlers.layout env (base + 1 + body.size) (body.entryAt (base + 1)) 0).1.nodes ∧
    d.NodesAt (base + 1 + body.size + handlers.size)
      (orelse.layoutAfterBody env (base + 1 + body.size + handlers.size)
        (body.exitAt (base + 1))).1.nodes ∧
    d.NodesAt (base + 1 + body.size + handlers.size + orelse.size)
      (final.layoutBefore env (base + 1 + body.size + handlers.size + orelse.size)
        base).1.nodes := by
  -- how many nodes the handlers and the `else` clause take, so that what follows is in place
  have hl := handlers.size_layout env (base + 1 + body.size) (body.entryAt (base + 1)) 0
  have hl' := orelse.size_layoutAfterBody env (base + 1 + body.size + handlers.size)
    (body.exitAt (base + 1))
  rw [Piece.size] at hl hl'
  simpa [layout, Piece.nodesAt_cons, Piece.nodesAt_append, hl, hl', Piece.size, ← Nat.add_assoc]
    using h

/-- `plan` sits at `base` in the piece `d`: its nodes are there, and `d` says about them what its
layout says, `next` where the plan completes and `handlers` where it begins. -/
structure Plan.Embeds (d : Piece) (env : Env) (base : Nat) (previous : Option Nat)
    (next handlers : List (Label × NodeId)) (plan : Plan) : Prop where
  apart : ∀ w, previous = some w → w < base ∨ base + plan.size ≤ w
  nodes : d.NodesAt base (plan.layout env base previous).piece.nodes
  row : ∀ u, base ≤ u → u < base + plan.size →
    d.row u = (plan.layout env base previous).piece.row u ++
      (.after (plan.exitAt base) next u ++ .caught (plan.entryAt base) handlers u)

/-- The same for a clause that may be missing. -/
def Annex.Embeds (d : Piece) (env : Env) (base : Nat) (next : List (Label × NodeId)) :
    Annex → Prop
  | .absent => True
  | .present region body => body.Embeds d (env.within region) base none next []

/-- The same for what follows the failed test of an `if`. -/
structure Alternatives.Embeds (d : Piece) (env : Env) (base test join : Nat)
    (rest : Alternatives) : Prop where
  test_lt : test < base
  nodes : d.NodesAt base (rest.layout env base test join).nodes
  row : ∀ u, base ≤ u → u < base + rest.size → d.row u = (rest.layout env base test join).row u

/-- The same for the cases of a `match`. -/
structure Cases.Embeds (d : Piece) (env : Env) (base subject join index : Nat)
    (previous : Option Nat) (cases : Cases) : Prop where
  subject_lt : subject < base
  previous_lt : ∀ v, previous = some v → v < base
  nodes : d.NodesAt base (cases.layout env base subject join index previous).nodes
  row : ∀ u, base ≤ u → u < base + cases.size →
    d.row u = (cases.layout env base subject join index previous).row u

/-- The same for the handlers of a `try`. -/
structure Handlers.Embeds (d : Piece) (env : Env) (base body index : Nat)
    (next : List (Label × NodeId)) (handlers : Handlers) : Prop where
  body_lt : body < base
  nodes : d.NodesAt base (handlers.layout env base body index).1.nodes
  row : ∀ u, base ≤ u → u < base + handlers.size →
    d.row u = (handlers.layout env base body index).1.row u ++ handlers.after base next u

/-- The same for a jump on its way out. -/
structure Route.Embeds (d : Piece) (env : Env) (base source : Nat) (site : Site) (means : Jump)
    (route : Route) : Prop where
  source_lt : source < base
  nodes : d.NodesAt base (route.layout env base source site means).nodes
  row : ∀ u, base ≤ u → u < base + route.size →
    d.row u = (route.layout env base source site means).row u

/-- Alternatives are drawn when their nodes are there and each has its row. -/
theorem Piece.showsAlternatives {d : Piece} {env : Env} {chained : Bool} {taken : Label × NodeId}
    {onward : List (Label × NodeId)} :
    ∀ (patterns : List Span) (base : Nat),
      d.NodesAt base (patterns.map fun pattern => env.node (.caseTest pattern)) →
      (∀ i, i < patterns.length → d.row (base + i) =
        ⟨taken :: if i + 1 < patterns.length then
            (if chained then [(.noMatch, base + i + 1)] else []) else onward, [], []⟩) →
      d.ShowsAlternatives env chained taken onward base patterns := by
  intro patterns
  induction patterns with
  | nil => intro _ _ _; trivial
  | cons pattern rest ih =>
    intro base hn hr
    rw [List.map_cons, nodesAt_cons] at hn
    have h0 := hr 0 (by simp)
    -- the last alternative goes on to what follows the case
    cases rest with
    | nil => exact ⟨hn.1, by simpa using h0⟩
    | cons pattern' rest =>
      refine ⟨⟨hn.1, by simpa using h0⟩, ih (base + 1) hn.2 fun i hi => ?_⟩
      have := hr (i + 1) (by simpa using hi)
      rw [show base + (i + 1) = base + 1 + i by omega] at this
      simpa using this

/-- After the alternatives of a case, the next ones are reached unless the case accepts every
subject. -/
theorem isSome_nextPrevious (flat catchAll : Bool) (alternatives : List NodeId)
    (previous : Option NodeId) :
    (nextPrevious flat catchAll alternatives previous).isSome = (previous.isSome && !catchAll) := by
  cases flat <;> cases catchAll <;> simp [nextPrevious]

/-- In a chain the alternatives of the next case are reached from the last one of this case. -/
theorem nextPrevious_chain {base count : Nat} (h : 0 < count) (v : Nat) :
    nextPrevious false false (List.range' base count) (some v) = some (base + count - 1) := by
  obtain ⟨count, rfl⟩ : ∃ n, count = n + 1 := ⟨count - 1, by omega⟩
  have hlast : (List.range' base (count + 1)).getLast? = some (base + count) := by
    simp [List.range'_concat]
  simp [nextPrevious, hlast]

theorem nextPrevious_lt {flat catchAll : Bool} {previous : Option Nat} {base count : Nat}
    (hv : ∀ v, previous = some v → v < base) (w : Nat)
    (h : nextPrevious flat catchAll (List.range' base count) previous = some w) :
    w < base + count := by
  have keep : previous = some w → w < base + count := fun h => by
    have := hv w h
    omega
  cases catchAll with
  | true => simp [nextPrevious] at h
  | false =>
    cases flat with
    -- without a chain everything hangs off the same node
    | true => exact keep (by simpa [nextPrevious] using h)
    | false =>
      rcases Nat.eq_zero_or_pos count with rfl | hc
      · -- a case without alternatives adds nothing to the chain
        exact keep (by simpa [nextPrevious] using h)
      · cases previous with
        | none => simp [nextPrevious] at h
        | some v =>
          rw [nextPrevious_chain hc, Option.some.injEq] at h
          omega

/-- Only the last alternative of a case leads on to the next case, and only in a chain. -/
theorem Row.after_nextPrevious (flat catchAll : Bool) {previous : Option Nat} {base count i : Nat}
    (hv : ∀ v, previous = some v → v < base) (hi : i < count) (next : List (Label × NodeId)) :
    after (nextPrevious flat catchAll (List.range' base count) previous) next (base + i) =
      if i + 1 = count ∧ (!flat && previous.isSome && !catchAll) = true then ⟨next, [], []⟩
      else nil := by
  cases previous with
  | none => cases flat <;> cases catchAll <;> simp [nextPrevious]
  | some v =>
    have := hv v rfl
    cases flat with
    | true => cases catchAll <;> simp [nextPrevious, after_of_ne (show v ≠ base + i by omega)]
    | false =>
      cases catchAll with
      | true => simp [nextPrevious]
      | false =>
        -- the chain goes on from the last alternative only
        rw [nextPrevious_chain (by omega)]
        by_cases hc : i + 1 = count
        · simp [← hc]
        · simp [hc, after_of_ne (show base + count - 1 ≠ base + i by omega)]

/-! ### The parts of what sits in a piece -/

section Embeds

variable {d : Piece} {env : Env} {base : Nat} {previous : Option Nat}
  {next handlers : List (Label × NodeId)}

/-- A node with the way out of the jump at it behind it: about the node the piece says where the
jump goes, and about the nodes behind it only what the route says. -/
theorem Route.embeds_behind {node : Node} {site : Site} {means : Jump} {route : Route}
    (ha : ∀ w, previous = some w → w < base ∨ base + (1 + route.size) ≤ w)
    (hn : d.NodesAt base (node :: (route.layout env (base + 1) base site means).nodes))
    (hr : ∀ u, base ≤ u → u < base + (1 + route.size) →
      d.row u = .after previous [(.always, base)] u ++
        (route.layout env (base + 1) base site means).row u ++ .caught base handlers u) :
    d.Shows base node ⟨route.out env.loops means (base + 1), handlers, route.leaves site means⟩ ∧
      route.Embeds d env (base + 1) base site means := by
  rw [Piece.nodesAt_cons] at hn
  refine ⟨⟨hn.1, ?_⟩, by omega, hn.2, fun u hu hu' => ?_⟩
  · rw [hr base (by omega) (by omega), Row.after_apart ha (by omega) (by omega)]
    simp [Route.row_layout_outside, Row.mk_append_mk]
  · rw [hr u (by omega) (by omega), Row.after_apart ha (by omega) (by omega),
      Row.caught_of_ne (by omega)]
    simp

theorem Plan.Embeds.hold {before : List Stmt} {header : Stmt} {region : RegionId} {body : Plan}
    (h : (Plan.hold before header region body).Embeds d env base previous next handlers) :
    d.Shows base (env.node (.block (before ++ [header])))
      ⟨[(.always, body.entryAt (base + 1))], handlers, []⟩ ∧
    body.Embeds d (env.within region) (base + 1) none next [] := by
  have hn := h.nodes
  have hr := h.row
  -- the node before the plan lies outside it, so the edge from there shows nowhere in it
  have hp := fun u hu hu' nx => Row.after_apart (u := u) h.apart hu hu' nx
  simp only [Plan.size] at hr hp
  simp [Plan.layout, Piece.nodesAt_cons, Plan.exitAt, Plan.entryAt] at hn hr
  refine ⟨⟨hn.1, ?_⟩, by simp, hn.2, fun u hu hu' => ?_⟩
  · rw [hr base (by omega) (by omega)]
    simp (disch := omega) [hp, Plan.row_layout_outside, Row.after_exitAt_outside,
      Row.mk_append_mk]
  · rw [hr u (by omega) (by omega)]
    simp (disch := omega) [hp, Row.after_of_ne, Row.caught_of_ne]

theorem Plan.Embeds.seq {first rest : Plan}
    (h : (Plan.seq first rest).Embeds d env base previous next handlers) :
    first.Embeds d env base previous [(.always, rest.entryAt (base + first.size))] handlers ∧
    rest.Embeds d env (base + first.size) (first.exitAt base) next [] := by
  have hn := h.nodes
  have hr := h.row
  have hp := fun u hu hu' nx => Row.after_apart (u := u) h.apart hu hu' nx
  have ha := h.apart
  simp only [Plan.size] at hr hp ha
  simp [Plan.layout, Piece.nodesAt_append, Plan.exitAt, Plan.entryAt] at hn hr
  have hf := first.size_pos
  have hs := rest.size_pos
  refine ⟨⟨fun w hw => ?_, hn.1, fun u hu hu' => ?_⟩, fun w hw => ?_, hn.2, fun u hu hu' => ?_⟩
  · -- what comes before the sequence comes before its first part
    have := ha w hw
    omega
  · -- the first part: where it completes, the rest connects itself to it
    rw [hr u (by omega) (by omega)]
    simp (disch := omega) [Plan.row_layout_outside, Row.after_exitAt_outside, Row.append_assoc]
  · -- the rest comes after a node of the first part
    have := first.exitAt_bounds base hw
    omega
  · -- the rest: the handlers hang off the first part
    have hb := first.entryAt_bounds base
    rw [hr u (by omega) (by omega)]
    simp (disch := omega) [hp, Plan.row_layout_outside, Row.caught_of_ne]

theorem Plan.Embeds.branch {test : Span} {body : Plan} {rest : Alternatives}
    (h : (Plan.branch test body rest).Embeds d env base previous next handlers) :
    d.Shows base (env.node (.test test))
      ⟨[(.yes, body.entryAt (base + 2)), (.no, rest.target (base + 2 + body.size) (base + 1))],
        handlers, []⟩ ∧
    d.Shows (base + 1) (env.node .join) ⟨next, [], []⟩ ∧
    body.Embeds d env (base + 2) none [(.always, base + 1)] [] ∧
    rest.Embeds d env (base + 2 + body.size) base (base + 1) := by
  have hn := h.nodes
  have hr := h.row
  have hp := fun u hu hu' nx => Row.after_apart (u := u) h.apart hu hu' nx
  simp only [Plan.size] at hr hp
  simp [Plan.layout, Piece.nodesAt_append, Piece.nodesAt_cons, Plan.exitAt, Plan.entryAt] at hn hr
  obtain ⟨h0, h1, hb, ha⟩ := hn
  refine ⟨⟨h0, ?_⟩, ⟨h1, ?_⟩, ⟨by simp, hb, fun u hu hu' => ?_⟩, by omega, ha, fun u hu hu' => ?_⟩
  · -- the test leads to both branches
    rw [hr base (by omega) (by omega)]
    simp (disch := omega) [hp, Plan.row_layout_outside, Alternatives.row_layout_outside,
      Row.after_of_ne, Row.after_exitAt_outside, Row.mk_append_mk]
  · -- the join goes on to what follows the statement
    rw [hr (base + 1) (by omega) (by omega)]
    simp (disch := omega) [hp, Plan.row_layout_outside, Alternatives.row_layout_outside,
      Row.after_of_ne, Row.caught_of_ne, Row.after_exitAt_outside]
  · rw [hr u (by omega) (by omega)]
    simp (disch := omega) [hp, Alternatives.row_layout_outside, Row.after_of_ne, Row.caught_of_ne]
  · rw [hr u (by omega) (by omega)]
    simp (disch := omega) [hp, Plan.row_layout_outside, Row.after_of_ne, Row.caught_of_ne,
      Row.after_exitAt_outside]

theorem Plan.Embeds.loop {header : Span} {body : Plan} {orelse : Annex}
    (h : (Plan.loop header body orelse).Embeds d env base previous next handlers) :
    d.Shows base (env.node (.test header))
      ⟨[(.yes, body.entryAt (base + 2)), (.no, orelse.target (base + 2 + body.size) (base + 1))],
        handlers, []⟩ ∧
    d.Shows (base + 1) (env.node .join) ⟨next, [], []⟩ ∧
    body.Embeds d (env.inLoop ⟨base, base + 1⟩) (base + 2) none [(.loopBack, base)] [] ∧
    orelse.Embeds d env (base + 2 + body.size) [(.always, base + 1)] := by
  have hn := h.nodes
  have hr := h.row
  have hp := fun u hu hu' nx => Row.after_apart (u := u) h.apart hu hu' nx
  simp only [Plan.size] at hr hp
  simp [Plan.layout, Piece.nodesAt_append, Piece.nodesAt_cons, Plan.exitAt, Plan.entryAt] at hn hr
  obtain ⟨h0, h1, hb, ha⟩ := hn
  refine ⟨⟨h0, ?_⟩, ⟨h1, ?_⟩, ⟨by simp, hb, fun u hu hu' => ?_⟩, ?_⟩
  · -- the test leads into the body and out of the loop
    rw [hr base (by omega) (by omega)]
    simp (disch := omega) [hp, Plan.row_layout_outside, Annex.row_layoutAfterLoop_outside,
      Row.after_of_ne, Row.after_exitAt_outside, Row.mk_append_mk]
  · -- the end of the loop goes on to what follows the statement
    rw [hr (base + 1) (by omega) (by omega)]
    simp (disch := omega) [hp, Plan.row_layout_outside, Annex.row_layoutAfterLoop_outside,
      Row.after_of_ne, Row.caught_of_ne, Row.after_exitAt_outside]
  · -- where the body completes, it goes round again
    rw [hr u (by omega) (by omega)]
    simp (disch := omega) [hp, Annex.row_layoutAfterLoop_outside, Row.after_of_ne,
      Row.caught_of_ne]
  · cases orelse with
    | absent => trivial
    | present region clause =>
      simp only [Annex.size, Annex.layoutAfterLoop, Piece.nodes_append, Piece.nodes_edge,
        Piece.nodes_edgeFrom, List.append_nil, Piece.row_append] at hr hp ha
      refine ⟨by simp, ha, fun u hu hu' => ?_⟩
      rw [hr u (by omega) (by omega)]
      simp (disch := omega) [hp, Plan.row_layout_outside, Row.after_of_ne, Row.caught_of_ne,
        Row.after_exitAt_outside]

theorem Plan.Embeds.dispatch {subject : Span} {region : RegionId} {cases : Cases}
    (h : (Plan.dispatch subject region cases).Embeds d env base previous next handlers) :
    d.Shows base (env.node (.test subject))
      ⟨cases.offered env.flat .always (base + 2) (base + 1) ++
        (if cases.exhaustive then [] else [(.noMatch, base + 1)]), handlers, []⟩ ∧
    d.Shows (base + 1) (env.node .join) ⟨next, [], []⟩ ∧
    cases.Embeds d (env.within region) (base + 2) base (base + 1) 0 (some base) := by
  have hn := h.nodes
  have hr := h.row
  have hp := fun u hu hu' nx => Row.after_apart (u := u) h.apart hu hu' nx
  simp only [Plan.size] at hr hp
  simp [Plan.layout, Piece.nodesAt_cons, Plan.exitAt, Plan.entryAt] at hn hr
  obtain ⟨h0, h1, hc⟩ := hn
  refine ⟨⟨h0, ?_⟩, ⟨h1, ?_⟩, by omega, by simp, hc, fun u hu hu' => ?_⟩
  · -- the subject leads to the cases, and past them unless they accept everything
    rw [hr base (by omega) (by omega)]
    cases he : cases.exhaustive <;>
      simp (disch := omega) [hp, Cases.row_layout_outside, Row.after_of_ne, Row.mk_append_mk, he,
        Env.within]
  · rw [hr (base + 1) (by omega) (by omega)]
    cases he : cases.exhaustive <;>
      simp (disch := omega) [hp, Cases.row_layout_outside, Row.after_of_ne, Row.caught_of_ne, he]
  · rw [hr u (by omega) (by omega)]
    simp (disch := omega) [hp, Row.after_of_ne, Row.caught_of_ne]

theorem Plan.Embeds.attempt {region : RegionId} {body : Plan} {handlers' : Handlers}
    {orelse final : Annex}
    (h : (Plan.attempt region body handlers' orelse final).Embeds d env base previous next
      handlers) :
    let finish := (.always,
      final.target (base + 1 + body.size + handlers'.size + orelse.size) base)
    d.Shows base (env.node .join) ⟨next, [], []⟩ ∧
    body.Embeds d (env.within region) (base + 1) none
      [orelse.bridge (base + 1 + body.size + handlers'.size) finish]
      (handlers'.entries (base + 1 + body.size) 0 ++ handlers) ∧
    handlers'.Embeds d env (base + 1 + body.size) (body.entryAt (base + 1)) 0 [finish] ∧
    orelse.Embeds d env (base + 1 + body.size + handlers'.size) [finish] ∧
    final.Embeds d env (base + 1 + body.size + handlers'.size + orelse.size)
      [(.always, base)] := by
  have hr := h.row
  have hp := fun u hu hu' nx => Row.after_apart (u := u) h.apart hu hu' nx
  have hb := body.entryAt_bounds (base + 1)
  have hz := body.size_pos
  simp only [Plan.size] at hr hp
  simp only [Plan.row_layout_attempt, Plan.exitAt, Plan.entryAt] at hr
  obtain ⟨h0, hbody, hhandlers, horelse, hfinal⟩ := Plan.nodesAt_layout_attempt h.nodes
  refine ⟨⟨h0, ?_⟩, ⟨by simp, hbody, fun u hu hu' => ?_⟩,
    ⟨by omega, hhandlers, fun u hu hu' => ?_⟩, ?_, ?_⟩
  · -- the end of the statement
    rw [hr base (by omega) (by omega), hp base (by omega) (by omega)]
    simp (disch := omega) [Plan.row_layout_outside, Handlers.row_layout_outside,
      Annex.row_layoutAfterBody_outside, Annex.row_layoutBefore_outside, Handlers.after_outside,
      Row.after_exitAt_outside, Row.caught_of_ne, Annex.after_exitAt_outside]
  · -- the body: it goes on to the `else` clause, and the handlers hang off it in front of those
    -- that watch over the whole statement
    rw [hr u (by omega) (by omega), hp u (by omega) (by omega), Row.after_of_ne (by omega),
      handlers'.row_layout_outside _ _ _ _ (by omega),
      orelse.row_layoutAfterBody_outside _ _ _ (by omega),
      final.row_layoutBefore_outside _ _ _ (by omega), handlers'.after_outside (by omega)]
    simp only [Row.append_nil, Row.nil_append, Row.append_assoc]
    rw [← Row.append_assoc (.after _ (orelse.continued _) _),
      orelse.after_continued (by omega), ← Row.append_assoc (.caught _ _ _),
      Row.caught_append_after, Row.append_assoc, Row.caught_append]
  · -- the handlers
    rw [hr u (by omega) (by omega), hp u (by omega) (by omega), Row.after_of_ne (by omega)]
    simp (disch := omega) [Plan.row_layout_outside, Row.after_exitAt_outside, Row.caught_of_ne,
      Annex.row_layoutAfterBody_outside, Annex.row_layoutBefore_outside,
      Annex.after_exitAt_outside]
  · cases orelse with
    | absent => trivial
    | present region' clause =>
      simp only [Annex.size, Annex.layoutAfterBody, Annex.exitAt] at hr hp horelse
      refine ⟨by simp, by simpa using horelse, fun u hu hu' => ?_⟩
      rw [hr u (by omega) (by omega), hp u (by omega) (by omega), Row.after_of_ne (by omega)]
      simp (disch := omega) [Plan.row_layout_outside, Row.after_exitAt_outside, Row.caught_of_ne,
        Handlers.row_layout_outside, Annex.row_layoutBefore_outside, Handlers.after_outside,
        Annex.size]
  · cases final with
    | absent => trivial
    | present region' clause =>
      simp only [Annex.size, Annex.layoutBefore] at hr hp hfinal
      refine ⟨by simp, by simpa using hfinal, fun u hu hu' => ?_⟩
      rw [hr u (by omega) (by omega), hp u (by omega) (by omega), Row.after_of_ne (by omega)]
      simp (disch := omega) [Plan.row_layout_outside, Row.after_exitAt_outside, Row.caught_of_ne,
        Handlers.row_layout_outside, Annex.row_layoutAfterBody_outside, Handlers.after_outside,
        Annex.after_exitAt_outside]

theorem Alternatives.Embeds.otherwise {test join : Nat} {body : Plan}
    (h : (Alternatives.otherwise body).Embeds d env base test join) :
    body.Embeds d env base none [(.always, join)] [] := by
  have ht := h.test_lt
  have hn := h.nodes
  have hr := h.row
  simp [Alternatives.layout, Alternatives.size] at hn hr
  refine ⟨by simp, hn, fun u hu hu' => ?_⟩
  rw [hr u hu hu']
  simp (disch := omega) [Row.after_of_ne]

theorem Alternatives.Embeds.further {test join : Nat} {header : Span} {body : Plan}
    {rest : Alternatives} (h : (Alternatives.test header body rest).Embeds d env base test join) :
    d.Shows base (env.node (.test header))
      ⟨[(.yes, body.entryAt (base + 1)), (.no, rest.target (base + 1 + body.size) join)], [], []⟩ ∧
    body.Embeds d env (base + 1) none [(.always, join)] [] ∧
    rest.Embeds d env (base + 1 + body.size) base join := by
  have ht := h.test_lt
  have hn := h.nodes
  have hr := h.row
  simp [Alternatives.layout, Alternatives.size, Piece.nodesAt_append, Piece.nodesAt_cons] at hn hr
  obtain ⟨h0, hb, ha⟩ := hn
  refine ⟨⟨h0, ?_⟩, ⟨by simp, hb, fun u hu hu' => ?_⟩, by omega, ha, fun u hu hu' => ?_⟩
  · -- the further test leads to its own branch and on to the next one
    rw [hr base (by omega) (by omega)]
    simp (disch := omega) [Plan.row_layout_outside, Alternatives.row_layout_outside,
      Row.after_of_ne, Row.after_exitAt_outside, Row.mk_append_mk]
  · rw [hr u (by omega) (by omega)]
    simp (disch := omega) [Alternatives.row_layout_outside, Row.after_of_ne]
  · rw [hr u (by omega) (by omega)]
    simp (disch := omega) [Plan.row_layout_outside, Row.after_of_ne, Row.after_exitAt_outside]

/-- The alternatives of a case are drawn; its body and the cases after it sit behind them. -/
theorem Cases.Embeds.cons {subject join index : Nat} {patterns : List Span} {catchAll : Bool}
    {body : Plan} {rest : Cases}
    (h : (Cases.cons patterns catchAll body rest).Embeds d env base subject join index previous) :
    d.ShowsAlternatives env (!env.flat && previous.isSome)
      (.case index, body.entryAt (base + patterns.length))
      (if (!env.flat && previous.isSome) && !catchAll then
        rest.offered false .noMatch (base + patterns.length + body.size) join
      else [])
      base patterns ∧
    body.Embeds d env (base + patterns.length) none [(.always, join)] [] ∧
    rest.Embeds d env (base + patterns.length + body.size) subject join (index + 1)
      (nextPrevious env.flat catchAll (List.range' base patterns.length) previous) := by
  have hs := h.subject_lt
  have hv := h.previous_lt
  have hn := h.nodes
  have hr := h.row
  simp only [Cases.layout, Cases.size, Plan.entry_layout, Plan.exit_layout, Plan.size_layout,
    Piece.nodes_append, Piece.nodes_ofNodes, Piece.nodes_edgeFrom, Piece.nodes_ofEdges,
    List.append_nil, Piece.nodesAt_append, List.length_append, List.length_map,
    Plan.length_nodes_layout, Piece.row_append, Piece.row_ofNodes, Row.nil_append,
    Piece.row_edgeFrom, Label.isException_always, Bool.false_eq_true, if_false] at hn hr
  obtain ⟨⟨ha, hb⟩, hc⟩ := hn
  rw [← Nat.add_assoc] at hc
  have hp := fun u hu nx => Row.after_previous (u := u) hv hu nx
  -- what leads past the cases leaves the subject, which comes before them
  have hne : ∀ u, base ≤ u → ∀ b, Row.after (if b = true then none else some subject)
      [(.noMatch, join)] u = .nil := by
    intro u hu b
    cases b
    · exact Row.after_of_ne (by omega) _
    · rfl
  refine ⟨Piece.showsAlternatives patterns base ha fun i hi => ?_,
    ⟨by simp, hb, fun u hu hu' => ?_⟩, by omega, fun w hw => ?_, hc, fun u hu hu' => ?_⟩
  · -- an alternative: only the last one leads on to the next case
    rw [hr (base + i) (by omega) (by omega), Plan.row_layout_outside _ _ _ _ (by omega),
      Row.after_exitAt_outside (by omega),
      row_alternativeEdges_inside _ _ _ _ _ _ _ _ hi (by omega) hv,
      Cases.row_layout_outside _ _ _ _ _ _ _ (by omega), Row.after_nextPrevious _ _ hv hi,
      hne _ (by omega)]
    by_cases hlt : i + 1 < patterns.length
    · have hlast : i + 1 ≠ patterns.length := by omega
      cases env.flat <;> cases previous <;> simp [hlt, hlast]
    · have hlast : i + 1 = patterns.length := by omega
      cases env.flat <;> cases previous <;> cases catchAll <;> simp [hlast, Row.mk_append_mk]
      rw [nextPrevious_chain (by omega), if_neg (by simp; omega)]
  · -- the body of the case
    rw [hr u (by omega) (by omega), row_alternativeEdges_outside _ _ _ _ _ _ _ (by omega),
      Cases.row_layout_outside _ _ _ _ _ _ _ (by omega), hp u (by omega),
      Row.after_previous (nextPrevious_lt hv) (by omega), hne u (by omega)]
    simp
  · have := nextPrevious_lt hv w hw
    omega
  · -- the cases after it
    rw [hr u (by omega) (by omega), Plan.row_layout_outside _ _ _ _ (by omega),
      Row.after_exitAt_outside (by omega),
      row_alternativeEdges_outside _ _ _ _ _ _ _ (by omega), hp u (by omega)]
    simp

theorem Handlers.Embeds.cons {body index : Nat} {region : RegionId} {handler : Plan}
    {rest : Handlers} (h : (Handlers.cons region handler rest).Embeds d env base body index next) :
    handler.Embeds d (env.within region) base none next [] ∧
    rest.Embeds d env (base + handler.size) body (index + 1) next := by
  have hb := h.body_lt
  have hn := h.nodes
  have hr := h.row
  simp [Handlers.layout, Handlers.size, Handlers.after, Piece.nodesAt_append] at hn hr
  refine ⟨⟨by simp, hn.1, fun u hu hu' => ?_⟩, by omega, hn.2, fun u hu hu' => ?_⟩
  · rw [hr u (by omega) (by omega)]
    simp (disch := omega) [Handlers.row_layout_outside, Handlers.after_outside, Row.caught_of_ne]
  · rw [hr u (by omega) (by omega)]
    simp (disch := omega) [Plan.row_layout_outside, Row.after_exitAt_outside, Row.caught_of_ne]

section Route

variable {source : Nat} {site : Site} {means : Jump}

theorem Route.Embeds.release {header : Span} {region outside : RegionId} {rest : Route}
    (h : (Route.release header region outside rest).Embeds d env base source site means) :
    d.Shows base ((env.within region).node (.release header)) ⟨[(.always, base + 1)], [], []⟩ ∧
    d.Shows (base + 1) (env.carryOn outside site means)
      ⟨rest.out env.loops means (base + 2), [], rest.leaves site means⟩ ∧
    rest.Embeds d env (base + 2) (base + 1) site means := by
  have hs := h.source_lt
  have hn := h.nodes
  have hr := h.row
  simp [Route.layout, Route.size, Piece.nodesAt_cons] at hn hr
  obtain ⟨h0, h1, hn⟩ := hn
  refine ⟨⟨h0, ?_⟩, ⟨h1, ?_⟩, by omega, hn, fun u hu hu' => ?_⟩
  · rw [hr base (by omega) (by omega)]
    simp (disch := omega) [Route.row_layout_outside, Row.after_of_ne]
  · rw [hr (base + 1) (by omega) (by omega)]
    simp (disch := omega) [Route.row_layout_outside, Row.after_of_ne]
  · rw [hr u (by omega) (by omega)]
    simp (disch := omega) [Row.after_of_ne]

/-- The jump is carried on behind the copied clause if the clause completes. -/
theorem Route.Embeds.replay {final outside : RegionId} {body : Plan} {rest : Route}
    (h : (Route.replay final outside body rest).Embeds d env base source site means) :
    body.Embeds d (env.copy final) base none [(.resume, base + body.size)] [] ∧
    (body.completes →
      d.Shows (base + body.size) (env.carryOn outside site means)
        ⟨rest.out env.loops means (base + body.size + 1), [], rest.leaves site means⟩ ∧
      rest.Embeds d env (base + body.size + 1) (base + body.size) site means) := by
  have hs := h.source_lt
  have hn := h.nodes
  have hr := h.row
  have hc := body.isSome_exitAt base
  simp [Route.layout, Route.size] at hn hr
  cases he : body.exitAt base with
  -- the copied clause does not complete, and the jump ends in it
  | none =>
    simp only [he, Option.isSome_none] at hc
    simp [he, ← hc] at hn hr
    refine ⟨⟨by simp, hn, fun u hu hu' => ?_⟩, by simp [← hc]⟩
    rw [hr u hu hu']
    simp (disch := omega) [Row.after_of_ne, he]
  -- the copied clause completes, and the jump is carried on after it
  | some last =>
    have hl := body.exitAt_bounds base he
    simp only [he, Option.isSome_some] at hc
    simp [he, ← hc, Piece.nodesAt_append, Piece.nodesAt_cons] at hn hr
    obtain ⟨hb, h0, hn⟩ := hn
    refine ⟨⟨by simp, hb, fun u hu hu' => ?_⟩,
      fun _ => ⟨⟨h0, ?_⟩, by omega, hn, fun u hu hu' => ?_⟩⟩
    · rw [hr u (by omega) (by omega)]
      have hne : base + body.size ≠ u := by omega
      simp (disch := omega) [Row.after_of_ne, Route.row_layout_outside, he, hne]
    · rw [hr (base + body.size) (by omega) (by omega)]
      simp (disch := omega) [Row.after_of_ne, Route.row_layout_outside, Plan.row_layout_outside]
    · rw [hr u (by omega) (by omega)]
      simp (disch := omega) [Row.after_of_ne, Plan.row_layout_outside]

theorem Route.Embeds.swallow {final : RegionId} {body : Plan}
    (h : (Route.swallow final body).Embeds d env base source site means) :
    body.Embeds d (env.copy final) base none [] [] := by
  have hs := h.source_lt
  have hn := h.nodes
  have hr := h.row
  simp [Route.layout, Route.size] at hn hr
  refine ⟨by simp, hn, fun u hu hu' => ?_⟩
  rw [hr u hu hu']
  simp (disch := omega) [Row.after_of_ne, Row.after_nil]

end Route

end Embeds

/-! ### What sits in a piece is drawn there -/

mutual

/-- A plan that sits in a piece is drawn there. -/
theorem Plan.drawn_of_embeds {d : Piece} (env : Env) (base : Nat) (previous : Option Nat)
    (next handlers : List (Label × NodeId)) : (plan : Plan) →
      plan.Embeds d env base previous next handlers → plan.Drawn d env base next handlers
  | .idle, h | .block _, h | .yield _, h => by
    have hn := h.nodes
    have hr := h.row base (by omega) (by simp [Plan.size])
    simp only [Plan.layout, Piece.nodes_append, Piece.nodes_ofNodes, Piece.nodes_edgeFrom,
      Piece.nodes_ofExit, List.append_nil, Piece.nodesAt_cons] at hn
    refine ⟨hn.1, ?_⟩
    rw [hr]
    simp [Plan.layout, Plan.exitAt, Plan.entryAt, Piece.row_ofExit,
      Row.after_apart (u := base) h.apart (by omega) (by simp [Plan.size]), Row.mk_append_mk]
  | .jump before site means route, h => by
    obtain ⟨h0, hr⟩ := Route.embeds_behind h.apart (by simpa [Plan.layout] using h.nodes)
      (by simpa [Plan.layout, Plan.size, Plan.exitAt, Plan.entryAt] using h.row)
    exact ⟨h0, route.drawn_of_embeds env (base + 1) base site means hr⟩
  | .raise site route, h => by
    obtain ⟨h0, hr⟩ := Route.embeds_behind h.apart (by simpa [Plan.layout] using h.nodes)
      (by simpa [Plan.layout, Plan.size, Plan.exitAt, Plan.entryAt] using h.row)
    exact ⟨h0, route.drawn_of_embeds env (base + 1) base site .raising hr⟩
  | .hold before header region body, h => by
    obtain ⟨h0, hb⟩ := h.hold
    exact ⟨h0, body.drawn_of_embeds (env.within region) (base + 1) none next [] hb⟩
  | .seq first rest, h => by
    obtain ⟨hf, hr⟩ := h.seq
    exact ⟨first.drawn_of_embeds env base previous _ handlers hf,
      rest.drawn_of_embeds env (base + first.size) (first.exitAt base) next [] hr⟩
  | .branch test body rest, h => by
    obtain ⟨h0, h1, hb, hr⟩ := h.branch
    exact ⟨h0, h1, body.drawn_of_embeds env (base + 2) none _ _ hb,
      rest.drawn_of_embeds env _ base (base + 1) hr⟩
  | .loop header body orelse, h => by
    obtain ⟨h0, h1, hb, ho⟩ := h.loop
    exact ⟨h0, h1, body.drawn_of_embeds _ (base + 2) none _ _ hb,
      orelse.drawn_of_embeds env (base + 2 + body.size) _ ho⟩
  | .dispatch subject region cases, h => by
    obtain ⟨h0, h1, hc⟩ := h.dispatch
    exact ⟨h0, h1, cases.drawn_of_embeds (env.within region) (base + 2) base (base + 1) 0
      (some base) hc⟩
  | .attempt region body handlers' orelse final, h => by
    obtain ⟨h0, hb, hh, ho, hf⟩ := h.attempt
    exact ⟨h0, body.drawn_of_embeds _ _ none _ _ hb,
      handlers'.drawn_of_embeds env _ (body.entryAt (base + 1)) 0 _ hh,
      orelse.drawn_of_embeds env _ _ ho, final.drawn_of_embeds env _ _ hf⟩

/-- What follows a failed test is drawn where it sits. -/
theorem Alternatives.drawn_of_embeds {d : Piece} (env : Env) (base test join : Nat) :
    (rest : Alternatives) → rest.Embeds d env base test join → rest.Drawn d env base join
  | .done, _ => trivial
  | .otherwise body, h => body.drawn_of_embeds env base none _ _ h.otherwise
  | .test header body rest, h => by
    obtain ⟨h0, hb, hr⟩ := h.further
    exact ⟨h0, body.drawn_of_embeds env (base + 1) none _ _ hb,
      rest.drawn_of_embeds env (base + 1 + body.size) base join hr⟩

/-- The cases of a `match` are drawn where they sit. -/
theorem Cases.drawn_of_embeds {d : Piece} (env : Env) (base subject join index : Nat)
    (previous : Option Nat) : (cases : Cases) →
      cases.Embeds d env base subject join index previous →
        cases.Drawn d env base join index previous.isSome
  | .nil, _ => trivial
  | .cons patterns catchAll body rest, h => by
    obtain ⟨ha, hb, hr⟩ := h.cons
    refine ⟨ha, body.drawn_of_embeds env (base + patterns.length) none _ _ hb, ?_⟩
    -- the cases after this one are reached from somewhere, unless it accepts every subject
    rw [← isSome_nextPrevious env.flat catchAll (List.range' base patterns.length)]
    exact rest.drawn_of_embeds env _ subject join (index + 1) _ hr

/-- The handlers of a `try` are drawn where they sit. -/
theorem Handlers.drawn_of_embeds {d : Piece} (env : Env) (base body index : Nat)
    (next : List (Label × NodeId)) : (handlers : Handlers) →
      handlers.Embeds d env base body index next → handlers.Drawn d env base next
  | .nil, _ => trivial
  | .cons region handler rest, h => by
    obtain ⟨hh, hr⟩ := h.cons
    exact ⟨handler.drawn_of_embeds (env.within region) base none next [] hh,
      rest.drawn_of_embeds env (base + handler.size) body (index + 1) next hr⟩

/-- A clause that may be missing is drawn where it sits. -/
theorem Annex.drawn_of_embeds {d : Piece} (env : Env) (base : Nat) (next : List (Label × NodeId)) :
    (annex : Annex) → annex.Embeds d env base next → annex.Drawn d env base next
  | .absent, _ => trivial
  | .present region body, h => body.drawn_of_embeds (env.within region) base none next [] h

/-- A jump on its way out is drawn where it sits. -/
theorem Route.drawn_of_embeds {d : Piece} (env : Env) (base source : Nat) (site : Site)
    (means : Jump) : (route : Route) →
      route.Embeds d env base source site means → route.Drawn d env base site means
  | .arrive, _ => trivial
  | .leaveLoop rest, h => rest.drawn_of_embeds env.outsideLoop base source site means
      ⟨h.source_lt, h.nodes, h.row⟩
  | .release header region outside rest, h => by
    obtain ⟨h0, h1, hr⟩ := h.release
    exact ⟨h0, h1, rest.drawn_of_embeds env (base + 2) (base + 1) site means hr⟩
  | .replay final outside body rest, h => by
    obtain ⟨hb, hr⟩ := h.replay
    exact ⟨body.drawn_of_embeds (env.copy final) base none _ _ hb, fun hc => ⟨(hr hc).1,
      rest.drawn_of_embeds env (base + body.size + 1) (base + body.size) site means (hr hc).2⟩⟩
  | .swallow final body, h => body.drawn_of_embeds (env.copy final) base none _ _ h.swallow

end

/-! ## The layout of a function -/

/-- The place of the body of a function. -/
def Env.ofFunction (flat : Bool) : Env where
  region := RegionTree.root
  duplicate := false
  flat := flat
  loops := []

/-- How the plan of a function appears in its layout: the entry leads to the plan, the plan to the
exit, and control falls off the end at the exit. -/
structure Plan.DrawnWhole (d : Piece) (flat : Bool) (plan : Plan) : Prop where
  length_nodes : d.nodes.length = plan.size + 2
  entry : d.Shows 0 ((Env.ofFunction flat).node .entry) ⟨[(.always, plan.entryAt 1)], [], []⟩
  body : plan.Drawn d (.ofFunction flat) 1 [(.always, plan.size + 1)] []
  exit : d.Shows (plan.size + 1) ((Env.ofFunction flat).node .exit) ⟨[], [], [.fallsThrough]⟩
  row_eq_nil : ∀ u, plan.size + 2 ≤ u → d.row u = .nil

/-- The layout of a function draws the plan of its body. -/
theorem Piece.drawnWhole_ofPlan (flat : Bool) (plan : Plan) :
    plan.DrawnWhole (ofPlan flat plan).1 flat := by
  have hrow : ∀ u, (ofPlan flat plan).1.row u =
      (plan.layout (.ofFunction flat) 1 none).piece.row u ++
        .after (some 0) [(.always, plan.entryAt 1)] u ++
        .after (plan.exitAt 1) [(.always, plan.size + 1)] u ++
        (if plan.size + 1 = u then ⟨[], [], [.fallsThrough]⟩ else .nil) := by
    intro u
    simp [ofPlan, row_ofExit, Env.ofFunction, Nat.add_comm 1]
  have hnodes : (ofPlan flat plan).1.NodesAt 0
      ((Env.ofFunction flat).node .entry :: ((plan.layout (.ofFunction flat) 1 none).piece.nodes ++
        [(Env.ofFunction flat).node .exit])) := by
    simp [NodesAt, ofPlan, Env.ofFunction]
  rw [nodesAt_cons, nodesAt_append, nodesAt_cons] at hnodes
  obtain ⟨h0, hbody, hexit, -⟩ := hnodes
  have hpos := plan.size_pos
  refine ⟨by simp [ofPlan], ⟨h0, ?_⟩, ?_, ⟨?_, ?_⟩, fun u hu => ?_⟩
  · -- the entry
    rw [hrow, if_neg (by omega)]
    simp (disch := omega) [Plan.row_layout_outside, Row.after_exitAt_outside]
  · -- the body of the function sits between the entry and the exit
    refine plan.drawn_of_embeds _ 1 none _ [] ⟨nofun, hbody, fun u hu hu' => ?_⟩
    rw [hrow, if_neg (by omega), Row.after_of_ne (by omega)]
    simp
  · simpa [Nat.add_comm 1] using hexit
  · rw [hrow, if_pos rfl]
    simp (disch := omega) [Plan.row_layout_outside, Row.after_exitAt_outside, Row.after_of_ne]
  · -- nothing is said about nodes that are not there
    rw [hrow, if_neg (by omega)]
    simp (disch := omega) [Plan.row_layout_outside, Row.after_exitAt_outside, Row.after_of_ne]

end Flowgraph
