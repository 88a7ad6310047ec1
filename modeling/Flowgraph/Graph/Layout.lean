import Flowgraph.Graph.Edge
import Flowgraph.Graph.Exit
import Flowgraph.Plan.Basic

/-!
# Laying out a plan

The layout of a plan only ever adds to a graph: it is a list of new nodes, a list of
requested edges and a list of exits.  New nodes are numbered from a given base, so the layout
of a part depends on what was made before it only through that number.

The same two nodes may be requested to be connected twice; it is left to the graph to keep
the first edge.

## Main definitions

* `Piece` : nodes, requested edges and exits.
* `Stretch` : a piece with the node where it begins and the node where it completes.
* `Env` : where new nodes stand, and which loops a jump can reach.
* `Plan.layout` : the layout of a plan.
* `Route.layout` : the layout of a jump on its way out.
-/

namespace Flowgraph

/-- What is added to a graph: new nodes, requested edges and exits, each in order. -/
structure Piece where
  /-- The new nodes. -/
  nodes : List Node
  /-- The requested edges. -/
  edges : List Edge
  /-- The exits. -/
  exits : List Exit
deriving Repr

namespace Piece

/-- Nothing is added. -/
def nil : Piece := ⟨[], [], []⟩

/-- One piece after another. -/
def append (p q : Piece) : Piece :=
  ⟨p.nodes ++ q.nodes, p.edges ++ q.edges, p.exits ++ q.exits⟩

instance : Append Piece := ⟨append⟩

@[simp] theorem nodes_nil : nil.nodes = [] := rfl

@[simp] theorem edges_nil : nil.edges = [] := rfl

@[simp] theorem exits_nil : nil.exits = [] := rfl

@[simp] theorem nodes_append (p q : Piece) : (p ++ q).nodes = p.nodes ++ q.nodes := rfl

@[simp] theorem edges_append (p q : Piece) : (p ++ q).edges = p.edges ++ q.edges := rfl

@[simp] theorem exits_append (p q : Piece) : (p ++ q).exits = p.exits ++ q.exits := rfl

/-- Only nodes are added. -/
def ofNodes (nodes : List Node) : Piece := ⟨nodes, [], []⟩

/-- Only edges are added. -/
def ofEdges (edges : List Edge) : Piece := ⟨[], edges, []⟩

/-- Only an exit is added. -/
def ofExit (exit : Exit) : Piece := ⟨[], [], [exit]⟩

@[simp] theorem nodes_ofNodes (nodes : List Node) : (ofNodes nodes).nodes = nodes := rfl

@[simp] theorem edges_ofNodes (nodes : List Node) : (ofNodes nodes).edges = [] := rfl

@[simp] theorem exits_ofNodes (nodes : List Node) : (ofNodes nodes).exits = [] := rfl

@[simp] theorem nodes_ofEdges (edges : List Edge) : (ofEdges edges).nodes = [] := rfl

@[simp] theorem edges_ofEdges (edges : List Edge) : (ofEdges edges).edges = edges := rfl

@[simp] theorem exits_ofEdges (edges : List Edge) : (ofEdges edges).exits = [] := rfl

@[simp] theorem nodes_ofExit (exit : Exit) : (ofExit exit).nodes = [] := rfl

@[simp] theorem edges_ofExit (exit : Exit) : (ofExit exit).edges = [] := rfl

@[simp] theorem exits_ofExit (exit : Exit) : (ofExit exit).exits = [exit] := rfl

/-- An edge. -/
def edge (source target : NodeId) (label : Label) : Piece :=
  ofEdges [⟨source, target, label⟩]

/-- An edge from a node that may not exist: nothing comes from where control does not. -/
def edgeFrom (source : Option NodeId) (target : NodeId) (label : Label) : Piece :=
  ofEdges (source.toList.map fun u => ⟨u, target, label⟩)

@[simp] theorem nodes_edge (u v : NodeId) (label : Label) : (edge u v label).nodes = [] := rfl

@[simp] theorem edges_edge (u v : NodeId) (label : Label) :
    (edge u v label).edges = [⟨u, v, label⟩] := rfl

@[simp] theorem exits_edge (u v : NodeId) (label : Label) : (edge u v label).exits = [] := rfl

@[simp] theorem nodes_edgeFrom (source : Option NodeId) (v : NodeId) (label : Label) :
    (edgeFrom source v label).nodes = [] := rfl

@[simp] theorem edges_edgeFrom_none (v : NodeId) (label : Label) :
    (edgeFrom none v label).edges = [] := rfl

@[simp] theorem edges_edgeFrom_some (u v : NodeId) (label : Label) :
    (edgeFrom (some u) v label).edges = [⟨u, v, label⟩] := rfl

@[simp] theorem exits_edgeFrom (source : Option NodeId) (v : NodeId) (label : Label) :
    (edgeFrom source v label).exits = [] := rfl

/-- The number of new nodes. -/
def size (p : Piece) : Nat :=
  p.nodes.length

@[simp] theorem size_append (p q : Piece) : (p ++ q).size = p.size + q.size := by
  simp [size]

end Piece

/-- A piece with the node where it begins and, if it can complete, the node where it does. -/
structure Stretch where
  /-- What is added to the graph. -/
  piece : Piece
  /-- Where the stretch begins. -/
  entry : NodeId
  /-- Where it completes. -/
  exit : Option NodeId
deriving Repr

/-- The number of new nodes of a stretch. -/
def Stretch.size (f : Stretch) : Nat :=
  f.piece.size

/-- The two nodes of a loop that jumps lead to. -/
structure LoopEnds where
  /-- Where the loop decides whether to go round again. -/
  head : NodeId
  /-- Where control continues after the loop. -/
  exit : NodeId
deriving DecidableEq, Repr

/-- Where new nodes stand, and which loops a jump can reach. -/
structure Env where
  /-- The region of new nodes. -/
  region : RegionId
  /-- New nodes belong to a copy. -/
  duplicate : Bool
  /-- The subject of a `match` is connected to every alternative. -/
  flat : Bool
  /-- The loops around the new nodes, innermost first. -/
  loops : List LoopEnds
deriving Repr

namespace Env

/-- A new node. -/
def node (env : Env) (content : Content) : Node where
  content := content
  region := env.region
  duplicate := env.duplicate

@[simp] theorem content_node (env : Env) (content : Content) :
    (env.node content).content = content := rfl

@[simp] theorem region_node (env : Env) (content : Content) :
    (env.node content).region = env.region := rfl

@[simp] theorem duplicate_node (env : Env) (content : Content) :
    (env.node content).duplicate = env.duplicate := rfl

/-- The same place in another region. -/
def within (env : Env) (region : RegionId) : Env :=
  { env with region }

/-- A place in a copy of the code of a region. -/
def copy (env : Env) (region : RegionId) : Env :=
  { env with region, duplicate := true }

/-- The body of a loop. -/
def inLoop (env : Env) (ends : LoopEnds) : Env :=
  { env with loops := ends :: env.loops }

/-- The place outside the innermost loop. -/
def outsideLoop (env : Env) : Env :=
  { env with loops := env.loops.tail }

/-- A new node that carries on with a jump after leaving an enclosure. -/
def carryOn (env : Env) (region : RegionId) (site : Site) (means : Jump) : Node :=
  (env.copy region).node <|
    match means with
    | .raising => .raise site
    | means => .block [.jump site means]

end Env

/-- The end of a jump: an edge to a loop, or an exit of the function. -/
def arrival (env : Env) (source : NodeId) (site : Site) : Jump → Piece
  | .returning => .ofExit ⟨source, .returns site⟩
  | .raising => .ofExit ⟨source, .raises site⟩
  | .breaking => .ofEdges (env.loops.head?.toList.map fun ends => ⟨source, ends.exit, .always⟩)
  | .continuing => .ofEdges (env.loops.head?.toList.map fun ends => ⟨source, ends.head, .loopBack⟩)

/-- The edges at the alternatives of one case.  Each leads into the body of the case, and is
reached from `previous`, if an earlier case has not taken every subject.  In a chain the next
alternative is then reached from this one. -/
def alternativeEdges (flat : Bool) (subject body : NodeId) (index : Nat) :
    Option NodeId → List NodeId → List Edge
  | _, [] => []
  | none, u :: rest => ⟨u, body, .case index⟩ :: alternativeEdges flat subject body index none rest
  | some v, u :: rest =>
    ⟨u, body, .case index⟩ :: ⟨v, u, if v = subject then .always else .noMatch⟩ ::
      alternativeEdges flat subject body index (some (if flat then v else u)) rest

/-- Where the alternatives of the next case are reached from. -/
def nextPrevious (flat catchAll : Bool) (alternatives : List NodeId) (previous : Option NodeId) :
    Option NodeId :=
  if catchAll then none
  else if flat then previous
  else previous.map fun v => alternatives.getLastD v

mutual

/-- The layout of a plan, with new nodes numbered from `base`.  `previous` is the node where
the statements before it in the same sequence complete. -/
def Plan.layout (env : Env) (base : NodeId) (previous : Option NodeId) : Plan → Stretch
  | .idle =>
    { piece := .ofNodes [env.node .empty] ++ .edgeFrom previous base .always
      entry := base, exit := some base }
  | .block stmts =>
    { piece := .ofNodes [env.node (.block stmts)] ++ .edgeFrom previous base .always
      entry := base, exit := some base }
  | .yield site =>
    { piece := .ofNodes [env.node (.yield site)] ++ .ofExit ⟨base, .suspends site⟩ ++
        .edgeFrom previous base .always
      entry := base, exit := some base }
  | .jump before site means route =>
    { piece := .ofNodes [env.node (.block (before ++ [.jump site means]))] ++
        .edgeFrom previous base .always ++
        route.layout env (base + 1) base site means
      entry := base, exit := none }
  | .raise site route =>
    { piece := .ofNodes [env.node (.raise site)] ++ .edgeFrom previous base .always ++
        route.layout env (base + 1) base site .raising
      entry := base, exit := none }
  | .hold before header region body =>
    -- the header itself is outside the region that it opens
    let body := body.layout (env.within region) (base + 1) none
    { piece := .ofNodes [env.node (.block (before ++ [header]))] ++
        .edgeFrom previous base .always ++ body.piece ++ .edge base body.entry .always
      entry := base, exit := body.exit }
  | .seq first rest =>
    let first := first.layout env base previous
    let rest := rest.layout env (base + first.size) first.exit
    { piece := first.piece ++ rest.piece, entry := first.entry, exit := rest.exit }
  | .branch test body rest =>
    -- the test and the join are numbered before the branches; the edge from what comes before is
    -- the last one
    let join := base + 1
    let body := body.layout env (base + 2) none
    { piece := .ofNodes [env.node (.test test), env.node .join] ++ body.piece ++
        .edge base body.entry .yes ++ .edgeFrom body.exit join .always ++
        rest.layout env (base + 2 + body.size) base join ++ .edgeFrom previous base .always
      entry := base, exit := some join }
  | .loop header body orelse =>
    let after := base + 1
    let body := body.layout (env.inLoop ⟨base, after⟩) (base + 2) none
    { piece := .ofNodes [env.node (.test header), env.node .join] ++ body.piece ++
        .edge base body.entry .yes ++ .edgeFrom body.exit base .loopBack ++
        orelse.layoutAfterLoop env (base + 2 + body.size) base after ++
        .edgeFrom previous base .always
      entry := base, exit := some after }
  | .dispatch subject region cases =>
    let join := base + 1
    { piece := .ofNodes [env.node (.test subject), env.node .join] ++
        cases.layout (env.within region) (base + 2) base join 0 (some base) ++
        .edgeFrom previous base .always
      entry := base, exit := some join }
  | .attempt region body handlers orelse final =>
    let body := body.layout (env.within region) (base + 1) none
    let (handlers, handled) := handlers.layout env (base + 1 + body.size) body.entry 0
    let (orelse, completed) :=
      orelse.layoutAfterBody env (base + 1 + body.size + handlers.size) body.exit
    let (final, target) :=
      final.layoutBefore env (base + 1 + body.size + handlers.size + orelse.size) base
    { piece := .ofNodes [env.node .join] ++ body.piece ++ handlers ++ orelse ++ final ++
        .ofEdges ((completed.toList ++ handled).map fun u => ⟨u, target, .always⟩) ++
        .edgeFrom previous body.entry .always
      entry := body.entry, exit := some base }

/-- The layout of what follows the failed test of an `if`. -/
def Alternatives.layout (env : Env) (base test join : NodeId) : Alternatives → Piece
  | .done => .edge test join .no
  | .otherwise body =>
    let body := body.layout env base none
    body.piece ++ .edge test body.entry .no ++ .edgeFrom body.exit join .always
  | .test header body rest =>
    let body := body.layout env (base + 1) none
    .ofNodes [env.node (.test header)] ++ .edge test base .no ++ body.piece ++
      .edge base body.entry .yes ++ .edgeFrom body.exit join .always ++
      rest.layout env (base + 1 + body.size) base join

/-- The layout of the cases of a `match`, counted from `index`.  The alternatives of the first
of them are reached from `previous`. -/
def Cases.layout (env : Env) (base subject join : NodeId) (index : Nat)
    (previous : Option NodeId) : Cases → Piece
  | .nil =>
    match previous with
    -- no case takes all that is left: the subject leads past the cases, and so does the last test
    | some last => .edge subject join .noMatch ++ .edge last join .noMatch
    | none => .nil
  | .cons patterns catchAll body rest =>
    let alternatives := List.range' base patterns.length
    let body := body.layout env (base + patterns.length) none
    .ofNodes (patterns.map fun pattern => env.node (.caseTest pattern)) ++ body.piece ++
      .edgeFrom body.exit join .always ++
      .ofEdges (alternativeEdges env.flat subject body.entry index previous alternatives) ++
      rest.layout env (base + patterns.length + body.size) subject join (index + 1)
        (nextPrevious env.flat catchAll alternatives previous)

/-- The layout of the handlers of a `try`, counted from `index`, and the nodes where they
complete.  An exception reaches them from the node where the body begins. -/
def Handlers.layout (env : Env) (base body : NodeId) (index : Nat) : Handlers → Piece × List NodeId
  | .nil => (.nil, [])
  | .cons region handler rest =>
    let handler := handler.layout (env.within region) base none
    let (rest, handled) := rest.layout env (base + handler.size) body (index + 1)
    (handler.piece ++ .edge body handler.entry (.exception index) ++ rest,
      handler.exit.toList ++ handled)

/-- The layout of the `else` clause of a loop, which control reaches when the guard fails. -/
def Annex.layoutAfterLoop (env : Env) (base guard after : NodeId) : Annex → Piece
  | .absent => .edge guard after .no
  | .present region body =>
    let body := body.layout (env.within region) base none
    body.piece ++ .edge guard body.entry .no ++ .edgeFrom body.exit after .always

/-- The layout of the `else` clause of a `try`, which follows the body, and the node where the
two complete. -/
def Annex.layoutAfterBody (env : Env) (base : NodeId) (completed : Option NodeId) :
    Annex → Piece × Option NodeId
  | .absent => (.nil, completed)
  | .present region body =>
    let body := body.layout (env.within region) base none
    (body.piece ++ .edgeFrom completed body.entry .orelse, body.exit)

/-- The layout of the `finally` clause of a `try`, which leads to `join`, and the node where
it begins. -/
def Annex.layoutBefore (env : Env) (base join : NodeId) : Annex → Piece × NodeId
  | .absent => (.nil, join)
  | .present region body =>
    let body := body.layout (env.within region) base none
    (body.piece ++ .edgeFrom body.exit join .always, body.entry)

/-- The layout of a jump on its way out, from the node `source` on. -/
def Route.layout (env : Env) (base source : NodeId) (site : Site) (means : Jump) :
    Route → Piece
  | .arrive => arrival env source site means
  | .leaveLoop rest => rest.layout env.outsideLoop base source site means
  | .release header region outside rest =>
    .ofNodes [(env.within region).node (.release header),
        env.carryOn outside site means] ++
      .edge source base .always ++ .edge base (base + 1) .always ++
      rest.layout env (base + 2) (base + 1) site means
  | .replay final outside body rest =>
    let body := body.layout (env.copy final) base none
    body.piece ++ .edge source body.entry .always ++
      match body.exit with
      | none => .nil
      | some last =>
        .ofNodes [env.carryOn outside site means] ++
          .edge last (base + body.size) .resume ++
          rest.layout env (base + body.size + 1) (base + body.size) site means
  | .swallow final body =>
    let body := body.layout (env.copy final) base none
    body.piece ++ .edge source body.entry .always

end

end Flowgraph
