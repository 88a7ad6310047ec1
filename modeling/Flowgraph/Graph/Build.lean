import Flowgraph.Graph.Layout
import Flowgraph.Graph.Reach
import Flowgraph.Plan.Resolve

/-!
# The graph of a function body

A body is planned and its plan laid out between an entry and an exit.  Nodes that control
cannot reach are marked as dead; exits at such nodes are dropped.

## Main definitions

* `Piece.ofPlan` : the layout of a whole function.
* `Graph.ofLayout` : the graph of a layout.
* `Graph.ofBody` : the graph of a function body.
-/

namespace Flowgraph

/-- The layout of a whole function, and the node where its body is over. -/
def Piece.ofPlan (flat : Bool) (plan : Plan) : Piece × NodeId :=
  let env : Env := { region := RegionTree.root, duplicate := false, flat, loops := [] }
  let body := plan.layout env 1 none
  let exit := 1 + body.size
  (.ofNodes [env.node .entry] ++ body.piece ++ .edge 0 body.entry .always ++
      .ofNodes [env.node .exit] ++ .edgeFrom body.exit exit .always ++
      .ofExit ⟨exit, .fallsThrough⟩,
    exit)

/-- The nodes, those out of reach marked as dead. -/
def Node.markDead (live : List NodeId) (nodes : List Node) : List Node :=
  nodes.mapIdx fun u n => { n with dead := !live.contains u }

/-- A node that control can reach and never leaves. -/
def Graph.trapped? (edges : List Edge) (exits : List Exit) (live : List NodeId) :
    Option NodeId :=
  live.find? fun u =>
    !(edges.any fun e => e.source == u && !e.label.isException) &&
      !(exits.any fun e => e.node == u && e.cause.isFinal)

/-- The graph of a layout whose entry is its first node. -/
def Graph.ofLayout (regions : RegionTree) (piece : Piece) (exit : NodeId) : Except Failure Graph :=
  let edges := Edge.firstPerPair piece.edges
  let live := Edge.inReach edges 0
  -- control must not get stuck at a node, nor come back to the entry
  match trapped? edges piece.exits live with
  | some u => .error (.defective (.trapped u))
  | none =>
    if edges.any (·.target == 0) then .error (.defective .entryTargeted)
    else .ok {
      nodes := Node.markDead live piece.nodes
      edges
      entry := 0
      exit
      exits := Exit.firstPerStatement (piece.exits.filter fun e => live.contains e.node)
      regions }

/-- The graph of a function body. -/
def Graph.ofBody (options : Options) (body : List Stmt) : Except Failure Graph := do
  let regions := RegionTree.ofBody body
  let plan ← Plan.ofBody options regions body
  let (piece, exit) := Piece.ofPlan options.flatDispatch plan
  ofLayout regions piece exit

end Flowgraph
