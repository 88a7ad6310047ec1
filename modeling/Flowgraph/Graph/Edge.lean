import Flowgraph.Graph.Node

/-!
# Edges of a control-flow graph

At most one edge leads from one node to another: of several requests to connect the same two
nodes, only the first is met.

## Main definitions

* `Label` : when control follows an edge.
* `Edge` : an edge.
* `Edge.firstPerPair` : of several edges between the same two nodes, the first.
-/

namespace Flowgraph

/-- When control follows an edge. -/
inductive Label where
  /-- Always. -/
  | always
  /-- The test holds. -/
  | yes
  /-- The test fails. -/
  | no
  /-- The case of this position is taken. -/
  | case (index : Nat)
  /-- The alternative is not taken. -/
  | noMatch
  /-- An exception reaches the handler of this position. -/
  | exception (index : Nat)
  /-- The body of a `try` completed, and its `else` clause follows. -/
  | orelse
  /-- A `finally` clause completed, and the jump that ran it goes on. -/
  | resume
  /-- The loop goes round again. -/
  | loopBack
deriving DecidableEq, Repr

/-- The edge is followed by exceptions only. -/
def Label.isException : Label → Bool
  | exception _ => true
  | _ => false

/-- An edge of a control-flow graph. -/
structure Edge where
  /-- Where the edge leaves. -/
  source : NodeId
  /-- Where it leads. -/
  target : NodeId
  /-- When it is followed. -/
  label : Label
deriving DecidableEq, Repr

namespace Edge

/-- The two edges connect the same nodes in the same direction. -/
def parallel (e f : Edge) : Bool :=
  e.source == f.source && e.target == f.target

/-- Adds an edge, unless its nodes are connected already. -/
def connect (edges : List Edge) (e : Edge) : List Edge :=
  if edges.any (·.parallel e) then edges else edges ++ [e]

/-- Of several edges between the same two nodes, the first. -/
def firstPerPair (edges : List Edge) : List Edge :=
  edges.foldl connect []

end Edge

end Flowgraph
