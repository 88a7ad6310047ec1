import Flowgraph.Stmt
import Flowgraph.Region.Basic

/-!
# Nodes of a control-flow graph

A node says what happens at one point of a function, in which region it happens, and whether
it belongs to a copy of code that stands elsewhere.  A node is named by its position in its
graph.

## Main definitions

* `Content` : what happens at a node.
* `Node` : a node.
* `Node.markers` : the names of the markers set at a node.
* `Node.isMergeable` : the node may share a block with its neighbours.
-/

namespace Flowgraph

/-- The number of a node: its position in its graph.  Numbers have no upper bound; in 32 bits there
is room for graphs of less than 2 ^ 32 nodes.  Every jump copies the `finally` clauses that it
leaves, so a graph may be exponentially larger than its body. -/
abbrev NodeId := Nat

/-- What happens at a node. -/
inductive Content where
  /-- Control enters the function. -/
  | entry
  /-- Statements run one after the other. -/
  | block (stmts : List Stmt)
  /-- The function is suspended and later resumed. -/
  | yield (site : Site)
  /-- An exception is raised. -/
  | raise (site : Site)
  /-- A condition, a loop or the subject of a `match` decides where control goes. -/
  | test (header : Span)
  /-- An alternative of a `case` is tried. -/
  | caseTest (header : Span)
  /-- Paths meet. -/
  | join
  /-- A resource is released. -/
  | release (header : Span)
  /-- Nothing happens. -/
  | empty
  /-- Control falls off the end of the function. -/
  | exit
deriving Repr

namespace Content

/-- The statements that run at a node. -/
def stmts : Content → List Stmt
  | block stmts => stmts
  | yield site => [.yield site]
  | raise site => [.jump site .raising]
  | entry | test _ | caseTest _ | join | release _ | empty | exit => []

/-- The text that is evaluated at a node, or whose resource is released there. -/
def header? : Content → Option Span
  | test header | caseTest header | release header => some header
  | entry | block _ | yield _ | raise _ | join | empty | exit => none

/-- The node suspends the function. -/
def suspends : Content → Bool
  | yield _ => true
  | _ => false

/-- The node raises an exception. -/
def raises : Content → Bool
  | raise _ => true
  | _ => false

/-- The node stands for no text of its own. -/
def isUnwritten : Content → Bool
  | entry | join | empty | exit => true
  | _ => false

end Content

/-- A node of a control-flow graph. -/
structure Node where
  /-- What happens at the node. -/
  content : Content
  /-- The region in which it happens. -/
  region : RegionId
  /-- The node belongs to a copy that a jump makes on its way out. -/
  duplicate : Bool
  /-- Control never reaches the node. -/
  dead : Bool := false
deriving Repr

namespace Node

/-- The statements that run at the node. -/
def stmts (n : Node) : List Stmt :=
  n.content.stmts

/-- The names of the markers set at the node. -/
def markers (n : Node) : List String :=
  n.stmts.filterMap Stmt.marker?

/-- The node may share a block with its neighbours: it neither raises nor suspends. -/
def isMergeable (n : Node) : Bool :=
  !n.content.raises && !n.content.suspends

end Node

end Flowgraph
