import Flowgraph.Graph.Basic

/-!
# Reachability

A search keeps the nodes it has visited and the nodes it still has to look at.  Looking at a
node for the first time puts the targets of its edges on the list, so every edge is used at
most once, and a search of as many steps as there are edges, and one more, is complete.

There are two searches.  The one that answers questions about two nodes goes to the depth: it
looks at the latest nodes on its list first.  The one that finds the nodes in reach of the entry
goes to the breadth: it looks at the nodes in the order in which they were found.

## Main definitions

* `Edge.targets` : where the edges out of a node lead.
* `Edge.search` : the search to the depth, for a given number of steps.
* `Edge.reachable` : the nodes that it visits from a node.
* `Edge.sweep` : the search to the breadth, for a given number of steps.
* `Edge.inReach` : the nodes that it visits from a node.
* `Graph.reaches?` : whether one node can be reached from another.
-/

namespace Flowgraph

namespace Edge

/-- Where the edges out of a node lead. -/
def targets (edges : List Edge) (u : NodeId) : List NodeId :=
  (edges.filter (·.source == u)).map (·.target)

/-- Visits the nodes of a list and those they lead to, in at most the given number of steps. -/
def search (edges : List Edge) : Nat → List NodeId → List NodeId → List NodeId
  | 0, visited, _ => visited
  | _, visited, [] => visited
  | steps + 1, visited, u :: pending =>
    if visited.contains u then search edges steps visited pending
    else search edges steps (u :: visited) (targets edges u ++ pending)

/-- The nodes that can be reached from a node, which is one of them. -/
def reachable (edges : List Edge) (u : NodeId) : List NodeId :=
  search edges (edges.length + 1) [] [u]

/-- Puts nodes at the end of a queue, those left out that were visited or are in the queue. -/
def enqueue (visited : List NodeId) : List NodeId → List NodeId → List NodeId
  | queue, [] => queue
  | queue, v :: vs =>
    if visited.contains v || queue.contains v then enqueue visited queue vs
    else enqueue visited (queue ++ [v]) vs

/-- Visits the nodes of a queue and those they lead to, in at most the given number of steps. -/
def sweep (edges : List Edge) : Nat → List NodeId → List NodeId → List NodeId
  | 0, visited, _ => visited
  | _, visited, [] => visited
  | steps + 1, visited, u :: queue =>
    sweep edges steps (u :: visited) (enqueue (u :: visited) queue (targets edges u))

/-- The nodes that are found by following edges from a node, which is one of them. -/
def inReach (edges : List Edge) (u : NodeId) : List NodeId :=
  sweep edges (edges.length + 1) [] [u]

end Edge

namespace Graph

/-- The second node can be reached from the first over any edges; nothing is said about a
first node that the graph does not have. -/
def reaches? (g : Graph) (u v : NodeId) : Option Bool :=
  if u < g.nodes.length then some ((Edge.reachable g.edges u).contains v) else none

/-- The first node at which one marker is set can reach the first node at which another is,
provided that control can reach both. -/
def markReaches? (g : Graph) (a b : String) : Option Bool := do
  let u ← g.markedNode? a
  let v ← g.markedNode? b
  g.reaches? u v

end Graph

end Flowgraph
