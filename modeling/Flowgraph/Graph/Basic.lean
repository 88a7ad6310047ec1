import Flowgraph.Graph.Edge
import Flowgraph.Graph.Exit

/-!
# Control-flow graphs

Nodes and edges are listed in the order in which they were made.

## Main definitions

* `Graph` : a control-flow graph.
* `Graph.successors` : the edges out of a node.
* `Graph.liveNodes` : the nodes that control can reach.
* `Graph.markedNode?` : the first node at which a marker is set.
-/

namespace Flowgraph

/-- The control-flow graph of a function. -/
structure Graph where
  /-- The nodes, in the order in which they were made. -/
  nodes : List Node
  /-- The edges, in the order in which they were made. -/
  edges : List Edge
  /-- Where control enters. -/
  entry : NodeId
  /-- Where control falls off the end. -/
  exit : NodeId
  /-- How control leaves. -/
  exits : List Exit
  /-- The regions of the function. -/
  regions : RegionTree
deriving Repr

namespace Graph

/-- The edges out of a node, in the order in which they were made. -/
def successors (g : Graph) (u : NodeId) : List (Label × NodeId) :=
  (g.edges.filter (·.source == u)).map fun e => (e.label, e.target)

/-- Control can reach the node. -/
def isLive (g : Graph) (u : NodeId) : Bool :=
  ((g.nodes[u]?).map (!·.dead)).getD false

/-- The nodes that control can reach, in order. -/
def liveNodes (g : Graph) : List NodeId :=
  (List.range g.nodes.length).filter g.isLive

/-- The first node that control can reach and at which the marker is set. -/
def markedNode? (g : Graph) (name : String) : Option NodeId :=
  g.liveNodes.find? fun u => ((g.nodes[u]?).map (·.markers.contains name)).getD false

/-- How often control leaves the function in each way. -/
def exitCounts (g : Graph) : ExitCounts :=
  .ofExits g.exits

end Graph

end Flowgraph
