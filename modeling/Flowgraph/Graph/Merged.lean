import Flowgraph.Graph.Basic

/-!
# Merging chains of nodes

Where control can only go from one live node to another, and only reach the second from the
first, the two are merged.  The blocks of the merged graph are the longest chains of such
nodes, in the order of their first nodes.

## Main definitions

* `Graph.merges` : the edge joins two nodes of one block.
* `MergedGraph` : blocks of nodes, and the edges between blocks.
* `Graph.merged` : the merged graph.
* `Sizes`, `Graph.sizes` : the sizes of a graph.
-/

namespace Flowgraph

namespace Graph

/-- The number of edges that lead to a node from a node that control can reach. -/
def liveInDegree (g : Graph) (u : NodeId) : Nat :=
  g.edges.countP fun e => e.target == u && g.isLive e.source

/-- The number of edges that leave a node. -/
def outDegree (g : Graph) (u : NodeId) : Nat :=
  g.edges.countP fun e => e.source == u

/-- The node may share a block with its neighbours. -/
def isMergeable (g : Graph) (u : NodeId) : Bool :=
  ((g.nodes[u]?).map (·.isMergeable)).getD false

/-- The region of a node. -/
def regionOf (g : Graph) (u : NodeId) : RegionId :=
  ((g.nodes[u]?).map (·.region)).getD RegionTree.root

/-- The edge joins two nodes of one block: control can reach it, it is the only way out of its
source and the only way into its target, no exception follows it, neither end raises or
suspends, and no region border that matters lies between the two. -/
def merges (g : Graph) (e : Edge) : Bool :=
  e.source != e.target && g.isLive e.source && !e.label.isException &&
    g.outDegree e.source == 1 && g.liveInDegree e.target == 1 &&
    g.isMergeable e.source && g.isMergeable e.target &&
    g.regions.barrier (g.regionOf e.source) == g.regions.barrier (g.regionOf e.target)

/-- The edges inside blocks. -/
def mergingEdges (g : Graph) : List Edge :=
  g.edges.filter g.merges

end Graph

namespace Edge

/-- The node that follows a node along the given edges. -/
def next? (edges : List Edge) (u : NodeId) : Option NodeId :=
  (edges.find? (·.source == u)).map (·.target)

/-- A node and those that follow it along the given edges, at most as many as `bound`. -/
def chain (edges : List Edge) : Nat → NodeId → List NodeId
  | 0, _ => []
  | bound + 1, u =>
    u :: match next? edges u with
      | some v => chain edges bound v
      | none => []

end Edge

/-- A graph of blocks.  A block is named by its position. -/
structure MergedGraph where
  /-- The nodes of every block, in the order in which control passes them. -/
  blocks : List (List NodeId)
  /-- The edges between blocks. -/
  edges : List Edge
  /-- The block where control enters. -/
  initial : Nat
deriving Repr

namespace MergedGraph

/-- The edges out of a block, in order. -/
def successors (m : MergedGraph) (b : Nat) : List (Label × Nat) :=
  (m.edges.filter (·.source == b)).map fun e => (e.label, e.target)

end MergedGraph

namespace Graph

/-- The longest chains of nodes to be merged, in the order of their first nodes. -/
def chains (g : Graph) : List (List NodeId) :=
  let merging := g.mergingEdges
  let heads := g.liveNodes.filter fun u => !merging.any (·.target == u)
  heads.map (Edge.chain merging g.nodes.length)

/-- The position of the block that holds a node. -/
def blockOf? (blocks : List (List NodeId)) (u : NodeId) : Option Nat :=
  blocks.findIdx? (·.contains u)

/-- The edge between blocks that an edge between nodes becomes, unless it lies inside a block
or at a node that control cannot reach. -/
def edgeBetween? (merging : List Edge) (blocks : List (List NodeId)) (e : Edge) : Option Edge := do
  if merging.any (·.parallel e) then none
  let source ← blockOf? blocks e.source
  let target ← blockOf? blocks e.target
  return ⟨source, target, e.label⟩

/-- The merged graph. -/
def merged (g : Graph) : MergedGraph :=
  let blocks := g.chains
  { blocks
    edges := Edge.firstPerPair (g.edges.filterMap (edgeBetween? g.mergingEdges blocks))
    initial := (blockOf? blocks g.entry).getD 0 }

/-- The nodes of a block. -/
def members (g : Graph) (block : List NodeId) : List Node :=
  block.filterMap (g.nodes[·]?)

/-- The node where a block ends; what it does and where it stands is said of the block. -/
def lastNode? (g : Graph) (block : List NodeId) : Option Node :=
  (g.members block).getLast?

end Graph

/-- The sizes of a graph. -/
structure Sizes where
  /-- The nodes that control can reach. -/
  liveNodes : Nat
  /-- The blocks of the merged graph. -/
  blocks : Nat
  /-- The exits. -/
  exits : Nat
deriving DecidableEq, Repr

/-- The sizes of a graph. -/
def Graph.sizes (g : Graph) : Sizes where
  liveNodes := g.liveNodes.length
  blocks := g.merged.blocks.length
  exits := g.exits.length

end Flowgraph
