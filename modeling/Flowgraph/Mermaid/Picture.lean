import Flowgraph.Graph.Merged
import Flowgraph.Mermaid.Shape
import Flowgraph.Text.Slice

/-!
# Pictures of control-flow graphs

A picture shows the blocks that control can reach, each inside the subgraphs of the regions
it lies in, and then the edges between them.  Captions are slices of the source text, so a
picture exists only if every span that is shown has a slice.

The raw graph and the merged graph are drawn in the same way: for the one every node is a
block, for the other a block is a chain of nodes.

## Main definitions

* `Picture` : the blocks to be drawn.
* `Graph.picture`, `Graph.mergedPicture` : the pictures of the two graphs.
* `Picture.Fault` : why a picture cannot be drawn.
* `Picture.Line` : the lines of a drawing.
* `Picture.lines`, `Picture.draw` : the lines of a picture, and its text.
-/

namespace Flowgraph

/-- Why a picture cannot be drawn. -/
inductive Picture.Fault where
  /-- A span has no slice in the source text. -/
  | badSpan (span : Span)
  /-- An edge leads to a block that is not drawn. -/
  | notDrawn (block : Nat)
deriving DecidableEq, Repr

/-- A block to be drawn. -/
structure Picture.Block where
  /-- The number of the block in its graph. -/
  index : Nat
  /-- The nodes of the block. -/
  members : List Node
  /-- The region of the block. -/
  region : RegionId
  /-- The edges out of the block. -/
  out : List (Label × Nat)
deriving Repr

/-- The blocks to be drawn, and the regions they lie in. -/
structure Picture where
  /-- The regions of the function. -/
  regions : RegionTree
  /-- The blocks, in order. -/
  blocks : List Picture.Block
deriving Repr

namespace Graph

/-- A node as a block of its own. -/
def nodeBlock (g : Graph) (u : NodeId) : Picture.Block where
  index := u
  members := g.members [u]
  region := g.regionOf u
  out := g.successors u

/-- A chain of nodes as a block, which lies in the region where it ends. -/
def chainBlock (g : Graph) (m : MergedGraph) (index : Nat) (chain : List NodeId) :
    Picture.Block where
  index := index
  members := g.members chain
  region := ((g.lastNode? chain).map (·.region)).getD RegionTree.root
  out := m.successors index

/-- The picture of a graph. -/
def picture (g : Graph) : Picture where
  regions := g.regions
  blocks := g.liveNodes.map g.nodeBlock

/-- The picture of a merged graph. -/
def mergedPicture (g : Graph) : Picture :=
  let m := g.merged
  { regions := g.regions, blocks := m.blocks.mapIdx (g.chainBlock m) }

end Graph

namespace Picture

/-- The text of a span. -/
def slice (source : String) (span : Span) : Except Fault String :=
  match Text.slice? source span with
  | some text => .ok text
  | none => .error (.badSpan span)

/-- Texts on lines of their own. -/
def onLines (texts : List String) : String :=
  "\n".intercalate texts

/-- What is said about a node. -/
def contentText (source : String) : Content → Except Fault String
  | .entry => .ok "start"
  | .exit => .ok "end"
  | .join => .ok "join"
  | .empty => .ok ""
  | .test header | .caseTest header => slice source header
  | .release header => do return "release " ++ (← slice source header)
  | content => do return onLines (← content.stmts.mapM fun s => slice source s.shownSpan)

/-- The text of a block.  Nodes that stand for no text of their own are left out, unless the
block has no others. -/
def blockText (source : String) (members : List Node) : Except Fault String :=
  match members.filter (!·.content.isUnwritten) with
  | first :: rest => do
    let texts ← (first :: rest).mapM fun n => contentText source n.content
    return Mermaid.nodeText (.ofContent first.content) (onLines texts)
  | [] =>
    match members.getLast? with
    | some last => do
      return Mermaid.nodeText (.ofContent last.content) (← contentText source last.content)
    | none => .ok (Mermaid.nodeText (.ofContent .empty) "")

/-- The lines of a drawing. -/
inductive Line where
  /-- The drawing begins. -/
  | header
  /-- A block. -/
  | node (depth number : Nat) (text : String)
  /-- The subgraph of a region begins. -/
  | opening (depth : Nat) (region : RegionId) (kind : RegionKind)
  /-- A subgraph ends. -/
  | closing (depth : Nat)
  /-- An edge between two blocks. -/
  | edge (source : Nat) (label : Label) (target : Nat)
deriving DecidableEq, Repr

/-- Tabs at the beginning of a line. -/
def indent (depth : Nat) : String :=
  String.ofList (List.replicate depth '\t')

/-- The text of a line. -/
def Line.text : Line → String
  | header => "flowchart TD"
  | node depth number text => indent depth ++ "node" ++ toString number ++ text
  | opening depth region kind =>
    indent depth ++ "subgraph cluster" ++ toString region ++ " [\"" ++ kind.label ++ "\"]"
  | closing depth => indent depth ++ "end"
  | edge source label target =>
    indent 1 ++ "node" ++ toString source ++ Mermaid.edgeText label ++ "node" ++ toString target

/-- The number under which a block is drawn: its position among the drawn blocks. -/
def number? (p : Picture) (index : Nat) : Option Nat :=
  p.blocks.findIdx? (·.index == index)

/-- Some block lies in the region or in a region inside it. -/
def isOccupied (p : Picture) (r : RegionId) : Bool :=
  p.blocks.any fun b => p.regions.isWithin b.region r

/-- The lines of the blocks that lie directly in a region. -/
def nodeLines (p : Picture) (source : String) (depth : Nat) (r : RegionId) :
    Except Fault (List Line) :=
  (p.blocks.zipIdx.filter (·.1.region == r)).mapM fun (b, number) => do
    return .node depth number (← blockText source b.members)

/-- The lines of a region: its blocks, and then the regions directly inside it that are
occupied.  Regions are nested at most `bound` deep. -/
def regionLines (p : Picture) (source : String) :
    Nat → Nat → RegionId → Except Fault (List Line)
  | 0, _, _ => .ok []
  | bound + 1, depth, r => do
    let nodes ← p.nodeLines source depth r
    let inner ← ((p.regions.regions.filter fun c => c.parent == some r && p.isOccupied c.id).mapM
      fun c => do
        let lines ← regionLines p source bound (depth + 1) c.id
        return .opening depth c.id c.kind :: lines ++ [.closing depth])
    return nodes ++ inner.flatten

/-- The lines of the edges out of a block. -/
def edgeLines (p : Picture) (number : Nat) (b : Block) : Except Fault (List Line) :=
  b.out.mapM fun (label, target) =>
    match p.number? target with
    | some target => .ok (.edge number label target)
    | none => .error (.notDrawn target)

/-- The lines of a picture. -/
def lines (p : Picture) (source : String) : Except Fault (List Line) := do
  let regions ← p.regionLines source p.regions.size 1 RegionTree.root
  let edges ← p.blocks.zipIdx.mapM fun (b, number) => p.edgeLines number b
  return .header :: regions ++ edges.flatten

/-- The text of a picture. -/
def draw (p : Picture) (source : String) : Except Fault String := do
  return onLines ((← p.lines source).map Line.text)

end Picture

end Flowgraph
