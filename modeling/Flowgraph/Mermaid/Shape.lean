import Flowgraph.Graph.Edge

/-!
# Nodes and edges of a Mermaid flowchart

A node is written as its caption in quotes between brackets that give its shape.  A double
quote inside a caption is written as an entity, so the caption ends at the closing quote.

## Main definitions

* `Mermaid.Shape` : node shapes and their brackets.
* `Mermaid.nodeText` : the text of a node.
* `Mermaid.Arrow`, `Mermaid.edgeText` : the text of an edge.
-/

namespace Flowgraph

namespace Mermaid

/-- The shapes of nodes. -/
inductive Shape where
  | rectangle
  | doubleRectangle
  | roundedRectangle
  | stadium
  | circle
  | doubleCircle
  | asymmetric
  | rhombus
  | hexagon
  | parallelogram
  | trapezoid
deriving DecidableEq, Repr, Inhabited

namespace Shape

/-- The bracket that opens a node of the shape. -/
def opening : Shape → String
  | rectangle => "["
  | doubleRectangle => "[["
  | roundedRectangle => "("
  | stadium => "(["
  | circle => "(("
  | doubleCircle => "((("
  | asymmetric => ">"
  | rhombus => "\x7b"
  | hexagon => "\x7b\x7b"
  | parallelogram => "[/"
  | trapezoid => "[/"

/-- The bracket that closes a node of the shape. -/
def closing : Shape → String
  | rectangle => "]"
  | doubleRectangle => "]]"
  | roundedRectangle => ")"
  | stadium => "])"
  | circle => "))"
  | doubleCircle => ")))"
  | asymmetric => "]"
  | rhombus => "\x7d"
  | hexagon => "\x7d\x7d"
  | parallelogram => "/]"
  | trapezoid => "\\]"

/-- The shape of a node of a control-flow graph. -/
def ofContent : Content → Shape
  | .entry | .exit => stadium
  | .block _ => rectangle
  | .yield _ => parallelogram
  | .raise _ => asymmetric
  | .test _ => rhombus
  | .caseTest _ => hexagon
  | .join | .empty => circle
  | .release _ => trapezoid

end Shape

/-- How a double quote is written inside quotes. -/
def quoteEntity : List Char :=
  "#quot;".toList

/-- A text with every double quote written as an entity. -/
def escape (cs : List Char) : List Char :=
  cs.flatMap fun c => if c = '"' then quoteEntity else [c]

/-- What stands between the quotes of a node.  A node without a caption says so. -/
def caption (content : String) : String :=
  if content.isEmpty then "empty" else String.ofList (escape content.toList)

/-- The text of a node. -/
def nodeText (shape : Shape) (content : String) : String :=
  shape.opening ++ "\"" ++ caption content ++ "\"" ++ shape.closing

/-- The strokes of edges. -/
inductive Arrow where
  | plain
  | dotted
  | thick
deriving DecidableEq, Repr, Inhabited

/-- The text of an arrow. -/
def Arrow.text : Arrow → String
  | plain => "-->"
  | dotted => "-.->"
  | thick => "==>"

/-- Exceptions are dotted and the way back to a loop is thick. -/
def Arrow.ofLabel : Label → Arrow
  | .exception _ => dotted
  | .loopBack => thick
  | _ => plain

/-- The words on an edge; an edge that is always followed has none. -/
def labelText : Label → String
  | .always => ""
  | .yes => "True"
  | .no => "False"
  | .case index => "case " ++ toString index
  | .noMatch => "no match"
  | .exception index => "except " ++ toString index
  | .orelse => "else"
  | .resume => "after finally"
  | .loopBack => "loop"

/-- An arrow with words on it, if there are any. -/
def arrowText (arrow : Arrow) (words : String) : String :=
  if words.isEmpty then arrow.text else arrow.text ++ "|\"" ++ words ++ "\"|"

/-- The text of an edge. -/
def edgeText (label : Label) : String :=
  arrowText (.ofLabel label) (labelText label)

end Mermaid

end Flowgraph
