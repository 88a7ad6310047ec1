import Flowgraph.Source.Tree
import Flowgraph.Text.Alphanumeric
import Flowgraph.Text.Blank

/-!
# Comments

A comment can set a marker, and the comments directly above a definition belong to it.

## Main definitions

* `Comment.marker?` : the name of the marker that a comment sets.
* `Comment.leading` : the comments above a definition.
-/

namespace Flowgraph.Comment

/-- A comment without its leading number signs and without blanks at its ends. -/
def bare (comment : List Char) : List Char :=
  Text.trim (comment.dropWhile (· == '#'))

/-- The character may stand in the name of a marker. -/
def isNameChar (c : Char) : Bool :=
  Text.isAlphanumeric c || c == '_'

/-- The word that a marker begins with. -/
def keyword : List Char :=
  ['C', 'F', 'G', ':']

/-- The name of the marker that a comment sets.  Such a comment begins with the word `CFG:`; the
name is the longest run of name characters that follows, and must not be empty.  It is cut out at
the byte offset at which the run ends. -/
def marker? (comment : List Char) : Option (List Char) := do
  let behind ← keyword.isPrefixOf? (bare comment)
  let text := Text.trimStart behind
  let (name, _) ← Text.splitAtByte? (Text.runEnd isNameChar text) text
  if name.isEmpty then none else some name

/-- The name of the marker that the comment of a span sets. -/
def markerAt? (source : String) (span : Span) : Option String :=
  (marker? (SyntaxTree.textOf source span).toList).map String.ofList

/-- The comments directly above a node that begins on the line `row`, in document order.  The
trees before the node are given nearest first; a comment counts if no line lies between it
and what follows. -/
def leading (source : String) (row : Nat) : List SyntaxTree → List String
  | [] => []
  | t :: before =>
    if t.kind == .comment && row ≤ Text.row source t.span.stop + 1 then
      leading source (Text.row source t.span.start) before ++
        [String.ofList (bare (SyntaxTree.textOf source t.span).toList)]
    else []

end Flowgraph.Comment
