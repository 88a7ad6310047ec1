import Flowgraph.Source.Body

/-!
# The functions of a source text

Every function definition of a syntax tree is read, methods and nested functions too, in
document order.  The statements of each are numbered from zero.

## Main definitions

* `Definition` : a function, its body and the comments above it.
* `SyntaxTree.functions` : the functions of a tree.
* `SourceError`, `Definition.ofSource` : the functions of a source text, unless it cannot be
  read.
-/

namespace Flowgraph

/-- A function definition. -/
structure Definition where
  /-- The name of the function. -/
  name : String
  /-- The text of the definition. -/
  span : Span
  /-- The comments directly above the definition, or above its decorators. -/
  comments : List String
  /-- The statements of the function. -/
  body : List Stmt
deriving Repr

/-- A place above which comments may stand. -/
structure Place where
  /-- The trees before the place, nearest first. -/
  before : List SyntaxTree
  /-- The offset of the place. -/
  start : Nat

/-- The comments directly above a place. -/
def Place.comments (source : String) (place : Place) : List String :=
  Comment.leading source (Text.row source place.start) place.before

namespace SyntaxTree

/-- Reads a function definition below a place; it needs a name and a body. -/
def function? (source : String) (place : Place) : SyntaxTree → Option Definition
  | node _ _ span _ children => do
    let name ← spanInRole? .name children
    let body ← bodyInRole? source .body [] children
    return {
      name := textOf source name
      span
      comments := place.comments source
      body := (body.run 0).1 }

mutual

/-- Reads the functions of a tree.  `own` is the place of the tree itself and `place` the one
whose comments belong to it. -/
def functionsAt (source : String) (own place : Place) : SyntaxTree → List Definition
  | t@(node kind _ _ _ children) =>
    (if kind == .functionDefinition then (function? source place t).toList else []) ++
      functionsAmong source (if kind == .decoratedDefinition then some own else none) [] children

/-- Reads the functions of some trees.  `before` are the trees before them, nearest first, and
`decorated` is the place of the decorated definition that they make up, if they do. -/
def functionsAmong (source : String) (decorated : Option Place) (before : List SyntaxTree) :
    List SyntaxTree → List Definition
  | [] => []
  | t :: rest =>
    let own : Place := ⟨before, t.span.start⟩
    (if t.isNamed then functionsAt source own (decorated.getD own) t else []) ++
      functionsAmong source decorated (t :: before) rest

end

/-- The functions of a tree, in document order. -/
def functions (source : String) (t : SyntaxTree) : List Definition :=
  functionsAt source ⟨[], t.span.start⟩ ⟨[], t.span.start⟩ t

end SyntaxTree

/-- Why a source text cannot be read. -/
inductive SourceError where
  /-- There is no syntax tree. -/
  | noTree
  /-- The text is longer than offsets of 32 bits can say. -/
  | tooLarge (bytes : Nat)
deriving DecidableEq, Repr

/-- The text shown for an error. -/
def SourceError.message : SourceError → String
  | noTree => "the parser did not produce a syntax tree"
  | tooLarge bytes => "source of " ++ toString bytes ++ " bytes exceeds the 4 GiB limit"

/-- The functions of a source text, from the syntax tree that a parser makes of it. -/
def Definition.ofSource (source : String) (tree : Option SyntaxTree) :
    Except SourceError (List Definition) :=
  if UInt32.size ≤ source.utf8ByteSize then .error (.tooLarge source.utf8ByteSize)
  else
    match tree with
    | none => .error .noTree
    | some tree => .ok (tree.functions source)

end Flowgraph
