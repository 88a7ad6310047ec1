import Flowgraph.Source.Tree
import Flowgraph.Stmt

/-!
# Patterns of a syntax tree

What the pattern of a `case` accepts is found from the inside out.  For every node of a
pattern two things are computed: what it accepts as a whole, and the alternatives it
contributes to the `case`.  Both depend on the node only through the tokens directly below
it, comments left out.

## Main definitions

* `PatternNode` : a node of a pattern with its two results.
* `PatternNode.segments` : the tokens between the bars of an or-pattern.
* `SyntaxTree.patternNode` : the results for a node.
* `SyntaxTree.casePatterns?` : the alternatives of a `case`.
-/

namespace Flowgraph

/-- A node of a pattern. -/
structure PatternNode where
  /-- What the node is. -/
  kind : Kind
  /-- The text that the node covers. -/
  span : Span
  /-- What the node accepts as a whole. -/
  accepts : PatternKind
  /-- The alternatives that the node contributes to a `case`. -/
  alternatives : List Pattern
deriving Repr

namespace PatternNode

/-- What a single name accepts.  The names of constants are not bound. -/
def nameKind : String → PatternKind
  | "None" | "True" | "False" => .refutable
  | "_" => .wildcard
  | _ => .capture

/-- The runs of tokens between bars, empty ones included. -/
def runs : List PatternNode → List (List PatternNode)
  | [] => [[]]
  | t :: rest =>
    if t.kind == .barToken then [] :: runs rest
    else
      match runs rest with
      | first :: others => (t :: first) :: others
      | [] => [[t]]

/-- The alternatives of an or-pattern: the runs of tokens between bars that are not empty. -/
def segments (tokens : List PatternNode) : List (List PatternNode) :=
  (runs tokens).filter (!·.isEmpty)

/-- A pattern that spans some tokens and whose shape is not known. -/
def spanning (first : PatternNode) (rest : List PatternNode) : Pattern :=
  ⟨first.span.hull ((rest.getLastD first).span), .refutable⟩

/-- What one alternative of an or-pattern accepts. -/
def segmentAccepts : List PatternNode → PatternKind
  | [single] => single.accepts
  | _ => .refutable

/-- What one alternative of an or-pattern contributes. -/
def segmentAlternatives : List PatternNode → List Pattern
  | [] => []
  | [single] => single.alternatives
  | first :: rest => [spanning first rest]

/-- What a node accepts, from its text and its tokens.  A pair of parentheses around one
pattern only groups; around anything else it makes a sequence. -/
def acceptsOf (kind : Kind) (text : String) (tokens : List PatternNode) : PatternKind :=
  match kind, tokens with
  | .wildcardToken, _ => .wildcard
  | .casePattern, [inner] => inner.accepts
  | .identifier, _ => nameKind text
  | .dottedName, [name] => if name.kind == .identifier then name.accepts else .refutable
  | .asPattern, inner :: _ => if inner.accepts.isIrrefutable then .capture else .refutable
  | .tuplePattern, [opening, inner, closing] =>
    if opening.kind == .openToken && closing.kind == .closeToken then inner.accepts
    else .refutable
  | .unionPattern, tokens =>
    (((segments tokens).map segmentAccepts).find? (·.isIrrefutable)).getD .refutable
  | _, _ => .refutable

/-- The alternatives of a node, from what it accepts and its tokens.  An or-pattern
contributes those of its segments, and so does a node that holds nothing else; any other node
is an alternative by itself. -/
def alternativesOf (kind : Kind) (span : Span) (accepts : PatternKind)
    (tokens : List PatternNode) : List Pattern :=
  match kind, tokens with
  | .unionPattern, tokens => (segments tokens).flatMap segmentAlternatives
  | .casePattern, [inner] =>
    if inner.kind == .unionPattern then inner.alternatives else [⟨span, accepts⟩]
  | _, _ => [⟨span, accepts⟩]

end PatternNode

namespace SyntaxTree

mutual

/-- A node as a node of a pattern. -/
def patternNode (source : String) : SyntaxTree → PatternNode
  | node kind _ span _ children =>
    let tokens := patternTokens source children
    let accepts := PatternNode.acceptsOf kind (textOf source span) tokens
    { kind, span, accepts
      alternatives := PatternNode.alternativesOf kind span accepts tokens }

/-- Some nodes as nodes of a pattern, comments left out. -/
def patternTokens (source : String) : List SyntaxTree → List PatternNode
  | [] => []
  | t :: rest =>
    if t.kind == .comment then patternTokens source rest
    else patternNode source t :: patternTokens source rest

end

/-- The alternatives of a `case` from the nodes of its clause.  Several patterns make a
sequence, which may reject the subject; a `case` without any pattern has no meaning. -/
def casePatterns? (source : String) (children : List SyntaxTree) : Option (List Pattern) :=
  match children.filter fun t => t.isNamed && t.kind == .casePattern with
  | [] => none
  | [single] => some (patternNode source single).alternatives
  | first :: rest => some [⟨first.span.hull (rest.getLastD first).span, .refutable⟩]

end SyntaxTree

end Flowgraph
