import Flowgraph.Text.Slice

/-!
# Concrete syntax trees

The trees that a parser of the source language makes.  Every token is a node, comments too;
a node is named if it stands for a construct and anonymous if it stands for a fixed token.

## Main definitions

* `Kind`, `Field` : what a node is, and its role in the node around it.
* `SyntaxTree` : concrete syntax trees.
* `SyntaxTree.inRole?` : the first tree in a role.
* `SyntaxTree.textOf` : the source text of a span.
-/

namespace Flowgraph

/-- What a node of a syntax tree is, as far as control flow is concerned. -/
inductive Kind where
  | comment
  | block
  | error
  | functionDefinition
  | decoratedDefinition
  | classDefinition
  | lambda
  | yield
  | passStatement
  | returnStatement
  | breakStatement
  | continueStatement
  | raiseStatement
  | expressionStatement
  | ifStatement
  | whileStatement
  | forStatement
  | tryStatement
  | withStatement
  | matchStatement
  | elifClause
  | elseClause
  | exceptClause
  | exceptGroupClause
  | finallyClause
  | caseClause
  | ifClause
  | casePattern
  | unionPattern
  | asPattern
  | tuplePattern
  | dottedName
  | identifier
  | asyncToken
  | colonToken
  | barToken
  | openToken
  | closeToken
  | wildcardToken
  | other (name : String)
deriving DecidableEq, Repr

/-- The kind of a node, by the name the grammar has for it. -/
def Kind.ofName : String → Kind
  | "comment" => comment
  | "block" => block
  | "ERROR" => error
  | "function_definition" => functionDefinition
  | "decorated_definition" => decoratedDefinition
  | "class_definition" => classDefinition
  | "lambda" => lambda
  | "yield" => yield
  | "pass_statement" => passStatement
  | "return_statement" => returnStatement
  | "break_statement" => breakStatement
  | "continue_statement" => continueStatement
  | "raise_statement" => raiseStatement
  | "expression_statement" => expressionStatement
  | "if_statement" => ifStatement
  | "while_statement" => whileStatement
  | "for_statement" => forStatement
  | "try_statement" => tryStatement
  | "with_statement" => withStatement
  | "match_statement" => matchStatement
  | "elif_clause" => elifClause
  | "else_clause" => elseClause
  | "except_clause" => exceptClause
  | "except_group_clause" => exceptGroupClause
  | "finally_clause" => finallyClause
  | "case_clause" => caseClause
  | "if_clause" => ifClause
  | "case_pattern" => casePattern
  | "union_pattern" => unionPattern
  | "as_pattern" => asPattern
  | "tuple_pattern" => tuplePattern
  | "dotted_name" => dottedName
  | "identifier" => identifier
  | "async" => asyncToken
  | ":" => colonToken
  | "|" => barToken
  | "(" => openToken
  | ")" => closeToken
  | "_" => wildcardToken
  | name => other name

/-- The role of a node in the node around it. -/
inductive Field where
  | name
  | body
  | condition
  | consequence
  | alternative
  | left
  | right
  | subject
  | other (role : String)
deriving DecidableEq, Repr

/-- A role, by the name the grammar has for it. -/
def Field.ofName : String → Field
  | "name" => name
  | "body" => body
  | "condition" => condition
  | "consequence" => consequence
  | "alternative" => alternative
  | "left" => left
  | "right" => right
  | "subject" => subject
  | role => other role

/-- A concrete syntax tree. -/
inductive SyntaxTree where
  | node (kind : Kind) (isNamed : Bool) (span : Span) (field : Option Field)
      (children : List SyntaxTree)
deriving Repr

namespace SyntaxTree

/-- What the node is. -/
def kind : SyntaxTree → Kind
  | node kind _ _ _ _ => kind

/-- The node stands for a construct, not for a fixed token. -/
def isNamed : SyntaxTree → Bool
  | node _ isNamed _ _ _ => isNamed

/-- The text that the node covers. -/
def span : SyntaxTree → Span
  | node _ _ span _ _ => span

/-- The role of the node in the node around it. -/
def field : SyntaxTree → Option Field
  | node _ _ _ field _ => field

/-- The nodes directly below the node. -/
def children : SyntaxTree → List SyntaxTree
  | node _ _ _ _ children => children

/-- The first of some nodes that has the role. -/
def inRole? (role : Field) (trees : List SyntaxTree) : Option SyntaxTree :=
  trees.find? (·.field == some role)

/-- The span of the first of some nodes that has the role. -/
def spanInRole? (role : Field) (trees : List SyntaxTree) : Option Span :=
  (inRole? role trees).map span

/-- The source text of a span; a span without a slice has none. -/
def textOf (source : String) (span : Span) : String :=
  (Text.slice? source span).getD ""

/-- The first token is `async`. -/
def startsAsync (children : List SyntaxTree) : Bool :=
  match children with
  | first :: _ => first.kind == .asyncToken
  | [] => false

mutual

/-- The span of the first `yield` in a tree, in document order, that belongs to the function
around the tree. -/
def firstYield? : SyntaxTree → Option Span
  | node .yield _ span _ _ => some span
  | node .lambda _ _ _ _ => none
  | node .functionDefinition _ _ _ _ => none
  | node .classDefinition _ _ _ _ => none
  | node .decoratedDefinition _ _ _ _ => none
  | node _ _ _ _ children => firstYieldAmong? children

/-- The span of the first `yield` in some trees. -/
def firstYieldAmong? : List SyntaxTree → Option Span
  | [] => none
  | t :: rest =>
    match (if t.isNamed then firstYield? t else none) with
    | some span => some span
    | none => firstYieldAmong? rest

end

end SyntaxTree

end Flowgraph
