import Flowgraph.Source.Comment
import Flowgraph.Source.Pattern

/-!
# Reading statements off a syntax tree

Statements are numbered as they are met, a compound statement before its bodies.  A compound
statement that lacks a part it needs is read as an unsupported one; the numbers given to what
was read of it stay used.

A body is found by looking through the nodes of its statement from left to right.  Comments
between the statement's colon and the first line of the body belong to the statement and not
to the block, so the comments directly before the block are kept on the way and read with it.

## Main definitions

* `Numbering` : computations that number statements.
* `SyntaxTree.toStmt` : a statement.
* `SyntaxTree.items` : the statements of a block.
* `SyntaxTree.bodyInRole?` : the body in a given role.
-/

namespace Flowgraph

/-- Computations that number statements; the state is the next free number. -/
abbrev Numbering := StateM StmtId

/-- A site with the next free number. -/
def Numbering.site (span : Span) : Numbering Site :=
  modifyGet fun id => (⟨id, span⟩, id + 1)

namespace SyntaxTree

/-- The markers that comments set. -/
def markers (source : String) : List Span → Numbering (List Stmt)
  | [] => return []
  | span :: rest =>
    match Comment.markerAt? source span with
    | none => markers source rest
    | some name => do
      let site ← Numbering.site span
      return .marker site name :: (← markers source rest)

/-- The run of comments that ends at a node, given the run before it.  Fixed tokens do not
interrupt a run. -/
def commentRun (run : List Span) (t : SyntaxTree) : List Span :=
  if !t.isNamed then run
  else if t.kind == .comment then run ++ [t.span]
  else []

/-- The suspension that a `return` or `raise` performs before it leaves. -/
def suspension (t : SyntaxTree) : Numbering (List Stmt) :=
  match t.kind with
  | .returnStatement | .raiseStatement =>
    match firstYield? t with
    | some span => do return [.yield (← Numbering.site span)]
    | none => return []
  | _ => return []

/-- The text of a `with` header: all up to its colon. -/
def headerSpan (span : Span) (children : List SyntaxTree) : Span :=
  match children.find? (·.kind == .colonToken) with
  | some colon => ⟨span.start, colon.span.stop⟩
  | none => ⟨span.start, span.start⟩

/-- The type of a handler. -/
def handlerType? (children : List SyntaxTree) : Option Span :=
  (children.find? fun t => t.isNamed && t.kind != .block && t.kind != .comment).map span

/-- The text of the subject of a `match`. -/
def subjectSpan? (children : List SyntaxTree) : Option Span :=
  match children.filter (·.field == some .subject) with
  | [] => none
  | first :: rest => some (first.span.hull (rest.getLastD first).span)

/-- The guard of a `case`. -/
def guard? (children : List SyntaxTree) : Option Span :=
  (children.find? fun t => t.isNamed && t.kind == .ifClause).map span

/-- The clauses of a `try` that have been read. -/
structure AttemptClauses where
  handlers : List Handler := []
  orelse : List Stmt := []
  final : List Stmt := []

mutual

/-- Reads a statement. -/
def toStmt (source : String) : SyntaxTree → Numbering Stmt
  | t@(node kind _ span _ children) => do
    -- a statement is numbered before what stands in it
    let site ← Numbering.site span
    match kind with
    | .passStatement => return .pass site
    | .returnStatement => return .jump site .returning
    | .breakStatement => return .jump site .breaking
    | .continueStatement => return .jump site .continuing
    | .raiseStatement => return .jump site .raising
    | .expressionStatement =>
      return if (firstYield? t).isSome then .yield site else .simple site
    | .ifStatement =>
      match spanInRole? .condition children, bodyInRole? source .consequence [] children with
      | some test, some body => do
        let body ← body
        match ← branchClauses source children with
        | some clauses => return .branch site test body clauses
        | none => return .unsupported site
      | _, _ => return .unsupported site
    | .whileStatement =>
      match spanInRole? .condition children, bodyInRole? source .body [] children with
      | some test, some body => do
        let body ← body
        match ← elseOfLoop source children with
        | some orelse => return .loop site (.condition test) body orelse
        | none => return .unsupported site
      | _, _ => return .unsupported site
    | .forStatement =>
      match spanInRole? .left children, spanInRole? .right children,
        bodyInRole? source .body [] children with
      | some target, some iterable, some body => do
        let body ← body
        match ← elseOfLoop source children with
        | some orelse =>
          return .loop site (.items (startsAsync children) target iterable) body orelse
        | none => return .unsupported site
      | _, _, _ => return .unsupported site
    | .tryStatement =>
      match bodyInRole? source .body [] children with
      | some body => do
        let body ← body
        match ← attemptClauses source {} children with
        | some clauses =>
          return .attempt site body clauses.handlers clauses.orelse clauses.final
        | none => return .unsupported site
      | none => return .unsupported site
    | .withStatement =>
      match bodyInRole? source .body [] children with
      | some body => do
        let body ← body
        return .hold site (startsAsync children) (headerSpan span children) body
      | none => return .unsupported site
    | .matchStatement =>
      match subjectSpan? children, casesInBody? source children with
      | some subject, some cases => do
        match ← cases with
        | some cases => return .dispatch site subject cases
        | none => return .unsupported site
      | _, _ => return .unsupported site
    | .error => return .unsupported site
    | _ => return .simple site

/-- Reads the statements of a block, and the markers set between them. -/
def items (source : String) : List SyntaxTree → Numbering (List Stmt)
  | [] => return []
  | t :: rest =>
    if !t.isNamed then items source rest
    else if t.kind == .comment then do
      let marker ← markers source [t.span]
      return marker ++ (← items source rest)
    else do
      let before ← suspension t
      let stmt ← toStmt source t
      return before ++ stmt :: (← items source rest)

/-- Reads the body in the given role, after the comments directly before it; `run` is the run
of comments before the nodes. -/
def bodyInRole? (source : String) (role : Field) (run : List Span) :
    List SyntaxTree → Option (Numbering (List Stmt))
  | [] => none
  | t@(node _ isNamed _ field children) :: rest =>
    if field == some role then
      some do
        let before ← markers source (if isNamed then run else [])
        return before ++ (← items source children)
    else bodyInRole? source role (commentRun run t) rest

/-- Reads the last block, after the comments directly before it; `run` is the run of comments
before the nodes. -/
def lastBlock? (source : String) (run : List Span) :
    List SyntaxTree → Option (Numbering (List Stmt))
  | [] => none
  | t@(node kind isNamed _ _ children) :: rest =>
    match lastBlock? source (commentRun run t) rest with
    | some body => some body
    | none =>
      if isNamed && kind == .block then
        some do
          let before ← markers source run
          return before ++ (← items source children)
      else none

/-- Reads the clauses of an `if`. -/
def branchClauses (source : String) : List SyntaxTree → Numbering (Option (List BranchClause))
  | [] => return some []
  | node kind _ span field children :: rest =>
    if field == some .alternative then
      match kind with
      | .elifClause =>
        match spanInRole? .condition children, bodyInRole? source .consequence [] children with
        | some test, some body => do
          let body ← body
          return (← branchClauses source rest).map (⟨span, some test, body⟩ :: ·)
        | _, _ => return none
      | .elseClause =>
        match bodyInRole? source .body [] children with
        | some body => do
          let body ← body
          return (← branchClauses source rest).map (⟨span, none, body⟩ :: ·)
        | none => return none
      | _ => return none
    else branchClauses source rest

/-- Reads the `else` clause of a loop; without one it is empty. -/
def elseOfLoop (source : String) : List SyntaxTree → Numbering (Option (List Stmt))
  | [] => return some []
  | node _ _ _ field children :: rest =>
    if field == some .alternative then
      match bodyInRole? source .body [] children with
      | some body => do return some (← body)
      | none => return none
    else elseOfLoop source rest

/-- Reads the clauses of a `try`, after those that have been read already.  Of several `else`
or `finally` clauses the last one counts. -/
def attemptClauses (source : String) (clauses : AttemptClauses) :
    List SyntaxTree → Numbering (Option AttemptClauses)
  | [] => return some clauses
  | node kind isNamed span _ children :: rest =>
    if !isNamed then attemptClauses source clauses rest
    else
      match kind with
      | .exceptClause | .exceptGroupClause =>
        match lastBlock? source [] children with
        | some body => do
          let handler : Handler := ⟨span, handlerType? children, ← body⟩
          attemptClauses source { clauses with handlers := clauses.handlers ++ [handler] } rest
        | none => return none
      | .elseClause =>
        match bodyInRole? source .body [] children with
        | some body => do attemptClauses source { clauses with orelse := ← body } rest
        | none => return none
      | .finallyClause =>
        match lastBlock? source [] children with
        | some body => do attemptClauses source { clauses with final := ← body } rest
        | none => return none
      | _ => attemptClauses source clauses rest

/-- Reads the cases in the body of a `match`. -/
def casesInBody? (source : String) :
    List SyntaxTree → Option (Numbering (Option (List MatchCase)))
  | [] => none
  | node _ _ _ field children :: rest =>
    if field == some .body then some (matchCases source children)
    else casesInBody? source rest

/-- Reads cases. -/
def matchCases (source : String) : List SyntaxTree → Numbering (Option (List MatchCase))
  | [] => return some []
  | node kind isNamed span _ children :: rest =>
    if isNamed && kind == .caseClause then
      match casePatterns? source children, bodyInRole? source .consequence [] children with
      | some patterns, some body => do
        let case : MatchCase := ⟨span, ⟨patterns, guard? children⟩, ← body⟩
        return (← matchCases source rest).map (case :: ·)
      | _, _ => return none
    else matchCases source rest

end

end SyntaxTree

end Flowgraph
