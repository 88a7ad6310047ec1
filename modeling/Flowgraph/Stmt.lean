import Flowgraph.Span

/-!
# Statement trees

The body of a function as control flow sees it.  Expressions are reduced to the spans they
occupy; what is kept is the nesting of compound statements and the statements that move
control.

## Main definitions

* `Jump` : the four ways a statement can move control out of its place.
* `Pattern`, `CaseHead` : the alternatives of a `case` and its guard.
* `Stmt` : statements.
* `CaseHead.acceptsAll` : the case accepts every subject.
-/

namespace Flowgraph

/-- The ways in which a statement moves control out of the place where it stands. -/
inductive Jump where
  | returning
  | raising
  | breaking
  | continuing
deriving DecidableEq, Repr

namespace Jump

/-- The keyword of the jump. -/
def keyword : Jump → String
  | returning => "return"
  | raising => "raise"
  | breaking => "break"
  | continuing => "continue"

/-- A jump that ends at the innermost enclosing loop rather than outside the function. -/
def staysInLoop : Jump → Bool
  | breaking | continuing => true
  | returning | raising => false

end Jump

/-- What a pattern accepts, as far as control flow is concerned. -/
inductive PatternKind where
  /-- Accepts every subject and binds nothing. -/
  | wildcard
  /-- Accepts every subject and binds it to a name. -/
  | capture
  /-- May reject the subject. -/
  | refutable
deriving DecidableEq, Repr

/-- The pattern accepts every subject. -/
def PatternKind.isIrrefutable : PatternKind → Bool
  | wildcard | capture => true
  | refutable => false

/-- One alternative of a `case`. -/
structure Pattern where
  /-- The text of the alternative. -/
  span : Span
  /-- What the alternative accepts. -/
  kind : PatternKind
deriving DecidableEq, Repr

/-- The alternatives of a `case`, tried from left to right, and its guard. -/
structure CaseHead where
  /-- The alternatives. -/
  patterns : List Pattern
  /-- The text of the guard, if there is one. -/
  guard : Option Span
deriving DecidableEq, Repr

/-- The case accepts every subject: it has no guard, and some alternative cannot fail. -/
def CaseHead.acceptsAll (head : CaseHead) : Bool :=
  head.guard.isNone && head.patterns.any (·.kind.isIrrefutable)

/-- What decides whether a loop goes round again. -/
inductive LoopHead where
  /-- A condition, evaluated before each round. -/
  | condition (test : Span)
  /-- A target bound to each item of an iterable. -/
  | items (isAsync : Bool) (target iterable : Span)
deriving DecidableEq, Repr

/-- The text a loop head occupies. -/
def LoopHead.span : LoopHead → Span
  | condition test => test
  | items _ target iterable => target.hull iterable

/-- A clause of a compound statement: what selects it, and the body it selects. -/
structure Clause (Head S : Type) where
  /-- The text of the whole clause. -/
  span : Span
  /-- What selects the clause. -/
  head : Head
  /-- What runs when it is selected. -/
  body : List S
deriving Repr

/-- Statements. -/
inductive Stmt where
  /-- A statement without any effect on control. -/
  | simple (site : Site)
  /-- `pass`. -/
  | pass (site : Site)
  /-- A named point of the program, set by a comment. -/
  | marker (site : Site) (name : String)
  /-- A point where the function is suspended and later resumed. -/
  | yield (site : Site)
  /-- `return`, `raise`, `break` or `continue`. -/
  | jump (site : Site) (means : Jump)
  /-- `if`; a clause with a test is an `elif`, one without is the `else`. -/
  | branch (site : Site) (test : Span) (body : List Stmt)
      (clauses : List (Clause (Option Span) Stmt))
  /-- `while` and `for`, with the clause that runs when the loop is exhausted. -/
  | loop (site : Site) (head : LoopHead) (body orelse : List Stmt)
  /-- `try`; a handler without a type handles every exception. -/
  | attempt (site : Site) (body : List Stmt) (handlers : List (Clause (Option Span) Stmt))
      (orelse final : List Stmt)
  /-- `with`; the resource is held while the body runs. -/
  | hold (site : Site) (isAsync : Bool) (header : Span) (body : List Stmt)
  /-- `match`. -/
  | dispatch (site : Site) (subject : Span) (cases : List (Clause CaseHead Stmt))
  /-- A statement whose control flow is not known. -/
  | unsupported (site : Site)
deriving Repr

namespace Stmt

/-- Where the statement stands. -/
def site : Stmt → Site
  | simple site | pass site | marker site _ | yield site | jump site _ | branch site _ _ _
  | loop site _ _ _ | attempt site _ _ _ _ | hold site _ _ _ | dispatch site _ _
  | unsupported site => site

/-- The number of the statement. -/
def id (s : Stmt) : StmtId :=
  s.site.id

/-- The name a marker sets. -/
def marker? : Stmt → Option String
  | marker _ name => some name
  | _ => none

/-- The text that stands for the statement in a picture: a `with` statement is shown by its
header, since its body has nodes of its own. -/
def shownSpan : Stmt → Span
  | hold _ _ header _ => header
  | s => s.site.span

/-- The word for the kind of the statement. -/
def keyword : Stmt → String
  | simple _ => "statement"
  | pass _ => "pass"
  | marker _ _ => "marker"
  | yield _ => "yield"
  | jump _ means => means.keyword
  | branch .. => "if"
  | loop _ (.condition _) _ _ => "while"
  | loop _ (.items ..) _ _ => "for"
  | attempt .. => "try"
  | hold .. => "with"
  | dispatch .. => "match"
  | unsupported _ => "unsupported"

end Stmt

/-- A clause of an `if`: without a test it is the `else`. -/
abbrev BranchClause := Clause (Option Span) Stmt

/-- A handler of a `try`: without a type it is bare. -/
abbrev Handler := Clause (Option Span) Stmt

/-- A `case` of a `match`. -/
abbrev MatchCase := Clause CaseHead Stmt

/-- The last clause that has no head and is followed by another clause. -/
def Clause.lastMisplaced? {Head S : Type} (clauses : List (Clause (Option Head) S)) :
    Option (Clause (Option Head) S) :=
  clauses.dropLast.reverse.find? (·.head.isNone)

end Flowgraph
