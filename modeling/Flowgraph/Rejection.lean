import Flowgraph.Stmt
import Flowgraph.Region.Basic

/-!
# Why a body has no graph

A body is rejected when its statements do not fit together; a rejection names the cause and
the place.  A defect is something else: the construction contradicting itself.  Keeping the
two apart lets the absence of defects be stated.

## Main definitions

* `Cause`, `Rejection` : what is wrong with a body, and where.
* `Rejection.message` : the text shown for a rejection.
* `Defect` : the ways in which the construction could contradict itself.
* `Failure` : a rejection or a defect.
-/

namespace Flowgraph

/-- What is wrong with a body. -/
inductive Cause where
  /-- A statement whose control flow is not known. -/
  | unsupported
  /-- A `break` or `continue` that no loop encloses. -/
  | outsideLoop (means : Jump)
  /-- A body without any statement. -/
  | emptyBody
  /-- The `else` of an `if` is followed by another clause. -/
  | elseNotLast
  /-- A bare handler is followed by another handler. -/
  | bareHandlerNotLast
  /-- A `try` has neither a handler nor a `finally`. -/
  | attemptAlone
  /-- A `try` has an `else` but no handler. -/
  | elseWithoutHandler
  /-- A `match` has no `case`. -/
  | noCases
deriving DecidableEq, Repr

/-- The words for a cause. -/
def Cause.text : Cause → String
  | unsupported => "unsupported syntax"
  | outsideLoop means => "`" ++ means.keyword ++ "` outside of a loop"
  | emptyBody => "empty body"
  | elseNotLast => "`else` clause must come last in an `if` statement"
  | bareHandlerNotLast => "a bare `except:` must be the last handler"
  | attemptAlone => "`try` without `except` or `finally`"
  | elseWithoutHandler => "`try` with `else` requires an `except` handler"
  | noCases => "`match` without any `case`"

/-- A body is rejected: the cause, the statement at fault (none when it is the function body
itself) and the text to point at. -/
structure Rejection where
  /-- What is wrong. -/
  cause : Cause
  /-- The statement at fault. -/
  stmt : Option StmtId
  /-- The text to point at. -/
  span : Span
deriving DecidableEq, Repr

namespace Rejection

/-- A rejection that points at a whole statement. -/
def ofSite (cause : Cause) (site : Site) : Rejection :=
  ⟨cause, some site.id, site.span⟩

/-- A rejection that points at a clause of a statement. -/
def ofClause (cause : Cause) (site : Site) (span : Span) : Rejection :=
  ⟨cause, some site.id, span⟩

/-- The text shown for a rejection. -/
def message (r : Rejection) : String :=
  r.cause.text ++ " at " ++ r.span.text

end Rejection

/-- The ways in which the construction could contradict itself. -/
inductive Defect where
  /-- A part of a statement has no region. -/
  | untagged (stmt : StmtId) (part : Part)
  /-- Control can reach a node that it can neither leave for another node nor leave the
  function from. -/
  | trapped (node : Nat)
  /-- Some edge leads back to the entry. -/
  | entryTargeted
  /-- A jump asks for the construct inside `depth` others, and there are not that many around it. -/
  | noScope (depth : Nat)
  /-- The function is over, and the construction is still inside a construct of its body. -/
  | scopeLeft
deriving DecidableEq, Repr

/-- Why there is no graph. -/
inductive Failure where
  /-- The body is at fault. -/
  | rejected (rejection : Rejection)
  /-- The construction is at fault. -/
  | defective (defect : Defect)
deriving DecidableEq, Repr

/-- The region of a part of a statement, where there has to be one. -/
def RegionTree.require (t : RegionTree) (stmt : StmtId) (part : Part) : Except Failure RegionId :=
  match t.find? stmt part with
  | some r => .ok r
  | none => .error (.defective (.untagged stmt part))

end Flowgraph
