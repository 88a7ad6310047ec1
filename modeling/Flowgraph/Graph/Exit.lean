import Flowgraph.Graph.Node

/-!
# Exits of a function

Control leaves a function by a `return`, by a `raise`, by falling off the end of the body, or
for a while at a `yield`.  Copies of one statement make one exit.

## Main definitions

* `ExitCause`, `Exit` : why and where control leaves.
* `Exit.firstPerStatement` : of several exits at one statement, the first.
* `ExitCounts` : how often control leaves in each way.
-/

namespace Flowgraph

/-- Why control leaves the function. -/
inductive ExitCause where
  | returns (site : Site)
  | raises (site : Site)
  /-- The body is over. -/
  | fallsThrough
  /-- The function is suspended; it may be resumed later. -/
  | suspends (site : Site)
deriving DecidableEq, Repr

namespace ExitCause

/-- The statement at which control leaves; there is none when the body is over. -/
def site? : ExitCause → Option Site
  | returns site | raises site | suspends site => some site
  | fallsThrough => none

/-- Control leaves for good. -/
def isFinal : ExitCause → Bool
  | suspends _ => false
  | returns _ | raises _ | fallsThrough => true

/-- The same kind of exit at a statement of the same number. -/
def sameExit : ExitCause → ExitCause → Bool
  | returns a, returns b | raises a, raises b | suspends a, suspends b => a.id == b.id
  | fallsThrough, fallsThrough => true
  | _, _ => false

end ExitCause

/-- A place where control leaves the function. -/
structure Exit where
  /-- The last node before control leaves. -/
  node : NodeId
  /-- Why it leaves. -/
  cause : ExitCause
deriving DecidableEq, Repr

namespace Exit

/-- Adds an exit, unless it is there already.  Copies of one statement make one exit. -/
def insert (exits : List Exit) (e : Exit) : List Exit :=
  if exits.any (·.cause.sameExit e.cause) then exits else exits ++ [e]

/-- Of several exits at one statement, the first. -/
def firstPerStatement (exits : List Exit) : List Exit :=
  exits.foldl insert []

end Exit

/-- How often control leaves the function in each way. -/
structure ExitCounts where
  returns : Nat
  raises : Nat
  fallthroughs : Nat
  suspensions : Nat
deriving DecidableEq, Repr

namespace ExitCounts

/-- Counts exits by their kind. -/
def ofExits (exits : List Exit) : ExitCounts where
  returns := exits.countP fun e => match e.cause with | .returns _ => true | _ => false
  raises := exits.countP fun e => match e.cause with | .raises _ => true | _ => false
  fallthroughs := exits.countP fun e => match e.cause with | .fallsThrough => true | _ => false
  suspensions := exits.countP fun e => match e.cause with | .suspends _ => true | _ => false

/-- The number of exits of any kind. -/
def total (s : ExitCounts) : Nat :=
  s.returns + s.raises + s.fallthroughs + s.suspensions

end ExitCounts

end Flowgraph
