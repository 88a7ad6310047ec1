import Flowgraph.Stmt
import Flowgraph.Region.Basic

/-!
# Plans

A plan is a body that is ready to be laid out as a graph.  Straight-line statements have been
gathered into blocks, every clause knows its region, and every jump carries the route it
takes: which loops, resources and `finally` clauses it passes on its way out.  A plan has no
lists of clauses and no look-ups, so that what is said about the layout of a plan is proved
by induction on the plan.

## Main definitions

* `Plan` : a body with its jumps resolved.
* `Route` : what a jump passes before it arrives.
* `Plan.completes` : control can reach the end of the body.
* `Plan.andThen` : one plan after another, blocks merged where they meet.
-/

namespace Flowgraph

mutual

/-- A body with its jumps resolved. -/
inductive Plan where
  /-- Nothing happens. -/
  | idle
  /-- Straight-line statements. -/
  | block (stmts : List Stmt)
  /-- The function is suspended and later resumed. -/
  | yield (site : Site)
  /-- Straight-line statements that end in a `return`, `break` or `continue`. -/
  | jump (before : List Stmt) (site : Site) (means : Jump) (route : Route)
  /-- A `raise`. -/
  | raise (site : Site) (route : Route)
  /-- Straight-line statements that end in the header of a `with`, and the body it holds. -/
  | hold (before : List Stmt) (header : Stmt) (region : RegionId) (body : Plan)
  /-- One plan and then another. -/
  | seq (first rest : Plan)
  /-- A test with the body it selects, and what is tried when it fails. -/
  | branch (test : Span) (body : Plan) (rest : Alternatives)
  /-- A loop, and its `else` clause. -/
  | loop (header : Span) (body : Plan) (orelse : Annex)
  /-- The cases of a `match`, in their region. -/
  | dispatch (subject : Span) (region : RegionId) (cases : Cases)
  /-- A `try`: its body with the body's region, its handlers, its `else` clause and its
  `finally` clause. -/
  | attempt (region : RegionId) (body : Plan) (handlers : Handlers) (orelse final : Annex)

/-- What follows a failed test of an `if`. -/
inductive Alternatives where
  /-- The statement is over. -/
  | done
  /-- The `else` clause. -/
  | otherwise (body : Plan)
  /-- An `elif` clause, and what follows when its test fails too. -/
  | test (header : Span) (body : Plan) (rest : Alternatives)

/-- The cases of a `match`, in order. -/
inductive Cases where
  /-- No more cases. -/
  | nil
  /-- A case: its alternatives, whether it accepts every subject, and its body. -/
  | cons (patterns : List Span) (catchAll : Bool) (body : Plan) (rest : Cases)

/-- The handlers of a `try`, in order. -/
inductive Handlers where
  /-- No more handlers. -/
  | nil
  /-- A handler and its region. -/
  | cons (region : RegionId) (body : Plan) (rest : Handlers)

/-- A clause that may be missing. -/
inductive Annex where
  /-- There is no such clause. -/
  | absent
  /-- The clause and its region. -/
  | present (region : RegionId) (body : Plan)

/-- What a jump passes, from the inside out. -/
inductive Route where
  /-- Nothing more: the loop that the jump is meant for, or the end of the function. -/
  | arrive
  /-- A loop that the jump leaves. -/
  | leaveLoop (rest : Route)
  /-- A resource to be released in `region`; the jump goes on in the region `outside`. -/
  | release (header : Span) (region outside : RegionId) (rest : Route)
  /-- A `finally` clause to be run in `final`; the jump goes on in the region `outside`. -/
  | replay (final outside : RegionId) (body : Plan) (rest : Route)
  /-- A `finally` clause that never completes, so that the jump ends there. -/
  | swallow (final : RegionId) (body : Plan)

end

namespace Plan

/-- Control can reach the end of the plan. -/
def completes : Plan → Bool
  | jump .. | raise .. => false
  | hold _ _ _ body => body.completes
  | seq _ rest => rest.completes
  | idle | block _ | yield _ | branch .. | loop .. | dispatch .. | attempt .. => true

/-- Puts a straight-line statement in front of a plan.  It joins the block that the plan
begins with, if there is one. -/
def precededBy (stmt : Stmt) : Plan → Plan
  | block stmts => block (stmt :: stmts)
  | jump before site means route => jump (stmt :: before) site means route
  | hold before header region body => hold (stmt :: before) header region body
  | seq first rest => seq (first.precededBy stmt) rest
  | next => seq (block [stmt]) next

/-- One plan after another.  Straight-line statements join the block that follows. -/
def andThen : Plan → Plan → Plan
  | block stmts, next => stmts.foldr precededBy next
  | first, next => seq first next

/-- The plan of a sequence of statements, idle when there is nothing to do. -/
def orIdle : Option Plan → Plan
  | some plan => plan
  | none => idle

end Plan

end Flowgraph
