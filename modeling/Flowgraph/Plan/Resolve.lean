import Flowgraph.Options
import Flowgraph.Rejection
import Flowgraph.Plan.Basic
import Flowgraph.Region.Tagging

/-!
# Resolving a body into a plan

Planning checks that the statements of a body fit together, finds the region of every clause
and resolves every jump against the constructs that enclose it.

A jump that leaves a `try` runs the `finally` clause on its way out, as if that clause stood
in place of the jump but outside the `try`.  The clause is therefore planned once, under the
enclosures of its statement, and the outcome is kept with the enclosure that the statement
makes.  A clause that cannot be planned fails the body at the first jump that needs it, or
else where it stands.  Since each clause is planned once, planning is structural recursion on
the statements.

## Main definitions

* `Enclosure` : what a jump may have to pass.
* `Route.through` : the route of a jump through what encloses it.
* `planBody` : the plan of a sequence of statements.
* `Plan.ofBody` : the plan of a function body.
-/

namespace Flowgraph

/-- A construct around a statement that a jump may have to pass. -/
inductive Enclosure where
  /-- The body of a loop. -/
  | loop
  /-- A `try` with a `finally` clause: the regions of the two, and the plan of the clause. -/
  | final (outside final : RegionId) (body : Except Failure Plan)
  /-- The body of a `with`: its header, its region and the region around it. -/
  | resource (header : Span) (region outside : RegionId)

/-- What planning depends on besides the statements. -/
structure Context where
  /-- The regions of the function. -/
  regions : RegionTree
  /-- Markers are kept. -/
  markers : Bool
  /-- What encloses the statements, innermost first. -/
  around : List Enclosure

namespace Context

/-- The context inside one more enclosure. -/
def enter (cx : Context) (e : Enclosure) : Context :=
  { cx with around := e :: cx.around }

@[simp] theorem around_enter (cx : Context) (e : Enclosure) :
    (cx.enter e).around = e :: cx.around := rfl

@[simp] theorem regions_enter (cx : Context) (e : Enclosure) :
    (cx.enter e).regions = cx.regions := rfl

@[simp] theorem markers_enter (cx : Context) (e : Enclosure) :
    (cx.enter e).markers = cx.markers := rfl

/-- The region of a part of a statement. -/
def region (cx : Context) (site : Site) (part : Part) : Except Failure RegionId :=
  cx.regions.require site.id part

/-- The enclosure of a `with` body. -/
def resource (cx : Context) (header : Span) (region : RegionId) : Enclosure :=
  .resource header region ((cx.regions.parent? region).getD region)

/-- The context of the clauses of the `try` at `site` that its `finally` clause, if it has
one, watches over. -/
def enterFinal (cx : Context) (site : Site) (whole : RegionId) (final : List Stmt)
    (plan : Except Failure (Option Plan)) : Except Failure Context :=
  if final.isEmpty then .ok cx
  else do
    let region ← cx.region site .final
    return cx.enter (.final whole region (plan.map .orIdle))

end Context

/-- The route of a jump through what encloses it.  `break` and `continue` end at the
first loop; without a loop they are rejected, unless a `finally` clause swallows them. -/
def Route.through (site : Site) (means : Jump) : List Enclosure → Except Failure Route
  | [] =>
    if means.staysInLoop then
      .error (.rejected (.ofSite (.outsideLoop means) site))
    else .ok .arrive
  | .loop :: outer =>
    if means.staysInLoop then .ok .arrive
    else do return .leaveLoop (← through site means outer)
  | .resource header region outside :: outer => do
    return .release header region outside (← through site means outer)
  | .final outside final body :: outer => do
    let body ← body
    if body.completes then
      return .replay final outside body (← through site means outer)
    else return .swallow final body

/-- Rejects an empty body of the statement at `site`. -/
def nonemptyBody (site : Site) (body : List Stmt) (plan : Except Failure (Option Plan)) :
    Except Failure Plan :=
  if body.isEmpty then .error (.rejected (.ofSite .emptyBody site))
  else plan.map .orIdle

/-- A clause that is left out when it has no statements. -/
def optionalClause (region : Except Failure RegionId) (body : List Stmt)
    (plan : Except Failure (Option Plan)) : Except Failure Annex :=
  if body.isEmpty then .ok .absent
  else do
    let region ← region
    let plan ← plan
    return .present region (.orIdle plan)

/-- What is wrong with the clauses of a `try`, if anything is. -/
def attemptFault? (site : Site) (handlers : List Handler) (orelse final : List Stmt) :
    Option Rejection :=
  if handlers.isEmpty && final.isEmpty then some (.ofSite .attemptAlone site)
  else if handlers.isEmpty && !orelse.isEmpty then some (.ofSite .elseWithoutHandler site)
  else (Clause.lastMisplaced? handlers).map (.ofClause .bareHandlerNotLast site ·.span)

/-- What is wrong with the clauses of an `if`, if anything is. -/
def branchFault? (site : Site) (clauses : List BranchClause) : Option Rejection :=
  (Clause.lastMisplaced? clauses).map (.ofClause .elseNotLast site ·.span)

/-- Fails with the rejection, if there is one. -/
def rejectIf : Option Rejection → Except Failure Unit
  | some rejection => .error (.rejected rejection)
  | none => .ok ()

mutual

/-- The plan of a statement; a marker that is not kept has none. -/
def Stmt.plan (cx : Context) : Stmt → Except Failure (Option Plan)
  | .simple site => .ok (some (.block [.simple site]))
  | .pass site => .ok (some (.block [.pass site]))
  | .marker site name => .ok (if cx.markers then some (.block [.marker site name]) else none)
  | .yield site => .ok (some (.yield site))
  | .jump site .raising => do
    return some (.raise site (← Route.through site .raising cx.around))
  | .jump site means => do
    return some (.jump [] site means (← Route.through site means cx.around))
  | .branch site test body clauses => do
    rejectIf (branchFault? site clauses)
    let body ← nonemptyBody site body (planBody cx body)
    let rest ← planAlternatives cx site clauses
    return some (.branch test body rest)
  | .loop site head body orelse => do
    let body ← nonemptyBody site body (planBody (cx.enter .loop) body)
    -- a `break` in the `else` clause is meant for a loop further out
    let orelse ← optionalClause (cx.region site .orelse) orelse (planBody cx orelse)
    return some (.loop head.span body orelse)
  | .attempt site body handlers orelse final => do
    rejectIf (attemptFault? site handlers orelse final)
    let whole ← cx.region site .whole
    -- planned where it stands, the clause is what jumps from inside will copy
    let finalPlan := planBody cx final
    let inner ← cx.enterFinal site whole final finalPlan
    let region ← cx.region site .body
    let body ← nonemptyBody site body (planBody inner body)
    let handlers ← planHandlers inner site 0 handlers
    let orelse ← optionalClause (.ok whole) orelse (planBody inner orelse)
    let final ← optionalClause (cx.region site .final) final finalPlan
    return some (.attempt region body handlers orelse final)
  | .hold site isAsync header body => do
    let region ← cx.region site .whole
    let plan ← nonemptyBody site body (planBody (cx.enter (cx.resource header region)) body)
    return some (.hold [] (.hold site isAsync header body) region plan)
  | .dispatch site subject cases => do
    rejectIf (if cases.isEmpty then some (.ofSite .noCases site) else none)
    let region ← cx.region site .whole
    let cases ← planCases cx site cases
    return some (.dispatch subject region cases)
  | .unsupported site => .error (.rejected (.ofSite .unsupported site))

/-- The plan of a sequence of statements; there is none when no statement has one. -/
def planBody (cx : Context) : List Stmt → Except Failure (Option Plan)
  | [] => .ok none
  | s :: rest => do
    let first ← s.plan cx
    let rest ← planBody cx rest
    return Option.merge Plan.andThen first rest

/-- The plans of the clauses of the `if` at `site`. -/
def planAlternatives (cx : Context) (site : Site) :
    List (Clause (Option Span) Stmt) → Except Failure Alternatives
  | [] => .ok .done
  | ⟨_, none, body⟩ :: _ => do
    return .otherwise (← nonemptyBody site body (planBody cx body))
  | ⟨_, some test, body⟩ :: rest => do
    let body ← nonemptyBody site body (planBody cx body)
    let rest ← planAlternatives cx site rest
    return .test test body rest

/-- The plans of the handlers of the `try` at `site`, counted from `index`. -/
def planHandlers (cx : Context) (site : Site) (index : Nat) :
    List (Clause (Option Span) Stmt) → Except Failure Handlers
  | [] => .ok .nil
  | ⟨_, _, body⟩ :: rest => do
    let region ← cx.region site (.handler index)
    let body ← nonemptyBody site body (planBody cx body)
    let rest ← planHandlers cx site (index + 1) rest
    return .cons region body rest

/-- The plans of the cases of the `match` at `site`. -/
def planCases (cx : Context) (site : Site) :
    List (Clause CaseHead Stmt) → Except Failure Cases
  | [] => .ok .nil
  | ⟨_, head, body⟩ :: rest => do
    let body ← nonemptyBody site body (planBody cx body)
    let rest ← planCases cx site rest
    return .cons (head.patterns.map (·.span)) head.acceptsAll body rest

end

/-- The plan of a function body, which must not be empty. -/
def Plan.ofBody (options : Options) (regions : RegionTree) (body : List Stmt) :
    Except Failure Plan :=
  if body.isEmpty then .error (.rejected ⟨.emptyBody, none, ⟨0, 0⟩⟩)
  else (planBody ⟨regions, options.markers, []⟩ body).map .orIdle

end Flowgraph
