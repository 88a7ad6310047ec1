import Flowgraph.Proofs.Draft
import Flowgraph.Proofs.Faults

/-!
# Building a body in a single pass

A graph can also be built without planning it first: the statements are visited once, in order,
and nodes and edges are added on the way.  A jump is resolved when it is met.  Each `finally`
clause that it passes is then built again, as the body of a new job under the scopes around its
`try`, so the jobs do not follow the structure of the statements.

They still come to an end.  The weight of a job is the number of statements it has to build,
plus the number of statements in the `finally` clauses around it; a job inside another one is
lighter.

## Main definitions

* `Making` : a computation that adds to a graph, and may fail on the way.
* `Job` : a body to be built, and where.
* `Job.step` : building a body, given how the jobs inside it are done.
* `Job.Calls` : the jobs inside a job.
* `Job.weight` : what decreases from a job to the jobs inside it.
* `Job.run` : building a body.

## Main results

* `Job.Calls.weight_lt` : a job inside another one is lighter.
* `Job.step_congr` : building a body needs the jobs inside it only.
* `Job.run_eq_step`, `Job.eq_run` : there is one way to build bodies.
-/

namespace Flowgraph

/-! ## Computations that follow one another -/

section Bind

variable {σ α β : Type} {x : EStateM Failure σ α} {f : α → EStateM Failure σ β} {s t : σ}

theorem bind_apply_of_ok {a : α} (h : x s = .ok a t) : (x >>= f) s = f a t := by
  show EStateM.bind x f s = _
  rw [EStateM.bind, h]

/-- The second step is not taken. -/
theorem bind_apply_of_error {failure : Failure} (h : x s = .error failure t) :
    (x >>= f) s = .error failure t := by
  show EStateM.bind x f s = _
  rw [EStateM.bind, h]

end Bind

/-! ## Adding to a graph -/

/-- A computation that adds to a graph.  What was made before a failure is kept, and so is every
edge that was requested, in order. -/
abbrev Making := EStateM Failure Piece

namespace Making

variable {α : Type}

/-- Adds a piece. -/
def add (q : Piece) : Making Unit :=
  fun p => .ok () (p ++ q)

/-- Makes a node. -/
def newNode (node : Node) : Making NodeId :=
  fun p => .ok p.size (p ++ .ofNodes [node])

/-- Requests an edge. -/
def connect (source target : NodeId) (label : Label) : Making Unit :=
  add (.edge source target label)

/-- Requests an edge from a node that may not exist. -/
def connectFrom (source : Option NodeId) (target : NodeId) (label : Label) : Making Unit :=
  add (.edgeFrom source target label)

/-- Records an exit. -/
def record (exit : Exit) : Making Unit :=
  add (.ofExit exit)

/-- What does not depend on the graph, and may fail. -/
def settle (x : Except Failure α) : Making α :=
  fun p =>
    match x with
    | .ok a => .ok a p
    | .error failure => .error failure p

/-- Adds a statement to a block. -/
def push (block : NodeId) (s : Stmt) : Making Unit :=
  fun p => .ok () { p with nodes := p.nodes.modify block fun n => { n with content :=
    match n.content with
    | .block stmts => .block (stmts ++ [s])
    | content => content } }

end Making

open Making

/-! ## Jobs -/

/-- A body to be built, and where. -/
structure Job extends Spot where
  /-- New nodes belong to a copy. -/
  duplicate : Bool
  /-- The statements. -/
  body : List Stmt

/-- What was built of a sequence of statements. -/
structure Progress where
  /-- Where the sequence begins. -/
  entry : Option NodeId
  /-- Where it completes. -/
  tail : Option NodeId
  /-- The block that straight-line statements are added to. -/
  block : Option NodeId

/-- Continues a sequence with a part; once the sequence cannot complete, nothing leads on. -/
def Progress.append (s : Progress) (part : Fragment) : Making Progress :=
  match s.entry with
  | none => return ⟨some part.entry, part.exit, none⟩
  | some entry => do
    connectFrom s.tail part.entry .always
    return ⟨some entry, part.exit, none⟩

namespace Job

/-- Where the nodes of a job stand. -/
def env (t : Job) : Env where
  region := t.region
  duplicate := t.duplicate
  flat := t.options.flatDispatch
  loops := t.loops

/-- The region of a part of a statement. -/
def part (t : Job) (site : Site) (part : Part) : Making RegionId :=
  settle (t.regions.require site.id part)

/-- Adds a statement to the open block, or to a new one. -/
def put (t : Job) (s : Progress) (stmt : Stmt) : Making (NodeId × Progress) :=
  match s.block with
  | some block => do
    push block stmt
    return (block, s)
  | none => do
    let block ← newNode (t.env.node (.block []))
    let s ← s.append ⟨block, some block⟩
    push block stmt
    return (block, { s with block := some block })

/-- The region of the `finally` clause of the `try` at `site`, if it has one. -/
def clauseRegion (t : Job) (site : Site) (final : List Stmt) : Except Failure (Option RegionId) :=
  if final.isEmpty then .ok none else do return some (← t.regions.require site.id .final)

/-- The clauses of a `try` are watched over by its `finally` clause, if it has one. -/
def watched (t : Job) (whole : RegionId) (clause : List Stmt) : Option RegionId → Job
  | none => t
  | some region => { t with scopes := .final clause whole region :: t.scopes }

section Step

variable (call : Job → Making Fragment) (t : Job)

/-- Does a job that must not be empty. -/
def required (site : Site) : Making Fragment :=
  if t.body.isEmpty then settle (.error (.rejected (.ofSite .emptyBody site))) else call t

/-- Builds the body that `source` leads to. -/
def arm (site : Site) (source : NodeId) (label : Label) (body : List Stmt) (join : NodeId) :
    Making Unit := do
  let built ← { t with body }.required call site
  connect source built.entry label
  connectFrom built.exit join .always

/-- Builds the clauses of an `if` after the test `test`. -/
def clauses (site : Site) (join : NodeId) : NodeId → Bool → List BranchClause → Making Unit
  | test, hasElse, [] => if hasElse then return else connect test join .no
  | test, _, ⟨_, none, body⟩ :: rest => do
    t.arm call site test .no body join
    clauses site join test true rest
  | test, hasElse, ⟨_, some header, body⟩ :: rest => do
    let next ← newNode (t.env.node (.test header))
    connect test next .no
    t.arm call site next .yes body join
    clauses site join next hasElse rest

/-- Builds an `if`. -/
def branch (site : Site) (test : Span) (body : List Stmt) (rest : List BranchClause) :
    Making Fragment := do
  settle (rejectIf (branchFault? site rest))
  let head ← newNode (t.env.node (.test test))
  let join ← newNode (t.env.node .join)
  t.arm call site head .yes body join
  t.clauses call site join head false rest
  return ⟨head, some join⟩

/-- Builds the `else` clause of a loop. -/
def afterLoop (site : Site) (guard after : NodeId) (orelse : List Stmt) : Making Unit :=
  if orelse.isEmpty then connect guard after .no
  else do
    let region ← t.part site .orelse
    let built ← call { t with region, body := orelse }
    connect guard built.entry .no
    connectFrom built.exit after .always

/-- Builds a loop. -/
def loop (site : Site) (header : Span) (body orelse : List Stmt) : Making Fragment := do
  let guard ← newNode (t.env.node (.test header))
  let after ← newNode (t.env.node .join)
  let built ← { t with scopes := .loop ⟨guard, after⟩ :: t.scopes, body }.required call site
  connect guard built.entry .yes
  connectFrom built.exit guard .loopBack
  t.afterLoop call site guard after orelse
  return ⟨guard, some after⟩

/-- Leads into the body of a case from its alternatives, and to them from the node that the
next test hangs off, if there still is one.  That node is different after each of them, unless
the dispatch is flat. -/
def alternatives (dispatch body : NodeId) (index : Nat) :
    Option NodeId → List NodeId → Making (Option NodeId)
  | previous, [] => return previous
  | none, test :: rest => do
    connect test body (.case index)
    alternatives dispatch body index none rest
  | some previous, test :: rest => do
    connect test body (.case index)
    connect previous test (if previous = dispatch then .always else .noMatch)
    alternatives dispatch body index (some (if t.env.flat then previous else test)) rest

/-- Builds the cases of a `match`.  If a subject may get past all of them, the dispatch and the
last test lead on. -/
def cases (site : Site) (dispatch join : NodeId) :
    Nat → Option NodeId → List MatchCase → Making Unit
  | _, previous, [] =>
    match previous with
    | none => return
    | some last => do
      connect dispatch join .noMatch
      -- a flat dispatch asks for the same edge again
      connect last join .noMatch
  | index, previous, ⟨_, head, body⟩ :: rest => do
    let tests ← head.patterns.mapM fun pattern => newNode (t.env.node (.caseTest pattern.span))
    let built ← { t with body }.required call site
    connectFrom built.exit join .always
    let previous ← t.alternatives dispatch built.entry index previous tests
    cases site dispatch join (index + 1) (if head.acceptsAll then none else previous) rest

/-- Builds a `match`. -/
def dispatch (site : Site) (subject : Span) (list : List MatchCase) : Making Fragment := do
  settle (rejectIf (if list.isEmpty then some (.ofSite .noCases site) else none))
  let dispatch ← newNode (t.env.node (.test subject))
  let join ← newNode (t.env.node .join)
  let region ← t.part site .whole
  { t with region }.cases call site dispatch join 0 (some dispatch) list
  return ⟨dispatch, some join⟩

/-- Builds the handlers of a `try`, and finds the nodes where they complete. -/
def handlers (site : Site) (entry : NodeId) : Nat → List Handler → Making (List NodeId)
  | _, [] => return []
  | index, ⟨_, _, body⟩ :: rest => do
    let region ← t.part site (.handler index)
    let built ← { t with region, body }.required call site
    connect entry built.entry (.exception index)
    let handled ← handlers site entry (index + 1) rest
    return built.exit.toList ++ handled

/-- Builds the `else` clause of a `try`, and finds the node where it or else the body completes. -/
def afterBody (whole : RegionId) (completed : Option NodeId) (orelse : List Stmt) :
    Making (Option NodeId) :=
  if orelse.isEmpty then return completed
  else do
    let built ← call { t with region := whole, body := orelse }
    connectFrom completed built.entry .orelse
    return built.exit

/-- Builds the `finally` clause of a `try`, and finds the node where it or else the rest of the
function begins. -/
def beforeJoin (join : NodeId) (clause : List Stmt) : Option RegionId → Making NodeId
  | none => return join
  | some region => do
    let built ← call { t with region, body := clause }
    connectFrom built.exit join .always
    return built.entry

/-- Builds a `try`. -/
def attempt (site : Site) (body : List Stmt) (list : List Handler) (orelse final : List Stmt) :
    Making Fragment := do
  settle (rejectIf (attemptFault? site list orelse final))
  let whole ← t.part site .whole
  let join ← newNode (t.env.node .join)
  let clause ← settle (t.clauseRegion site final)
  -- the `finally` clause watches over the other clauses, not over itself
  let inner := t.watched whole final clause
  let region ← t.part site .body
  let built ← { inner with region, body }.required call site
  let handled ← inner.handlers call site built.entry 0 list
  let completed ← inner.afterBody call whole built.exit orelse
  let target ← t.beforeJoin call join final clause
  (completed.toList ++ handled).forM fun u => connect u target .always
  return ⟨built.entry, some join⟩

/-- Builds the body of a `with`. -/
def hold (site : Site) (header : Span) (body : List Stmt) : Making Fragment := do
  let region ← t.part site .whole
  { t with region, scopes := .resource header region :: t.scopes, body }.required call site

/-- Leads the jump at `site` from the node `source` through scopes, innermost first. -/
def unwind (site : Site) (means : Jump) : NodeId → List Scope → Making Unit
  | source, [] =>
    match means with
    | .returning => record ⟨source, .returns site⟩
    | .raising => record ⟨source, .raises site⟩
    | .breaking | .continuing => settle (.error (.rejected (.ofSite (.outsideLoop means) site)))
  | source, .loop ends :: outer =>
    match means with
    | .breaking => connect source ends.exit .always
    | .continuing => connect source ends.head .loopBack
    | .returning | .raising => unwind site means source outer
  | source, .resource header region :: outer => do
    let release ← newNode ((t.env.within region).node (.release header))
    let next ← newNode
      (t.env.carryOn ((t.regions.parent? region).getD region) site means)
    connect source release .always
    connect release next .always
    unwind site means next outer
  | source, .final clause whole region :: outer => do
    -- the clause may push scopes and jump in turn, but no longer stands around itself
    let built ← call { t with region, scopes := outer, duplicate := true, body := clause }
    connect source built.entry .always
    match built.exit with
    | none => return
    | some last => do
      let next ← newNode (t.env.carryOn whole site means)
      connect last next .resume
      unwind site means next outer

/-- Continues a sequence with a statement. -/
def stmt (s : Progress) : Stmt → Making Progress
  | .simple site => do return (← t.put s (.simple site)).2
  | .pass site => do return (← t.put s (.pass site)).2
  | .marker site name =>
    if t.options.markers then do return (← t.put s (.marker site name)).2 else return s
  | .yield site => do
    let node ← newNode (t.env.node (.yield site))
    record ⟨node, .suspends site⟩
    s.append ⟨node, some node⟩
  -- a `raise` has a node of its own, and other jumps join the block before them
  | .jump site .raising => do
    let node ← newNode (t.env.node (.raise site))
    let s ← s.append ⟨node, some node⟩
    t.unwind call site .raising node t.scopes
    return { s with tail := none }
  | .jump site means => do
    let (node, s) ← t.put s (.jump site means)
    t.unwind call site means node t.scopes
    return { s with tail := none, block := none }
  | .branch site test body rest => do s.append (← t.branch call site test body rest)
  | .loop site head body orelse => do s.append (← t.loop call site head.span body orelse)
  | .attempt site body list orelse final => do
    s.append (← t.attempt call site body list orelse final)
  | .hold site isAsync header body => do
    let (_, s) ← t.put s (.hold site isAsync header body)
    s.append (← t.hold call site header body)
  | .dispatch site subject list => do s.append (← t.dispatch call site subject list)
  | .unsupported site => settle (.error (.rejected (.ofSite .unsupported site)))

/-- What was built of a body that begins at `entry`.  A body whose statements were all left out is
an empty node. -/
def complete (entry tail : Option NodeId) : Making Fragment :=
  match entry with
  | some entry => return ⟨entry, tail⟩
  | none => do
    let node ← newNode (t.env.node .empty)
    return ⟨node, some node⟩

/-- Builds a body, given how the jobs inside it are done. -/
def step : Making Fragment := do
  let s ← t.body.foldlM (t.stmt call) ⟨none, none, none⟩
  t.complete s.entry s.tail

end Step

/-! ## The jobs inside a job -/

/-- The jobs that a job calls for.  The last constructor is the `finally` clause that a jump
passes; it is built under the scopes around its own `try`. -/
inductive Calls (t : Job) : Job → Prop
  | arm {site : Site} {test : Span} {body : List Stmt} {rest : List BranchClause}
      (h : .branch site test body rest ∈ t.body) : Calls t { t with body }
  | clause {site : Site} {test : Span} {body : List Stmt} {rest : List BranchClause}
      (h : .branch site test body rest ∈ t.body) {clause : BranchClause} (hc : clause ∈ rest) :
      Calls t { t with body := clause.body }
  | loop {site : Site} {head : LoopHead} {body orelse : List Stmt}
      (h : .loop site head body orelse ∈ t.body) (ends : LoopEnds) :
      Calls t { t with scopes := .loop ends :: t.scopes, body }
  | afterLoop {site : Site} {head : LoopHead} {body orelse : List Stmt}
      (h : .loop site head body orelse ∈ t.body) (region : RegionId) :
      Calls t { t with region, body := orelse }
  | case {site : Site} {subject : Span} {list : List MatchCase}
      (h : .dispatch site subject list ∈ t.body) {case : MatchCase} (hc : case ∈ list)
      (region : RegionId) : Calls t { t with region, body := case.body }
  | watched {site : Site} {body : List Stmt} {list : List Handler} {orelse final : List Stmt}
      (h : .attempt site body list orelse final ∈ t.body) (whole : RegionId)
      (clause : Option RegionId) {part : List Stmt}
      (hp : part ∈ body :: orelse :: list.map (·.body)) (region : RegionId) :
      Calls t { t.watched whole final clause with region, body := part }
  | final {site : Site} {body : List Stmt} {list : List Handler} {orelse final : List Stmt}
      (h : .attempt site body list orelse final ∈ t.body) (region : RegionId) :
      Calls t { t with region, body := final }
  | hold {site : Site} {isAsync : Bool} {header : Span} {body : List Stmt}
      (h : .hold site isAsync header body ∈ t.body) (region : RegionId) :
      Calls t { t with region, scopes := .resource header region :: t.scopes, body }
  | replay {site : Site} {means : Jump} (h : .jump site means ∈ t.body) {clause : List Stmt}
      {whole region : RegionId} {outer : List Scope}
      (hs : .final clause whole region :: outer <:+ t.scopes) :
      Calls t { t with region, scopes := outer, duplicate := true, body := clause }

end Job

/-- The number of statements in the `finally` clauses among scopes. -/
def Scope.weight : List Scope → Nat
  | [] => 0
  | .final clause _ _ :: outer => (bodyStatements clause).length + weight outer
  | .loop _ :: outer | .resource _ _ :: outer => weight outer

theorem Scope.weight_le_of_suffix {inner outer : List Scope} (h : outer <:+ inner) :
    weight outer ≤ weight inner := by
  obtain ⟨front, rfl⟩ := h
  induction front with
  | nil => exact le_rfl
  | cons scope front ih =>
    cases scope with
    | loop ends => exact ih
    | resource header region => exact ih
    | final clause whole region => exact ih.trans (Nat.le_add_left _ _)

theorem length_statements_le {s : Stmt} {body : List Stmt} (h : s ∈ body) :
    s.statements.length ≤ (bodyStatements body).length := by
  induction body with
  | nil => cases h
  | cons first rest ih =>
    rw [bodyStatements, List.length_append]
    rcases List.mem_cons.1 h with rfl | h
    · exact Nat.le_add_right _ _
    · exact (ih h).trans (Nat.le_add_left _ _)

theorem length_clauseStatements_le {clauses : List (Clause (Option Span) Stmt)}
    {clause : Clause (Option Span) Stmt} (h : clause ∈ clauses) :
    (bodyStatements clause.body).length ≤ (clauseStatements clauses).length := by
  induction clauses with
  | nil => cases h
  | cons first rest ih =>
    rw [clauseStatements, List.length_append]
    rcases List.mem_cons.1 h with rfl | h
    · exact Nat.le_add_right _ _
    · exact (ih h).trans (Nat.le_add_left _ _)

theorem length_caseStatements_le {cases : List MatchCase} {case : MatchCase} (h : case ∈ cases) :
    (bodyStatements case.body).length ≤ (caseStatements cases).length := by
  induction cases with
  | nil => cases h
  | cons first rest ih =>
    rw [caseStatements, List.length_append]
    rcases List.mem_cons.1 h with rfl | h
    · exact Nat.le_add_right _ _
    · exact (ih h).trans (Nat.le_add_left _ _)

namespace Job

/-- The number of statements that are to be built, and of those in the `finally` clauses around
them. -/
def weight (t : Job) : Nat :=
  (bodyStatements t.body).length + Scope.weight t.scopes

theorem weight_watched (t : Job) (whole : RegionId) (clause : List Stmt)
    (region : Option RegionId) :
    Scope.weight (t.watched whole clause region).scopes ≤
      (bodyStatements clause).length + Scope.weight t.scopes := by
  cases region with
  | none => exact Nat.le_add_left _ _
  | some region => exact le_rfl

/-- A job is lighter if, together with the `finally` clauses that were put around it, it is smaller
than one of the statements of the other job. -/
theorem weight_lt_of_mem {t t' : Job} {s : Stmt} (hs : s ∈ t.body)
    (h : (bodyStatements t'.body).length + Scope.weight t'.scopes <
      s.statements.length + Scope.weight t.scopes) : t'.weight < t.weight := by
  have := length_statements_le hs
  rw [weight, weight]
  omega

/-- A job inside another one is lighter: what it has to build was part of a statement of that
job, or of a `finally` clause that no longer stands around it. -/
theorem Calls.weight_lt {t t' : Job} (h : t.Calls t') : t'.weight < t.weight := by
  cases h with
  | arm h | afterLoop h | final h =>
    refine weight_lt_of_mem h ?_
    simp only [Stmt.statements, List.length_cons, List.length_append]
    omega
  | loop h | hold h =>
    refine weight_lt_of_mem h ?_
    simp only [Stmt.statements, Scope.weight, List.length_cons, List.length_append]
    omega
  | clause h hc =>
    refine weight_lt_of_mem h ?_
    have := length_clauseStatements_le hc
    simp only [Stmt.statements, List.length_cons, List.length_append]
    omega
  | case h hc =>
    refine weight_lt_of_mem h ?_
    have := length_caseStatements_le hc
    simp only [Stmt.statements, List.length_cons]
    omega
  | @watched _ body list orelse final h whole clause part hp region =>
    refine weight_lt_of_mem h ?_
    have hpart : (bodyStatements part).length ≤ (bodyStatements body).length +
        (bodyStatements orelse).length + (clauseStatements list).length := by
      simp only [List.mem_cons, List.mem_map] at hp
      obtain rfl | rfl | ⟨handler, hh, rfl⟩ := hp
      · omega
      · omega
      · have := length_clauseStatements_le hh
        omega
    -- the clause that was put around the part was counted with the statement
    have := t.weight_watched whole final clause
    simp only [Stmt.statements, List.length_cons, List.length_append]
    omega
  | replay h hs =>
    refine weight_lt_of_mem h ?_
    -- the clause was counted among those around the jump, which is one statement more
    have hs := Scope.weight_le_of_suffix hs
    simp only [Scope.weight] at hs
    simp only [Stmt.statements, List.length_cons]
    omega

/-! ## Building a body needs the jobs inside it only -/

section Congr

variable {f g : Job → Making Fragment} {t : Job}

theorem required_congr (h : f t = g t) (site : Site) : t.required f site = t.required g site := by
  rw [required, required, h]

theorem arm_congr {body : List Stmt} (h : f { t with body } = g { t with body }) (site : Site)
    (source : NodeId) (label : Label) (join : NodeId) :
    t.arm f site source label body join = t.arm g site source label body join := by
  rw [arm, arm, required_congr h]

theorem clauses_congr (site : Site) (join : NodeId) {rest : List BranchClause}
    (h : ∀ clause ∈ rest, f { t with body := clause.body } = g { t with body := clause.body })
    (test : NodeId) (hasElse : Bool) :
    t.clauses f site join test hasElse rest = t.clauses g site join test hasElse rest := by
  induction rest generalizing test hasElse with
  | nil => rfl
  | cons clause rest ih =>
    have hfirst := arm_congr (h clause (by simp)) site
    have hrest := ih fun clause hc => h clause (List.mem_cons_of_mem _ hc)
    obtain ⟨_, _ | header, body⟩ := clause <;> simp only [clauses, hfirst, hrest]

theorem cases_congr (site : Site) (dispatch join : NodeId) {list : List MatchCase}
    (h : ∀ case ∈ list, f { t with body := case.body } = g { t with body := case.body })
    (index : Nat) (previous : Option NodeId) :
    t.cases f site dispatch join index previous list =
      t.cases g site dispatch join index previous list := by
  induction list generalizing index previous with
  | nil => rfl
  | cons case list ih =>
    have hfirst := required_congr (h case (by simp)) site
    have hrest := ih fun case hc => h case (List.mem_cons_of_mem _ hc)
    simp only [cases, hfirst, hrest]

theorem handlers_congr (site : Site) (entry : NodeId) {list : List Handler}
    (h : ∀ handler ∈ list, ∀ region,
      f { t with region, body := handler.body } = g { t with region, body := handler.body })
    (index : Nat) :
    t.handlers f site entry index list = t.handlers g site entry index list := by
  induction list generalizing index with
  | nil => rfl
  | cons handler list ih =>
    have hfirst := fun region => required_congr (h handler (by simp) region) site
    have hrest := ih fun handler hh => h handler (List.mem_cons_of_mem _ hh)
    simp only [handlers, hfirst, hrest]

/-- Unwinding a jump needs the `finally` clauses it passes. -/
theorem unwind_congr (site : Site) (means : Jump) (scopes : List Scope)
    (h : ∀ clause whole region outer, .final clause whole region :: outer <:+ scopes →
      f { t with region, scopes := outer, duplicate := true, body := clause } =
        g { t with region, scopes := outer, duplicate := true, body := clause })
    (source : NodeId) :
    t.unwind f site means source scopes = t.unwind g site means source scopes := by
  induction scopes generalizing source with
  | nil => rfl
  | cons scope outer ih =>
    -- the clauses further out are among those that are passed
    have hrest := ih fun clause whole region outer' hs =>
      h clause whole region outer' (hs.trans (List.suffix_cons scope outer))
    cases scope with
    | loop ends => cases means <;> simp only [unwind, hrest]
    | resource header region => simp only [unwind, hrest]
    | final clause whole region =>
      simp only [unwind, hrest, h clause whole region outer List.suffix_rfl]

theorem stmt_congr (h : ∀ t', t.Calls t' → f t' = g t') {x : Stmt} (hx : x ∈ t.body)
    (s : Progress) : t.stmt f s x = t.stmt g s x := by
  cases x with
  | simple | pass | marker | yield | unsupported => rfl
  | jump site means =>
    have hunwind := unwind_congr site means t.scopes
      fun clause whole region outer hs => h _ (.replay hx hs)
    cases means <;> simp only [stmt, hunwind]
  | branch site test body rest =>
    have hbody := arm_congr (h _ (.arm hx)) site
    have hrest := fun join => clauses_congr site join fun clause hc => h _ (.clause hx hc)
    simp only [stmt, branch, hbody, hrest]
  | loop site head body orelse =>
    have hbody := fun ends => required_congr (h _ (.loop hx ends)) site
    have helse := fun region => h _ (.afterLoop hx region)
    simp only [stmt, loop, afterLoop, hbody, helse]
  | attempt site body list orelse final =>
    -- the body, the `else` clause and the handlers are built inside the `finally` clause
    have hpart := fun whole clause part (hp : part ∈ body :: orelse :: list.map (·.body)) region =>
      h _ (.watched hx whole clause hp region)
    have hbody := fun whole clause region =>
      required_congr (hpart whole clause body (by simp) region) site
    have hlist := fun whole clause entry =>
      handlers_congr site entry fun handler hh region =>
        hpart whole clause handler.body (by simpa using .inr (.inr ⟨handler, hh, rfl⟩)) region
    have helse := fun whole clause region => hpart whole clause orelse (by simp) region
    have hfinal := fun region => h _ (.final hx region)
    have hbefore : ∀ join region,
        t.beforeJoin f join final region = t.beforeJoin g join final region := by
      intro join region
      cases region <;> simp only [beforeJoin, hfinal]
    simp only [stmt, attempt, afterBody, hbody, hlist, helse, hbefore]
  | hold site isAsync header body =>
    have hbody := fun region => required_congr (h _ (.hold hx region)) site
    simp only [stmt, hold, hbody]
  | dispatch site subject list =>
    have hlist := fun region dispatch join =>
      cases_congr (t := { t with region }) site dispatch join fun case hc =>
        h _ (.case hx hc region)
    simp only [stmt, Job.dispatch, hlist]

/-- Building a body needs the jobs inside it only. -/
theorem step_congr (h : ∀ t', t.Calls t' → f t' = g t') : t.step f = t.step g := by
  have hfold : ∀ (rest : List Stmt) (s : Progress), (∀ x ∈ rest, x ∈ t.body) →
      rest.foldlM (t.stmt f) s = rest.foldlM (t.stmt g) s := by
    intro rest
    induction rest with
    | nil => exact fun _ _ => rfl
    | cons x rest ih =>
      intro s hb
      have hrest := fun s => ih s fun y hy => hb y (List.mem_cons_of_mem _ hy)
      simp only [List.foldlM_cons, stmt_congr h (hb x (by simp)), hrest]
  rw [step, step, hfold _ _ fun _ hx => hx]

end Congr

/-! ## Building a body -/

/-- Builds a body.  The comparison of weights never fails where it matters, and shows that the
jobs come to an end. -/
def run (t : Job) : Making Fragment :=
  t.step fun t' => if t'.weight < t.weight then t'.run else settle (.ok ⟨0, none⟩)
termination_by t.weight

/-- Building a body does the jobs inside it in the same way. -/
theorem run_eq_step (t : Job) : t.run = t.step run := by
  rw [run]
  exact step_congr fun t' h => if_pos h.weight_lt

/-- There is no other way to build bodies. -/
theorem eq_run {f : Job → Making Fragment} (h : ∀ t : Job, f t = t.step f) (t : Job) :
    f t = t.run := by
  induction hw : t.weight using Nat.strong_induction_on generalizing t with
  | _ weight ih =>
    subst hw
    rw [h t, run_eq_step t]
    exact step_congr fun t' hcall => ih _ hcall.weight_lt t' rfl

end Job

end Flowgraph
