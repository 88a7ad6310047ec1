import Flowgraph.Proofs.SinglePass

/-!
# Building with a stack of scopes

A job carries the scopes around its body with it.  They can also be kept on a stack, as a part of
the draft that is being extended.  A scope is pushed before the construction goes into a loop, a
`with` or the clauses that a `finally` clause watches over, and it is popped when the construction
comes out.  The region of new nodes, and whether they belong to a copy, are set and set back in the
same way.  A jump looks at the scopes on the stack from the innermost to the outermost.  For the
copy of a `finally` clause the inner scopes are taken off the stack, up to that of its own `try`,
and they are put back when the copy is done.

A failure leaves the stack as it is at that moment.  Otherwise the construction relies on finding
the stack as it has left it, and at the end of the function the stack has to be empty.

## Main definitions

* `Building` : a computation that extends a draft, and may fail on the way.
* `Building.inside`, `Building.outside` : what is built inside one more scope, or outside the inner
  ones.
* `Building.step` : building a body, given how the bodies inside it are built.
* `Building.run`, `Building.function` : building a body, and a whole function.
* `Graph.assemble` : the graph of a function that is built in this way.
-/

namespace Flowgraph

open Making

/-- A computation that extends a draft.  What was done before a failure is kept. -/
abbrev Building := EStateM Failure Draft

/-- A body, as a job at the spot where a draft is extended. -/
def Draft.job (s : Draft) (body : List Stmt) : Job where
  toSpot := s.toSpot
  duplicate := s.duplicate
  body := body

namespace Building

variable {α : Type}

/-! ## Adding to the graph -/

/-- What changes nothing but the graph. -/
def make (x : Making α) : Building α :=
  fun s =>
    match x s.made with
    | .ok a p => .ok a { s with made := p }
    | .error failure p => .error failure { s with made := p }

/-- What a job at this spot adds to the graph. -/
def onSpot (x : Job → Making α) : Building α :=
  fun s => make (x (s.job [])) s

/-- Makes a node. -/
def makeNode (content : Content) : Building NodeId :=
  onSpot fun t => newNode (t.env.node content)

/-- Adds a statement to the open block, or to a new one. -/
def put (s : Progress) (stmt : Stmt) : Building (NodeId × Progress) :=
  onSpot (·.put s stmt)

/-- The region of a part of a statement. -/
def part (site : Site) (part : Part) : Building RegionId :=
  onSpot (·.part site part)

/-! ## Moving the spot -/

/-- Changes the draft that was left, also after a failure. -/
def leaving (f : Draft → Draft) :
    EStateM.Result Failure Draft α → EStateM.Result Failure Draft α
  | .ok a s => .ok a (f s)
  | .error failure s => .error failure (f s)

/-- New nodes stand in the region. -/
def within (region : RegionId) (x : Building α) : Building α :=
  fun s => leaving (fun t => { t with region := s.region }) (x { s with region })

/-- New nodes belong to a copy. -/
def copying (x : Building α) : Building α :=
  fun s => leaving (fun t => { t with duplicate := s.duplicate }) (x { s with duplicate := true })

/-- Puts a scope on the stack. -/
def push (scope : Scope) : Building Unit :=
  fun s => .ok () { s with scopes := scope :: s.scopes }

/-- Takes the innermost scope off the stack, whatever it is. -/
def pop : Building Unit :=
  fun s => .ok () { s with scopes := s.scopes.tail }

/-- Builds inside one more scope. -/
def inside (scope : Scope) (x : Building α) : Building α := do
  push scope
  let a ← x
  pop
  return a

/-- Builds outside all but the outermost `depth` scopes, and puts the others back on what is then
on the stack. -/
def outside (depth : Nat) (x : Building α) : Building α :=
  fun s =>
    let inner := s.scopes.length - depth
    leaving (fun t => { t with scopes := s.scopes.take inner ++ t.scopes })
      (x { s with scopes := s.scopes.drop inner })

/-- The number of scopes on the stack. -/
def depth : Building Nat :=
  fun s => .ok s.scopes.length s

/-- The scope that stands inside `depth` others, where there has to be one. -/
def scopeAt (depth : Nat) : Building Scope :=
  fun s =>
    match s.scopes.reverse[depth]? with
    | some scope => .ok scope s
    | none => .error (.defective (.noScope depth)) s

/-- The stack has to be empty. -/
def expectEmpty : Building Unit :=
  fun s => if s.scopes.isEmpty then .ok () s else .error (.defective .scopeLeft) s

/-! ## Building a body -/

section Step

variable (call : List Stmt → Building Fragment)

/-- Builds a body that must not be empty. -/
def required (site : Site) (body : List Stmt) : Building Fragment :=
  if body.isEmpty then make (settle (.error (.rejected (.ofSite .emptyBody site)))) else call body

/-- Builds the body that `source` leads to. -/
def arm (site : Site) (source : NodeId) (label : Label) (body : List Stmt) (join : NodeId) :
    Building Unit := do
  let built ← required call site body
  make (connect source built.entry label)
  make (connectFrom built.exit join .always)

/-- Builds the clauses of an `if` after the test `test`. -/
def clauses (site : Site) (join : NodeId) : NodeId → Bool → List BranchClause → Building Unit
  | test, hasElse, [] => if hasElse then return else make (connect test join .no)
  | test, _, ⟨_, none, body⟩ :: rest => do
    arm call site test .no body join
    clauses site join test true rest
  | test, hasElse, ⟨_, some header, body⟩ :: rest => do
    let next ← makeNode (.test header)
    make (connect test next .no)
    arm call site next .yes body join
    clauses site join next hasElse rest

/-- Builds an `if`. -/
def branch (site : Site) (test : Span) (body : List Stmt) (rest : List BranchClause) :
    Building Fragment := do
  make (settle (rejectIf (branchFault? site rest)))
  let head ← makeNode (.test test)
  let join ← makeNode .join
  arm call site head .yes body join
  clauses call site join head false rest
  return ⟨head, some join⟩

/-- Builds the `else` clause of a loop. -/
def afterLoop (site : Site) (guard after : NodeId) (orelse : List Stmt) : Building Unit :=
  if orelse.isEmpty then make (connect guard after .no)
  else do
    let region ← part site .orelse
    let built ← within region (call orelse)
    make (connect guard built.entry .no)
    make (connectFrom built.exit after .always)

/-- Builds a loop. -/
def loop (site : Site) (header : Span) (body orelse : List Stmt) : Building Fragment := do
  let guard ← makeNode (.test header)
  let after ← makeNode .join
  let built ← inside (.loop ⟨guard, after⟩) (required call site body)
  make (connect guard built.entry .yes)
  make (connectFrom built.exit guard .loopBack)
  -- the `else` clause is no longer inside the loop
  afterLoop call site guard after orelse
  return ⟨guard, some after⟩

/-- Builds the cases of a `match`. -/
def cases (site : Site) (dispatch join : NodeId) :
    Nat → Option NodeId → List MatchCase → Building Unit
  | _, previous, [] =>
    match previous with
    | none => return
    | some last => do
      make (connect dispatch join .noMatch)
      make (connect last join .noMatch)
  | index, previous, ⟨_, head, body⟩ :: rest => do
    let tests ← onSpot fun t =>
      head.patterns.mapM fun pattern => newNode (t.env.node (.caseTest pattern.span))
    let built ← required call site body
    make (connectFrom built.exit join .always)
    let previous ← onSpot (·.alternatives dispatch built.entry index previous tests)
    cases site dispatch join (index + 1) (if head.acceptsAll then none else previous) rest

/-- Builds a `match`. -/
def dispatch (site : Site) (subject : Span) (list : List MatchCase) : Building Fragment := do
  make (settle (rejectIf (if list.isEmpty then some (.ofSite .noCases site) else none)))
  let dispatch ← makeNode (.test subject)
  let join ← makeNode .join
  let region ← part site .whole
  within region (cases call site dispatch join 0 (some dispatch) list)
  return ⟨dispatch, some join⟩

/-- Builds the handlers of a `try`, and finds the nodes where they complete. -/
def handlers (site : Site) (entry : NodeId) : Nat → List Handler → Building (List NodeId)
  | _, [] => return []
  | index, ⟨_, _, body⟩ :: rest => do
    let region ← part site (.handler index)
    let built ← within region (required call site body)
    make (connect entry built.entry (.exception index))
    let handled ← handlers site entry (index + 1) rest
    return built.exit.toList ++ handled

/-- Builds the `else` clause of a `try`, and finds the node where it or else the body completes. -/
def afterBody (completed : Option NodeId) (orelse : List Stmt) : Building (Option NodeId) :=
  if orelse.isEmpty then return completed
  else do
    let built ← call orelse
    make (connectFrom completed built.entry .orelse)
    return built.exit

/-- Builds the clauses of a `try` that its `finally` clause watches over, and finds the node where
they begin and those where they complete. -/
def guarded (site : Site) (whole : RegionId) (body : List Stmt) (list : List Handler)
    (orelse : List Stmt) : Building (NodeId × List NodeId) :=
  within whole do
    let region ← part site .body
    let built ← within region (required call site body)
    let handled ← handlers call site built.entry 0 list
    let completed ← afterBody call built.exit orelse
    return (built.entry, completed.toList ++ handled)

/-- Builds inside the scope of a `finally` clause, if there is one. -/
def watched (whole : RegionId) (clause : List Stmt) (x : Building α) :
    Option RegionId → Building α
  | none => x
  | some region => inside (.final clause whole region) x

/-- Builds the `finally` clause of a `try`, and finds the node where it or else the rest of the
function begins. -/
def beforeJoin (join : NodeId) (clause : List Stmt) : Option RegionId → Building NodeId
  | none => return join
  | some region => do
    let built ← within region (call clause)
    make (connectFrom built.exit join .always)
    return built.entry

/-- Builds a `try`. -/
def attempt (site : Site) (body : List Stmt) (list : List Handler) (orelse final : List Stmt) :
    Building Fragment := do
  make (settle (rejectIf (attemptFault? site list orelse final)))
  let whole ← part site .whole
  let join ← makeNode .join
  let clause ← onSpot fun t => settle (t.clauseRegion site final)
  let (entry, completed) ← watched whole final (guarded call site whole body list orelse) clause
  let target ← beforeJoin call join final clause
  make (completed.forM fun u => connect u target .always)
  return ⟨entry, some join⟩

/-- Builds the body of a `with`. -/
def hold (site : Site) (header : Span) (body : List Stmt) : Building Fragment := do
  let region ← part site .whole
  inside (.resource header region) (within region (required call site body))

/-- Leads the jump at `site` from the node `source` through the outermost scopes of the stack, of
which there are as many as the number says, innermost first. -/
def unwind (site : Site) (means : Jump) : Nat → NodeId → Building Unit
  | 0, source =>
    match means with
    | .returning => make (record ⟨source, .returns site⟩)
    | .raising => make (record ⟨source, .raises site⟩)
    | .breaking | .continuing =>
      make (settle (.error (.rejected (.ofSite (.outsideLoop means) site))))
  | depth + 1, source => do
    match ← scopeAt depth with
    | .loop ends =>
      match means with
      | .breaking => make (connect source ends.exit .always)
      | .continuing => make (connect source ends.head .loopBack)
      | .returning | .raising => unwind site means depth source
    | .resource header region => do
      let release ← within region (makeNode (.release header))
      let next ← onSpot fun t =>
        newNode (t.env.carryOn ((t.regions.parent? region).getD region) site means)
      make (connect source release .always)
      make (connect release next .always)
      unwind site means depth next
    | .final clause whole region => do
      -- the clause may push scopes and jump in turn, but no longer stands around itself
      let built ← outside depth (copying (within region (call clause)))
      make (connect source built.entry .always)
      match built.exit with
      | none => return
      | some last => do
        let next ← onSpot fun t => newNode (t.env.carryOn whole site means)
        make (connect last next .resume)
        unwind site means depth next

/-- Continues a sequence with a statement. -/
def stmt (s : Progress) : Stmt → Building Progress
  | .simple site => do return (← put s (.simple site)).2
  | .pass site => do return (← put s (.pass site)).2
  | .marker site name => onSpot fun t =>
    if t.options.markers then do return (← t.put s (.marker site name)).2 else return s
  | .yield site => do
    let node ← makeNode (.yield site)
    make (record ⟨node, .suspends site⟩)
    make (s.append ⟨node, some node⟩)
  | .jump site .raising => do
    let node ← makeNode (.raise site)
    let s ← make (s.append ⟨node, some node⟩)
    unwind call site .raising (← depth) node
    return { s with tail := none }
  | .jump site means => do
    let (node, s) ← put s (.jump site means)
    unwind call site means (← depth) node
    return { s with tail := none, block := none }
  | .branch site test body rest => do
    let part ← branch call site test body rest
    make (s.append part)
  | .loop site head body orelse => do
    let part ← loop call site head.span body orelse
    make (s.append part)
  | .attempt site body list orelse final => do
    let part ← attempt call site body list orelse final
    make (s.append part)
  | .hold site isAsync header body => do
    let (_, s) ← put s (.hold site isAsync header body)
    let part ← hold call site header body
    make (s.append part)
  | .dispatch site subject list => do
    let part ← dispatch call site subject list
    make (s.append part)
  | .unsupported site => make (settle (.error (.rejected (.ofSite .unsupported site))))

/-- Builds a body, given how the bodies inside it are built. -/
def step (body : List Stmt) : Building Fragment := do
  let s ← body.foldlM (stmt call) ⟨none, none, none⟩
  onSpot (·.complete s.entry s.tail)

end Step

/-- Builds a body.  The comparison of weights never fails where it matters, and shows that the
bodies inside it come to an end. -/
def run (body : List Stmt) (s : Draft) : EStateM.Result Failure Draft Fragment :=
  step (fun body' s' =>
    if (s'.job body').weight < (s.job body).weight then run body' s' else .ok ⟨0, none⟩ s') body s
termination_by (s.job body).weight

/-- Builds a function: its entry, its body, which must not be empty, and its exit.  By then every
scope has been left. -/
def function (body : List Stmt) : Building NodeId :=
  if body.isEmpty then make (settle (.error (.rejected ⟨.emptyBody, none, ⟨0, 0⟩⟩)))
  else do
    let entry ← makeNode .entry
    let built ← run body
    make (connect entry built.entry .always)
    let exit ← makeNode .exit
    make (connectFrom built.exit exit .always)
    make (record ⟨exit, .fallsThrough⟩)
    expectEmpty
    return exit

end Building

/-- The graph of a function body, built in a single pass with a stack of scopes. -/
def Graph.assemble (options : Options) (body : List Stmt) : Except Failure Graph :=
  match Building.function body (.start options (RegionTree.ofBody body)) with
  | .ok exit s => ofLayout s.regions s.made exit
  | .error failure _ => .error failure

end Flowgraph
