import Flowgraph.Proofs.Planning
import Flowgraph.Proofs.View

/-!
# Viewing a statement tree

A statement is viewed with one continuation for every way in which it can end: completing, or one of
the jumps.  A loop takes `break` and `continue` for itself, a `with` releases its resource before a
jump goes on, and a `finally` clause runs before any ending goes on.  Nothing here mentions plans,
nodes or edges.

Straight-line statements are collected until something ends their block, since a view sees what
happens at a node as a whole.

The plan of a body is viewed as the body itself.  A jump is resolved in the plan and takes its route
through whatever encloses it; in the tree it is handed outwards by the continuations.  The two
agree because each enclosure does to a continuation what it adds to a route.

## Main definitions

* `Outcome` : the ways in which statements end.
* `Stmt.view`, `bodyView` : the value of statements, given the values of their outcomes.
* `resolve` : the values of outcomes, given the constructs around a statement.

## Main results

* `view_planBody` : the plan of a body is viewed as the body.
* `least_viewed_ofPlan` : the least value of the entry of a function is the value of its body.
-/

namespace Flowgraph

/-- The ways in which statements end. -/
inductive Outcome where
  /-- Control reaches the end. -/
  | normal
  /-- A jump leaves. -/
  | jump (site : Site) (means : Jump)
deriving DecidableEq, Repr

namespace Stmt

/-- The statement has a place in the graph: markers may be ignored. -/
def kept (markers : Bool) : Stmt → Bool
  | marker .. => markers
  | _ => true

/-- The statement runs in line with the ones before and after it. -/
def isStraight : Stmt → Bool
  | simple _ | pass _ | marker .. => true
  | _ => false

end Stmt

variable {V : Type}

/-- The continuation `κ` with another value for completing. -/
def continueWith (x : V) (κ : Outcome → V) : Outcome → V
  | .normal => x
  | .jump site means => κ (.jump site means)

@[simp] theorem continueWith_normal (x : V) (κ : Outcome → V) : continueWith x κ .normal = x := rfl

@[simp] theorem continueWith_self (κ : Outcome → V) : continueWith (κ .normal) κ = κ := by
  funext o
  cases o <;> rfl

/-- The continuation of the body of a loop whose head has the value `x`. -/
def loopBody (x : V) (κ : Outcome → V) : Outcome → V
  | .normal | .jump _ .continuing => x
  | .jump _ .breaking => κ .normal
  | .jump site means => κ (.jump site means)

variable [CompleteLattice V]

namespace View

variable (A : View V)

/-- The value of an outcome that is taken up again: a jump is carried out once more. -/
def resumed (κ : Outcome → V) : Outcome → V
  | .normal => κ .normal
  | .jump site means => A.see [.stmt (.jump site means)] (κ (.jump site means))

/-- The continuation of the body of a `with`: a jump releases the resource and is taken up
again. -/
def released (header : Span) (κ : Outcome → V) : Outcome → V
  | .normal => κ .normal
  | .jump site means => A.see [.release header] (A.resumed κ (.jump site means))

/-- The value of a block of statements that ends where `next` begins. -/
def block (stmts : List Stmt) (next caught : V) : V :=
  A.see (stmts.map .stmt) (next ⊔ A.heed caught)

/-- The value of a block of statements and of what begins a new node after it.  Without statements
there is no block, and what watches over it watches over the new node. -/
def apart (stmts : List Stmt) (next : V → V) (caught : V) : V :=
  if stmts.isEmpty then next caught else A.block stmts (next ⊥) caught

@[simp] theorem apart_nil (next : V → V) (caught : V) : A.apart [] next caught = next caught := rfl

@[simp] theorem apart_cons (s : Stmt) (stmts : List Stmt) (next : V → V) (caught : V) :
    A.apart (s :: stmts) next caught = A.block (s :: stmts) (next ⊥) caught := rfl

@[simp] theorem apart_concat (stmts : List Stmt) (s : Stmt) (next : V → V) (caught : V) :
    A.apart (stmts ++ [s]) next caught = A.block (stmts ++ [s]) (next ⊥) caught := by
  simp [apart]

/-- A new node at which nothing is seen is viewed as if it belonged to the block before it. -/
theorem apart_eq_block (before : List Stmt) (next caught : V) :
    A.apart before (fun c => next ⊔ A.heed c) caught = A.block before next caught := by
  cases before with
  | nil => simp [block]
  | cons s before => simp

end View

mutual

/-- The value of a statement, given the values of its outcomes, the statements before it in its
block, and the value of the handlers that watch over that block. -/
def Stmt.view (A : View V) (markers flat : Bool) (κ : Outcome → V) (before : List Stmt)
    (caught : V) : Stmt → V
  | .simple site => A.block (before ++ [.simple site]) (κ .normal) caught
  | .pass site => A.block (before ++ [.pass site]) (κ .normal) caught
  | .marker site name => A.block (before ++ [.marker site name]) (κ .normal) caught
  | .yield site =>
    A.apart before (A.block [.yield site] (κ .normal ⊔ A.leave (.suspends site))) caught
  | .jump site means =>
    if means = .raising then
      A.apart before (A.block [.jump site .raising] (κ (.jump site .raising))) caught
    else A.block (before ++ [.jump site means]) (κ (.jump site means)) caught
  | .branch _ test body clauses =>
    A.apart before
      (fun c => A.see [.test test] (bodyView A markers flat κ [] ⊥ body ⊔
        clausesView A markers flat κ clauses ⊔ A.heed c)) caught
  | .loop _ head body orelse =>
    -- `x` is the value at the head, where every round begins
    A.apart before
      (fun c => least fun x =>
        A.see [.test head.span] (bodyView A markers flat (loopBody x κ) [] ⊥ body ⊔
          bodyView A markers flat κ [] ⊥ orelse ⊔ A.heed c)) caught
  | .attempt _ body handlers orelse final =>
    -- the `finally` clause runs before any ending goes on, and a jump out of it goes on instead
    let after : Outcome → V := fun o =>
      if final.isEmpty then κ o
      else bodyView A markers flat (continueWith (A.resumed κ o) κ) [] ⊥ final
    A.apart before
      (fun c =>
        bodyView A markers flat (continueWith (bodyView A markers flat after [] ⊥ orelse) after) []
          (handlersView A markers flat after handlers ⊔ c) body) caught
  | .hold site isAsync header body =>
    A.block (before ++ [.hold site isAsync header body])
      (bodyView A markers flat (A.released header κ) [] ⊥ body) caught
  | .dispatch _ subject cases =>
    A.apart before
      (fun c => A.see [.test subject] (casesView A markers flat κ cases ⊔
        (if cases.any (·.head.acceptsAll) then ⊥ else κ .normal) ⊔ A.heed c)) caught
  | .unsupported _ => A.block before (κ .normal) caught

/-- The value of a sequence of statements.  A straight-line statement joins those before it. -/
def bodyView (A : View V) (markers flat : Bool) (κ : Outcome → V) (before : List Stmt)
    (caught : V) : List Stmt → V
  | [] => A.block before (κ .normal) caught
  | s :: rest =>
    if s.isStraight then
      bodyView A markers flat κ (if s.kept markers then before ++ [s] else before) caught rest
    else
      s.view A markers flat (continueWith (bodyView A markers flat κ [] ⊥ rest) κ) before caught

/-- The value of the clauses of an `if`. -/
def clausesView (A : View V) (markers flat : Bool) (κ : Outcome → V) :
    List (Clause (Option Span) Stmt) → V
  | [] => κ .normal
  | ⟨_, none, body⟩ :: _ => bodyView A markers flat κ [] ⊥ body
  | ⟨_, some test, body⟩ :: rest =>
    A.see [.test test]
      (bodyView A markers flat κ [] ⊥ body ⊔ clausesView A markers flat κ rest)

/-- The value of the handlers of a `try`. -/
def handlersView (A : View V) (markers flat : Bool) (κ : Outcome → V) :
    List (Clause (Option Span) Stmt) → V
  | [] => ⊥
  | ⟨_, _, body⟩ :: rest =>
    bodyView A markers flat κ [] ⊥ body ⊔ handlersView A markers flat κ rest

/-- The value of the cases of a `match`. -/
def casesView (A : View V) (markers flat : Bool) (κ : Outcome → V) :
    List (Clause CaseHead Stmt) → V
  | [] => κ .normal
  | ⟨_, head, body⟩ :: rest =>
    let body := bodyView A markers flat κ [] ⊥ body
    head.patterns.foldr
      (fun pattern x =>
        -- flat: the subject meets all alternatives at once; otherwise each one hands it to the next
        if flat then A.see [.caseTest pattern.span] body ⊔ x
        else A.see [.caseTest pattern.span] (body ⊔ x))
      (if head.acceptsAll then ⊥ else casesView A markers flat κ rest)

end

/-- The values of the outcomes of the clauses that a `finally` clause watches over. -/
def View.afterFinal (A : View V) (markers flat : Bool) (κ : Outcome → V) (final : List Stmt)
    (o : Outcome) : V :=
  if final.isEmpty then κ o
  else bodyView A markers flat (continueWith (A.resumed κ o) κ) [] ⊥ final

theorem Stmt.view_attempt (A : View V) (markers flat : Bool) (κ : Outcome → V)
    (before : List Stmt) (caught : V) (site : Site) (body : List Stmt) (handlers : List Handler)
    (orelse final : List Stmt) :
    (Stmt.attempt site body handlers orelse final).view A markers flat κ before caught =
      let after := A.afterFinal markers flat κ final
      A.apart before
        (fun c =>
          bodyView A markers flat (continueWith (bodyView A markers flat after [] ⊥ orelse) after)
            [] (handlersView A markers flat after handlers ⊔ c) body) caught := by
  rw [Stmt.view]
  rfl

/-! ## Plans are viewed as bodies -/

/-- The value of a jump out of the given enclosures. -/
def cross (A : View V) (flat : Bool) (site : Site) (means : Jump) :
    List Enclosure → List (V × V) → V
  | [], _ =>
    match means with
    | .returning => A.leave (.returns site)
    | .raising => A.leave (.raises site)
    | .breaking | .continuing => ⊥
  | .loop :: outer, loops =>
    match means with
    | .breaking => ⨆ ends ∈ loops.head?, ends.2
    | .continuing => ⨆ ends ∈ loops.head?, ends.1
    | .returning | .raising => cross A flat site means outer loops.tail
  | .resource header _ _ :: outer, loops =>
    A.see [.release header]
      (A.see [.stmt (.jump site means)] (cross A flat site means outer loops))
  | .final _ _ (.ok plan) :: outer, loops =>
    plan.view A flat
      (A.see [.stmt (.jump site means)] (cross A flat site means outer loops)) loops ⊥
  -- a clause without a plan: the jump has no route either
  | .final _ _ (.error _) :: _, _ => ⊥

/-- The values of the outcomes of a statement with the given enclosures. -/
def resolve (A : View V) (flat : Bool) (around : List Enclosure) (next : V)
    (loops : List (V × V)) : Outcome → V
  | .normal => next
  | .jump site means => cross A flat site means around loops

section Resolve

variable {A : View V} {flat : Bool} {around : List Enclosure} {loops : List (V × V)}

@[simp] theorem continueWith_resolve (x next : V) :
    continueWith x (resolve A flat around next loops) = resolve A flat around x loops := by
  funext o
  cases o <;> rfl

theorem resolve_loop (x next : V) :
    resolve A flat (.loop :: around) x ((x, next) :: loops) =
      loopBody x (resolve A flat around next loops) := by
  funext o
  cases o with
  | normal => rfl
  | jump site means => cases means <;> simp [resolve, cross, loopBody]

theorem resolve_resource (header : Span) (region outside : RegionId) (next : V) :
    resolve A flat (.resource header region outside :: around) next loops =
      A.released header (resolve A flat around next loops) := by
  funext o
  cases o <;> rfl

/-- The route of a jump is viewed as its way through the enclosures. -/
theorem Route.view_through {site : Site} {means : Jump} {route : Route} :
    Route.through site means around = .ok route →
      route.view A flat loops site means = cross A flat site means around loops := by
  induction around generalizing route loops with
  | nil =>
    intro h
    obtain ⟨hm, rfl⟩ := through_nil_eq_ok.1 h
    cases means <;> cases hm <;> rfl
  | cons e outer ih =>
    intro h
    cases e with
    | loop =>
      rcases through_loop_eq_ok.1 h with ⟨hm, rfl⟩ | ⟨hm, rest, hr, rfl⟩
      -- the two jumps that end here, and then the two that pass
      · cases means <;> cases hm <;> rfl
      · cases means <;> cases hm <;> exact ih hr
    | resource header region outside =>
      obtain ⟨rest, hr, rfl⟩ := through_resource_eq_ok.1 h
      rw [view, ih hr, cross]
    | final outside final body =>
      obtain ⟨plan, rfl, ⟨hc, rest, hr, rfl⟩ | ⟨hc, rfl⟩⟩ := through_final_eq_ok.1 h
      · rw [view, ih hr, cross]
      -- a clause that cannot complete swallows the jump, whatever its value outside
      · exact plan.view_of_not_completes A flat _ _ _ _ hc

end Resolve

namespace Plan

/-! ### Statements in front of a plan -/

/-- Statements join the block that a plan begins with. -/
theorem foldr_precededBy_join (join : List Stmt → Plan)
    (hjoin : ∀ s stmts, (join stmts).precededBy s = join (s :: stmts)) (before stmts : List Stmt) :
    before.foldr precededBy (join stmts) = join (before ++ stmts) := by
  induction before with
  | nil => rfl
  | cons s before ih => rw [List.foldr_cons, ih, hjoin, List.cons_append]

@[simp] theorem foldr_precededBy_block (before stmts : List Stmt) :
    before.foldr precededBy (block stmts) = block (before ++ stmts) :=
  foldr_precededBy_join block (fun _ _ => rfl) before stmts

@[simp] theorem foldr_precededBy_jump (before stmts : List Stmt) (site : Site) (means : Jump)
    (route : Route) :
    before.foldr precededBy (jump stmts site means route) =
      jump (before ++ stmts) site means route :=
  foldr_precededBy_join (fun stmts => jump stmts site means route) (fun _ _ => rfl) before stmts

@[simp] theorem foldr_precededBy_hold (before stmts : List Stmt) (header : Stmt)
    (region : RegionId) (body : Plan) :
    before.foldr precededBy (hold stmts header region body) =
      hold (before ++ stmts) header region body :=
  foldr_precededBy_join (fun stmts => hold stmts header region body) (fun _ _ => rfl) before stmts

@[simp] theorem foldr_precededBy_seq (before : List Stmt) (first rest : Plan) :
    before.foldr precededBy (seq first rest) = seq (before.foldr precededBy first) rest := by
  induction before with
  | nil => rfl
  | cons s before ih => rw [List.foldr_cons, ih]; rfl

/-- The plan begins with a node that no statement before it can join. -/
def standsAlone (plan : Plan) : Prop :=
  ∀ s, plan.precededBy s = seq (block [s]) plan

variable {A : View V} {flat : Bool} {loops : List (V × V)}

/-- Statements in front of a plan that none of them can join have a block of their own. -/
theorem standsAlone.view_foldr {plan : Plan} (h : plan.standsAlone) (before : List Stmt)
    (next caught : V) :
    (before.foldr precededBy plan).view A flat next loops caught =
      A.apart before (plan.view A flat next loops) caught := by
  cases before with
  | nil => rfl
  | cons s before =>
    have hblock : (s :: before).foldr precededBy plan = seq (block (s :: before)) plan := by
      induction before generalizing s with
      | nil => exact h s
      | cons s' before ih => rw [List.foldr_cons, ih s']; rfl
    rw [hblock, view, view]
    rfl

/-- Statements in front of nothing are a block. -/
theorem view_foldr_idle (before : List Stmt) (next caught : V) :
    (before.foldr precededBy idle).view A flat next loops caught = A.block before next caught := by
  rw [standsAlone.view_foldr fun _ => rfl]
  cases before <;> simp [view, View.block]

end Plan

/-- The cases of a `match` are exhaustive if one of them accepts every subject. -/
theorem exhaustive_planCases {cx : Context} {site : Site} {cases' : Cases} :
    {cases : List MatchCase} → planCases cx site cases = .ok cases' →
      cases'.exhaustive = cases.any (·.head.acceptsAll)
  | [], h => by
    simp only [planCases, Except.ok.injEq] at h
    subst h
    rfl
  | ⟨_, head, body⟩ :: rest, h => by
    obtain ⟨_, rest', -, -, hr, rfl⟩ := planCases_cons_eq_ok h
    rw [Cases.exhaustive, exhaustive_planCases hr, List.any_cons]

/-- A straight-line statement makes a block, unless it is left out. -/
theorem Stmt.plan_of_isStraight {s : Stmt} (hs : s.isStraight = true) (cx : Context) :
    s.plan cx = .ok (if s.kept cx.markers then some (.block [s]) else none) := by
  cases s with
  | simple | pass | marker => rfl
  | _ => cases hs

section Plans

variable (A : View V) (flat : Bool)

/-- A clause that may be left out is viewed as its statements, if its plan is. -/
theorem Annex.view_optionalClause {region : Except Failure RegionId} {body : List Stmt}
    {plan : Except Failure (Option Plan)} {annex : Annex}
    (h : optionalClause region body plan = .ok annex) {markers : Bool} (κ : Outcome → V) {next : V}
    {loops : List (V × V)} (hnext : κ .normal = next)
    (hplan : ∀ q, plan = .ok q →
      (Plan.orIdle q).view A flat next loops ⊥ = bodyView A markers flat κ [] ⊥ body) :
    annex.view A flat next loops = bodyView A markers flat κ [] ⊥ body := by
  rcases optionalClause_eq_ok.1 h with ⟨rfl, rfl⟩ | ⟨-, r, q, -, hq, rfl⟩
  · simp [view, bodyView, View.block, hnext]
  · exact hplan q hq

/-- The `finally` clause of a `try` is viewed as its statements. -/
theorem Annex.view_final {cx : Context} {site : Site} {final : List Stmt} {annex : Annex}
    (h : optionalClause (cx.region site .final) final (planBody cx final) = .ok annex)
    (hf : ∀ q, planBody cx final = .ok q → ∀ next loops,
      (Plan.orIdle q).view A flat next loops ⊥ =
        bodyView A cx.markers flat (resolve A flat cx.around next loops) [] ⊥ final)
    (next : V) (loops : List (V × V)) :
    annex.view A flat next loops =
      A.afterFinal cx.markers flat (resolve A flat cx.around next loops) final .normal := by
  rcases optionalClause_eq_ok.1 h with ⟨rfl, rfl⟩ | ⟨hne, r, q, -, hq, rfl⟩
  · rfl
  · -- completing takes nothing up again, so the clause goes on to `next`
    rw [view, hf q hq, View.afterFinal, if_neg (by simpa using hne), View.resumed,
      continueWith_resolve]
    rfl

/-- Inside a `try`, every outcome goes on through its `finally` clause. -/
theorem resolve_enterFinal {cx inner : Context} {site : Site} {whole : RegionId}
    {final : List Stmt} {annex : Annex}
    (hi : cx.enterFinal site whole final (planBody cx final) = .ok inner)
    (h : optionalClause (cx.region site .final) final (planBody cx final) = .ok annex)
    (hf : ∀ q, planBody cx final = .ok q → ∀ next loops,
      (Plan.orIdle q).view A flat next loops ⊥ =
        bodyView A cx.markers flat (resolve A flat cx.around next loops) [] ⊥ final)
    (next : V) (loops : List (V × V)) (x : V) :
    resolve A flat inner.around x loops = continueWith x
      (A.afterFinal cx.markers flat (resolve A flat cx.around next loops) final) := by
  funext o
  cases o with
  | normal => rfl
  | jump site means =>
    rcases Context.enterFinal_eq_ok.1 hi with ⟨rfl, rfl⟩ | ⟨hne, r, -, rfl⟩
    · rfl
    · -- the enclosure carries the same plan of the clause as the annex
      obtain ⟨hn, -⟩ | ⟨-, r', q, -, hq, -⟩ := optionalClause_eq_ok.1 h
      · exact absurd hn hne
      · rw [hq, continueWith, View.afterFinal, if_neg (by simpa using hne), View.resumed,
          continueWith_resolve, ← hf q hq]
        rfl

mutual

/-- The plan of a statement that is not a straight-line one is viewed as the statement, after the
statements in front of it. -/
theorem Stmt.view_plan (cx : Context) : (s : Stmt) → s.isStraight = false → (p : Option Plan) →
    s.plan cx = .ok p →
    ∃ q, p = some q ∧ (∀ rest, q.andThen rest = .seq q rest) ∧ ∀ before next loops caught,
      (before.foldr Plan.precededBy q).view A flat next loops caught =
        s.view A cx.markers flat (resolve A flat cx.around next loops) before caught
  | .yield site, _, p, h => by
    simp only [Stmt.plan, Except.ok.injEq] at h
    subst h
    refine ⟨_, rfl, fun _ => rfl, fun before next loops caught => ?_⟩
    exact Plan.standsAlone.view_foldr (fun _ => rfl) before next caught
  | .jump site means, _, p, h => by
    obtain ⟨route, hr, rfl⟩ := Stmt.plan_jump_eq_ok h
    refine ⟨_, rfl, fun _ => by split <;> rfl, fun before next loops caught => ?_⟩
    rw [Stmt.view]
    split
    · next hm =>
      subst hm
      rw [Plan.standsAlone.view_foldr (fun _ => rfl)]
      simp only [Plan.view, Route.view_through hr]
      rfl
    · rw [Plan.foldr_precededBy_jump, List.append_nil, Plan.view, Route.view_through hr]
      rfl
  | .branch site test body clauses, _, p, h => by
    obtain ⟨q, rest, -, -, hq, hr, rfl⟩ := Stmt.plan_branch_eq_ok h
    refine ⟨_, rfl, fun _ => rfl, fun before next loops caught => ?_⟩
    have hb := view_planBody cx body q hq [] next loops ⊥
    have hr := view_planAlternatives cx site clauses rest hr next loops
    rw [List.foldr_nil] at hb
    rw [Plan.standsAlone.view_foldr (fun _ => rfl), Stmt.view]
    simp only [Plan.view, hb, hr]
  | .loop site head body orelse, _, p, h => by
    obtain ⟨q, annex, -, hq, ha, rfl⟩ := Stmt.plan_loop_eq_ok h
    refine ⟨_, rfl, fun _ => rfl, fun before next loops caught => ?_⟩
    have hb := fun x => view_planBody (cx.enter .loop) body q hq [] x ((x, next) :: loops) ⊥
    have horelse : annex.view A flat next loops = _ :=
      annex.view_optionalClause A flat ha (resolve A flat cx.around next loops) rfl
        fun q' hq' => view_planBody cx orelse q' hq' [] next loops ⊥
    simp only [List.foldr_nil, Context.around_enter, Context.markers_enter, resolve_loop] at hb
    rw [Plan.standsAlone.view_foldr (fun _ => rfl), Stmt.view]
    simp only [Plan.view, hb, horelse]
  | .attempt site body handlers orelse final, _, p, h => by
    obtain ⟨whole, inner, region, q, handlers', annex, annex', -, -, hi, -, -, hq, hh, ha, ha',
      rfl⟩ :=
      Stmt.plan_attempt_eq_ok h
    refine ⟨_, rfl, fun _ => rfl, fun before next loops caught => ?_⟩
    -- the clause is viewed in the outer context; the body, the handlers and the `else` clause are
    -- viewed in the inner one, whose jumps `hafter` sends through the clause
    have hf := fun q' hq' next loops => view_planBody cx final q' hq' [] next loops ⊥
    have hm := Context.markers_enterFinal hi
    have hfinish := annex'.view_final A flat ha' hf next loops
    have hafter := resolve_enterFinal A flat hi ha' hf next loops
    have hb := fun x => view_planBody inner body q hq [] x loops
    simp only [List.foldr_nil, hafter, hm] at hb
    have hh := view_planHandlers inner site handlers 0 handlers' hh
    set after := A.afterFinal cx.markers flat (resolve A flat cx.around next loops) final
    have horelse : annex.view A flat (after .normal) loops =
        bodyView A cx.markers flat after [] ⊥ orelse :=
      annex.view_optionalClause A flat ha after rfl
        fun q' hq' => by
          have ho := view_planBody inner orelse q' hq' [] (after .normal) loops ⊥
          rw [hafter, hm, continueWith_self] at ho
          exact ho
    rw [Plan.standsAlone.view_foldr (fun _ => rfl), Stmt.view_attempt]
    simp only [Plan.view, hfinish, horelse, hb, hh, hafter, hm, continueWith_self]
    rfl
  | .hold site isAsync header body, _, p, h => by
    obtain ⟨region, q, -, -, hq, rfl⟩ := Stmt.plan_hold_eq_ok h
    refine ⟨_, rfl, fun _ => rfl, fun before next loops caught => ?_⟩
    have hb := view_planBody _ body q hq [] next loops ⊥
    rw [List.foldr_nil, Context.around_enter, Context.resource, resolve_resource] at hb
    rw [Plan.foldr_precededBy_hold, List.append_nil, Plan.view, hb, Stmt.view]
    rfl
  | .dispatch site subject cases, _, p, h => by
    obtain ⟨region, cases', -, -, hc, rfl⟩ := Stmt.plan_dispatch_eq_ok h
    refine ⟨_, rfl, fun _ => rfl, fun before next loops caught => ?_⟩
    rw [Plan.standsAlone.view_foldr (fun _ => rfl), Stmt.view]
    simp only [Plan.view, view_planCases cx site cases cases' hc, exhaustive_planCases hc]
    rfl
  | .unsupported site, _, p, h => by
    simp [Stmt.plan] at h

/-- The plan of a body is viewed as the body, after the statements in front of it. -/
theorem view_planBody (cx : Context) : (body : List Stmt) → (p : Option Plan) →
    planBody cx body = .ok p → ∀ before next loops caught,
      (before.foldr Plan.precededBy (Plan.orIdle p)).view A flat next loops caught =
        bodyView A cx.markers flat (resolve A flat cx.around next loops) before caught body
  | [], p, h, before, next, loops, caught => by
    simp only [planBody, Except.ok.injEq] at h
    subst h
    exact Plan.view_foldr_idle before next caught
  | s :: rest, p, h, before, next, loops, caught => by
    obtain ⟨first, after, hf, hr, rfl⟩ := planBody_cons_eq_ok.1 h
    have ihr := view_planBody cx rest after hr
    rw [bodyView]
    cases hs : s.isStraight with
    | true =>
      rw [Stmt.plan_of_isStraight hs, Except.ok.injEq] at hf
      subst hf
      rw [if_pos rfl, ← ihr]
      -- an ignored marker leaves no plan; any other statement joins the block that follows
      cases hk : s.kept cx.markers with
      | false => simp
      | true =>
        cases after with
        | none =>
          rw [if_pos rfl, if_pos rfl, Plan.orIdle, Plan.view_foldr_idle]
          simp [Plan.orIdle, Plan.view, View.block]
        | some q => simp [Plan.orIdle, Plan.andThen]
    | false =>
      obtain ⟨q, rfl, hseq, ihs⟩ := s.view_plan cx hs first hf
      have ihr := ihr [] next loops ⊥
      rw [List.foldr_nil] at ihr
      rw [if_neg Bool.false_ne_true, ← ihr, continueWith_resolve, ← ihs]
      cases after with
      | none => simp [Plan.orIdle, Plan.view]
      | some q' => simp [Plan.orIdle, hseq, Plan.view]

/-- The clauses of an `if` are viewed as they stand. -/
theorem view_planAlternatives (cx : Context) (site : Site) :
    (clauses : List BranchClause) → (rest : Alternatives) →
      planAlternatives cx site clauses = .ok rest → ∀ next loops,
        rest.view A flat next loops =
          clausesView A cx.markers flat (resolve A flat cx.around next loops) clauses
  | [], rest, h, next, loops => by
    simp only [planAlternatives, Except.ok.injEq] at h
    subst h
    rfl
  | ⟨_, none, body⟩ :: _, rest, h, next, loops => by
    obtain ⟨q, -, hq, rfl⟩ := planAlternatives_else_eq_ok h
    exact view_planBody cx body q hq [] next loops ⊥
  | ⟨_, some test, body⟩ :: clauses, rest, h, next, loops => by
    obtain ⟨q, rest', -, hq, hr, rfl⟩ := planAlternatives_test_eq_ok h
    have hb := view_planBody cx body q hq [] next loops ⊥
    rw [List.foldr_nil] at hb
    rw [Alternatives.view, hb, view_planAlternatives cx site clauses rest' hr, clausesView]

/-- The handlers of a `try` are viewed as they stand. -/
theorem view_planHandlers (cx : Context) (site : Site) :
    (handlers : List Handler) → (index : Nat) → (handlers' : Handlers) →
      planHandlers cx site index handlers = .ok handlers' → ∀ next loops,
        handlers'.view A flat next loops =
          handlersView A cx.markers flat (resolve A flat cx.around next loops) handlers
  | [], index, handlers', h, next, loops => by
    simp only [planHandlers, Except.ok.injEq] at h
    subst h
    rfl
  | ⟨_, _, body⟩ :: rest, index, handlers', h, next, loops => by
    obtain ⟨region, q, rest', -, -, hq, hr, rfl⟩ := planHandlers_cons_eq_ok h
    have hb := view_planBody cx body q hq [] next loops ⊥
    rw [List.foldr_nil] at hb
    rw [Handlers.view, hb, view_planHandlers cx site rest (index + 1) rest' hr, handlersView]

/-- The cases of a `match` are viewed as they stand. -/
theorem view_planCases (cx : Context) (site : Site) :
    (cases : List MatchCase) → (cases' : Cases) → planCases cx site cases = .ok cases' →
      ∀ next loops, cases'.view A flat next loops =
        casesView A cx.markers flat (resolve A flat cx.around next loops) cases
  | [], cases', h, next, loops => by
    simp only [planCases, Except.ok.injEq] at h
    subst h
    rfl
  | ⟨_, head, body⟩ :: rest, cases', h, next, loops => by
    obtain ⟨q, rest', -, hq, hr, rfl⟩ := planCases_cons_eq_ok h
    have hb := view_planBody cx body q hq [] next loops ⊥
    rw [List.foldr_nil] at hb
    rw [Cases.view, hb, view_planCases cx site rest rest' hr, casesView]
    exact List.foldr_map ..

end

end Plans

/-- The values of the ways in which a function ends. -/
def View.ending (A : View V) : Outcome → V
  | .normal => A.leave .fallsThrough
  | .jump site .returning => A.leave (.returns site)
  | .jump site .raising => A.leave (.raises site)
  | .jump _ .breaking | .jump _ .continuing => ⊥

/-- The least value of the entry of a function is the value of its body. -/
theorem least_viewed_ofPlan (A : View V) {options : Options} {regions : RegionTree}
    {body : List Stmt} {plan : Plan} (h : Plan.ofBody options regions body = .ok plan)
    (flat : Bool) :
    least ((Piece.ofPlan flat plan).1.viewed A) 0 =
      bodyView A options.markers flat A.ending [] ⊥ body := by
  -- outside every construct, a jump ends the function
  have hend : resolve A flat [] (A.leave .fallsThrough) [] = A.ending := by
    funext o
    rcases o with - | ⟨site, means⟩
    · rfl
    · cases means <;> rfl
  cases body with
  | nil => simp [Plan.ofBody] at h
  | cons s rest =>
    simp only [Plan.ofBody, List.isEmpty_cons, Bool.false_eq_true, if_false, map_eq_ok] at h
    obtain ⟨p, hp, rfl⟩ := h
    rw [(Piece.drawnWhole_ofPlan flat _).least_zero A, ← hend]
    exact view_planBody A flat _ _ p hp [] _ _ _

end Flowgraph
