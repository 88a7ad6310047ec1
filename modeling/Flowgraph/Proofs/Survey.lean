import Flowgraph.Proofs.Faults

/-!
# Surveys of a plan

Some facts about a plan hold because they hold of certain parts of it, wherever these stand: of the
headers of its loops, and of the copies of `finally` clauses that its jumps make.  A survey says
what is asked of these parts.

The parts of the plan of a body are plans of parts of the body, and the copies are plans of the
`finally` clauses in it.  So a survey of a plan is a survey of the statements of the body.

## Main definitions

* `Survey` : what is asked of the parts of a plan.
* `Plan.Passes` : all parts of a plan are as the survey asks.
* `Survey.Covers` : the same for the statements that a plan is made from.

## Main results

* `passes_planBody` : the plan of a body passes a survey that covers the statements of the body.
* `Plan.passes_ofBody` : the same for the plan of a function body.
-/

namespace Flowgraph

/-- What is asked of the parts of a plan. -/
structure Survey where
  /-- Asked of the headers of loops. -/
  loop : Span → Prop := fun _ => True
  /-- Asked of the copies of `finally` clauses. -/
  copy : Plan → Prop := fun _ => True

mutual

/-- All loops and copies in a plan are as the survey asks. -/
def Plan.Passes (Q : Survey) : Plan → Prop
  | .idle | .block _ | .yield _ => True
  | .jump _ _ _ route | .raise _ route => route.Passes Q
  | .hold _ _ _ body => body.Passes Q
  | .seq first rest => first.Passes Q ∧ rest.Passes Q
  | .branch _ body rest => body.Passes Q ∧ rest.Passes Q
  | .loop header body orelse => Q.loop header ∧ body.Passes Q ∧ orelse.Passes Q
  | .dispatch _ _ cases => cases.Passes Q
  | .attempt _ body handlers orelse final =>
    body.Passes Q ∧ handlers.Passes Q ∧ orelse.Passes Q ∧ final.Passes Q

/-- The same for what follows a failed test of an `if`. -/
def Alternatives.Passes (Q : Survey) : Alternatives → Prop
  | .done => True
  | .otherwise body => body.Passes Q
  | .test _ body rest => body.Passes Q ∧ rest.Passes Q

/-- The same for the cases of a `match`. -/
def Cases.Passes (Q : Survey) : Cases → Prop
  | .nil => True
  | .cons _ _ body rest => body.Passes Q ∧ rest.Passes Q

/-- The same for the handlers of a `try`. -/
def Handlers.Passes (Q : Survey) : Handlers → Prop
  | .nil => True
  | .cons _ handler rest => handler.Passes Q ∧ rest.Passes Q

/-- The same for a clause that may be missing. -/
def Annex.Passes (Q : Survey) : Annex → Prop
  | .absent => True
  | .present _ body => body.Passes Q

/-- The same for the copies that a jump makes on its way out. -/
def Route.Passes (Q : Survey) : Route → Prop
  | .arrive => True
  | .leaveLoop rest | .release _ _ _ rest => rest.Passes Q
  | .replay _ _ body rest => Q.copy body ∧ body.Passes Q ∧ rest.Passes Q
  | .swallow _ body => Q.copy body ∧ body.Passes Q

end

section Planning

variable {Q : Survey}

/-- The `finally` clauses around a statement are as the survey asks. -/
def FinalsPass (Q : Survey) (around : List Enclosure) : Prop :=
  ∀ outside final plan, .final outside final (.ok plan) ∈ around → Q.copy plan ∧ plan.Passes Q

theorem Route.passes_through {site : Site} {means : Jump} {around : List Enclosure} {route : Route}
    (h : Route.through site means around = .ok route) (hf : FinalsPass Q around) :
    route.Passes Q := by
  induction around generalizing route with
  | nil =>
    obtain ⟨-, rfl⟩ := through_nil_eq_ok.1 h
    trivial
  | cons e outer ih =>
    have ih := fun {rest} (hr : through site means outer = .ok rest) =>
      ih hr fun outside final plan hm => hf outside final plan (List.mem_cons_of_mem _ hm)
    cases e with
    | loop =>
      rcases through_loop_eq_ok.1 h with ⟨-, rfl⟩ | ⟨-, rest, hr, rfl⟩
      · trivial
      · have hrest : rest.Passes Q := ih hr
        exact hrest
    | resource header region outside =>
      obtain ⟨rest, hr, rfl⟩ := through_resource_eq_ok.1 h
      have hrest : rest.Passes Q := ih hr
      exact hrest
    | final outside final body =>
      obtain ⟨plan, rfl, hway⟩ := through_final_eq_ok.1 h
      -- the clause is copied, whether or not the copy completes
      have hplan := hf outside final plan (by simp)
      rcases hway with ⟨-, rest, hr, rfl⟩ | ⟨-, rfl⟩
      · exact ⟨hplan.1, hplan.2, ih hr⟩
      · exact hplan

/-- A survey looks at loops and copies only. -/
theorem Plan.seqClosed_passes : SeqClosed (·.Passes Q) where
  block _ _ := ⟨fun _ => ⟨trivial, trivial⟩, fun _ => trivial⟩
  jump _ _ _ _ _ _ h := h
  hold _ _ _ _ _ _ h := h
  seq _ _ := Iff.rfl

theorem Annex.passes_optionalClause {region : Except Failure RegionId} {body : List Stmt}
    {plan : Except Failure (Option Plan)} {annex : Annex}
    (h : optionalClause region body plan = .ok annex)
    (hplan : ∀ q, plan = .ok q → (Plan.orIdle q).Passes Q) : annex.Passes Q := by
  rcases optionalClause_eq_ok.1 h with ⟨-, rfl⟩ | ⟨-, r, q, -, hq, rfl⟩
  · trivial
  · exact hplan q hq

/-- The `finally` clause of a `try` joins those around its other clauses. -/
theorem Context.finalsPass_enterFinal {cx inner : Context} {site : Site} {whole : RegionId}
    {final : List Stmt} {plan : Except Failure (Option Plan)}
    (h : cx.enterFinal site whole final plan = .ok inner) (hf : FinalsPass Q cx.around)
    (hplan : ∀ q, plan = .ok q → Q.copy (.orIdle q) ∧ (Plan.orIdle q).Passes Q) :
    FinalsPass Q inner.around := by
  rcases enterFinal_eq_ok.1 h with ⟨-, rfl⟩ | ⟨-, r, -, rfl⟩
  · exact hf
  · intro outside final p hm
    rcases List.mem_cons.1 hm with hp | hm
    · obtain ⟨q, hq, rfl⟩ := map_eq_ok.1 (Enclosure.final.inj hp).2.2.symm
      exact hplan q hq
    · exact hf outside final p hm

theorem FinalsPass.enter {cx : Context} (hf : FinalsPass Q cx.around) {e : Enclosure}
    (he : ∀ outside final body, e ≠ .final outside final body) :
    FinalsPass Q (cx.enter e).around := by
  intro outside final plan hm
  rcases List.mem_cons.1 hm with rfl | hm
  · exact absurd rfl (he outside final (.ok plan))
  · exact hf outside final plan hm

/-- The parts of the statements are as the survey asks, however they are planned. -/
structure Survey.Covers (Q : Survey) (stmts : List Stmt) : Prop where
  loop : ∀ site head body orelse, .loop site head body orelse ∈ stmts → Q.loop head.span
  copy : ∀ site body handlers orelse final, .attempt site body handlers orelse final ∈ stmts →
    ∀ cx p, planBody cx final = .ok p → Q.copy (.orIdle p)

theorem Survey.Covers.mono {stmts stmts' : List Stmt} (h : Q.Covers stmts) (hs : stmts' ⊆ stmts) :
    Q.Covers stmts' where
  loop site head body orelse hm := h.loop site head body orelse (hs hm)
  copy site body handlers orelse final hm := h.copy site body handlers orelse final (hs hm)

mutual

/-- The plan of a statement passes a survey that covers the statement. -/
theorem Stmt.passes_plan (cx : Context) : (s : Stmt) → (p : Option Plan) → s.plan cx = .ok p →
    FinalsPass Q cx.around → Q.Covers s.statements → (Plan.orIdle p).Passes Q
  | .simple _, p, h, _, _ | .pass _, p, h, _, _ | .yield _, p, h, _, _ => by
    simp only [Stmt.plan, Except.ok.injEq] at h
    subst h
    trivial
  | .marker .., p, h, _, _ => by
    simp only [Stmt.plan, Except.ok.injEq] at h
    subst h
    split <;> trivial
  | .jump site means, p, h, hf, _ => by
    obtain ⟨route, hr, rfl⟩ := Stmt.plan_jump_eq_ok h
    -- what a jump copies are the `finally` clauses around it
    have hr := Route.passes_through hr hf
    rw [Plan.orIdle]
    split
    · exact hr
    · exact hr
  | .branch site _ body clauses, p, h, hf, hs => by
    obtain ⟨q, rest, -, -, hq, hr, rfl⟩ := Stmt.plan_branch_eq_ok h
    rw [Stmt.statements] at hs
    exact ⟨passes_planBody cx body q hq hf (hs.mono fun x hx => by simp [hx]),
      passes_planAlternatives cx site clauses rest hr hf (hs.mono fun x hx => by simp [hx])⟩
  | .loop site head body orelse, p, h, hf, hs => by
    obtain ⟨q, annex, -, hq, ha, rfl⟩ := Stmt.plan_loop_eq_ok h
    rw [Stmt.statements] at hs
    exact ⟨hs.loop site head body orelse (by simp),
      passes_planBody (cx.enter .loop) body q hq (hf.enter (by simp))
        (hs.mono fun x hx => by simp [hx]),
      annex.passes_optionalClause ha fun q' hq' => passes_planBody cx orelse q' hq' hf
        (hs.mono fun x hx => by simp [hx])⟩
  | .attempt site body handlers orelse final, p, h, hf, hs => by
    obtain ⟨whole, inner, region, q, handlers', annex, annex', -, -, hi, -, -, hq, hh, ha, ha',
      rfl⟩ := Stmt.plan_attempt_eq_ok h
    rw [Stmt.statements] at hs
    have hfinal := fun q' hq' => passes_planBody cx final q' hq' hf
      (hs.mono fun x hx => by simp [hx])
    -- jumps from inside copy the `finally` clause, which is planned as it stands outside
    have hf' := Context.finalsPass_enterFinal hi hf fun q' hq' =>
      ⟨hs.copy site body handlers orelse final (by simp) cx q' hq', hfinal q' hq'⟩
    exact ⟨passes_planBody inner body q hq hf' (hs.mono fun x hx => by simp [hx]),
      passes_planHandlers inner site 0 handlers handlers' hh hf'
        (hs.mono fun x hx => by simp [hx]),
      annex.passes_optionalClause ha fun q' hq' => passes_planBody inner orelse q' hq' hf'
        (hs.mono fun x hx => by simp [hx]),
      annex'.passes_optionalClause ha' hfinal⟩
  | .hold _ _ header body, p, h, hf, hs => by
    obtain ⟨region, q, -, -, hq, rfl⟩ := Stmt.plan_hold_eq_ok h
    rw [Stmt.statements] at hs
    exact passes_planBody (cx.enter (cx.resource header region)) body q hq
      (hf.enter (by simp [Context.resource])) (hs.mono fun x hx => by simp [hx])
  | .dispatch site _ cases, p, h, hf, hs => by
    obtain ⟨region, cases', -, -, hc, rfl⟩ := Stmt.plan_dispatch_eq_ok h
    rw [Stmt.statements] at hs
    exact passes_planCases cx site cases cases' hc hf (hs.mono fun x hx => by simp [hx])
  | .unsupported _, _, h, _, _ => by simp [Stmt.plan] at h

/-- The plan of a body passes a survey that covers the statements of the body, if the `finally`
clauses around it pass it. -/
theorem passes_planBody (cx : Context) : (body : List Stmt) → (p : Option Plan) →
    planBody cx body = .ok p → FinalsPass Q cx.around → Q.Covers (bodyStatements body) →
      (Plan.orIdle p).Passes Q
  | [], p, h, _, _ => by
    simp only [planBody, Except.ok.injEq] at h
    subst h
    trivial
  | s :: rest, p, h, hf, hs => by
    obtain ⟨first, after, hp, hr, rfl⟩ := planBody_cons_eq_ok.1 h
    rw [bodyStatements] at hs
    exact Plan.seqClosed_passes.merge
      (s.passes_plan cx first hp hf (hs.mono (List.subset_append_left _ _)))
      (passes_planBody cx rest after hr hf (hs.mono (List.subset_append_right _ _)))

theorem passes_planAlternatives (cx : Context) (site : Site) : (clauses : List BranchClause) →
    (rest : Alternatives) → planAlternatives cx site clauses = .ok rest →
      FinalsPass Q cx.around → Q.Covers (clauseStatements clauses) → rest.Passes Q
  | [], rest, h, _, _ => by
    simp only [planAlternatives, Except.ok.injEq] at h
    subst h
    trivial
  | ⟨_, none, body⟩ :: _, rest, h, hf, hs => by
    obtain ⟨q, -, hq, rfl⟩ := planAlternatives_else_eq_ok h
    rw [clauseStatements] at hs
    exact passes_planBody cx body q hq hf (hs.mono (List.subset_append_left _ _))
  | ⟨_, some _, body⟩ :: clauses, rest, h, hf, hs => by
    obtain ⟨q, rest', -, hq, hr, rfl⟩ := planAlternatives_test_eq_ok h
    rw [clauseStatements] at hs
    exact ⟨passes_planBody cx body q hq hf (hs.mono (List.subset_append_left _ _)),
      passes_planAlternatives cx site clauses rest' hr hf
        (hs.mono (List.subset_append_right _ _))⟩

theorem passes_planHandlers (cx : Context) (site : Site) (index : Nat) :
    (handlers : List Handler) → (handlers' : Handlers) →
      planHandlers cx site index handlers = .ok handlers' → FinalsPass Q cx.around →
        Q.Covers (clauseStatements handlers) → handlers'.Passes Q
  | [], handlers', h, _, _ => by
    simp only [planHandlers, Except.ok.injEq] at h
    subst h
    trivial
  | ⟨_, _, body⟩ :: rest, handlers', h, hf, hs => by
    obtain ⟨region, q, rest', -, -, hq, hr, rfl⟩ := planHandlers_cons_eq_ok h
    rw [clauseStatements] at hs
    exact ⟨passes_planBody cx body q hq hf (hs.mono (List.subset_append_left _ _)),
      passes_planHandlers cx site (index + 1) rest rest' hr hf
        (hs.mono (List.subset_append_right _ _))⟩

theorem passes_planCases (cx : Context) (site : Site) : (cases : List MatchCase) →
    (cases' : Cases) → planCases cx site cases = .ok cases' → FinalsPass Q cx.around →
      Q.Covers (caseStatements cases) → cases'.Passes Q
  | [], cases', h, _, _ => by
    simp only [planCases, Except.ok.injEq] at h
    subst h
    trivial
  | ⟨_, head, body⟩ :: rest, cases', h, hf, hs => by
    obtain ⟨q, rest', -, hq, hr, rfl⟩ := planCases_cons_eq_ok h
    rw [caseStatements] at hs
    exact ⟨passes_planBody cx body q hq hf (hs.mono (List.subset_append_left _ _)),
      passes_planCases cx site rest rest' hr hf (hs.mono (List.subset_append_right _ _))⟩

end

/-- The plan of a function body passes a survey that covers the statements of the body. -/
theorem Plan.passes_ofBody {options : Options} {regions : RegionTree} {body : List Stmt}
    {plan : Plan} (h : Plan.ofBody options regions body = .ok plan)
    (hs : Q.Covers (bodyStatements body)) : plan.Passes Q := by
  rw [Plan.ofBody] at h
  split at h
  · cases h
  · obtain ⟨p, hp, rfl⟩ := map_eq_ok.1 h
    exact passes_planBody _ body p hp (by simp [FinalsPass]) hs

end Planning

end Flowgraph
