import Mathlib.Data.List.Forall2
import Flowgraph.Proofs.Bodies
import Flowgraph.Proofs.Drawing
import Flowgraph.Proofs.Survey

/-!
# Forks

Control divides at an `if`, at a loop, at a `match` and at a `try`.  Each of these statements of a
body has a plan of its own inside the plan of the body, in the order in which they are written, and
that plan is drawn where the plan of the body is.  The copies that jumps make on their way out are
plans of `finally` clauses, so the forks in them are plans of statements of the body as well.

## Main definitions

* `Stmt.isFork` : control divides at the statement.
* `Plan.forks` : the forks of a plan, without those of the copies that its jumps make.
* `Stmt.Makes` : the statement is planned as the given plan.

## Main results

* `forks_planBody` : the forks of the plan of a body are the plans of the forks of the body.
* `Plan.forks_ofBody` : the same for a function body, with the copies in its plan.
* `Plan.drawsAll_forks` : the forks of a drawn plan are drawn.
-/

namespace Flowgraph

/-- Control divides at the statement. -/
def Stmt.isFork : Stmt → Bool
  | .branch .. | .loop .. | .attempt .. | .dispatch .. => true
  | .simple _ | .pass _ | .marker .. | .yield _ | .jump .. | .hold .. | .unsupported _ => false

/-- The statement is planned as the given plan, somewhere. -/
def Stmt.Makes (s : Stmt) (plan : Plan) : Prop :=
  ∃ cx, s.plan cx = .ok (some plan)

mutual

/-- The forks of a plan, in order, without those of the copies that its jumps make. -/
def Plan.forks : Plan → List Plan
  | .idle | .block _ | .yield _ | .jump .. | .raise .. => []
  | .hold _ _ _ body => body.forks
  | .seq first rest => first.forks ++ rest.forks
  | .branch test body rest => .branch test body rest :: (body.forks ++ rest.forks)
  | .loop header body orelse => .loop header body orelse :: (body.forks ++ orelse.forks)
  | .dispatch subject region cases => .dispatch subject region cases :: cases.forks
  | .attempt region body handlers orelse final =>
    .attempt region body handlers orelse final ::
      (body.forks ++ handlers.forks ++ orelse.forks ++ final.forks)

/-- The same for what follows a failed test of an `if`. -/
def Alternatives.forks : Alternatives → List Plan
  | .done => []
  | .otherwise body => body.forks
  | .test _ body rest => body.forks ++ rest.forks

/-- The same for the cases of a `match`. -/
def Cases.forks : Cases → List Plan
  | .nil => []
  | .cons _ _ body rest => body.forks ++ rest.forks

/-- The same for the handlers of a `try`. -/
def Handlers.forks : Handlers → List Plan
  | .nil => []
  | .cons _ handler rest => handler.forks ++ rest.forks

/-- The same for a clause that may be missing. -/
def Annex.forks : Annex → List Plan
  | .absent => []
  | .present _ body => body.forks

end

/-! ## The forks of a body -/

section Planning

theorem Plan.forks_precededBy (s : Stmt) : (plan : Plan) → (plan.precededBy s).forks = plan.forks
  | .block _ | .jump .. | .hold .. => rfl
  | .seq first rest => by rw [precededBy, forks, first.forks_precededBy s, forks]
  | .idle | .yield _ | .raise .. | .branch .. | .loop .. | .dispatch .. | .attempt .. => rfl

theorem Plan.forks_andThen (first rest : Plan) :
    (first.andThen rest).forks = first.forks ++ rest.forks := by
  cases first with
  | block stmts =>
    rw [andThen, forks, List.nil_append]
    induction stmts with
    | nil => rfl
    | cons s stmts ih => rw [List.foldr_cons, forks_precededBy, ih]
  | _ => rfl

theorem Plan.forks_merge (first rest : Option Plan) :
    (orIdle (Option.merge andThen first rest)).forks =
      (orIdle first).forks ++ (orIdle rest).forks := by
  cases first with
  | none => simp [orIdle, forks]
  | some first =>
    cases rest with
    | none => simp [orIdle, forks]
    | some rest => exact forks_andThen first rest

/-- The plans are those of the forks among the statements, in order. -/
abbrev PlansForks (stmts : List Stmt) (plans : List Plan) : Prop :=
  List.Forall₂ Stmt.Makes (stmts.filter Stmt.isFork) plans

theorem PlansForks.append {stmts stmts' : List Stmt} {plans plans' : List Plan}
    (h : PlansForks stmts plans) (h' : PlansForks stmts' plans') :
    PlansForks (stmts ++ stmts') (plans ++ plans') := by
  rw [PlansForks, List.filter_append]
  exact List.rel_append h h'

theorem PlansForks.cons {s : Stmt} {plan : Plan} {stmts : List Stmt} {plans : List Plan}
    (hs : s.isFork = true) (hm : s.Makes plan) (h : PlansForks stmts plans) :
    PlansForks (s :: stmts) (plan :: plans) := by
  rw [PlansForks, List.filter_cons_of_pos hs]
  exact .cons hm h

theorem Annex.forks_optionalClause {region : Except Failure RegionId} {body : List Stmt}
    {plan : Except Failure (Option Plan)} {annex : Annex}
    (h : optionalClause region body plan = .ok annex)
    (hplan : ∀ q, plan = .ok q → PlansForks (bodyStatements body) (Plan.orIdle q).forks) :
    PlansForks (bodyStatements body) annex.forks := by
  rcases optionalClause_eq_ok.1 h with ⟨rfl, rfl⟩ | ⟨-, r, q, -, hq, rfl⟩
  · exact .nil
  · exact hplan q hq

mutual

/-- The forks of the plan of a statement. -/
theorem Stmt.forks_plan (cx : Context) : (s : Stmt) → (p : Option Plan) → s.plan cx = .ok p →
    PlansForks s.statements (Plan.orIdle p).forks
  | .simple _, p, h | .pass _, p, h | .yield _, p, h => by
    simp only [Stmt.plan, Except.ok.injEq] at h
    subst h
    exact .nil
  | .marker .., p, h => by
    simp only [Stmt.plan, Except.ok.injEq] at h
    subst h
    cases cx.markers <;> exact .nil
  | .jump site means, p, h => by
    obtain ⟨route, -, rfl⟩ := Stmt.plan_jump_eq_ok h
    cases means <;> exact .nil
  | .branch site test body clauses, p, h => by
    obtain ⟨q, rest, hf, -, hq, hr, rfl⟩ := Stmt.plan_branch_eq_ok h
    have hm := Clause.misplaced_eq_nil (Option.map_eq_none_iff.1 hf)
    have hb := forks_planBody cx body q hq
    have hr := forks_planAlternatives cx site clauses rest hm hr
    rw [Stmt.statements]
    exact .cons rfl ⟨cx, h⟩ (hb.append hr)
  | .loop site head body orelse, p, h => by
    obtain ⟨q, annex, -, hq, ha, rfl⟩ := Stmt.plan_loop_eq_ok h
    have hb := forks_planBody (cx.enter .loop) body q hq
    have ho := annex.forks_optionalClause ha (forks_planBody cx orelse)
    rw [Stmt.statements]
    exact .cons rfl ⟨cx, h⟩ (hb.append ho)
  | .attempt site body handlers orelse final, p, h => by
    obtain ⟨whole, inner, region, q, handlers', annex, annex', -, -, -, -, -, hq, hh, ha, ha',
      rfl⟩ := Stmt.plan_attempt_eq_ok h
    have hb := forks_planBody inner body q hq
    have hh := forks_planHandlers inner site 0 handlers handlers' hh
    have ho := annex.forks_optionalClause ha (forks_planBody inner orelse)
    have hf := annex'.forks_optionalClause ha' (forks_planBody cx final)
    rw [Stmt.statements]
    exact .cons rfl ⟨cx, h⟩ (((hb.append hh).append ho).append hf)
  | .hold _ _ header body, p, h => by
    obtain ⟨region, q, -, -, hq, rfl⟩ := Stmt.plan_hold_eq_ok h
    -- a `with` is no fork: it joins the block before it
    rw [Stmt.statements, PlansForks, List.filter_cons_of_neg (by simp [Stmt.isFork])]
    exact forks_planBody (cx.enter (cx.resource header region)) body q hq
  | .dispatch site subject cases, p, h => by
    obtain ⟨region, cases', -, -, hc, rfl⟩ := Stmt.plan_dispatch_eq_ok h
    rw [Stmt.statements]
    exact .cons rfl ⟨cx, h⟩ (forks_planCases cx site cases cases' hc)
  | .unsupported _, _, h => by simp [Stmt.plan] at h

/-- The forks of the plan of a body are the plans of the forks of the body. -/
theorem forks_planBody (cx : Context) : (body : List Stmt) → (p : Option Plan) →
    planBody cx body = .ok p → PlansForks (bodyStatements body) (Plan.orIdle p).forks
  | [], p, h => by
    simp only [planBody, Except.ok.injEq] at h
    subst h
    exact .nil
  | s :: rest, p, h => by
    obtain ⟨first, after, hs, hr, rfl⟩ := planBody_cons_eq_ok.1 h
    rw [bodyStatements, Plan.forks_merge]
    exact (s.forks_plan cx first hs).append (forks_planBody cx rest after hr)

/-- No clause stands after an `else` clause, so none is left out. -/
theorem forks_planAlternatives (cx : Context) (site : Site) : (clauses : List BranchClause) →
    (rest : Alternatives) → Clause.misplaced clauses = [] →
      planAlternatives cx site clauses = .ok rest →
      PlansForks (clauseStatements clauses) rest.forks
  | [], rest, _, h => by
    simp only [planAlternatives, Except.ok.injEq] at h
    subst h
    exact .nil
  | ⟨_, none, body⟩ :: clauses, rest, hm, h => by
    obtain ⟨q, -, hq, rfl⟩ := planAlternatives_else_eq_ok h
    -- an `else` before other clauses is misplaced
    cases clauses with
    | cons c clauses => simp [Clause.misplaced] at hm
    | nil => simpa [clauseStatements, Alternatives.forks] using forks_planBody cx body q hq
  | ⟨_, some _, body⟩ :: clauses, rest, hm, h => by
    obtain ⟨q, rest', -, hq, hr, rfl⟩ := planAlternatives_test_eq_ok h
    have hm' : Clause.misplaced clauses = [] := by
      cases clauses with
      | nil => rfl
      | cons c clauses => simpa [Clause.misplaced] using hm
    rw [clauseStatements]
    exact (forks_planBody cx body q hq).append
      (forks_planAlternatives cx site clauses rest' hm' hr)

theorem forks_planHandlers (cx : Context) (site : Site) (index : Nat) :
    (handlers : List Handler) → (handlers' : Handlers) →
      planHandlers cx site index handlers = .ok handlers' →
      PlansForks (clauseStatements handlers) handlers'.forks
  | [], handlers', h => by
    simp only [planHandlers, Except.ok.injEq] at h
    subst h
    exact .nil
  | ⟨_, _, body⟩ :: rest, handlers', h => by
    obtain ⟨region, q, rest', -, -, hq, hr, rfl⟩ := planHandlers_cons_eq_ok h
    rw [clauseStatements]
    exact (forks_planBody cx body q hq).append
      (forks_planHandlers cx site (index + 1) rest rest' hr)

theorem forks_planCases (cx : Context) (site : Site) : (cases : List MatchCase) →
    (cases' : Cases) → planCases cx site cases = .ok cases' →
      PlansForks (caseStatements cases) cases'.forks
  | [], cases', h => by
    simp only [planCases, Except.ok.injEq] at h
    subst h
    exact .nil
  | ⟨_, head, body⟩ :: rest, cases', h => by
    obtain ⟨q, rest', -, hq, hr, rfl⟩ := planCases_cons_eq_ok h
    rw [caseStatements]
    exact (forks_planBody cx body q hq).append (forks_planCases cx site rest rest' hr)

end

/-- Every fork among the statements has its plan. -/
theorem PlansForks.exists_plan {stmts : List Stmt} {plans : List Plan} (h : PlansForks stmts plans)
    {s : Stmt} (hs : s ∈ stmts) (hf : s.isFork = true) : ∃ plan ∈ plans, s.Makes plan := by
  obtain ⟨i, hi, rfl⟩ := List.getElem_of_mem (List.mem_filter.2 ⟨hs, hf⟩)
  have hi' : i < plans.length := h.length_eq ▸ hi
  exact ⟨plans[i], List.getElem_mem hi', h.get hi hi'⟩

/-- Every one of the plans is that of a fork. -/
theorem PlansForks.exists_stmt {stmts : List Stmt} {plans : List Plan} (h : PlansForks stmts plans)
    {plan : Plan} (hp : plan ∈ plans) : ∃ s ∈ stmts, s.isFork = true ∧ s.Makes plan := by
  obtain ⟨i, hi, rfl⟩ := List.getElem_of_mem hp
  have hi' : i < (stmts.filter Stmt.isFork).length := h.length_eq ▸ hi
  obtain ⟨hs, hf⟩ := List.mem_filter.1 (List.getElem_mem hi')
  exact ⟨_, hs, hf, h.get hi' hi⟩

end Planning

/-! ## The forks of copies -/

/-- The plan is that of a fork of the body. -/
def MadeIn (body : List Stmt) (plan : Plan) : Prop :=
  ∃ s ∈ bodyStatements body, s.isFork = true ∧ s.Makes plan

/-- Asks of a copy that its forks are among the given plans. -/
def forksAmong (made : Plan → Prop) : Survey where
  copy plan := ∀ fork ∈ plan.forks, made fork

/-- The copies in the plan of a body are copies of its `finally` clauses. -/
theorem covers_forksAmong (body : List Stmt) :
    (forksAmong (MadeIn body)).Covers (bodyStatements body) where
  loop _ _ _ _ _ := trivial
  copy site inner handlers orelse final hm cx p hp fork hf := by
    obtain ⟨s, hs, hmakes⟩ := (forks_planBody cx final p hp).exists_stmt hf
    exact ⟨s, bodyStatements_subset_of_mem_bodies hm (b := (some .final, final))
      (by simp [Stmt.bodies]) hs, hmakes⟩

/-- The forks of the plan of a function body, in line and in copies, are those of the body. -/
theorem Plan.forks_ofBody {options : Options} {regions : RegionTree} {body : List Stmt}
    {plan : Plan} (h : Plan.ofBody options regions body = .ok plan) :
    PlansForks (bodyStatements body) plan.forks ∧ plan.Passes (forksAmong (MadeIn body)) := by
  refine ⟨?_, passes_ofBody h (covers_forksAmong body)⟩
  rw [Plan.ofBody] at h
  split at h
  · cases h
  · obtain ⟨p, hp, rfl⟩ := map_eq_ok.1 h
    exact forks_planBody _ body p hp

/-! ## Drawn forks -/

/-- The plan is drawn somewhere in the piece, with a flat or a chained dispatch. -/
def Plan.DrawnIn (d : Piece) (flat : Bool) (plan : Plan) : Prop :=
  ∃ env base next handlers, env.flat = flat ∧ plan.Drawn d env base next handlers

/-- All the plans are drawn in the piece. -/
def Piece.DrawsAll (d : Piece) (flat : Bool) (plans : List Plan) : Prop :=
  ∀ plan ∈ plans, plan.DrawnIn d flat

namespace Piece.DrawsAll

variable {d : Piece} {flat : Bool} {plan : Plan} {plans plans' : List Plan}

theorem nil : d.DrawsAll flat [] := by
  simp [DrawsAll]

theorem cons (h : plan.DrawnIn d flat) (h' : d.DrawsAll flat plans) :
    d.DrawsAll flat (plan :: plans) :=
  List.forall_mem_cons.2 ⟨h, h'⟩

theorem append (h : d.DrawsAll flat plans) (h' : d.DrawsAll flat plans') :
    d.DrawsAll flat (plans ++ plans') :=
  List.forall_mem_append.2 ⟨h, h'⟩

end Piece.DrawsAll

section Drawn

variable {d : Piece} {flat : Bool}

mutual

/-- The forks of a drawn plan are drawn. -/
theorem Plan.drawsAll_forks (env : Env) (base : Nat) (next handlers : List (Label × NodeId)) :
    (plan : Plan) → plan.Drawn d env base next handlers → env.flat = flat →
      d.DrawsAll flat plan.forks
  | .idle, _, _ | .block _, _, _ | .yield _, _, _ | .jump .., _, _ | .raise .., _, _ => .nil
  | .hold _ _ region body, h, hf =>
    body.drawsAll_forks (env.within region) (base + 1) next [] h.2 hf
  | .seq first rest, h, hf => by
    have hfirst := first.drawsAll_forks env base _ handlers h.1 hf
    have hr := rest.drawsAll_forks env (base + first.size) next [] h.2 hf
    exact hfirst.append hr
  | .branch test body rest, h, hf => by
    have hb := body.drawsAll_forks env (base + 2) _ [] h.2.2.1 hf
    have hr := rest.drawsAll_forks env (base + 2 + body.size) (base + 1) h.2.2.2 hf
    -- the fork itself comes first, and then those inside it
    exact .cons ⟨env, base, next, handlers, hf, h⟩ (hb.append hr)
  | .loop header body orelse, h, hf => by
    have hb := body.drawsAll_forks (env.inLoop ⟨base, base + 1⟩) (base + 2) _ [] h.2.2.1 hf
    have ho := orelse.drawsAll_forks env (base + 2 + body.size) _ h.2.2.2 hf
    exact .cons ⟨env, base, next, handlers, hf, h⟩ (hb.append ho)
  | .dispatch subject region cases, h, hf => by
    have hc := cases.drawsAll_forks (env.within region) (base + 2) (base + 1) 0 true h.2.2 hf
    exact .cons ⟨env, base, next, handlers, hf, h⟩ hc
  | .attempt region body handlers' orelse final, h, hf => by
    have hb := body.drawsAll_forks (env.within region) (base + 1) _ _ h.2.1 hf
    have hh := handlers'.drawsAll_forks env (base + 1 + body.size) _ h.2.2.1 hf
    have ho := orelse.drawsAll_forks env (base + 1 + body.size + handlers'.size) _ h.2.2.2.1 hf
    have hfin := final.drawsAll_forks env (base + 1 + body.size + handlers'.size + orelse.size) _
      h.2.2.2.2 hf
    exact .cons ⟨env, base, next, handlers, hf, h⟩ (((hb.append hh).append ho).append hfin)

theorem Alternatives.drawsAll_forks (env : Env) (base join : Nat) : (rest : Alternatives) →
    rest.Drawn d env base join → env.flat = flat → d.DrawsAll flat rest.forks
  | .done, _, _ => .nil
  | .otherwise body, h, hf => body.drawsAll_forks env base _ [] h hf
  | .test header body rest, h, hf => by
    have hb := body.drawsAll_forks env (base + 1) _ [] h.2.1 hf
    have hr := rest.drawsAll_forks env (base + 1 + body.size) join h.2.2 hf
    exact hb.append hr

theorem Cases.drawsAll_forks (env : Env) (base join index : Nat) (reached : Bool) :
    (cases : Cases) → cases.Drawn d env base join index reached → env.flat = flat →
      d.DrawsAll flat cases.forks
  | .nil, _, _ => .nil
  | .cons patterns catchAll body rest, h, hf => by
    have hb := body.drawsAll_forks env (base + patterns.length) _ [] h.2.1 hf
    have hr := rest.drawsAll_forks env (base + patterns.length + body.size) join (index + 1) _
      h.2.2 hf
    exact hb.append hr

theorem Handlers.drawsAll_forks (env : Env) (base : Nat) (next : List (Label × NodeId)) :
    (handlers : Handlers) → handlers.Drawn d env base next → env.flat = flat →
      d.DrawsAll flat handlers.forks
  | .nil, _, _ => .nil
  | .cons region handler rest, h, hf => by
    have hh := handler.drawsAll_forks (env.within region) base next [] h.1 hf
    have hr := rest.drawsAll_forks env (base + handler.size) next h.2 hf
    exact hh.append hr

theorem Annex.drawsAll_forks (env : Env) (base : Nat) (next : List (Label × NodeId)) :
    (annex : Annex) → annex.Drawn d env base next → env.flat = flat → d.DrawsAll flat annex.forks
  | .absent, _, _ => .nil
  | .present region body, h, hf => body.drawsAll_forks (env.within region) base next [] h hf

end

end Drawn

end Flowgraph
