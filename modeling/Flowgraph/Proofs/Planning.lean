import Flowgraph.Plan.Resolve

/-!
# What a planned statement looks like

A body that has a plan was checked on the way.  For every compound statement the lemmas here say
what was checked and what its plan is made of, so that what is said about the plan of a body is
proved by induction on the body.

## Main definitions

* `Plan.SeqClosed P` : plans in sequence have the property `P` if each of them does.

## Main results

* `Route.through_loop_eq_ok`, `Route.through_resource_eq_ok`, `Route.through_final_eq_ok` : what a
  jump meets at each of the constructs around it.
* `Stmt.plan_branch_eq_ok`, `Stmt.plan_loop_eq_ok`, `Stmt.plan_attempt_eq_ok`,
  `Stmt.plan_hold_eq_ok`, `Stmt.plan_dispatch_eq_ok` : the plans of compound statements.
* `planBody_cons_eq_ok` : the plan of a sequence.
* `planAlternatives_else_eq_ok`, `planAlternatives_test_eq_ok`, `planHandlers_cons_eq_ok`,
  `planCases_cons_eq_ok` : the plans of clauses.
-/

namespace Flowgraph

/-! ## Computations that may fail -/

section Failing

variable {α β ε : Type} {x : Except ε α}

/-- Two steps succeed if the first one does, and then the second one on its result. -/
theorem bind_eq_ok {f : α → Except ε β} {b : β} :
    x >>= f = .ok b ↔ ∃ a, x = .ok a ∧ f a = .ok b := by
  cases x with
  | error failure =>
    refine iff_of_false (fun h => by cases h) ?_
    rintro ⟨_, h, -⟩
    cases h
  | ok a =>
    constructor
    · intro h
      exact ⟨a, rfl, h⟩
    · rintro ⟨_, h, h'⟩
      cases h
      exact h'

theorem map_eq_ok {f : α → β} {b : β} : x.map f = .ok b ↔ ∃ a, x = .ok a ∧ f a = b := by
  cases x with
  | error failure =>
    refine iff_of_false (fun h => by cases h) ?_
    rintro ⟨_, h, -⟩
    cases h
  | ok a => simp [Except.map]

theorem pure_eq_ok {a b : α} : (pure a : Except ε α) = .ok b ↔ a = b :=
  ⟨Except.ok.inj, congrArg Except.ok⟩

end Failing

/-! ## Checks and clauses -/

theorem rejectIf_eq_ok {r : Option Rejection} {u : Unit} : rejectIf r = .ok u ↔ r = none := by
  cases r <;> simp [rejectIf]

theorem nonemptyBody_eq_ok {site : Site} {body : List Stmt} {plan : Except Failure (Option Plan)}
    {p : Plan} : nonemptyBody site body plan = .ok p ↔
      body ≠ [] ∧ ∃ q, plan = .ok q ∧ Plan.orIdle q = p := by
  cases body <;> simp [nonemptyBody, map_eq_ok]

/-- A clause that may be left out is absent, or it has a region and a plan. -/
theorem optionalClause_eq_ok {region : Except Failure RegionId} {body : List Stmt}
    {plan : Except Failure (Option Plan)} {annex : Annex} :
    optionalClause region body plan = .ok annex ↔
      body = [] ∧ annex = .absent ∨
        body ≠ [] ∧ ∃ r q, region = .ok r ∧ plan = .ok q ∧ annex = .present r (.orIdle q) := by
  cases body with
  | nil => simp [optionalClause, eq_comm]
  | cons s rest =>
    simp only [optionalClause, List.isEmpty_cons, Bool.false_eq_true, if_false, bind_eq_ok,
      pure_eq_ok]
    simp [eq_comm (a := annex)]

theorem Context.enterFinal_eq_ok {cx inner : Context} {site : Site} {whole : RegionId}
    {final : List Stmt} {plan : Except Failure (Option Plan)} :
    cx.enterFinal site whole final plan = .ok inner ↔
      final = [] ∧ inner = cx ∨
        final ≠ [] ∧ ∃ r, cx.region site .final = .ok r ∧
          inner = cx.enter (.final whole r (plan.map .orIdle)) := by
  cases final with
  | nil => simp [enterFinal, eq_comm]
  | cons s rest =>
    simp only [enterFinal, List.isEmpty_cons, Bool.false_eq_true, if_false, bind_eq_ok, pure_eq_ok]
    simp [eq_comm (a := inner)]

theorem Context.markers_enterFinal {cx inner : Context} {site : Site} {whole : RegionId}
    {final : List Stmt} {plan : Except Failure (Option Plan)}
    (h : cx.enterFinal site whole final plan = .ok inner) : inner.markers = cx.markers := by
  rcases enterFinal_eq_ok.1 h with ⟨-, rfl⟩ | ⟨-, r, -, rfl⟩ <;> rfl

/-! ## The routes of jumps -/

namespace Route

variable {site : Site} {means : Jump} {outer : List Enclosure} {route : Route}

/-- With nothing around it only a jump that counts on no loop arrives. -/
theorem through_nil_eq_ok :
    through site means [] = .ok route ↔ means.staysInLoop = false ∧ route = .arrive := by
  rw [through]
  cases means.staysInLoop <;> simp [eq_comm (a := route)]

/-- A loop is where `break` and `continue` arrive; other jumps leave it. -/
theorem through_loop_eq_ok :
    through site means (.loop :: outer) = .ok route ↔
      means.staysInLoop = true ∧ route = .arrive ∨
        means.staysInLoop = false ∧
          ∃ rest, through site means outer = .ok rest ∧ route = .leaveLoop rest := by
  rw [through]
  cases means.staysInLoop with
  | true => simp [eq_comm (a := route)]
  | false =>
    simp only [Bool.false_eq_true, if_false, bind_eq_ok, pure_eq_ok, false_and, false_or, true_and,
      eq_comm (a := route)]

theorem through_resource_eq_ok {header : Span} {region outside : RegionId} :
    through site means (.resource header region outside :: outer) = .ok route ↔
      ∃ rest, through site means outer = .ok rest ∧
        route = .release header region outside rest := by
  simp only [through, bind_eq_ok, pure_eq_ok, eq_comm (a := route)]

/-- A `finally` clause is copied, and the jump gets past the copy if it completes. -/
theorem through_final_eq_ok {outside final : RegionId} {body : Except Failure Plan} :
    through site means (.final outside final body :: outer) = .ok route ↔
      ∃ plan, body = .ok plan ∧
        (plan.completes = true ∧
            (∃ rest, through site means outer = .ok rest ∧
              route = .replay final outside plan rest) ∨
          plan.completes = false ∧ route = .swallow final plan) := by
  simp only [through, bind_eq_ok]
  refine exists_congr fun plan => and_congr_right fun _ => ?_
  cases plan.completes with
  | true =>
    simp only [if_true, bind_eq_ok, pure_eq_ok, true_and, Bool.true_eq_false, false_and, or_false,
      eq_comm (a := route)]
  | false => simp [pure_eq_ok, eq_comm (a := route)]

end Route

/-! ## Plans in sequence -/

namespace Plan

/-- Plans in sequence have a property if each of them does, and so do the statements of a block.
A jump and a `with` may have statements in front of them. -/
structure SeqClosed (P : Plan → Prop) : Prop where
  block : ∀ s stmts, P (.block (s :: stmts)) ↔ P (.block [s]) ∧ P (.block stmts)
  jump : ∀ s before site means route, P (.block [s]) → P (.jump before site means route) →
    P (.jump (s :: before) site means route)
  hold : ∀ s before header region body, P (.block [s]) → P (.hold before header region body) →
    P (.hold (s :: before) header region body)
  seq : ∀ first rest, P (.seq first rest) ↔ P first ∧ P rest

/-- What holds of the plans of two parts holds of the plan of both, if it is kept when one plan
comes after another. -/
theorem orIdle_merge {P : Plan → Prop} {first rest : Option Plan}
    (h : ∀ p q, P p → P q → P (p.andThen q)) (hf : P (orIdle first)) (hr : P (orIdle rest)) :
    P (orIdle (Option.merge andThen first rest)) := by
  cases first with
  | none => simpa using hr
  | some p =>
    cases rest with
    | none => exact hf
    | some q => exact h p q hf hr

namespace SeqClosed

variable {P : Plan → Prop}

theorem precededBy (hP : SeqClosed P) {s : Stmt} (hs : P (.block [s])) :
    (plan : Plan) → P plan → P (plan.precededBy s)
  | .block stmts, h => (hP.block s stmts).2 ⟨hs, h⟩
  | .jump .., h => hP.jump _ _ _ _ _ hs h
  | .hold .., h => hP.hold _ _ _ _ _ hs h
  | .seq first rest, h =>
    have h := (hP.seq first rest).1 h
    (hP.seq _ rest).2 ⟨hP.precededBy hs first h.1, h.2⟩
  | .idle, h | .yield _, h | .raise .., h | .branch .., h | .loop .., h | .dispatch .., h
  | .attempt .., h => (hP.seq _ _).2 ⟨hs, h⟩

theorem andThen (hP : SeqClosed P) {first rest : Plan} (hf : P first) (hr : P rest) :
    P (first.andThen rest) := by
  cases first with
  | block stmts =>
    rw [Plan.andThen]
    induction stmts with
    | nil => exact hr
    | cons s stmts ih =>
      obtain ⟨hs, hf⟩ := (hP.block s stmts).1 hf
      exact hP.precededBy hs _ (ih hf)
  | _ => exact (hP.seq _ rest).2 ⟨hf, hr⟩

theorem merge (hP : SeqClosed P) {first rest : Option Plan} (hf : P (orIdle first))
    (hr : P (orIdle rest)) : P (orIdle (Option.merge Plan.andThen first rest)) :=
  orIdle_merge (fun _ _ => hP.andThen) hf hr

end SeqClosed

end Plan

/-! ## The plans of statements -/

/-- A case that accepts every subject has an alternative. -/
theorem CaseHead.patterns_ne_nil {head : CaseHead} (h : head.acceptsAll = true) :
    head.patterns ≠ [] := by
  rintro hp
  simp [acceptsAll, hp] at h

section Plan

variable {cx : Context} {p : Option Plan}

theorem Stmt.plan_jump_eq_ok {site : Site} {means : Jump}
    (h : (Stmt.jump site means).plan cx = .ok p) :
    ∃ route, Route.through site means cx.around = .ok route ∧
      p = some (if means = .raising then .raise site route else .jump [] site means route) := by
  -- `raise` has a plan of its own; the other jumps are planned alike
  cases means <;>
    · simp only [plan, bind_eq_ok, pure_eq_ok] at h
      obtain ⟨route, hr, rfl⟩ := h
      exact ⟨route, hr, by simp⟩

theorem Stmt.plan_branch_eq_ok {site : Site} {test : Span} {body : List Stmt}
    {clauses : List BranchClause} (h : (Stmt.branch site test body clauses).plan cx = .ok p) :
    ∃ q rest, branchFault? site clauses = none ∧ body ≠ [] ∧ planBody cx body = .ok q ∧
      planAlternatives cx site clauses = .ok rest ∧ p = some (.branch test (.orIdle q) rest) := by
  simp only [plan, bind_eq_ok, pure_eq_ok, rejectIf_eq_ok, nonemptyBody_eq_ok] at h
  obtain ⟨-, hf, _, ⟨hb, q, hq, rfl⟩, rest, hr, rfl⟩ := h
  exact ⟨q, rest, hf, hb, hq, hr, rfl⟩

theorem Stmt.plan_loop_eq_ok {site : Site} {head : LoopHead} {body orelse : List Stmt}
    (h : (Stmt.loop site head body orelse).plan cx = .ok p) :
    ∃ q annex, body ≠ [] ∧ planBody (cx.enter .loop) body = .ok q ∧
      optionalClause (cx.region site .orelse) orelse (planBody cx orelse) = .ok annex ∧
      p = some (.loop head.span (.orIdle q) annex) := by
  simp only [plan, bind_eq_ok, pure_eq_ok, nonemptyBody_eq_ok] at h
  obtain ⟨_, ⟨hb, q, hq, rfl⟩, annex, ha, rfl⟩ := h
  exact ⟨q, annex, hb, hq, ha, rfl⟩

theorem Stmt.plan_attempt_eq_ok {site : Site} {body : List Stmt} {handlers : List Handler}
    {orelse final : List Stmt}
    (h : (Stmt.attempt site body handlers orelse final).plan cx = .ok p) :
    ∃ whole inner region q handlers' annex annex',
      attemptFault? site handlers orelse final = none ∧ cx.region site .whole = .ok whole ∧
      cx.enterFinal site whole final (planBody cx final) = .ok inner ∧
      cx.region site .body = .ok region ∧ body ≠ [] ∧ planBody inner body = .ok q ∧
      planHandlers inner site 0 handlers = .ok handlers' ∧
      optionalClause (.ok whole) orelse (planBody inner orelse) = .ok annex ∧
      optionalClause (cx.region site .final) final (planBody cx final) = .ok annex' ∧
      p = some (.attempt region (.orIdle q) handlers' annex annex') := by
  simp only [plan, bind_eq_ok, pure_eq_ok, rejectIf_eq_ok, nonemptyBody_eq_ok] at h
  obtain ⟨-, hf, whole, hw, inner, hi, region, hr, _, ⟨hb, q, hq, rfl⟩, handlers', hh, annex, ha,
    annex', ha', rfl⟩ := h
  exact ⟨whole, inner, region, q, handlers', annex, annex', hf, hw, hi, hr, hb, hq, hh, ha, ha',
    rfl⟩

theorem Stmt.plan_hold_eq_ok {site : Site} {isAsync : Bool} {header : Span} {body : List Stmt}
    (h : (Stmt.hold site isAsync header body).plan cx = .ok p) :
    ∃ region q, cx.region site .whole = .ok region ∧ body ≠ [] ∧
      planBody (cx.enter (cx.resource header region)) body = .ok q ∧
      p = some (.hold [] (.hold site isAsync header body) region (.orIdle q)) := by
  simp only [plan, bind_eq_ok, pure_eq_ok, nonemptyBody_eq_ok] at h
  obtain ⟨region, hr, _, ⟨hb, q, hq, rfl⟩, rfl⟩ := h
  exact ⟨region, q, hr, hb, hq, rfl⟩

theorem Stmt.plan_dispatch_eq_ok {site : Site} {subject : Span} {cases : List MatchCase}
    (h : (Stmt.dispatch site subject cases).plan cx = .ok p) :
    ∃ region cases', cases ≠ [] ∧ cx.region site .whole = .ok region ∧
      planCases cx site cases = .ok cases' ∧ p = some (.dispatch subject region cases') := by
  simp only [plan, bind_eq_ok, pure_eq_ok, rejectIf_eq_ok] at h
  obtain ⟨-, hc, region, hr, cases', hp, rfl⟩ := h
  refine ⟨region, cases', ?_, hr, hp, rfl⟩
  rintro rfl
  simp at hc

theorem planBody_cons_eq_ok {s : Stmt} {rest : List Stmt} :
    planBody cx (s :: rest) = .ok p ↔
      ∃ first next, s.plan cx = .ok first ∧ planBody cx rest = .ok next ∧
        p = Option.merge Plan.andThen first next := by
  simp only [planBody, bind_eq_ok, pure_eq_ok, eq_comm (a := p)]
  constructor
  · rintro ⟨first, hf, next, hn, h⟩
    exact ⟨first, next, hf, hn, h⟩
  · rintro ⟨first, next, hf, hn, h⟩
    exact ⟨first, hf, next, hn, h⟩

end Plan

/-! ## The plans of clauses -/

section Clauses

variable {cx : Context} {site : Site} {span : Span} {body : List Stmt}

theorem planAlternatives_else_eq_ok {clauses : List BranchClause} {rest : Alternatives}
    (h : planAlternatives cx site (⟨span, none, body⟩ :: clauses) = .ok rest) :
    ∃ q, body ≠ [] ∧ planBody cx body = .ok q ∧ rest = .otherwise (.orIdle q) := by
  simp only [planAlternatives, bind_eq_ok, pure_eq_ok, nonemptyBody_eq_ok] at h
  obtain ⟨_, ⟨hb, q, hq, rfl⟩, rfl⟩ := h
  exact ⟨q, hb, hq, rfl⟩

theorem planAlternatives_test_eq_ok {test : Span} {clauses : List BranchClause}
    {rest : Alternatives}
    (h : planAlternatives cx site (⟨span, some test, body⟩ :: clauses) = .ok rest) :
    ∃ q rest', body ≠ [] ∧ planBody cx body = .ok q ∧
      planAlternatives cx site clauses = .ok rest' ∧ rest = .test test (.orIdle q) rest' := by
  simp only [planAlternatives, bind_eq_ok, pure_eq_ok, nonemptyBody_eq_ok] at h
  obtain ⟨_, ⟨hb, q, hq, rfl⟩, rest', hr, rfl⟩ := h
  exact ⟨q, rest', hb, hq, hr, rfl⟩

theorem planHandlers_cons_eq_ok {index : Nat} {head : Option Span} {rest : List Handler}
    {handlers : Handlers}
    (h : planHandlers cx site index (⟨span, head, body⟩ :: rest) = .ok handlers) :
    ∃ region q rest', cx.region site (.handler index) = .ok region ∧ body ≠ [] ∧
      planBody cx body = .ok q ∧ planHandlers cx site (index + 1) rest = .ok rest' ∧
      handlers = .cons region (.orIdle q) rest' := by
  simp only [planHandlers, bind_eq_ok, pure_eq_ok, nonemptyBody_eq_ok] at h
  obtain ⟨region, hr, _, ⟨hb, q, hq, rfl⟩, rest', hrest, rfl⟩ := h
  exact ⟨region, q, rest', hr, hb, hq, hrest, rfl⟩

theorem planCases_cons_eq_ok {head : CaseHead} {rest : List MatchCase} {cases : Cases}
    (h : planCases cx site (⟨span, head, body⟩ :: rest) = .ok cases) :
    ∃ q rest', body ≠ [] ∧ planBody cx body = .ok q ∧ planCases cx site rest = .ok rest' ∧
      cases = .cons (head.patterns.map (·.span)) head.acceptsAll (.orIdle q) rest' := by
  simp only [planCases, bind_eq_ok, pure_eq_ok, nonemptyBody_eq_ok] at h
  obtain ⟨_, ⟨hb, q, hq, rfl⟩, rest', hr, rfl⟩ := h
  exact ⟨q, rest', hb, hq, hr, rfl⟩

end Clauses

end Flowgraph
