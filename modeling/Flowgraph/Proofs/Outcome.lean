import Flowgraph.Proofs.Flow

/-!
# How a body can end, and what of it can run

The outcomes of a body and its live code are computed by recursion on its statements alone.  A
sequence stops at the first statement that cannot complete; a loop keeps the jumps that leave it; a
`match` takes no case after one that accepts every subject; and a `finally` clause may replace the
outcome of what it watches over by its own.

## Main definitions

* `Stmt.outcomes`, `bodyOutcomes` : the ways in which statements can end.
* `Stmt.live`, `bodyLive` : what can happen when statements run.
* `exitCauses` : the exits of a body.

## Main results

* `bodyOutcomes_ne_nil` : every body can end in some way.
* `jump_mem_bodyLive` : a jump that leaves a body is part of its live code.
* `completes_planBody` : the plan of a body that can complete completes.
* `staysInLoop_of_mem_bodyOutcomes` : no `break` or `continue` leaves the body of a function.
-/

namespace Flowgraph

/-! ## Outcomes -/

/-- The outcomes with completing replaced by what follows. -/
def thenOutcomes (outcomes next : List Outcome) : List Outcome :=
  outcomes.flatMap fun
    | .normal => next
    | .jump site means => [.jump site means]

/-- What an outcome of the body of a loop means for the loop, apart from going round again. -/
def Outcome.leavingLoop : Outcome → List Outcome
  | .normal | .jump _ .continuing => []
  | .jump _ .breaking => [.normal]
  | .jump site .returning => [.jump site .returning]
  | .jump site .raising => [.jump site .raising]

mutual

/-- The ways in which a statement can end. -/
def Stmt.outcomes : Stmt → List Outcome
  | .simple _ | .pass _ | .marker .. | .yield _ | .unsupported _ => [.normal]
  | .jump site means => [.jump site means]
  | .branch _ _ body clauses => bodyOutcomes body ++ clauseOutcomes clauses
  | .loop _ _ body orelse => (bodyOutcomes body).flatMap (·.leavingLoop) ++ bodyOutcomes orelse
  | .attempt _ body handlers orelse final =>
    -- the outcome `o` survives the `finally` clause only if the clause completes
    (thenOutcomes (bodyOutcomes body) (bodyOutcomes orelse) ++ handlerOutcomes handlers).flatMap
      fun o => thenOutcomes (bodyOutcomes final) [o]
  | .hold _ _ _ body => bodyOutcomes body
  | .dispatch _ _ cases => caseOutcomes cases

/-- The ways in which a sequence of statements can end. -/
def bodyOutcomes : List Stmt → List Outcome
  | [] => [.normal]
  | s :: rest => thenOutcomes s.outcomes (bodyOutcomes rest)

/-- The ways in which the clauses of an `if` can end. -/
def clauseOutcomes : List (Clause (Option Span) Stmt) → List Outcome
  | [] => [.normal]
  | ⟨_, none, body⟩ :: _ => bodyOutcomes body
  | ⟨_, some _, body⟩ :: rest => bodyOutcomes body ++ clauseOutcomes rest

/-- The ways in which the handlers of a `try` can end. -/
def handlerOutcomes : List (Clause (Option Span) Stmt) → List Outcome
  | [] => []
  | ⟨_, _, body⟩ :: rest => bodyOutcomes body ++ handlerOutcomes rest

/-- The ways in which the cases of a `match` can end.  A case without any alternative is never
taken, and no case after one that accepts every subject is. -/
def caseOutcomes : List (Clause CaseHead Stmt) → List Outcome
  | [] => [.normal]
  | ⟨_, head, body⟩ :: rest =>
    (if head.patterns.isEmpty then [] else bodyOutcomes body) ++
      if head.acceptsAll then [] else caseOutcomes rest

end

/-! ## Live code -/

mutual

/-- What can happen when a statement runs. -/
def Stmt.live (markers : Bool) : Stmt → List Event
  | .branch _ test body clauses =>
    .test test :: bodyLive markers body ++ clauseLive markers clauses
  | .loop _ head body orelse =>
    .test head.span :: bodyLive markers body ++ bodyLive markers orelse
  | .attempt _ body handlers orelse final =>
    bodyLive markers body ++
      (if .normal ∈ bodyOutcomes body then bodyLive markers orelse else []) ++
      handlerLive markers handlers ++ bodyLive markers final
  | .hold site isAsync header body =>
    .stmt (.hold site isAsync header body) :: bodyLive markers body ++
      -- leaving by a jump releases the resource; completing does so without a statement
      if (bodyOutcomes body).any (· ≠ .normal) then [.release header] else []
  | .dispatch _ subject cases => .test subject :: caseLive markers cases
  | .unsupported _ => []
  | s => [.stmt s]

/-- What can happen when statements run one after the other. -/
def bodyLive (markers : Bool) : List Stmt → List Event
  | [] => []
  | s :: rest =>
    (if s.kept markers then s.live markers else []) ++
      if .normal ∈ s.outcomes then bodyLive markers rest else []

/-- What can happen when the clauses of an `if` are tried. -/
def clauseLive (markers : Bool) : List (Clause (Option Span) Stmt) → List Event
  | [] => []
  | ⟨_, none, body⟩ :: _ => bodyLive markers body
  | ⟨_, some test, body⟩ :: rest =>
    .test test :: bodyLive markers body ++ clauseLive markers rest

/-- What can happen in the handlers of a `try`. -/
def handlerLive (markers : Bool) : List (Clause (Option Span) Stmt) → List Event
  | [] => []
  | ⟨_, _, body⟩ :: rest => bodyLive markers body ++ handlerLive markers rest

/-- What can happen when the cases of a `match` are tried. -/
def caseLive (markers : Bool) : List (Clause CaseHead Stmt) → List Event
  | [] => []
  | ⟨_, head, body⟩ :: rest =>
    head.patterns.map (fun pattern => .caseTest pattern.span) ++
      (if head.patterns.isEmpty then [] else bodyLive markers body) ++
      if head.acceptsAll then [] else caseLive markers rest

end

/-- The exit of an outcome. -/
def Outcome.exit? : Outcome → Option ExitCause
  | .normal => some .fallsThrough
  | .jump site .returning => some (.returns site)
  | .jump site .raising => some (.raises site)
  | .jump _ .breaking | .jump _ .continuing => none

/-- The exit at an event: a `yield` suspends the function. -/
def Event.exit? : Event → Option ExitCause
  | .stmt (.yield site) => some (.suspends site)
  | _ => none

/-- The exits of a body: its outcomes, and its live suspensions. -/
def exitCauses (markers : Bool) (body : List Stmt) : List ExitCause :=
  (bodyOutcomes body).filterMap (·.exit?) ++ (bodyLive markers body).filterMap (·.exit?)

theorem mem_thenOutcomes {outcomes next : List Outcome} {o : Outcome} :
    o ∈ thenOutcomes outcomes next ↔
      .normal ∈ outcomes ∧ o ∈ next ∨ o ∈ outcomes ∧ o ≠ .normal := by
  simp only [thenOutcomes, List.mem_flatMap]
  constructor
  · rintro ⟨_ | ⟨site, means⟩, h, ho⟩
    · exact .inl ⟨h, ho⟩
    · obtain rfl := List.mem_singleton.1 ho
      exact .inr ⟨h, by simp⟩
  · rintro (⟨h, ho⟩ | ⟨h, hne⟩)
    · exact ⟨.normal, h, ho⟩
    · cases o with
      | normal => exact absurd rfl hne
      | jump site means => exact ⟨_, h, by simp⟩

theorem thenOutcomes_ne_nil {outcomes next : List Outcome} (h : outcomes ≠ []) (h' : next ≠ []) :
    thenOutcomes outcomes next ≠ [] := by
  obtain ⟨o, ho⟩ := List.exists_mem_of_ne_nil outcomes h
  obtain ⟨o', ho'⟩ := List.exists_mem_of_ne_nil next h'
  cases o with
  | normal => exact List.ne_nil_of_mem (mem_thenOutcomes.2 (.inl ⟨ho, ho'⟩))
  | jump site means => exact List.ne_nil_of_mem (mem_thenOutcomes.2 (.inr ⟨ho, by simp⟩))

/-- Unless some case accepts every subject, a `match` may complete without taking any. -/
theorem normal_mem_caseOutcomes : {cases : List MatchCase} →
    cases.any (·.head.acceptsAll) = false → .normal ∈ caseOutcomes cases
  | [], _ => by simp [caseOutcomes]
  | ⟨_, head, body⟩ :: rest, h => by
    rw [List.any_cons, Bool.or_eq_false_iff] at h
    simp [caseOutcomes, h.1, normal_mem_caseOutcomes h.2]

mutual

/-- Every statement can end in some way. -/
theorem Stmt.outcomes_ne_nil : (s : Stmt) → s.outcomes ≠ []
  | .simple _ | .pass _ | .marker .. | .yield _ | .unsupported _ | .jump .. => by
    simp [Stmt.outcomes]
  | .branch _ _ body clauses => by simp [Stmt.outcomes, bodyOutcomes_ne_nil body]
  | .loop _ _ body orelse => by simp [Stmt.outcomes, bodyOutcomes_ne_nil orelse]
  | .attempt _ body handlers orelse final => by
    -- an outcome of what the clause watches over, followed by an outcome of the clause
    have hb := thenOutcomes_ne_nil (bodyOutcomes_ne_nil body) (bodyOutcomes_ne_nil orelse)
    obtain ⟨o, ho⟩ := List.exists_mem_of_ne_nil _ hb
    have hf := thenOutcomes_ne_nil (bodyOutcomes_ne_nil final) (List.cons_ne_nil o [])
    obtain ⟨o', ho'⟩ := List.exists_mem_of_ne_nil _ hf
    exact List.ne_nil_of_mem (List.mem_flatMap.2 ⟨o, List.mem_append_left _ ho, ho'⟩)
  | .hold _ _ _ body => bodyOutcomes_ne_nil body
  | .dispatch _ _ cases => caseOutcomes_ne_nil cases

theorem bodyOutcomes_ne_nil : (body : List Stmt) → bodyOutcomes body ≠ []
  | [] => by simp [bodyOutcomes]
  | s :: rest => thenOutcomes_ne_nil s.outcomes_ne_nil (bodyOutcomes_ne_nil rest)

theorem caseOutcomes_ne_nil : (cases : List MatchCase) → caseOutcomes cases ≠ []
  | [] => by simp [caseOutcomes]
  | ⟨_, head, body⟩ :: rest => by
    rw [caseOutcomes]
    cases h : head.acceptsAll with
    -- a case that accepts every subject has an alternative, so its body counts
    | true => simp [CaseHead.patterns_ne_nil h, bodyOutcomes_ne_nil body]
    | false => simp [caseOutcomes_ne_nil rest]

end

mutual

/-- A jump that leaves a statement is part of it. -/
theorem Stmt.jump_mem_live (markers : Bool) {site : Site} {means : Jump} : (s : Stmt) →
    .jump site means ∈ s.outcomes → .stmt (.jump site means) ∈ s.live markers
  | .simple _, h | .pass _, h | .marker .., h | .yield _, h | .unsupported _, h => by
    simp [Stmt.outcomes] at h
  | .jump .., h => by simpa [Stmt.outcomes, Stmt.live] using h
  | .branch _ _ body clauses, h => by
    rcases List.mem_append.1 h with h | h
    · simp [Stmt.live, jump_mem_bodyLive markers body h]
    · simp [Stmt.live, jump_mem_clauseLive markers clauses h]
  | .loop _ _ body orelse, h => by
    rcases List.mem_append.1 h with h | h
    · obtain ⟨o, ho, h⟩ := List.mem_flatMap.1 h
      have hs : o = .jump site means := by
        rcases o with - | ⟨site', _ | _ | _ | _⟩ <;> simp_all [Outcome.leavingLoop]
      simp [Stmt.live, jump_mem_bodyLive markers body (hs ▸ ho)]
    · simp [Stmt.live, jump_mem_bodyLive markers orelse h]
  | .attempt _ body handlers orelse final, h => by
    obtain ⟨o, ho, h⟩ := List.mem_flatMap.1 h
    rcases mem_thenOutcomes.1 h with ⟨-, h⟩ | ⟨h, -⟩
    · -- the clause completed, and the jump is of the body, the `else` clause or a handler
      obtain rfl := List.mem_singleton.1 h
      rcases List.mem_append.1 ho with ho | ho
      · rcases mem_thenOutcomes.1 ho with ⟨hn, ho⟩ | ⟨ho, -⟩
        · simp [Stmt.live, hn, jump_mem_bodyLive markers orelse ho]
        · simp [Stmt.live, jump_mem_bodyLive markers body ho]
      · simp [Stmt.live, jump_mem_handlerLive markers handlers ho]
    · simp [Stmt.live, jump_mem_bodyLive markers final h]
  | .hold _ _ _ body, h => by simp [Stmt.live, jump_mem_bodyLive markers body h]
  | .dispatch _ _ cases, h => by simp [Stmt.live, jump_mem_caseLive markers cases h]

theorem jump_mem_bodyLive (markers : Bool) {site : Site} {means : Jump} : (body : List Stmt) →
    .jump site means ∈ bodyOutcomes body → .stmt (.jump site means) ∈ bodyLive markers body
  | [], h => by simp [bodyOutcomes] at h
  | s :: rest, h => by
    rw [bodyLive, List.mem_append]
    rcases mem_thenOutcomes.1 h with ⟨hn, h⟩ | ⟨h, -⟩
    · exact .inr (by simp [hn, jump_mem_bodyLive markers rest h])
    · -- only markers are left out, and no jump leaves a marker
      have hk : s.kept markers = true := by
        cases s with
        | marker => simp [Stmt.outcomes] at h
        | _ => rfl
      exact .inl (by simp [hk, s.jump_mem_live markers h])

theorem jump_mem_clauseLive (markers : Bool) {site : Site} {means : Jump} :
    (clauses : List BranchClause) → .jump site means ∈ clauseOutcomes clauses →
      .stmt (.jump site means) ∈ clauseLive markers clauses
  | [], h => by simp [clauseOutcomes] at h
  | ⟨_, none, body⟩ :: _, h => jump_mem_bodyLive markers body h
  | ⟨_, some _, body⟩ :: rest, h => by
    rcases List.mem_append.1 h with h | h
    · simp [clauseLive, jump_mem_bodyLive markers body h]
    · simp [clauseLive, jump_mem_clauseLive markers rest h]

theorem jump_mem_handlerLive (markers : Bool) {site : Site} {means : Jump} :
    (handlers : List Handler) → .jump site means ∈ handlerOutcomes handlers →
      .stmt (.jump site means) ∈ handlerLive markers handlers
  | [], h => by simp [handlerOutcomes] at h
  | ⟨_, _, body⟩ :: rest, h => by
    rcases List.mem_append.1 h with h | h
    · simp [handlerLive, jump_mem_bodyLive markers body h]
    · simp [handlerLive, jump_mem_handlerLive markers rest h]

theorem jump_mem_caseLive (markers : Bool) {site : Site} {means : Jump} :
    (cases : List MatchCase) → .jump site means ∈ caseOutcomes cases →
      .stmt (.jump site means) ∈ caseLive markers cases
  | [], h => by simp [caseOutcomes] at h
  | ⟨_, head, body⟩ :: rest, h => by
    rw [caseLive]
    rcases List.mem_append.1 h with h | h
    · split at h
      · simp at h
      · next hp => simp [hp, jump_mem_bodyLive markers body h]
    · split at h
      · simp at h
      · next ha => simp [ha, jump_mem_caseLive markers rest h]

end

/-! ## Jumps out of a planned body -/

theorem Plan.completes_precededBy (s : Stmt) (plan : Plan) :
    (plan.precededBy s).completes = plan.completes := by
  cases plan <;> rfl

theorem Plan.completes_andThen (first rest : Plan) :
    (first.andThen rest).completes = rest.completes := by
  cases first with
  | block stmts =>
    rw [andThen]
    induction stmts with
    | nil => rfl
    | cons s stmts ih => rw [List.foldr_cons, completes_precededBy, ih]
  | _ => rfl

mutual

/-- The plan of a statement that can complete completes. -/
theorem Stmt.completes_plan (cx : Context) : (s : Stmt) → (p : Plan) → s.plan cx = .ok (some p) →
    .normal ∈ s.outcomes → p.completes = true
  | .simple _, p, h, _ | .pass _, p, h, _ | .yield _, p, h, _ => by
    simp only [Stmt.plan, Except.ok.injEq, Option.some.injEq] at h
    subst h
    rfl
  | .marker .., p, h, _ => by
    simp only [Stmt.plan, Except.ok.injEq] at h
    split at h
    · cases h
      rfl
    · cases h
  | .jump .., _, _, hn => by simp [Stmt.outcomes] at hn
  | .branch .., p, h, _ => by
    obtain ⟨q, rest, -, -, -, -, hp⟩ := Stmt.plan_branch_eq_ok h
    cases hp
    rfl
  | .loop .., p, h, _ => by
    obtain ⟨q, annex, -, -, -, hp⟩ := Stmt.plan_loop_eq_ok h
    cases hp
    rfl
  | .attempt .., p, h, _ => by
    obtain ⟨whole, inner, region, q, handlers', annex, annex', -, -, -, -, -, -, -, -, -, hp⟩ :=
      Stmt.plan_attempt_eq_ok h
    cases hp
    rfl
  | .hold _ _ header body, p, h, hn => by
    obtain ⟨region, q, -, -, hq, hp⟩ := Stmt.plan_hold_eq_ok h
    cases hp
    -- a `with` completes where its body does; other compound statements end in a join
    exact completes_planBody (cx.enter (cx.resource header region)) body q hq hn
  | .dispatch .., p, h, _ => by
    obtain ⟨region, cases', -, -, -, hp⟩ := Stmt.plan_dispatch_eq_ok h
    cases hp
    rfl
  | .unsupported _, _, h, _ => by simp [Stmt.plan] at h

/-- The plan of a body that can complete completes. -/
theorem completes_planBody (cx : Context) : (body : List Stmt) → (p : Option Plan) →
    planBody cx body = .ok p → .normal ∈ bodyOutcomes body → (Plan.orIdle p).completes = true
  | [], p, h, _ => by
    simp only [planBody, Except.ok.injEq] at h
    subst h
    rfl
  | s :: rest, p, h, hn => by
    obtain ⟨first, after, hf, hr, rfl⟩ := planBody_cons_eq_ok.1 h
    obtain ⟨hs, hn⟩ : .normal ∈ s.outcomes ∧ .normal ∈ bodyOutcomes rest := by
      simpa [bodyOutcomes, mem_thenOutcomes] using hn
    have ihr := completes_planBody cx rest after hr hn
    -- the last plan decides; a marker that is left out has none
    cases first with
    | none => simpa using ihr
    | some q =>
      cases after with
      | none => simpa [Plan.orIdle] using s.completes_plan cx q hf hs
      | some q' => exact (q.completes_andThen q').trans ihr

end

/-- A jump that gets out of a `try` has a route from outside it. -/
theorem Context.through_enterFinal {cx inner : Context} {site : Site} {whole : RegionId}
    {final : List Stmt} {annex : Annex}
    (hi : cx.enterFinal site whole final (planBody cx final) = .ok inner)
    (h : optionalClause (cx.region site .final) final (planBody cx final) = .ok annex)
    (hn : .normal ∈ bodyOutcomes final) {site' : Site} {means : Jump}
    (ht : ∃ route, Route.through site' means inner.around = .ok route) :
    ∃ route, Route.through site' means cx.around = .ok route := by
  rcases enterFinal_eq_ok.1 hi with ⟨-, rfl⟩ | ⟨hne, r, -, rfl⟩
  · exact ht
  · obtain ⟨hnil, -⟩ | ⟨-, r', q, -, hq, -⟩ := optionalClause_eq_ok.1 h
    · exact absurd hnil hne
    · -- the clause completes, so the route goes on beyond it
      have hc := completes_planBody cx final q hq hn
      obtain ⟨route, ht⟩ := ht
      rw [around_enter, hq] at ht
      obtain ⟨_, ⟨⟩, ⟨-, rest, hr, -⟩ | ⟨hc', -⟩⟩ := Route.through_final_eq_ok.1 ht
      · exact ⟨rest, hr⟩
      · exact absurd hc (Bool.eq_false_iff.1 hc')

mutual

/-- A jump that leaves a planned statement has a route. -/
theorem Stmt.exists_through (cx : Context) {site : Site} {means : Jump} : (s : Stmt) →
    (p : Option Plan) → s.plan cx = .ok p → .jump site means ∈ s.outcomes →
      ∃ route, Route.through site means cx.around = .ok route
  | .simple _, _, _, ho | .pass _, _, _, ho | .marker .., _, _, ho | .yield _, _, _, ho
  | .unsupported _, _, _, ho => by simp [Stmt.outcomes] at ho
  | .jump .., p, h, ho => by
    obtain ⟨route, hr, -⟩ := Stmt.plan_jump_eq_ok h
    cases List.mem_singleton.1 ho
    exact ⟨route, hr⟩
  | .branch site' _ body clauses, p, h, ho => by
    obtain ⟨q, rest, -, -, hq, hr, -⟩ := Stmt.plan_branch_eq_ok h
    rcases List.mem_append.1 ho with ho | ho
    · exact exists_through_body cx body q hq ho
    · exact exists_through_clauses cx site' clauses rest hr ho
  | .loop site' _ body orelse, p, h, ho => by
    obtain ⟨q, annex, -, hq, ha, -⟩ := Stmt.plan_loop_eq_ok h
    rcases List.mem_append.1 ho with ho | ho
    · obtain ⟨o, ho, ho'⟩ := List.mem_flatMap.1 ho
      obtain ⟨rfl, hm⟩ : o = .jump site means ∧ means.staysInLoop = false := by
        rcases o with - | ⟨site'', _ | _ | _ | _⟩ <;>
          simp_all [Outcome.leavingLoop, Jump.staysInLoop]
      -- a jump that does not stay in the loop goes on with the route from outside
      obtain ⟨route, ht⟩ := exists_through_body (cx.enter .loop) body q hq ho
      rw [Context.around_enter] at ht
      rcases Route.through_loop_eq_ok.1 ht with ⟨hm', -⟩ | ⟨-, rest, hr, -⟩
      · exact absurd hm' (Bool.eq_false_iff.1 hm)
      · exact ⟨rest, hr⟩
    · obtain ⟨rfl, -⟩ | ⟨-, r, q', -, hq', -⟩ := optionalClause_eq_ok.1 ha
      · simp [bodyOutcomes] at ho
      · exact exists_through_body cx orelse q' hq' ho
  | .attempt site' body handlers orelse final, p, h, ho => by
    obtain ⟨whole, inner, region, q, handlers', annex, annex', -, -, hi, -, -, hq, hh, ha, ha',
      -⟩ :=
      Stmt.plan_attempt_eq_ok h
    obtain ⟨o, ho, ho'⟩ := List.mem_flatMap.1 ho
    rcases mem_thenOutcomes.1 ho' with ⟨hn, ho'⟩ | ⟨ho', -⟩
    · -- the clause lets the jump through
      obtain rfl := List.mem_singleton.1 ho'
      refine Context.through_enterFinal hi ha' hn ?_
      rcases List.mem_append.1 ho with ho | ho
      · rcases mem_thenOutcomes.1 ho with ⟨-, ho⟩ | ⟨ho, -⟩
        · obtain ⟨rfl, -⟩ | ⟨-, r, q', -, hq', -⟩ := optionalClause_eq_ok.1 ha
          · simp [bodyOutcomes] at ho
          · exact exists_through_body inner orelse q' hq' ho
        · exact exists_through_body inner body q hq ho
      · exact exists_through_handlers inner site' 0 handlers handlers' hh ho
    · -- the jump is the clause's own
      obtain ⟨rfl, -⟩ | ⟨-, r, q', -, hq', -⟩ := optionalClause_eq_ok.1 ha'
      · simp [bodyOutcomes] at ho'
      · exact exists_through_body cx final q' hq' ho'
  | .hold _ _ header body, p, h, ho => by
    obtain ⟨region, q, -, -, hq, -⟩ := Stmt.plan_hold_eq_ok h
    obtain ⟨route, ht⟩ :=
      exists_through_body (cx.enter (cx.resource header region)) body q hq ho
    rw [Context.around_enter, Context.resource] at ht
    obtain ⟨rest, hr, -⟩ := Route.through_resource_eq_ok.1 ht
    exact ⟨rest, hr⟩
  | .dispatch site' _ cases, p, h, ho => by
    obtain ⟨region, cases', -, -, hc, -⟩ := Stmt.plan_dispatch_eq_ok h
    exact exists_through_cases cx site' cases cases' hc ho

theorem exists_through_body (cx : Context) {site : Site} {means : Jump} : (body : List Stmt) →
    (p : Option Plan) → planBody cx body = .ok p → .jump site means ∈ bodyOutcomes body →
      ∃ route, Route.through site means cx.around = .ok route
  | [], _, _, ho => by simp [bodyOutcomes] at ho
  | s :: rest, p, h, ho => by
    obtain ⟨first, after, hf, hr, -⟩ := planBody_cons_eq_ok.1 h
    rcases mem_thenOutcomes.1 ho with ⟨-, ho⟩ | ⟨ho, -⟩
    · exact exists_through_body cx rest after hr ho
    · exact s.exists_through cx first hf ho

theorem exists_through_clauses (cx : Context) (site' : Site) {site : Site} {means : Jump} :
    (clauses : List BranchClause) → (rest : Alternatives) →
      planAlternatives cx site' clauses = .ok rest → .jump site means ∈ clauseOutcomes clauses →
        ∃ route, Route.through site means cx.around = .ok route
  | [], _, _, ho => by simp [clauseOutcomes] at ho
  | ⟨_, none, body⟩ :: _, rest, h, ho => by
    obtain ⟨q, -, hq, -⟩ := planAlternatives_else_eq_ok h
    exact exists_through_body cx body q hq ho
  | ⟨_, some _, body⟩ :: clauses, rest, h, ho => by
    obtain ⟨q, rest', -, hq, hr, -⟩ := planAlternatives_test_eq_ok h
    rcases List.mem_append.1 ho with ho | ho
    · exact exists_through_body cx body q hq ho
    · exact exists_through_clauses cx site' clauses rest' hr ho

theorem exists_through_handlers (cx : Context) (site' : Site) {site : Site} {means : Jump}
    (index : Nat) : (handlers : List Handler) → (handlers' : Handlers) →
      planHandlers cx site' index handlers = .ok handlers' →
        .jump site means ∈ handlerOutcomes handlers →
          ∃ route, Route.through site means cx.around = .ok route
  | [], _, _, ho => by simp [handlerOutcomes] at ho
  | ⟨_, _, body⟩ :: rest, handlers', h, ho => by
    obtain ⟨region, q, rest', -, -, hq, hr, -⟩ := planHandlers_cons_eq_ok h
    rcases List.mem_append.1 ho with ho | ho
    · exact exists_through_body cx body q hq ho
    · exact exists_through_handlers cx site' (index + 1) rest rest' hr ho

theorem exists_through_cases (cx : Context) (site' : Site) {site : Site} {means : Jump} :
    (cases : List MatchCase) → (cases' : Cases) → planCases cx site' cases = .ok cases' →
      .jump site means ∈ caseOutcomes cases →
        ∃ route, Route.through site means cx.around = .ok route
  | [], _, _, ho => by simp [caseOutcomes] at ho
  | ⟨_, head, body⟩ :: rest, cases', h, ho => by
    obtain ⟨q, rest', -, hq, hr, -⟩ := planCases_cons_eq_ok h
    rcases List.mem_append.1 ho with ho | ho
    -- a case without alternatives is never taken, and behind one that takes all nothing is
    · split at ho
      · simp at ho
      · exact exists_through_body cx body q hq ho
    · split at ho
      · simp at ho
      · exact exists_through_cases cx site' rest rest' hr ho

end

/-- No `break` or `continue` leaves the body of a function. -/
theorem staysInLoop_of_mem_bodyOutcomes {options : Options} {regions : RegionTree}
    {body : List Stmt} {plan : Plan} (h : Plan.ofBody options regions body = .ok plan) {site : Site}
    {means : Jump} (ho : .jump site means ∈ bodyOutcomes body) : means.staysInLoop = false := by
  cases body with
  | nil => simp [Plan.ofBody] at h
  | cons s rest =>
    simp only [Plan.ofBody, List.isEmpty_cons, Bool.false_eq_true, if_false, map_eq_ok] at h
    obtain ⟨p, hp, -⟩ := h
    obtain ⟨route, ht⟩ := exists_through_body _ _ p hp ho
    cases hm : means.staysInLoop with
    | false => rfl
    -- with nothing around it, such a jump has no route
    | true => simp [Route.through, hm] at ht

end Flowgraph
