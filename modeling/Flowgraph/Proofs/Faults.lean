import Flowgraph.Proofs.Outcome

/-!
# What planning rejects

A body is rejected for one of two reasons.  A statement is at fault by itself, wherever it stands:
one of its bodies is empty, its clauses do not fit together, or nothing is known about it.  Or a
`break` or `continue` finds no loop on its way out of the function.

A `finally` clause that ends in a jump takes over from every jump that runs it.  The jump is not
followed beyond the clause, and nothing asks whether there is a loop for it to arrive at.

## Main definitions

* `bodyStatements` : the statements of a body, however deep they stand.
* `Stmt.faults` : what is wrong with a statement by itself.
* `bodyStrays` : the `break` and `continue` statements that no loop of the body encloses.
* `bodyEndsInJump` : the last statement of a body is a jump.

## Main results

* `completes_planBody_eq` : the plan of a body completes unless the body ends in a jump.
* `rejectsBy_planBody` : planning rejects a body for a fault or for a stray jump only.
* `cleared_of_planBody` : a planned body has no faults, and its stray jumps have routes.
-/

namespace Flowgraph

/-! ## Statements and their faults -/

mutual

/-- The statement and the statements inside it. -/
def Stmt.statements : Stmt → List Stmt
  | .branch site test body clauses =>
    .branch site test body clauses :: (bodyStatements body ++ clauseStatements clauses)
  | .loop site head body orelse =>
    .loop site head body orelse :: (bodyStatements body ++ bodyStatements orelse)
  | .attempt site body handlers orelse final =>
    .attempt site body handlers orelse final :: (bodyStatements body ++ clauseStatements handlers ++
      bodyStatements orelse ++ bodyStatements final)
  | .hold site isAsync header body => .hold site isAsync header body :: bodyStatements body
  | .dispatch site subject cases => .dispatch site subject cases :: caseStatements cases
  | s => [s]

/-- The statements of a body and the statements inside them. -/
def bodyStatements : List Stmt → List Stmt
  | [] => []
  | s :: rest => s.statements ++ bodyStatements rest

/-- The statements in the clauses of an `if` and in the handlers of a `try`. -/
def clauseStatements : List (Clause (Option Span) Stmt) → List Stmt
  | [] => []
  | ⟨_, _, body⟩ :: rest => bodyStatements body ++ clauseStatements rest

/-- The statements in the cases of a `match`. -/
def caseStatements : List (Clause CaseHead Stmt) → List Stmt
  | [] => []
  | ⟨_, _, body⟩ :: rest => bodyStatements body ++ caseStatements rest

end

/-- The clauses that have no head and are followed by another clause. -/
def Clause.misplaced {Head S : Type} (clauses : List (Clause (Option Head) S)) :
    List (Clause (Option Head) S) :=
  clauses.dropLast.filter (·.head.isNone)

namespace Stmt

/-- The bodies of a statement that must not be empty. -/
def requiredBodies : Stmt → List (List Stmt)
  | .branch _ _ body clauses => body :: clauses.map (·.body)
  | .loop _ _ body _ => [body]
  | .attempt _ body handlers _ _ => body :: handlers.map (·.body)
  | .hold _ _ _ body => [body]
  | .dispatch _ _ cases => cases.map (·.body)
  | _ => []

/-- What is wrong with a statement apart from empty bodies. -/
def clauseFaults : Stmt → List Rejection
  | .branch site _ _ clauses =>
    (Clause.misplaced clauses).map (.ofClause .elseNotLast site ·.span)
  | .attempt site _ handlers orelse final =>
    (if handlers.isEmpty && final.isEmpty then [.ofSite .attemptAlone site] else []) ++
      (if handlers.isEmpty && !orelse.isEmpty then [.ofSite .elseWithoutHandler site] else []) ++
      (Clause.misplaced handlers).map (.ofClause .bareHandlerNotLast site ·.span)
  | .dispatch site _ cases => if cases.isEmpty then [.ofSite .noCases site] else []
  | .unsupported site => [.ofSite .unsupported site]
  | _ => []

/-- What is wrong with a statement by itself, whatever stands around it and inside it. -/
def faults (s : Stmt) : List Rejection :=
  s.clauseFaults ++ (s.requiredBodies.filter (·.isEmpty)).map fun _ => .ofSite .emptyBody s.site

end Stmt

/-! ## Stray jumps -/

mutual

/-- The `break` and `continue` statements in a statement that no loop in it encloses, apart from
those that a `finally` clause swallows. -/
def Stmt.strays (swallows : List Stmt → Bool) : Stmt → List (Site × Jump)
  | .jump site means => if means.staysInLoop then [(site, means)] else []
  | .branch _ _ body clauses => bodyStrays swallows body ++ clauseStrays swallows clauses
  | .loop _ _ _ orelse => bodyStrays swallows orelse
  | .attempt _ body handlers orelse final =>
    -- the clause does not run for jumps of its own
    (if swallows final then []
      else bodyStrays swallows body ++ clauseStrays swallows handlers ++
        bodyStrays swallows orelse) ++ bodyStrays swallows final
  | .hold _ _ _ body => bodyStrays swallows body
  | .dispatch _ _ cases => caseStrays swallows cases
  | _ => []

/-- The `break` and `continue` statements in a body that no loop in it encloses, apart from those
that a `finally` clause swallows. -/
def bodyStrays (swallows : List Stmt → Bool) : List Stmt → List (Site × Jump)
  | [] => []
  | s :: rest => s.strays swallows ++ bodyStrays swallows rest

/-- The stray jumps in the clauses of an `if` and in the handlers of a `try`. -/
def clauseStrays (swallows : List Stmt → Bool) :
    List (Clause (Option Span) Stmt) → List (Site × Jump)
  | [] => []
  | ⟨_, _, body⟩ :: rest => bodyStrays swallows body ++ clauseStrays swallows rest

/-- The stray jumps in the cases of a `match`. -/
def caseStrays (swallows : List Stmt → Bool) : List (Clause CaseHead Stmt) → List (Site × Jump)
  | [] => []
  | ⟨_, _, body⟩ :: rest => bodyStrays swallows body ++ caseStrays swallows rest

end

mutual

/-- The statement is a jump, or a `with` whose body ends in one. -/
def Stmt.endsInJump (markers : Bool) : Stmt → Bool
  | .jump .. => true
  | .hold _ _ _ body => bodyEndsInJump markers body
  | _ => false

/-- The last statement of a body ends in a jump.  What stands after the last statement that has a
place in the graph does not count. -/
def bodyEndsInJump (markers : Bool) : List Stmt → Bool
  | [] => false
  | s :: rest =>
    if rest.any (·.kept markers) then bodyEndsInJump markers rest else s.endsInJump markers

end

/-! ## The end of a planned body -/

theorem Stmt.isSome_plan {cx : Context} {s : Stmt} {p : Option Plan} (h : s.plan cx = .ok p) :
    p.isSome = s.kept cx.markers := by
  cases s with
  | simple | pass | yield =>
    rw [Stmt.plan] at h
    cases h
    rfl
  | marker =>
    rw [Stmt.plan] at h
    cases h
    -- a marker is left out unless markers are kept
    cases hm : cx.markers <;> simp [Stmt.kept]
  | jump =>
    obtain ⟨route, -, rfl⟩ := Stmt.plan_jump_eq_ok h
    rfl
  | branch =>
    obtain ⟨q, rest, -, -, -, -, rfl⟩ := Stmt.plan_branch_eq_ok h
    rfl
  | loop =>
    obtain ⟨q, annex, -, -, -, rfl⟩ := Stmt.plan_loop_eq_ok h
    rfl
  | attempt =>
    obtain ⟨whole, inner, region, q, handlers', annex, annex', -, -, -, -, -, -, -, -, -, rfl⟩ :=
      Stmt.plan_attempt_eq_ok h
    rfl
  | hold =>
    obtain ⟨region, q, -, -, -, rfl⟩ := Stmt.plan_hold_eq_ok h
    rfl
  | dispatch =>
    obtain ⟨region, cases', -, -, -, rfl⟩ := Stmt.plan_dispatch_eq_ok h
    rfl
  | unsupported => simp [Stmt.plan] at h

theorem isSome_planBody {cx : Context} {body : List Stmt} {p : Option Plan}
    (h : planBody cx body = .ok p) : p.isSome = body.any (·.kept cx.markers) := by
  induction body generalizing p with
  | nil =>
    rw [planBody] at h
    cases h
    rfl
  | cons s rest ih =>
    obtain ⟨first, next, hf, hn, rfl⟩ := planBody_cons_eq_ok.1 h
    rw [List.any_cons, ← Stmt.isSome_plan hf, ← ih hn]
    cases first <;> cases next <;> rfl

theorem Stmt.endsInJump_of_not_kept {markers : Bool} {s : Stmt} (h : s.kept markers = false) :
    s.endsInJump markers = false := by
  cases s with
  | marker => rfl
  | _ => simp [kept] at h

mutual

/-- The plan of a statement completes unless the statement ends in a jump. -/
theorem Stmt.completes_plan_eq {cx : Context} : (s : Stmt) → {p : Plan} →
    s.plan cx = .ok (some p) → p.completes = !s.endsInJump cx.markers
  | .simple _, p, h | .pass _, p, h | .yield _, p, h => by
    rw [Stmt.plan] at h
    cases h
    rfl
  | .marker .., p, h => by
    rw [Stmt.plan] at h
    split at h
    · cases h
      rfl
    · cases h
  | .jump _ means, p, h => by
    obtain ⟨route, -, hp⟩ := Stmt.plan_jump_eq_ok h
    split at hp <;> (cases hp; rfl)
  | .branch .., p, h => by
    obtain ⟨q, rest, -, -, -, -, hp⟩ := Stmt.plan_branch_eq_ok h
    cases hp
    rfl
  | .loop .., p, h => by
    obtain ⟨q, annex, -, -, -, hp⟩ := Stmt.plan_loop_eq_ok h
    cases hp
    rfl
  | .attempt .., p, h => by
    obtain ⟨whole, inner, region, q, handlers', annex, annex', -, -, -, -, -, -, -, -, -, hp⟩ :=
      Stmt.plan_attempt_eq_ok h
    cases hp
    rfl
  | .hold _ _ header body, p, h => by
    obtain ⟨region, q, -, -, hq, hp⟩ := Stmt.plan_hold_eq_ok h
    cases hp
    -- of the compound statements only a `with` may end in a jump
    have ih := completes_planBody_eq body hq
    exact ih
  | .dispatch .., p, h => by
    obtain ⟨region, cases', -, -, -, hp⟩ := Stmt.plan_dispatch_eq_ok h
    cases hp
    rfl
  | .unsupported _, p, h => by simp [Stmt.plan] at h

/-- The plan of a body completes unless the body ends in a jump. -/
theorem completes_planBody_eq {cx : Context} : (body : List Stmt) → {p : Option Plan} →
    planBody cx body = .ok p → (Plan.orIdle p).completes = !bodyEndsInJump cx.markers body
  | [], p, h => by
    rw [planBody] at h
    cases h
    rfl
  | s :: rest, p, h => by
    obtain ⟨first, next, hf, hn, rfl⟩ := planBody_cons_eq_ok.1 h
    rw [bodyEndsInJump, ← isSome_planBody hn]
    cases next with
    | none =>
      -- what follows has no place in the graph, so the statement is the last one
      cases first with
      | some q => exact s.completes_plan_eq hf
      | none =>
        have hk : s.kept cx.markers = false := (Stmt.isSome_plan hf).symm
        simp [Stmt.endsInJump_of_not_kept hk, Plan.orIdle, Plan.completes]
    | some q' =>
      have ih := completes_planBody_eq rest hn
      cases first with
      | some q => exact (q.completes_andThen q').trans ih
      | none => exact ih

end

/-! ## Reasons for rejecting a body -/

/-- The computation rejects the body for the given reasons only. -/
def RejectsBy {α : Type} (P : Rejection → Prop) (x : Except Failure α) : Prop :=
  ∀ r, x = .error (.rejected r) → P r

namespace RejectsBy

variable {α β : Type} {P : Rejection → Prop}

theorem ok (a : α) : RejectsBy P (.ok a) := by
  simp [RejectsBy]

theorem rejected {r : Rejection} (h : P r) :
    RejectsBy P (.error (.rejected r) : Except Failure α) := by
  simpa [RejectsBy] using h

theorem bind {x : Except Failure α} {f : α → Except Failure β} (hx : RejectsBy P x)
    (hf : ∀ a, x = .ok a → RejectsBy P (f a)) : RejectsBy P (x >>= f) := by
  cases x with
  | error failure =>
    rintro r hr
    cases hr
    exact hx r rfl
  | ok a => exact hf a rfl

theorem map {x : Except Failure α} (hx : RejectsBy P x) (f : α → β) : RejectsBy P (x.map f) := by
  cases x with
  | error failure =>
    rintro r hr
    cases hr
    exact hx r rfl
  | ok a => exact ok (f a)

theorem rejectIf {r : Option Rejection} (h : ∀ a ∈ r, P a) : RejectsBy P (rejectIf r) := by
  cases r with
  | none => exact ok ()
  | some a => exact rejected (h a rfl)

theorem nonemptyBody {plan : Except Failure (Option Plan)} {site : Site} {body : List Stmt}
    (he : body = [] → P (.ofSite .emptyBody site)) (hp : RejectsBy P plan) :
    RejectsBy P (nonemptyBody site body plan) := by
  cases body with
  | nil => exact rejected (he rfl)
  | cons s rest => exact hp.map _

theorem optionalClause {region : Except Failure RegionId} {body : List Stmt}
    {plan : Except Failure (Option Plan)} (hr : RejectsBy P region) (hp : RejectsBy P plan) :
    RejectsBy P (optionalClause region body plan) := by
  cases body with
  | nil => exact ok _
  | cons s rest => exact hr.bind fun r _ => hp.bind fun p _ => ok _

/-- A region that is missing is not the body's fault. -/
theorem region (cx : Context) (site : Site) (part : Part) : RejectsBy P (cx.region site part) := by
  intro r hr
  rw [Context.region, RegionTree.require] at hr
  split at hr <;> cases hr

theorem enterFinal {cx : Context} {site : Site} {whole : RegionId} {final : List Stmt}
    {plan : Except Failure (Option Plan)} : RejectsBy P (cx.enterFinal site whole final plan) := by
  cases final with
  | nil => exact ok _
  | cons s rest => exact (region cx site .final).bind fun r _ => ok _

end RejectsBy

/-- Everything that is wrong with the statements, and every stray jump that finds no loop, is a
reason for rejecting the body. -/
structure Explained (P : Rejection → Prop) (cx : Context) (stmts : List Stmt)
    (strays : List (Site × Jump)) : Prop where
  faults : ∀ s ∈ stmts, ∀ r ∈ s.faults, P r
  jumps : ∀ site means, (means.staysInLoop = true → (site, means) ∈ strays) →
    RejectsBy P (Route.through site means cx.around)

namespace Explained

variable {P : Rejection → Prop} {cx : Context} {stmts stmts' : List Stmt}
  {strays strays' : List (Site × Jump)}

theorem mono (h : Explained P cx stmts strays) (hs : stmts' ⊆ stmts) (hj : strays' ⊆ strays) :
    Explained P cx stmts' strays' where
  faults s hm := h.faults s (hs hm)
  jumps site means hm := h.jumps site means fun hstays => hj (hm hstays)

/-- In a loop every `break` and `continue` has arrived. -/
theorem enterLoop (h : Explained P cx stmts strays) :
    Explained P (cx.enter .loop) stmts strays' where
  faults := h.faults
  jumps site means _ := by
    rw [Context.around_enter, Route.through]
    split
    · exact .ok _
    next hm => exact (h.jumps site means fun hstays => absurd hstays hm).bind fun _ _ => .ok _

theorem enterResource (h : Explained P cx stmts strays) (header : Span) (region : RegionId) :
    Explained P (cx.enter (cx.resource header region)) stmts strays where
  faults := h.faults
  jumps site means hm := by
    rw [Context.around_enter, Context.resource, Route.through]
    exact (h.jumps site means hm).bind fun _ _ => .ok _

/-- A jump gets past a `finally` clause only if the clause does not end in a jump. -/
theorem enterFinal {inner : Context} {site : Site} {whole : RegionId} {final : List Stmt}
    (hi : cx.enterFinal site whole final (planBody cx final) = .ok inner)
    (hf : RejectsBy P (planBody cx final))
    (h : Explained P cx stmts (if bodyEndsInJump cx.markers final then [] else strays)) :
    Explained P inner stmts strays where
  faults := h.faults
  jumps site means hm := by
    rcases Context.enterFinal_eq_ok.1 hi with ⟨rfl, rfl⟩ | ⟨-, r, -, rfl⟩
    · exact h.jumps site means hm
    · rw [Context.around_enter, Route.through]
      refine (hf.map _).bind fun p hp => ?_
      split
      next hc =>
        obtain ⟨q, hq, rfl⟩ := map_eq_ok.1 hp
        -- the route goes on beyond a clause that completes, which is one that ends in no jump
        have hend : bodyEndsInJump cx.markers final = false := by
          simpa [completes_planBody_eq final hq] using hc
        rw [hend] at h
        exact (h.jumps site means hm).bind fun _ _ => .ok _
      next => exact .ok _

end Explained

theorem Clause.mem_misplaced_of_lastMisplaced? {Head S : Type}
    {clauses : List (Clause (Option Head) S)} {c : Clause (Option Head) S}
    (h : lastMisplaced? clauses = some c) : c ∈ misplaced clauses := by
  have hm := List.mem_of_find?_eq_some h
  have hh := List.find?_some h
  exact List.mem_filter.2 ⟨List.mem_reverse.1 hm, hh⟩

theorem Clause.misplaced_eq_nil {Head S : Type} {clauses : List (Clause (Option Head) S)}
    (h : lastMisplaced? clauses = none) : misplaced clauses = [] := by
  refine List.filter_eq_nil_iff.2 fun c hc => ?_
  exact List.find?_eq_none.1 h c (List.mem_reverse.2 hc)

theorem mem_clauseFaults_of_branchFault? {site : Site} {test : Span} {body : List Stmt}
    {clauses : List BranchClause} {r : Rejection} (h : r ∈ branchFault? site clauses) :
    r ∈ (Stmt.branch site test body clauses).clauseFaults := by
  obtain ⟨c, hc, rfl⟩ := Option.map_eq_some_iff.1 h
  exact List.mem_map_of_mem (Clause.mem_misplaced_of_lastMisplaced? hc)

theorem mem_clauseFaults_of_attemptFault? {site : Site} {body : List Stmt}
    {handlers : List Handler} {orelse final : List Stmt} {r : Rejection}
    (h : r ∈ attemptFault? site handlers orelse final) :
    r ∈ (Stmt.attempt site body handlers orelse final).clauseFaults := by
  rw [attemptFault?] at h
  simp only [Stmt.clauseFaults, List.mem_append]
  -- of the faults of a `try` the first one is reported
  split at h
  next halone =>
    cases h
    exact .inl (.inl (by simp [halone]))
  next =>
    split at h
    next helse =>
      cases h
      exact .inl (.inr (by simp [helse]))
    next =>
      obtain ⟨c, hc, rfl⟩ := Option.map_eq_some_iff.1 h
      exact .inr (List.mem_map_of_mem (Clause.mem_misplaced_of_lastMisplaced? hc))

namespace Stmt

theorem mem_statements (s : Stmt) : s ∈ s.statements := by
  cases s <;> simp [statements]

theorem emptyBody_mem_faults {s : Stmt} {body : List Stmt} (h : body ∈ s.requiredBodies)
    (he : body = []) : .ofSite .emptyBody s.site ∈ s.faults :=
  List.mem_append_right _ (List.mem_map.2 ⟨body, List.mem_filter.2 ⟨h, by simp [he]⟩, rfl⟩)

end Stmt

section

variable {P : Rejection → Prop}

namespace Explained

variable {cx : Context} {s : Stmt} {strays : List (Site × Jump)}

theorem clauseFault (h : Explained P cx s.statements strays) {r : Rejection}
    (hr : r ∈ s.clauseFaults) : P r :=
  h.faults s s.mem_statements r (List.mem_append_left _ hr)

theorem emptyBody (h : Explained P cx s.statements strays) {body : List Stmt}
    (hb : body ∈ s.requiredBodies) (he : body = []) : P (.ofSite .emptyBody s.site) :=
  h.faults s s.mem_statements _ (Stmt.emptyBody_mem_faults hb he)

theorem rejectIf (h : Explained P cx s.statements strays) {r : Option Rejection}
    (hr : ∀ a ∈ r, a ∈ s.clauseFaults) : RejectsBy P (rejectIf r) :=
  .rejectIf fun a ha => h.clauseFault (hr a ha)

theorem nonemptyBody (h : Explained P cx s.statements strays) {body : List Stmt}
    {plan : Except Failure (Option Plan)} (hb : body ∈ s.requiredBodies) (hp : RejectsBy P plan) :
    RejectsBy P (nonemptyBody s.site body plan) :=
  .nonemptyBody (h.emptyBody hb) hp

end Explained

mutual

/-- Planning a statement rejects it for a fault or for a stray jump only. -/
theorem Stmt.rejectsBy_plan (cx : Context) : (s : Stmt) →
    Explained P cx s.statements (s.strays (bodyEndsInJump cx.markers)) → RejectsBy P (s.plan cx)
  | .simple _, _ | .pass _, _ | .marker .., _ | .yield _, _ => .ok _
  | .unsupported site, h => .rejected (h.clauseFault (List.mem_singleton_self _))
  | .jump site means, h => by
    have ht : RejectsBy P (Route.through site means cx.around) :=
      h.jumps site means fun hm => by simp [Stmt.strays, hm]
    cases means <;> exact ht.bind fun route _ => .ok _
  | .branch site test body clauses, h => by
    have hb := rejectsBy_planBody cx body
      (h.mono (by simp [Stmt.statements]) (by simp [Stmt.strays]))
    have hc := rejectsBy_planAlternatives cx site clauses
      (fun b hb => h.emptyBody (List.mem_cons_of_mem _ hb))
      (h.mono (by simp [Stmt.statements]) (by simp [Stmt.strays]))
    exact (h.rejectIf fun r => mem_clauseFaults_of_branchFault?).bind fun _ _ =>
      (h.nonemptyBody List.mem_cons_self hb).bind fun _ _ => hc.bind fun _ _ => .ok _
  | .loop site _ body orelse, h => by
    have hb := rejectsBy_planBody (cx.enter .loop) body
      (h.mono (by simp [Stmt.statements]) (List.Subset.refl _)).enterLoop
    have ho := rejectsBy_planBody cx orelse
      (h.mono (by simp [Stmt.statements]) (by simp [Stmt.strays]))
    exact (h.nonemptyBody List.mem_cons_self hb).bind fun _ _ =>
      (RejectsBy.optionalClause (.region cx site .orelse) ho).bind fun _ _ => .ok _
  | .attempt site body handlers orelse final, h => by
    have hf := rejectsBy_planBody cx final (h.mono
      (List.subset_cons_of_subset _ (List.subset_append_right _ _)) (List.subset_append_right _ _))
    refine (h.rejectIf fun r => mem_clauseFaults_of_attemptFault?).bind fun _ _ =>
      (RejectsBy.region cx site .whole).bind fun whole _ =>
        RejectsBy.enterFinal.bind fun inner hi => ?_
    -- what the clause watches over has the stray jumps that it lets through
    have hinner : Explained P inner
        (bodyStatements body ++ clauseStatements handlers ++ bodyStatements orelse)
        (bodyStrays (bodyEndsInJump cx.markers) body ++
          clauseStrays (bodyEndsInJump cx.markers) handlers ++
          bodyStrays (bodyEndsInJump cx.markers) orelse) :=
      .enterFinal hi hf (h.mono
        (List.subset_cons_of_subset _ (List.subset_append_left _ _)) (List.subset_append_left _ _))
    rw [← Context.markers_enterFinal hi] at hinner
    have hb := rejectsBy_planBody inner body (hinner.mono (by simp) (by simp))
    have hh := rejectsBy_planHandlers inner site 0 handlers
      (fun b hb => h.emptyBody (List.mem_cons_of_mem _ hb)) (hinner.mono (by simp) (by simp))
    have ho := rejectsBy_planBody inner orelse (hinner.mono (by simp) (by simp))
    exact (RejectsBy.region cx site .body).bind fun _ _ =>
      (h.nonemptyBody List.mem_cons_self hb).bind fun _ _ => hh.bind fun _ _ =>
        (RejectsBy.optionalClause (.ok whole) ho).bind fun _ _ =>
          (RejectsBy.optionalClause (.region cx site .final) hf).bind fun _ _ => .ok _
  | .hold site _ header body, h => by
    refine (RejectsBy.region cx site .whole).bind fun region _ => ?_
    have hb := rejectsBy_planBody (cx.enter (cx.resource header region)) body
      ((h.mono (by simp [Stmt.statements]) (by simp [Stmt.strays])).enterResource header region)
    exact (h.nonemptyBody List.mem_cons_self hb).bind fun _ _ => .ok _
  | .dispatch site subject cases, h => by
    have hc := rejectsBy_planCases cx site cases (fun b => h.emptyBody)
      (h.mono (by simp [Stmt.statements]) (by simp [Stmt.strays]))
    refine (h.rejectIf fun r hr => ?_).bind fun _ _ =>
      (RejectsBy.region cx site .whole).bind fun _ _ => hc.bind fun _ _ => .ok _
    rw [Stmt.clauseFaults]
    split at hr
    next hc =>
      cases hr
      rw [if_pos hc]
      exact List.mem_singleton_self _
    next => cases hr

/-- Planning a body rejects it for a fault or for a stray jump only. -/
theorem rejectsBy_planBody (cx : Context) : (body : List Stmt) →
    Explained P cx (bodyStatements body) (bodyStrays (bodyEndsInJump cx.markers) body) →
      RejectsBy P (planBody cx body)
  | [], _ => .ok _
  | s :: rest, h => by
    have hs := s.rejectsBy_plan cx (h.mono (by simp [bodyStatements]) (by simp [bodyStrays]))
    have hr := rejectsBy_planBody cx rest
      (h.mono (by simp [bodyStatements]) (by simp [bodyStrays]))
    exact hs.bind fun _ _ => hr.bind fun _ _ => .ok _

theorem rejectsBy_planAlternatives (cx : Context) (site : Site) : (clauses : List BranchClause) →
    (∀ body ∈ clauses.map (·.body), body = [] → P (.ofSite .emptyBody site)) →
    Explained P cx (clauseStatements clauses) (clauseStrays (bodyEndsInJump cx.markers) clauses) →
      RejectsBy P (planAlternatives cx site clauses)
  | [], _, _ => .ok _
  | ⟨_, head, body⟩ :: rest, he, h => by
    have hb := RejectsBy.nonemptyBody (he body List.mem_cons_self) (rejectsBy_planBody cx body
      (h.mono (by simp [clauseStatements]) (by simp [clauseStrays])))
    cases head with
    | none => exact hb.bind fun _ _ => .ok _
    | some test =>
      have hr := rejectsBy_planAlternatives cx site rest
        (fun b hb => he b (List.mem_cons_of_mem _ hb))
        (h.mono (by simp [clauseStatements]) (by simp [clauseStrays]))
      exact hb.bind fun _ _ => hr.bind fun _ _ => .ok _

theorem rejectsBy_planHandlers (cx : Context) (site : Site) (index : Nat) :
    (handlers : List Handler) →
    (∀ body ∈ handlers.map (·.body), body = [] → P (.ofSite .emptyBody site)) →
    Explained P cx (clauseStatements handlers)
      (clauseStrays (bodyEndsInJump cx.markers) handlers) →
      RejectsBy P (planHandlers cx site index handlers)
  | [], _, _ => .ok _
  | ⟨_, _, body⟩ :: rest, he, h => by
    have hb := RejectsBy.nonemptyBody (he body List.mem_cons_self) (rejectsBy_planBody cx body
      (h.mono (by simp [clauseStatements]) (by simp [clauseStrays])))
    have hr := rejectsBy_planHandlers cx site (index + 1) rest
      (fun b hb => he b (List.mem_cons_of_mem _ hb))
      (h.mono (by simp [clauseStatements]) (by simp [clauseStrays]))
    exact (RejectsBy.region cx site (.handler index)).bind fun _ _ => hb.bind fun _ _ =>
      hr.bind fun _ _ => .ok _

theorem rejectsBy_planCases (cx : Context) (site : Site) : (cases : List MatchCase) →
    (∀ body ∈ cases.map (·.body), body = [] → P (.ofSite .emptyBody site)) →
    Explained P cx (caseStatements cases) (caseStrays (bodyEndsInJump cx.markers) cases) →
      RejectsBy P (planCases cx site cases)
  | [], _, _ => .ok _
  | ⟨_, head, body⟩ :: rest, he, h => by
    have hb := RejectsBy.nonemptyBody (he body List.mem_cons_self) (rejectsBy_planBody cx body
      (h.mono (by simp [caseStatements]) (by simp [caseStrays])))
    have hr := rejectsBy_planCases cx site rest (fun b hb => he b (List.mem_cons_of_mem _ hb))
      (h.mono (by simp [caseStatements]) (by simp [caseStrays]))
    exact hb.bind fun _ _ => hr.bind fun _ _ => .ok _

end

end

/-! ## Planned bodies -/

/-- The statements have no faults, and the jumps, each a `break` or `continue`, have routes. -/
structure Cleared (cx : Context) (stmts : List Stmt) (strays : List (Site × Jump)) : Prop where
  faults : ∀ s ∈ stmts, s.faults = []
  routed : ∀ j ∈ strays, j.2.staysInLoop = true ∧
    ∃ route, Route.through j.1 j.2 cx.around = .ok route

namespace Cleared

variable {cx : Context} {s : Stmt} {stmts stmts' : List Stmt} {strays strays' : List (Site × Jump)}

theorem nil : Cleared cx [] [] where
  faults := by simp
  routed := by simp

theorem append (h : Cleared cx stmts strays) (h' : Cleared cx stmts' strays') :
    Cleared cx (stmts ++ stmts') (strays ++ strays') where
  faults s hs := (List.mem_append.1 hs).elim (h.faults s) (h'.faults s)
  routed j hj := (List.mem_append.1 hj).elim (h.routed j) (h'.routed j)

theorem cons (hs : s.faults = []) (h : Cleared cx stmts strays) :
    Cleared cx (s :: stmts) strays where
  faults := List.forall_mem_cons.2 ⟨hs, h.faults⟩
  routed := h.routed

/-- The stray jumps in the body of a loop end there. -/
theorem leaveLoop (h : Cleared (cx.enter .loop) stmts strays) : Cleared cx stmts [] where
  faults := h.faults
  routed := by simp

theorem leaveResource {header : Span} {region : RegionId}
    (h : Cleared (cx.enter (cx.resource header region)) stmts strays) :
    Cleared cx stmts strays where
  faults := h.faults
  routed j hj := by
    obtain ⟨hm, route, ht⟩ := h.routed j hj
    rw [Context.around_enter, Context.resource] at ht
    obtain ⟨rest, hr, -⟩ := Route.through_resource_eq_ok.1 ht
    exact ⟨hm, rest, hr⟩

/-- A jump that gets past a `finally` clause has a route from outside. -/
theorem leaveFinal {inner : Context} {site : Site} {whole : RegionId} {final : List Stmt}
    {q : Option Plan} (hi : cx.enterFinal site whole final (planBody cx final) = .ok inner)
    (hq : planBody cx final = .ok q) (h : Cleared inner stmts strays) :
    Cleared cx stmts (if bodyEndsInJump cx.markers final then [] else strays) where
  faults := h.faults
  routed j hj := by
    cases hend : bodyEndsInJump cx.markers final with
    | true => simp [hend] at hj
    | false =>
      rw [hend] at hj
      obtain ⟨hm, route, ht⟩ := h.routed j hj
      refine ⟨hm, ?_⟩
      rcases Context.enterFinal_eq_ok.1 hi with ⟨-, rfl⟩ | ⟨-, r, -, rfl⟩
      · exact ⟨route, ht⟩
      · -- the clause completes, so that the route goes on beyond it
        have hc : (Plan.orIdle q).completes = true := by
          rw [completes_planBody_eq final hq, hend]
          rfl
        rw [Context.around_enter, hq] at ht
        obtain ⟨_, ⟨⟩, ⟨-, rest, hr, -⟩ | ⟨hc', -⟩⟩ := Route.through_final_eq_ok.1 ht
        · exact ⟨rest, hr⟩
        · exact absurd hc (Bool.eq_false_iff.1 hc')

end Cleared

theorem Stmt.faults_eq_nil {s : Stmt} (hc : s.clauseFaults = [])
    (hb : ∀ body ∈ s.requiredBodies, body ≠ []) : s.faults = [] := by
  have hempty : s.requiredBodies.filter (·.isEmpty) = [] :=
    List.filter_eq_nil_iff.2 fun body hm he => hb body hm (List.isEmpty_iff.1 he)
  rw [Stmt.faults, hc, hempty]
  rfl

theorem clauseFaults_eq_nil_of_attemptFault? {site : Site} {body : List Stmt}
    {handlers : List Handler} {orelse final : List Stmt}
    (h : attemptFault? site handlers orelse final = none) :
    (Stmt.attempt site body handlers orelse final).clauseFaults = [] := by
  rw [attemptFault?] at h
  split at h
  next => cases h
  next halone =>
    split at h
    next => cases h
    next helse =>
      have hm := Clause.misplaced_eq_nil (Option.map_eq_none_iff.1 h)
      rw [Stmt.clauseFaults, if_neg halone, if_neg helse, hm]
      rfl

theorem exists_planBody_of_optionalClause {cx : Context} {region : Except Failure RegionId}
    {body : List Stmt} {annex : Annex}
    (h : optionalClause region body (planBody cx body) = .ok annex) :
    ∃ q, planBody cx body = .ok q := by
  rcases optionalClause_eq_ok.1 h with ⟨rfl, -⟩ | ⟨-, r, q, -, hq, -⟩
  · exact ⟨none, rfl⟩
  · exact ⟨q, hq⟩

mutual

/-- A planned statement has no faults, and its stray jumps have routes. -/
theorem Stmt.cleared_of_plan (cx : Context) : (s : Stmt) → {p : Option Plan} → s.plan cx = .ok p →
    Cleared cx s.statements (s.strays (bodyEndsInJump cx.markers))
  | .simple _, _, _ | .pass _, _, _ | .marker .., _, _ | .yield _, _, _ => Cleared.nil.cons rfl
  | .unsupported _, _, h => by simp [Stmt.plan] at h
  | .jump site means, p, h => by
    obtain ⟨route, hr, -⟩ := Stmt.plan_jump_eq_ok h
    refine ⟨by simp [Stmt.statements, Stmt.faults, Stmt.clauseFaults, Stmt.requiredBodies], ?_⟩
    intro j hj
    rw [Stmt.strays] at hj
    split at hj
    next hm =>
      obtain rfl := List.mem_singleton.1 hj
      exact ⟨hm, route, hr⟩
    next => simp at hj
  | .branch site test body clauses, p, h => by
    obtain ⟨q, rest, hf, hb, hq, hr, -⟩ := Stmt.plan_branch_eq_ok h
    have hm := Clause.misplaced_eq_nil (Option.map_eq_none_iff.1 hf)
    obtain ⟨hne, hc⟩ := cleared_of_planAlternatives cx site clauses hm hr
    exact ((cleared_of_planBody cx body hq).append hc).cons
      (Stmt.faults_eq_nil (by simp [Stmt.clauseFaults, hm]) (List.forall_mem_cons.2 ⟨hb, hne⟩))
  | .loop site head body orelse, p, h => by
    obtain ⟨q, annex, hb, hq, ha, -⟩ := Stmt.plan_loop_eq_ok h
    obtain ⟨q', hq'⟩ := exists_planBody_of_optionalClause ha
    -- a `break` in the body stays in the loop, one in the `else` clause does not
    have hbody := cleared_of_planBody (cx.enter .loop) body hq
    have horelse := cleared_of_planBody cx orelse hq'
    exact (hbody.leaveLoop.append horelse).cons
      (Stmt.faults_eq_nil rfl (List.forall_mem_singleton.2 hb))
  | .attempt site body handlers orelse final, p, h => by
    obtain ⟨whole, inner, region, q, handlers', annex, annex', hf, -, hi, -, hb, hq, hh, ha, ha',
      -⟩ := Stmt.plan_attempt_eq_ok h
    obtain ⟨q', hq'⟩ := exists_planBody_of_optionalClause ha
    obtain ⟨q'', hq''⟩ := exists_planBody_of_optionalClause ha'
    obtain ⟨hne, hhandlers⟩ := cleared_of_planHandlers inner site 0 handlers hh
    -- all clauses but the `finally` clause are planned inside it, and their jumps have to get past
    -- it
    have hinner := ((cleared_of_planBody inner body hq).append hhandlers).append
      (cleared_of_planBody inner orelse hq')
    rw [Context.markers_enterFinal hi] at hinner
    exact ((hinner.leaveFinal hi hq'').append (cleared_of_planBody cx final hq'')).cons
      (Stmt.faults_eq_nil (clauseFaults_eq_nil_of_attemptFault? hf)
        (List.forall_mem_cons.2 ⟨hb, hne⟩))
  | .hold site isAsync header body, p, h => by
    obtain ⟨region, q, -, hb, hq, -⟩ := Stmt.plan_hold_eq_ok h
    have hbody := cleared_of_planBody (cx.enter (cx.resource header region)) body hq
    exact hbody.leaveResource.cons (Stmt.faults_eq_nil rfl (List.forall_mem_singleton.2 hb))
  | .dispatch site subject cases, p, h => by
    obtain ⟨region, cases', hne, -, hc, -⟩ := Stmt.plan_dispatch_eq_ok h
    obtain ⟨hb, hcases⟩ := cleared_of_planCases cx site cases hc
    exact hcases.cons (Stmt.faults_eq_nil (by simp [Stmt.clauseFaults, hne]) hb)

/-- A planned body has no faults, and its stray jumps have routes. -/
theorem cleared_of_planBody (cx : Context) : (body : List Stmt) → {p : Option Plan} →
    planBody cx body = .ok p →
      Cleared cx (bodyStatements body) (bodyStrays (bodyEndsInJump cx.markers) body)
  | [], _, _ => .nil
  | s :: rest, p, h => by
    obtain ⟨first, next, hf, hn, -⟩ := planBody_cons_eq_ok.1 h
    exact (s.cleared_of_plan cx hf).append (cleared_of_planBody cx rest hn)

theorem cleared_of_planAlternatives (cx : Context) (site : Site) : (clauses : List BranchClause) →
    {rest : Alternatives} → Clause.misplaced clauses = [] →
    planAlternatives cx site clauses = .ok rest →
      (∀ body ∈ clauses.map (·.body), body ≠ []) ∧ Cleared cx (clauseStatements clauses)
        (clauseStrays (bodyEndsInJump cx.markers) clauses)
  | [], _, _, _ => ⟨by simp, .nil⟩
  | ⟨_, none, body⟩ :: rest, _, hm, h => by
    obtain ⟨q, hb, hq, -⟩ := planAlternatives_else_eq_ok h
    -- an `else` before other clauses is misplaced, so it is the last clause
    cases rest with
    | cons c rest => simp [Clause.misplaced] at hm
    | nil => exact ⟨by simpa using hb, (cleared_of_planBody cx body hq).append .nil⟩
  | ⟨_, some _, body⟩ :: rest, _, hm, h => by
    obtain ⟨q, rest', hb, hq, hr, -⟩ := planAlternatives_test_eq_ok h
    have hm' : Clause.misplaced rest = [] := by
      cases rest with
      | nil => rfl
      | cons c rest => simpa [Clause.misplaced] using hm
    obtain ⟨hne, hc⟩ := cleared_of_planAlternatives cx site rest hm' hr
    exact ⟨List.forall_mem_cons.2 ⟨hb, hne⟩, (cleared_of_planBody cx body hq).append hc⟩

theorem cleared_of_planHandlers (cx : Context) (site : Site) (index : Nat) :
    (handlers : List Handler) → {handlers' : Handlers} →
    planHandlers cx site index handlers = .ok handlers' →
      (∀ body ∈ handlers.map (·.body), body ≠ []) ∧ Cleared cx (clauseStatements handlers)
        (clauseStrays (bodyEndsInJump cx.markers) handlers)
  | [], _, _ => ⟨by simp, .nil⟩
  | ⟨_, _, body⟩ :: rest, _, h => by
    obtain ⟨region, q, rest', -, hb, hq, hr, -⟩ := planHandlers_cons_eq_ok h
    obtain ⟨hne, hc⟩ := cleared_of_planHandlers cx site (index + 1) rest hr
    exact ⟨List.forall_mem_cons.2 ⟨hb, hne⟩, (cleared_of_planBody cx body hq).append hc⟩

theorem cleared_of_planCases (cx : Context) (site : Site) : (cases : List MatchCase) →
    {cases' : Cases} → planCases cx site cases = .ok cases' →
      (∀ body ∈ cases.map (·.body), body ≠ []) ∧ Cleared cx (caseStatements cases)
        (caseStrays (bodyEndsInJump cx.markers) cases)
  | [], _, _ => ⟨by simp, .nil⟩
  | ⟨_, head, body⟩ :: rest, _, h => by
    obtain ⟨q, rest', hb, hq, hr, -⟩ := planCases_cons_eq_ok h
    obtain ⟨hne, hc⟩ := cleared_of_planCases cx site rest hr
    exact ⟨List.forall_mem_cons.2 ⟨hb, hne⟩, (cleared_of_planBody cx body hq).append hc⟩

end

end Flowgraph
