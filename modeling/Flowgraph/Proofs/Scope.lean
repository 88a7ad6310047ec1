import Flowgraph.Proofs.Planning

/-!
# Plans fit their surroundings

A jump of a plan counts on loops that are not part of the plan: the one it is meant for and those
it leaves on the way.  A plan fits a number of loops if none of its jumps counts on more, if every
copy of a `finally` clause goes on exactly when the clause completes, and if a case that accepts
every subject has an alternative.  The plan of a body fits the loops around the body.

## Main definitions

* `Plan.Fits` : the plan fits a number of loops around it.
* `loopDepth` : the number of loops among the constructs around a statement.

## Main results

* `fits_planBody` : the plan of a body fits the loops around it.
* `Plan.fits_ofBody` : the plan of a function body fits without any loop around it.
-/

namespace Flowgraph

mutual

/-- The plan fits the given number of loops around it. -/
def Plan.Fits (depth : Nat) : Plan → Prop
  | .idle | .block _ | .yield _ => True
  | .jump _ _ means route => route.Fits means depth
  | .raise _ route => route.Fits .raising depth
  | .hold _ _ _ body => body.Fits depth
  | .seq first rest => first.Fits depth ∧ rest.Fits depth
  | .branch _ body rest => body.Fits depth ∧ rest.Fits depth
  | .loop _ body orelse => body.Fits (depth + 1) ∧ orelse.Fits depth
  | .dispatch _ _ cases => cases.Fits depth
  | .attempt _ body handlers orelse final =>
    body.Fits depth ∧ handlers.Fits depth ∧ orelse.Fits depth ∧ final.Fits depth

/-- What follows a failed test of an `if` fits the loops around it. -/
def Alternatives.Fits (depth : Nat) : Alternatives → Prop
  | .done => True
  | .otherwise body => body.Fits depth
  | .test _ body rest => body.Fits depth ∧ rest.Fits depth

/-- The cases of a `match` fit the loops around them. -/
def Cases.Fits (depth : Nat) : Cases → Prop
  | .nil => True
  | .cons patterns catchAll body rest =>
    (catchAll = true → patterns ≠ []) ∧ body.Fits depth ∧ rest.Fits depth

/-- The handlers of a `try` fit the loops around them. -/
def Handlers.Fits (depth : Nat) : Handlers → Prop
  | .nil => True
  | .cons _ handler rest => handler.Fits depth ∧ rest.Fits depth

/-- A clause that may be missing fits the loops around it. -/
def Annex.Fits (depth : Nat) : Annex → Prop
  | .absent => True
  | .present _ body => body.Fits depth

/-- The route of a jump leaves no more loops than there are, and a `break` or `continue` finds
one where it arrives. -/
def Route.Fits (means : Jump) (depth : Nat) : Route → Prop
  | .arrive => means.staysInLoop = true → 0 < depth
  | .leaveLoop rest => 0 < depth ∧ rest.Fits means (depth - 1)
  | .release _ _ _ rest => rest.Fits means depth
  | .replay _ _ body rest => body.completes = true ∧ body.Fits depth ∧ rest.Fits means depth
  | .swallow _ body => body.completes = false ∧ body.Fits depth

end

/-! ## The plans of bodies -/

/-- The number of loops among the constructs around a statement. -/
def loopDepth : List Enclosure → Nat
  | [] => 0
  | .loop :: outer => loopDepth outer + 1
  | .resource .. :: outer | .final .. :: outer => loopDepth outer

/-- The `finally` clauses around a statement have plans that fit where they stand, if they have
plans at all. -/
def FinalsFit : List Enclosure → Prop
  | [] => True
  | .loop :: outer | .resource .. :: outer => FinalsFit outer
  | .final _ _ body :: outer =>
    (∀ plan, body = .ok plan → plan.Fits (loopDepth outer)) ∧ FinalsFit outer

theorem Route.fits_through {site : Site} {means : Jump} : {around : List Enclosure} →
    {route : Route} → Route.through site means around = .ok route → FinalsFit around →
      route.Fits means (loopDepth around)
  | [], route, h, _ => by
    obtain ⟨hm, rfl⟩ := through_nil_eq_ok.1 h
    exact fun hm' => absurd hm' (Bool.eq_false_iff.1 hm)
  | .loop :: outer, route, h, hf => by
    rcases through_loop_eq_ok.1 h with ⟨-, rfl⟩ | ⟨-, rest, hr, rfl⟩
    · -- the jump is meant for this loop
      exact fun _ => Nat.succ_pos _
    · exact ⟨Nat.succ_pos _, fits_through hr hf⟩
  | .resource .. :: outer, route, h, hf => by
    obtain ⟨rest, hr, rfl⟩ := through_resource_eq_ok.1 h
    have ih : rest.Fits means (loopDepth outer) := fits_through hr hf
    exact ih
  | .final _ _ body :: outer, route, h, hf => by
    obtain ⟨plan, rfl, ⟨hc, rest, hr, rfl⟩ | ⟨hc, rfl⟩⟩ := through_final_eq_ok.1 h
    · have ih : rest.Fits means (loopDepth outer) := fits_through hr hf.2
      exact ⟨hc, hf.1 plan rfl, ih⟩
    · exact ⟨hc, hf.1 plan rfl⟩

theorem Plan.seqClosed_fits (depth : Nat) : SeqClosed (·.Fits depth) where
  block _ _ := ⟨fun _ => ⟨trivial, trivial⟩, fun _ => trivial⟩
  jump _ _ _ _ _ _ h := h
  hold _ _ _ _ _ _ h := h
  seq _ _ := Iff.rfl

theorem Annex.fits_optionalClause {region : Except Failure RegionId} {body : List Stmt}
    {plan : Except Failure (Option Plan)} {annex : Annex} {depth : Nat}
    (h : optionalClause region body plan = .ok annex)
    (hplan : ∀ q, plan = .ok q → (Plan.orIdle q).Fits depth) : annex.Fits depth := by
  rcases optionalClause_eq_ok.1 h with ⟨-, rfl⟩ | ⟨-, r, q, -, hq, rfl⟩
  · trivial
  · exact hplan q hq

/-- A `finally` clause adds no loop, and its plan fits where it stands. -/
theorem Context.finalsFit_enterFinal {cx inner : Context} {site : Site} {whole : RegionId}
    {final : List Stmt} {plan : Except Failure (Option Plan)}
    (h : cx.enterFinal site whole final plan = .ok inner) (hf : FinalsFit cx.around)
    (hplan : ∀ q, plan = .ok q → (Plan.orIdle q).Fits (loopDepth cx.around)) :
    FinalsFit inner.around ∧ loopDepth inner.around = loopDepth cx.around := by
  rcases enterFinal_eq_ok.1 h with ⟨-, rfl⟩ | ⟨-, r, -, rfl⟩
  · exact ⟨hf, rfl⟩
  · refine ⟨⟨fun p hp => ?_, hf⟩, rfl⟩
    obtain ⟨q, hq, rfl⟩ := map_eq_ok.1 hp
    exact hplan q hq

mutual

/-- The plan of a statement fits the loops around it. -/
theorem Stmt.fits_plan (cx : Context) : (s : Stmt) → (p : Option Plan) → s.plan cx = .ok p →
    FinalsFit cx.around → (Plan.orIdle p).Fits (loopDepth cx.around)
  | .simple _, p, h, _ | .pass _, p, h, _ | .yield _, p, h, _ => by
    simp only [Stmt.plan, Except.ok.injEq] at h
    subst h
    trivial
  | .marker .., p, h, _ => by
    simp only [Stmt.plan, Except.ok.injEq] at h
    subst h
    split <;> trivial
  | .jump site means, p, h, hf => by
    obtain ⟨route, hr, rfl⟩ := Stmt.plan_jump_eq_ok h
    have hr := Route.fits_through hr hf
    rw [Plan.orIdle]
    split
    · next hm =>
      subst hm
      exact hr
    · exact hr
  | .branch site _ body clauses, p, h, hf => by
    obtain ⟨q, rest, -, -, hq, hr, rfl⟩ := Stmt.plan_branch_eq_ok h
    exact ⟨fits_planBody cx body q hq hf, fits_planAlternatives cx site clauses rest hr hf⟩
  | .loop _ _ body orelse, p, h, hf => by
    obtain ⟨q, annex, -, hq, ha, rfl⟩ := Stmt.plan_loop_eq_ok h
    exact ⟨fits_planBody (cx.enter .loop) body q hq hf,
      annex.fits_optionalClause ha fun q' hq' => fits_planBody cx orelse q' hq' hf⟩
  | .attempt site body handlers orelse final, p, h, hf => by
    obtain ⟨whole, inner, region, q, handlers', annex, annex', -, -, hi, -, -, hq, hh, ha, ha',
      rfl⟩ :=
      Stmt.plan_attempt_eq_ok h
    -- the clause fits where the statement stands, so it fits as an enclosure of the rest
    have hfinal := fun q' hq' => fits_planBody cx final q' hq' hf
    obtain ⟨hf', hd⟩ := Context.finalsFit_enterFinal hi hf hfinal
    exact ⟨hd ▸ fits_planBody inner body q hq hf',
      hd ▸ fits_planHandlers inner site 0 handlers handlers' hh hf',
      annex.fits_optionalClause ha fun q' hq' => hd ▸ fits_planBody inner orelse q' hq' hf',
      annex'.fits_optionalClause ha' hfinal⟩
  | .hold _ _ header body, p, h, hf => by
    obtain ⟨region, q, -, -, hq, rfl⟩ := Stmt.plan_hold_eq_ok h
    exact fits_planBody (cx.enter (cx.resource header region)) body q hq hf
  | .dispatch site _ cases, p, h, hf => by
    obtain ⟨region, cases', -, -, hc, rfl⟩ := Stmt.plan_dispatch_eq_ok h
    exact fits_planCases cx site cases cases' hc hf
  | .unsupported _, _, h, _ => by simp [Stmt.plan] at h

/-- The plan of a body fits the loops around it. -/
theorem fits_planBody (cx : Context) : (body : List Stmt) → (p : Option Plan) →
    planBody cx body = .ok p → FinalsFit cx.around → (Plan.orIdle p).Fits (loopDepth cx.around)
  | [], p, h, _ => by
    simp only [planBody, Except.ok.injEq] at h
    subst h
    trivial
  | s :: rest, p, h, hf => by
    obtain ⟨first, after, hs, hr, rfl⟩ := planBody_cons_eq_ok.1 h
    exact (Plan.seqClosed_fits _).merge (s.fits_plan cx first hs hf)
      (fits_planBody cx rest after hr hf)

theorem fits_planAlternatives (cx : Context) (site : Site) : (clauses : List BranchClause) →
    (rest : Alternatives) → planAlternatives cx site clauses = .ok rest → FinalsFit cx.around →
      rest.Fits (loopDepth cx.around)
  | [], rest, h, _ => by
    simp only [planAlternatives, Except.ok.injEq] at h
    subst h
    trivial
  | ⟨_, none, body⟩ :: _, rest, h, hf => by
    obtain ⟨q, -, hq, rfl⟩ := planAlternatives_else_eq_ok h
    exact fits_planBody cx body q hq hf
  | ⟨_, some _, body⟩ :: clauses, rest, h, hf => by
    obtain ⟨q, rest', -, hq, hr, rfl⟩ := planAlternatives_test_eq_ok h
    exact ⟨fits_planBody cx body q hq hf, fits_planAlternatives cx site clauses rest' hr hf⟩

theorem fits_planHandlers (cx : Context) (site : Site) (index : Nat) :
    (handlers : List Handler) → (handlers' : Handlers) →
      planHandlers cx site index handlers = .ok handlers' → FinalsFit cx.around →
        handlers'.Fits (loopDepth cx.around)
  | [], handlers', h, _ => by
    simp only [planHandlers, Except.ok.injEq] at h
    subst h
    trivial
  | ⟨_, _, body⟩ :: rest, handlers', h, hf => by
    obtain ⟨region, q, rest', -, -, hq, hr, rfl⟩ := planHandlers_cons_eq_ok h
    exact ⟨fits_planBody cx body q hq hf, fits_planHandlers cx site (index + 1) rest rest' hr hf⟩

theorem fits_planCases (cx : Context) (site : Site) : (cases : List MatchCase) →
    (cases' : Cases) → planCases cx site cases = .ok cases' → FinalsFit cx.around →
      cases'.Fits (loopDepth cx.around)
  | [], cases', h, _ => by
    simp only [planCases, Except.ok.injEq] at h
    subst h
    trivial
  | ⟨_, head, body⟩ :: rest, cases', h, hf => by
    obtain ⟨q, rest', -, hq, hr, rfl⟩ := planCases_cons_eq_ok h
    exact ⟨fun ha => by simpa using CaseHead.patterns_ne_nil ha, fits_planBody cx body q hq hf,
      fits_planCases cx site rest rest' hr hf⟩

end

/-- The plan of a function body fits without any loop around it. -/
theorem Plan.fits_ofBody {options : Options} {regions : RegionTree} {body : List Stmt}
    {plan : Plan} (h : Plan.ofBody options regions body = .ok plan) : plan.Fits 0 := by
  rw [Plan.ofBody] at h
  split at h
  · cases h
  · obtain ⟨p, hp, rfl⟩ := map_eq_ok.1 h
    exact fits_planBody _ body p hp trivial

end Flowgraph
