import Flowgraph.Proofs.Outlook
import Flowgraph.Proofs.Reading

/-!
# Reading a statement tree

A reading does not depend on how straight-line statements are divided into nodes, so a statement is
read on its own, with one continuation for every way in which it can end, and a sequence is read
statement by statement.

## Main definitions

* `Stmt.flow`, `bodyFlow` : the value of statements, given the values of their outcomes.

## Main results

* `bodyView_eq_bodyFlow` : read as views are, a body has the same value.
* `least_zero_ofPlan` : the least value of the entry of a function is the value of its body.
-/

namespace Flowgraph

variable {V : Type} [CompleteLattice V]

/-- The value of an outcome that is taken up again: a jump is carried out once more. -/
def Reading.resumed (R : Reading V) (κ : Outcome → V) : Outcome → V
  | .normal => κ .normal
  | .jump site means => R.see (.stmt (.jump site means)) (κ (.jump site means))

/-- The continuation of the body of a `with`: a jump releases the resource and is taken up
again. -/
def Reading.released (R : Reading V) (header : Span) (κ : Outcome → V) : Outcome → V
  | .normal => κ .normal
  | .jump site means => R.see (.release header) (R.resumed κ (.jump site means))

mutual

/-- The value of a statement, given the values of its outcomes and the value of the handlers that
watch over it. -/
def Stmt.flow (R : Reading V) (markers flat : Bool) (κ : Outcome → V) (caught : V) : Stmt → V
  | .simple site => R.see (.stmt (.simple site)) (κ .normal) ⊔ R.heed caught
  | .pass site => R.see (.stmt (.pass site)) (κ .normal) ⊔ R.heed caught
  | .marker site name => R.see (.stmt (.marker site name)) (κ .normal) ⊔ R.heed caught
  | .yield site =>
    R.see (.stmt (.yield site)) (κ .normal ⊔ R.leave (.suspends site)) ⊔ R.heed caught
  | .jump site means => R.see (.stmt (.jump site means)) (κ (.jump site means)) ⊔ R.heed caught
  | .branch _ test body clauses =>
    R.see (.test test)
        (bodyFlow R markers flat κ ⊥ body ⊔ clausesFlow R markers flat κ clauses) ⊔
      R.heed caught
  | .loop _ head body orelse =>
    -- `x` is the value at the head, where every round begins
    least fun x =>
      R.see (.test head.span)
          (bodyFlow R markers flat (loopBody x κ) ⊥ body ⊔ bodyFlow R markers flat κ ⊥ orelse) ⊔
        R.heed caught
  | .attempt _ body handlers orelse final =>
    -- the `finally` clause runs before any ending goes on, and a jump out of it goes on instead
    let after : Outcome → V := fun o =>
      if final.isEmpty then κ o
      else bodyFlow R markers flat (continueWith (R.resumed κ o) κ) ⊥ final
    bodyFlow R markers flat (continueWith (bodyFlow R markers flat after ⊥ orelse) after)
      (handlersFlow R markers flat after handlers ⊔ caught) body
  | .hold site isAsync header body =>
    R.see (.stmt (.hold site isAsync header body))
        (bodyFlow R markers flat (R.released header κ) ⊥ body) ⊔
      R.heed caught
  | .dispatch _ subject cases =>
    R.see (.test subject)
        (casesFlow R markers flat κ cases ⊔
          if cases.any (·.head.acceptsAll) then ⊥ else κ .normal) ⊔
      R.heed caught
  | .unsupported _ => κ .normal ⊔ R.heed caught

/-- The value of a sequence of statements.  What watches over a statement that has no place in the
graph watches over the next one. -/
def bodyFlow (R : Reading V) (markers flat : Bool) (κ : Outcome → V) (caught : V) :
    List Stmt → V
  | [] => κ .normal ⊔ R.heed caught
  | s :: rest =>
    if s.kept markers then
      s.flow R markers flat (continueWith (bodyFlow R markers flat κ ⊥ rest) κ) caught
    else bodyFlow R markers flat κ caught rest

/-- The value of the clauses of an `if`. -/
def clausesFlow (R : Reading V) (markers flat : Bool) (κ : Outcome → V) :
    List (Clause (Option Span) Stmt) → V
  | [] => κ .normal
  | ⟨_, none, body⟩ :: _ => bodyFlow R markers flat κ ⊥ body
  | ⟨_, some test, body⟩ :: rest =>
    R.see (.test test) (bodyFlow R markers flat κ ⊥ body ⊔ clausesFlow R markers flat κ rest)

/-- The value of the handlers of a `try`. -/
def handlersFlow (R : Reading V) (markers flat : Bool) (κ : Outcome → V) :
    List (Clause (Option Span) Stmt) → V
  | [] => ⊥
  | ⟨_, _, body⟩ :: rest => bodyFlow R markers flat κ ⊥ body ⊔ handlersFlow R markers flat κ rest

/-- The value of the cases of a `match`. -/
def casesFlow (R : Reading V) (markers flat : Bool) (κ : Outcome → V) :
    List (Clause CaseHead Stmt) → V
  | [] => κ .normal
  | ⟨_, head, body⟩ :: rest =>
    let body := bodyFlow R markers flat κ ⊥ body
    head.patterns.foldr
      (fun pattern x =>
        -- flat: the subject meets all alternatives at once; otherwise each one hands it to the next
        if flat then R.see (.caseTest pattern.span) body ⊔ x
        else R.see (.caseTest pattern.span) (body ⊔ x))
      (if head.acceptsAll then ⊥ else casesFlow R markers flat κ rest)

end

/-- The values of the outcomes of the clauses that a `finally` clause watches over. -/
def afterFinal (R : Reading V) (markers flat : Bool) (κ : Outcome → V) (final : List Stmt)
    (o : Outcome) : V :=
  if final.isEmpty then κ o
  else bodyFlow R markers flat (continueWith (R.resumed κ o) κ) ⊥ final

/-! ## Blocks do not matter -/

namespace Reading

variable (R : Reading V)

theorem resumed_view (κ : Outcome → V) : R.view.resumed κ = R.resumed κ := by
  funext o
  cases o <;> rfl

theorem released_view (header : Span) (κ : Outcome → V) :
    R.view.released header κ = R.released header κ := by
  funext o
  cases o <;> rfl

theorem block_view (stmts : List Stmt) (next : V) :
    R.view.block stmts next = fun caught => R.seeAll (stmts.map .stmt) next ⊔ R.heed caught :=
  funext fun caught => R.seeAll_heed _ next caught

/-- A node that no statement before it can join is read as if they did join it. -/
theorem apart_view (before : List Stmt) (next caught : V) :
    R.view.apart before (fun c => next ⊔ R.heed c) caught =
      R.seeAll (before.map .stmt) next ⊔ R.heed caught := by
  rw [← R.seeAll_heed]
  exact R.view.apart_eq_block before next caught

end Reading

section Blocks

variable (R : Reading V) (markers flat : Bool)

mutual

/-- Viewed after other statements, a statement is read after them. -/
theorem Stmt.view_eq_flow (κ : Outcome → V) (before : List Stmt) (caught : V) : (s : Stmt) →
    s.view R.view markers flat κ before caught =
      R.view.apart before (s.flow R markers flat κ) caught
  | .simple site | .pass site | .marker site name => by
    simp [Stmt.view, Stmt.flow, R.apart_view, R.block_view, R.seeAll_append]
  | .yield site => by
    simp [Stmt.view, Stmt.flow, R.block_view]
  | .jump site means => by
    by_cases hm : means = .raising
    · subst hm
      simp [Stmt.view, Stmt.flow, R.block_view]
    · simp [Stmt.view, Stmt.flow, hm, R.apart_view, R.block_view, R.seeAll_append]
  | .branch site test body clauses => by
    have hb := bodyView_eq_bodyFlow κ [] ⊥ body
    have hc := clausesView_eq_clausesFlow κ clauses
    simp [Stmt.view, Stmt.flow, hb, hc, R.seeAll_heed]
  | .loop site head body orelse => by
    -- for every value at the head of the loop, so the least ones agree
    have hb := fun x => bodyView_eq_bodyFlow (loopBody x κ) [] ⊥ body
    have ho := bodyView_eq_bodyFlow κ [] ⊥ orelse
    simp [Stmt.view, Stmt.flow, hb, ho, R.seeAll_heed]
  | .attempt site body handlers orelse final => by
    -- the clauses are read against one another, so each of them for all that may follow
    have hb := fun κ caught => bodyView_eq_bodyFlow κ [] caught body
    have hh := fun κ => handlersView_eq_handlersFlow κ handlers
    have ho := fun κ => bodyView_eq_bodyFlow κ [] ⊥ orelse
    have hf := fun κ => bodyView_eq_bodyFlow κ [] ⊥ final
    simp [Stmt.view, Stmt.flow, hb, hh, ho, hf, R.resumed_view]
  | .hold site isAsync header body => by
    have hb := bodyView_eq_bodyFlow (R.released header κ) [] ⊥ body
    simp [Stmt.view, Stmt.flow, hb, R.released_view, R.apart_view, R.block_view, R.seeAll_append]
  | .dispatch site subject cases => by
    have hc := casesView_eq_casesFlow κ cases
    simp [Stmt.view, Stmt.flow, hc, R.seeAll_heed]
  | .unsupported site => by
    simp [Stmt.view, Stmt.flow, R.apart_view, R.block_view]

/-- Viewed after other statements, a body is read after them. -/
theorem bodyView_eq_bodyFlow (κ : Outcome → V) (before : List Stmt) (caught : V) :
    (body : List Stmt) → bodyView R.view markers flat κ before caught body =
      R.view.apart before (fun c => bodyFlow R markers flat κ c body) caught
  | [] => by simp [bodyView, bodyFlow, R.apart_view, R.block_view]
  | s :: rest => by
    have hr := fun before caught => bodyView_eq_bodyFlow κ before caught rest
    have hs := fun κ => s.view_eq_flow κ before caught
    simp only [bodyView, bodyFlow]
    cases hstraight : s.isStraight with
    | false =>
      -- such a statement is kept, and the next one begins a new block
      have hk : s.kept markers = true := by
        cases s with
        | marker => cases hstraight
        | _ => rfl
      simp [hk, hs, hr]
    | true =>
      cases hk : s.kept markers with
      | false => simp [hr]
      | true =>
        have hflow : ∀ κ c, s.flow R markers flat κ c =
            R.see (.stmt s) (κ .normal) ⊔ R.heed c := by
          cases s with
          | simple | pass | marker => intros; simp only [Stmt.flow]
          | _ => cases hstraight
        simp [hr, hflow, R.apart_view, R.block_view, R.seeAll_append]

theorem clausesView_eq_clausesFlow (κ : Outcome → V) : (clauses : List BranchClause) →
    clausesView R.view markers flat κ clauses = clausesFlow R markers flat κ clauses
  | [] => rfl
  | ⟨_, none, body⟩ :: _ => bodyView_eq_bodyFlow κ [] ⊥ body
  | ⟨_, some test, body⟩ :: rest => by
    have hb := bodyView_eq_bodyFlow κ [] ⊥ body
    have hr := clausesView_eq_clausesFlow κ rest
    simp [clausesView, clausesFlow, hb, hr]

theorem handlersView_eq_handlersFlow (κ : Outcome → V) : (handlers : List Handler) →
    handlersView R.view markers flat κ handlers = handlersFlow R markers flat κ handlers
  | [] => rfl
  | ⟨_, _, body⟩ :: rest => by
    have hb := bodyView_eq_bodyFlow κ [] ⊥ body
    have hr := handlersView_eq_handlersFlow κ rest
    simp [handlersView, handlersFlow, hb, hr]

theorem casesView_eq_casesFlow (κ : Outcome → V) : (cases : List MatchCase) →
    casesView R.view markers flat κ cases = casesFlow R markers flat κ cases
  | [] => rfl
  | ⟨_, head, body⟩ :: rest => by
    have hb := bodyView_eq_bodyFlow κ [] ⊥ body
    have hr := casesView_eq_casesFlow κ rest
    simp [casesView, casesFlow, hb, hr]

end

end Blocks

/-- The values of the ways in which a function ends. -/
def Reading.ending (R : Reading V) : Outcome → V
  | .normal => R.leave .fallsThrough
  | .jump site .returning => R.leave (.returns site)
  | .jump site .raising => R.leave (.raises site)
  | .jump _ .breaking | .jump _ .continuing => ⊥

/-- The least value of the entry of a function is the value of its body. -/
theorem least_zero_ofPlan (R : Reading V) {options : Options} {regions : RegionTree}
    {body : List Stmt} {plan : Plan} (h : Plan.ofBody options regions body = .ok plan)
    (flat : Bool) :
    least ((Piece.ofPlan flat plan).1.value R) 0 =
      bodyFlow R options.markers flat R.ending ⊥ body := by
  have hend : R.view.ending = R.ending := by
    funext o
    rcases o with - | ⟨site, - | - | - | -⟩ <;> rfl
  rw [Piece.value_eq_viewed, least_viewed_ofPlan R.view h, bodyView_eq_bodyFlow, hend]
  rfl

end Flowgraph
