import Mathlib.Data.List.Forall2
import Mathlib.Order.FixedPoints
import Mathlib.Order.ConditionallyCompleteLattice.Basic
import Mathlib.Order.CompletePartialOrder
import Flowgraph.Proofs.Drawing

/-!
# Viewing a graph

A view gives every node of a graph a value in a complete lattice: what it makes of the events at
the node, taken together, of the values of the nodes that control and exceptions go to next, and of
the exits at the node.

The values are the least ones that agree with each other along the edges.  The value of the node
where a plan begins is computed by recursion on the plan, with one least value per loop; the graph
is no longer needed.

## Main definitions

* `Event`, `Content.events` : what happens at a node, in order.
* `View` : how values are made.
* `Piece.viewed` : the value of a node in terms of the values around it.
* `Plan.view` : the value of a plan.

## Main results

* `Plan.view_mono` : a plan is viewed monotonically.
* `Plan.least_entryAt` : where a plan is drawn, the least value of its first node is the value of
  the plan.
* `Plan.DrawnWhole.least_zero` : the least value of the entry of a function.
-/

namespace Flowgraph

/-- What happens at a node. -/
inductive Event where
  /-- A condition, a loop or the subject of a `match` is evaluated. -/
  | test (header : Span)
  /-- An alternative of a `case` is tried. -/
  | caseTest (header : Span)
  /-- A resource is released. -/
  | release (header : Span)
  /-- A statement runs. -/
  | stmt (stmt : Stmt)

/-- What happens at a node, in order. -/
def Content.events : Content → List Event
  | .test header => [.test header]
  | .caseTest header => [.caseTest header]
  | .release header => [.release header]
  | content => content.stmts.map .stmt

namespace Content

@[simp] theorem events_entry : entry.events = [] := rfl

@[simp] theorem events_block (stmts : List Stmt) : (block stmts).events = stmts.map .stmt := rfl

@[simp] theorem events_yield (site : Site) : (yield site).events = [.stmt (.yield site)] := rfl

@[simp] theorem events_raise (site : Site) :
    (raise site).events = [.stmt (.jump site .raising)] := rfl

@[simp] theorem events_test (header : Span) : (test header).events = [.test header] := rfl

@[simp] theorem events_caseTest (header : Span) :
    (caseTest header).events = [.caseTest header] := rfl

@[simp] theorem events_join : join.events = [] := rfl

@[simp] theorem events_release (header : Span) : (release header).events = [.release header] := rfl

@[simp] theorem events_empty : empty.events = [] := rfl

@[simp] theorem events_exit : exit.events = [] := rfl

end Content

/-- The least value that a function does not raise. -/
def least {V : Type} [CompleteLattice V] (F : V → V) : V :=
  sInf {x | F x ≤ x}

section Least

variable {V : Type} [CompleteLattice V] {F G : V → V} {x : V}

@[simp] theorem iSup_mem_nil {α : Type} (f : α → V) : ⨆ a ∈ ([] : List α), f a = ⊥ := by
  simp

@[simp] theorem iSup_mem_cons {α : Type} (f : α → V) (a : α) (l : List α) :
    ⨆ b ∈ a :: l, f b = f a ⊔ ⨆ b ∈ l, f b := by
  simp [iSup_or, iSup_sup_eq]

theorem least_le (h : F x ≤ x) : least F ≤ x :=
  sInf_le h

theorem le_least (h : ∀ y, F y ≤ y → x ≤ y) : x ≤ least F :=
  le_sInf h

theorem map_least (hF : Monotone F) : F (least F) = least F :=
  OrderHom.map_lfp ⟨F, hF⟩

theorem least_mono (h : ∀ y, F y ≤ G y) : least F ≤ least G :=
  le_least fun y hy => least_le ((h y).trans hy)

end Least

/-- How values are made along a graph. -/
structure View (V : Type) [CompleteLattice V] where
  /-- What the events at a node make of the value after them. -/
  see : List Event → V → V
  /-- The value of an exit. -/
  leave : ExitCause → V
  /-- What is made of the values of the handlers. -/
  heed : V → V
  see_nil : ∀ x, see [] x = x
  see_mono : ∀ events, Monotone (see events)
  heed_bot : heed ⊥ = ⊥
  heed_mono : Monotone heed

attribute [simp] View.see_nil View.heed_bot

variable {V : Type} [CompleteLattice V]

/-- The value of a row, given the values of all nodes. -/
def Row.viewed (A : View V) (W : Nat → V) (row : Row) : V :=
  (⨆ t ∈ row.out, W t.2) ⊔ (⨆ c ∈ row.leaves, A.leave c) ⊔ A.heed (⨆ t ∈ row.thrown, W t.2)

/-- The value of a node, given the values of all nodes. -/
def Piece.viewed (A : View V) (d : Piece) (W : Nat → V) (u : Nat) : V :=
  match d.nodes[u]? with
  | some node => A.see node.content.events ((d.row u).viewed A W)
  | none => ⊥

theorem Piece.viewed_mono (A : View V) (d : Piece) : Monotone (d.viewed A) := by
  intro W W' h u
  unfold Piece.viewed
  split
  · -- the values of the targets enter through suprema only
    refine A.see_mono _ (sup_le_sup (sup_le_sup_right ?_ _) (A.heed_mono ?_))
    · exact iSup₂_mono fun t _ => h t.2
    · exact iSup₂_mono fun t _ => h t.2
  · exact le_rfl

theorem Piece.Shows.viewed_eq {A : View V} {d : Piece} {u : Nat} {node : Node} {row : Row}
    (h : d.Shows u node row) (W : Nat → V) :
    d.viewed A W u = A.see node.content.events
      ((⨆ t ∈ row.out, W t.2) ⊔ (⨆ c ∈ row.leaves, A.leave c) ⊔
        A.heed (⨆ t ∈ row.thrown, W t.2)) := by
  rw [Piece.viewed, h.node, h.row]
  rfl

/-! ## The value of a plan -/

mutual

/-- The value of a plan.  `next` is the value of what follows it, `loops` gives the values of the
ends of the loops around it, and `caught` the value of the handlers that watch over its first
node. -/
def Plan.view (A : View V) (flat : Bool) (next : V) (loops : List (V × V)) (caught : V) :
    Plan → V
  | .idle => next ⊔ A.heed caught
  | .block stmts => A.see (stmts.map .stmt) (next ⊔ A.heed caught)
  | .yield site => A.see [.stmt (.yield site)] (next ⊔ A.leave (.suspends site) ⊔ A.heed caught)
  | .jump before site means route =>
    A.see ((before ++ [Stmt.jump site means]).map .stmt)
      (route.view A flat loops site means ⊔ A.heed caught)
  | .raise site route =>
    A.see [.stmt (.jump site .raising)] (route.view A flat loops site .raising ⊔ A.heed caught)
  | .hold before header _ body =>
    A.see ((before ++ [header]).map .stmt) (body.view A flat next loops ⊥ ⊔ A.heed caught)
  | .seq first rest => first.view A flat (rest.view A flat next loops ⊥) loops caught
  | .branch test body rest =>
    A.see [.test test]
      (body.view A flat next loops ⊥ ⊔ rest.view A flat next loops ⊔ A.heed caught)
  | .loop header body orelse =>
    -- a round of the loop is viewed against the value at its head, which is the least one that a
    -- round does not raise
    least fun x =>
      A.see [.test header] (body.view A flat x ((x, next) :: loops) ⊥ ⊔
        orelse.view A flat next loops ⊔ A.heed caught)
  | .dispatch subject _ cases =>
    A.see [.test subject] (cases.view A flat next loops ⊔
      (if cases.exhaustive then ⊥ else next) ⊔ A.heed caught)
  | .attempt _ body handlers orelse final =>
    -- all clauses that complete go on with the `finally` clause
    let finish := final.view A flat next loops
    body.view A flat (orelse.view A flat finish loops) loops
      (handlers.view A flat finish loops ⊔ caught)

/-- The value of what follows the failed test of an `if`. -/
def Alternatives.view (A : View V) (flat : Bool) (next : V) (loops : List (V × V)) :
    Alternatives → V
  | .done => next
  | .otherwise body => body.view A flat next loops ⊥
  | .test header body rest =>
    A.see [.test header] (body.view A flat next loops ⊥ ⊔ rest.view A flat next loops)

/-- The value of the cases of a `match`.  In a chain an alternative that is not taken leads to the
next one; in the flat layout the subject leads to every alternative. -/
def Cases.view (A : View V) (flat : Bool) (next : V) (loops : List (V × V)) : Cases → V
  | .nil => next
  | .cons patterns catchAll body rest =>
    let body := body.view A flat next loops ⊥
    patterns.foldr
      (fun pattern x =>
        if flat then A.see [.caseTest pattern] body ⊔ x else A.see [.caseTest pattern] (body ⊔ x))
      (if catchAll then ⊥ else rest.view A flat next loops)

/-- The value of the handlers of a `try`. -/
def Handlers.view (A : View V) (flat : Bool) (next : V) (loops : List (V × V)) : Handlers → V
  | .nil => ⊥
  | .cons _ handler rest => handler.view A flat next loops ⊥ ⊔ rest.view A flat next loops

/-- The value of a clause that may be missing. -/
def Annex.view (A : View V) (flat : Bool) (next : V) (loops : List (V × V)) : Annex → V
  | .absent => next
  | .present _ body => body.view A flat next loops ⊥

/-- The value of a jump on its way out. -/
def Route.view (A : View V) (flat : Bool) (loops : List (V × V)) (site : Site) (means : Jump) :
    Route → V
  | .arrive =>
    match means with
    | .returning => A.leave (.returns site)
    | .raising => A.leave (.raises site)
    | .breaking => ⨆ ends ∈ loops.head?, ends.2
    | .continuing => ⨆ ends ∈ loops.head?, ends.1
  | .leaveLoop rest => rest.view A flat loops.tail site means
  | .release header _ _ rest =>
    A.see [.release header]
      (A.see [.stmt (.jump site means)] (rest.view A flat loops site means))
  | .replay _ _ body rest =>
    body.view A flat (A.see [.stmt (.jump site means)] (rest.view A flat loops site means)) loops ⊥
  -- nothing follows a copy that does not complete
  | .swallow _ body => body.view A flat ⊥ loops ⊥

end

mutual

/-- A plan is viewed monotonically. -/
theorem Plan.view_mono (A : View V) (flat : Bool) {next next' caught caught' : V}
    {loops loops' : List (V × V)} : (plan : Plan) → next ≤ next' →
      List.Forall₂ (· ≤ ·) loops loops' → caught ≤ caught' →
      plan.view A flat next loops caught ≤ plan.view A flat next' loops' caught'
  | .idle, hn, hl, hc => sup_le_sup hn (A.heed_mono hc)
  | .block stmts, hn, hl, hc => A.see_mono _ (sup_le_sup hn (A.heed_mono hc))
  | .yield site, hn, hl, hc =>
    A.see_mono _ (sup_le_sup (sup_le_sup_right hn _) (A.heed_mono hc))
  | .jump before site means route, hn, hl, hc =>
    A.see_mono _ (sup_le_sup (route.view_mono A flat site means hl) (A.heed_mono hc))
  | .raise site route, hn, hl, hc =>
    A.see_mono _ (sup_le_sup (route.view_mono A flat site .raising hl) (A.heed_mono hc))
  | .hold before header region body, hn, hl, hc =>
    A.see_mono _ (sup_le_sup (body.view_mono A flat hn hl le_rfl) (A.heed_mono hc))
  | .seq first rest, hn, hl, hc => first.view_mono A flat (rest.view_mono A flat hn hl le_rfl) hl hc
  | .branch test body rest, hn, hl, hc =>
    A.see_mono _ (sup_le_sup (sup_le_sup (body.view_mono A flat hn hl le_rfl)
      (rest.view_mono A flat hn hl)) (A.heed_mono hc))
  | .loop header body orelse, hn, hl, hc =>
    -- the value at the head is the same unknown on both sides
    least_mono fun x => A.see_mono _ (sup_le_sup (sup_le_sup
      (body.view_mono A flat le_rfl (.cons ⟨le_rfl, hn⟩ hl) le_rfl)
      (orelse.view_mono A flat hn hl)) (A.heed_mono hc))
  | .dispatch subject region cases, hn, hl, hc => by
    refine A.see_mono _ (sup_le_sup (sup_le_sup (cases.view_mono A flat hn hl) ?_) (A.heed_mono hc))
    split
    · exact le_rfl
    · exact hn
  | .attempt region body handlers orelse final, hn, hl, hc => by
    have hf := final.view_mono A flat hn hl
    exact body.view_mono A flat (orelse.view_mono A flat hf hl) hl
      (sup_le_sup (handlers.view_mono A flat hf hl) hc)

theorem Alternatives.view_mono (A : View V) (flat : Bool) {next next' : V}
    {loops loops' : List (V × V)} : (rest : Alternatives) → next ≤ next' →
      List.Forall₂ (· ≤ ·) loops loops' →
        rest.view A flat next loops ≤ rest.view A flat next' loops'
  | .done, hn, _ => hn
  | .otherwise body, hn, hl => body.view_mono A flat hn hl le_rfl
  | .test _ body rest, hn, hl =>
    A.see_mono _ (sup_le_sup (body.view_mono A flat hn hl le_rfl) (rest.view_mono A flat hn hl))

theorem Cases.view_mono (A : View V) (flat : Bool) {next next' : V}
    {loops loops' : List (V × V)} : (cases : Cases) → next ≤ next' →
      List.Forall₂ (· ≤ ·) loops loops' →
      cases.view A flat next loops ≤ cases.view A flat next' loops'
  | .nil, hn, hl => hn
  | .cons patterns catchAll body rest, hn, hl => by
    have hb := body.view_mono A flat hn hl (le_refl ⊥)
    have hr := rest.view_mono A flat hn hl
    simp only [Cases.view]
    -- the alternatives are viewed from the last one on
    induction patterns with
    | nil => cases catchAll <;> simp [hr]
    | cons pattern patterns ih =>
      simp only [List.foldr_cons]
      cases flat
      · exact A.see_mono _ (sup_le_sup hb ih)
      · exact sup_le_sup (A.see_mono _ hb) ih

theorem Handlers.view_mono (A : View V) (flat : Bool) {next next' : V}
    {loops loops' : List (V × V)} : (handlers : Handlers) → next ≤ next' →
      List.Forall₂ (· ≤ ·) loops loops' →
      handlers.view A flat next loops ≤ handlers.view A flat next' loops'
  | .nil, _, _ => le_rfl
  | .cons _ handler rest, hn, hl =>
    sup_le_sup (handler.view_mono A flat hn hl le_rfl) (rest.view_mono A flat hn hl)

theorem Annex.view_mono (A : View V) (flat : Bool) {next next' : V}
    {loops loops' : List (V × V)} : (annex : Annex) → next ≤ next' →
      List.Forall₂ (· ≤ ·) loops loops' →
        annex.view A flat next loops ≤ annex.view A flat next' loops'
  | .absent, hn, _ => hn
  | .present _ body, hn, hl => body.view_mono A flat hn hl le_rfl

theorem Route.view_mono (A : View V) (flat : Bool) (site : Site) (means : Jump)
    {loops loops' : List (V × V)} : (route : Route) → List.Forall₂ (· ≤ ·) loops loops' →
      route.view A flat loops site means ≤ route.view A flat loops' site means
  | .arrive, hl => by
    cases hl with
    | nil => exact le_rfl
    | cons h hl => cases means <;> simp [Route.view, h.1, h.2]
  | .leaveLoop rest, hl => by
    cases hl with
    | nil => exact le_rfl
    -- leaving a loop drops its ends
    | cons h hl => exact rest.view_mono A flat site means hl
  | .release header region outside rest, hl =>
    A.see_mono _ (A.see_mono _ (rest.view_mono A flat site means hl))
  | .replay final outside body rest, hl =>
    body.view_mono A flat (A.see_mono _ (rest.view_mono A flat site means hl)) hl le_rfl
  | .swallow final body, hl => body.view_mono A flat le_rfl hl le_rfl

end

/-- What follows a plan does not matter if control cannot reach its end. -/
theorem Plan.view_of_not_completes (A : View V) (flat : Bool) (next next' : V)
    (loops : List (V × V)) (caught : V) : (plan : Plan) → plan.completes = false →
      plan.view A flat next loops caught = plan.view A flat next' loops caught
  | .jump .., _ | .raise .., _ => rfl
  | .hold before header region body, h => by
    rw [view, view, body.view_of_not_completes A flat next next' loops ⊥ h]
  | .seq first rest, h => by
    rw [view, view, rest.view_of_not_completes A flat next next' loops ⊥ h]

/-! ## The least values of a drawing -/

namespace Env

@[simp] theorem flat_within (env : Env) (r : RegionId) : (env.within r).flat = env.flat := rfl

@[simp] theorem loops_within (env : Env) (r : RegionId) : (env.within r).loops = env.loops := rfl

@[simp] theorem flat_copy (env : Env) (r : RegionId) : (env.copy r).flat = env.flat := rfl

@[simp] theorem loops_copy (env : Env) (r : RegionId) : (env.copy r).loops = env.loops := rfl

@[simp] theorem flat_inLoop (env : Env) (ends : LoopEnds) : (env.inLoop ends).flat = env.flat := rfl

@[simp] theorem loops_inLoop (env : Env) (ends : LoopEnds) :
    (env.inLoop ends).loops = ends :: env.loops := rfl

@[simp] theorem flat_outsideLoop (env : Env) : env.outsideLoop.flat = env.flat := rfl

@[simp] theorem loops_outsideLoop (env : Env) : env.outsideLoop.loops = env.loops.tail := rfl

@[simp] theorem events_carryOn (env : Env) (r : RegionId) (site : Site) (means : Jump) :
    (env.carryOn r site means).content.events = [.stmt (.jump site means)] := by
  cases means <;> rfl

/-- The values of the ends of the loops around a place. -/
def ends (env : Env) (W : Nat → V) : List (V × V) :=
  env.loops.map fun ends => (W ends.head, W ends.exit)

end Env

theorem Env.ends_mono (env : Env) {W W' : Nat → V} (h : W ≤ W') :
    List.Forall₂ (· ≤ ·) (env.ends W) (env.ends W') := by
  rw [ends, ends, List.forall₂_map_left_iff, List.forall₂_map_right_iff]
  exact List.forall₂_same.2 fun ends _ => ⟨h ends.head, h ends.exit⟩

omit [CompleteLattice V] in
@[simp] theorem Env.ends_inLoop (env : Env) (ends : LoopEnds) (W : Nat → V) :
    (env.inLoop ends).ends W = (W ends.head, W ends.exit) :: env.ends W := rfl

/-- `Ψ` gives the nodes from `lo` to `hi` their values in `d`. -/
def Piece.ValuedBy (A : View V) (d : Piece) (Ψ : (Nat → V) → Nat → V) (lo hi : Nat) : Prop :=
  ∀ W u, lo ≤ u → u < hi → Ψ W u = d.viewed A W u

section Least

variable {A : View V} {d : Piece} {Ψ : (Nat → V) → Nat → V}

theorem Piece.ValuedBy.mono {lo hi lo' hi' : Nat} (h : d.ValuedBy A Ψ lo hi) (hlo : lo ≤ lo')
    (hhi : hi' ≤ hi) : d.ValuedBy A Ψ lo' hi' :=
  fun W u hu hu' => h W u (hlo.trans hu) (hu'.trans_le hhi)

/-- The value of a node in the least valuation. -/
theorem Piece.Shows.least_eq {lo hi u : Nat} {node : Node} {row : Row} (hs : d.Shows u node row)
    (hΨ : Monotone Ψ) (h : d.ValuedBy A Ψ lo hi) (hu : lo ≤ u) (hu' : u < hi) :
    least Ψ u = A.see node.content.events
      ((⨆ t ∈ row.out, least Ψ t.2) ⊔ (⨆ c ∈ row.leaves, A.leave c) ⊔
        A.heed (⨆ t ∈ row.thrown, least Ψ t.2)) := by
  rw [← hs.viewed_eq, ← h _ u hu hu', map_least hΨ]

/-- In a chain, the first alternative of a case is viewed through all of them. -/
theorem Piece.ShowsAlternatives.least_chain (hΨ : Monotone Ψ) {env : Env} {taken : Label × NodeId}
    {onward : List (Label × NodeId)} (pattern : Span) :
    ∀ (patterns : List Span) (base : Nat),
      d.ShowsAlternatives env true taken onward base (pattern :: patterns) →
      d.ValuedBy A Ψ base (base + (pattern :: patterns).length) →
      least Ψ base = (pattern :: patterns).foldr
        (fun pattern x => A.see [.caseTest pattern] (least Ψ taken.2 ⊔ x))
        (⨆ t ∈ onward, least Ψ t.2) := by
  intro patterns
  -- by induction on the alternatives after the first, each of which the one before leads to
  induction patterns generalizing pattern with
  | nil =>
    intro base hd hv
    rw [hd.least_eq hΨ hv le_rfl (by simp)]
    simp [iSup_or, iSup_sup_eq]
  | cons pattern' patterns ih =>
    intro base hd hv
    have hrest := ih pattern' (base + 1) hd.2 (hv.mono (by omega) (by simp; omega))
    rw [hd.1.least_eq hΨ hv le_rfl (by simp), List.foldr_cons, ← hrest]
    simp [iSup_or, iSup_sup_eq]

/-- In the flat layout, the alternatives of a case are viewed side by side. -/
theorem Piece.ShowsAlternatives.least_flat (hΨ : Monotone Ψ) {env : Env} {taken : Label × NodeId}
    (label : Label) (y : V) :
    ∀ (patterns : List Span) (base : Nat),
      d.ShowsAlternatives env false taken [] base patterns →
      d.ValuedBy A Ψ base (base + patterns.length) →
      (⨆ t ∈ (List.range' base patterns.length).map ((label, ·)), least Ψ t.2) ⊔ y =
        patterns.foldr (fun pattern x => A.see [.caseTest pattern] (least Ψ taken.2) ⊔ x) y := by
  intro patterns
  induction patterns with
  | nil => intro base _ _; simp
  | cons pattern patterns ih =>
    intro base hd hv
    -- no alternative leads to another, so the first one and the rest fall apart
    have hs : d.Shows base (env.node (.caseTest pattern)) ⟨[taken], [], []⟩ ∧
        d.ShowsAlternatives env false taken [] (base + 1) patterns := by
      cases patterns with
      | nil => exact ⟨hd, trivial⟩
      | cons pattern' patterns => exact hd
    have hrest := ih (base + 1) hs.2 (hv.mono (by omega) (by simp; omega))
    have hfirst : least Ψ base = A.see [.caseTest pattern] (least Ψ taken.2) := by
      rw [hs.1.least_eq hΨ hv le_rfl (by simp)]
      simp
    rw [List.foldr_cons, ← hrest, List.length_cons, List.range'_succ, List.map_cons, iSup_mem_cons,
      hfirst, sup_assoc]

/-- `Ψ` with the value of one node given. -/
def pin (Ψ : (Nat → V) → Nat → V) (u : Nat) (x : V) : (Nat → V) → Nat → V :=
  fun W => Function.update (Ψ W) u x

theorem pin_mono (hΨ : Monotone Ψ) (u : Nat) (x : V) : Monotone (pin Ψ u x) :=
  fun _ _ h => update_le_update_iff.2 ⟨le_rfl, fun v _ => hΨ h v⟩

theorem least_pin_self (hΨ : Monotone Ψ) (u : Nat) (x : V) : least (pin Ψ u x) u = x := by
  rw [← map_least (pin_mono hΨ u x), pin, Function.update_self]

theorem least_pin_le (hΨ : Monotone Ψ) {u : Nat} {x : V} (h : x ≤ least Ψ u) :
    least (pin Ψ u x) ≤ least Ψ := by
  refine least_le (update_le_iff.2 ⟨h, fun v _ => ?_⟩)
  rw [map_least hΨ]

theorem Piece.ValuedBy.pin {lo hi lo' hi' u : Nat} (h : d.ValuedBy A Ψ lo hi) (x : V)
    (hlo : lo ≤ lo') (hhi : hi' ≤ hi) (hu : u < lo' ∨ hi' ≤ u) :
    d.ValuedBy A (Flowgraph.pin Ψ u x) lo' hi' := by
  intro W v hv hv'
  rw [Flowgraph.pin, Function.update_of_ne (by omega)]
  exact h W v (by omega) (by omega)

/-- The value at the head of a loop is the least one that the loop does not raise, if `F` says how
the value at the head comes out when it is assumed to be `x`. -/
theorem least_head (hΨ : Monotone Ψ) {F : V → V} (hF : Monotone F) (u : Nat)
    (hfix : F (least Ψ u) = least Ψ u)
    (hpin : ∀ x ≤ least Ψ u, Ψ (least (pin Ψ u x)) u ≤ F x) : least Ψ u = least F := by
  refine le_antisymm (le_least fun y hy => ?_) (least_le hfix.le)
  -- it is enough to compare with a value below the one at the head
  have hx : F (y ⊓ least Ψ u) ≤ y ⊓ least Ψ u :=
    le_inf ((hF inf_le_left).trans hy) ((hF inf_le_right).trans hfix.le)
  -- with the head pinned, the other nodes only use values that the loop does not raise
  have hle : least Ψ ≤ least (pin Ψ u (y ⊓ least Ψ u)) := by
    refine least_le fun v => ?_
    by_cases hv : v = u
    · subst hv
      rw [least_pin_self hΨ]
      exact (hpin _ inf_le_right).trans hx
    · conv_rhs => rw [← map_least (pin_mono hΨ u _)]
      rw [pin, Function.update_of_ne hv]
  exact (hle u).trans ((least_pin_self hΨ u _).le.trans inf_le_left)

mutual

/-- The least value of the node where a plan begins is the value of the plan. -/
theorem Plan.least_entryAt {Ψ : (Nat → V) → Nat → V} (hΨ : Monotone Ψ) (env : Env) (base : Nat)
    (next handlers : List (Label × NodeId)) : (plan : Plan) →
      plan.Drawn d env base next handlers → d.ValuedBy A Ψ base (base + plan.size) →
      least Ψ (plan.entryAt base) =
        plan.view A env.flat (⨆ t ∈ next, least Ψ t.2) (env.ends (least Ψ))
          (⨆ t ∈ handlers, least Ψ t.2)
  | .idle, hd, hv => by
    rw [Plan.entryAt, hd.least_eq hΨ hv le_rfl (by simp [Plan.size])]
    simp [Plan.view]
  | .block stmts, hd, hv => by
    rw [Plan.entryAt, hd.least_eq hΨ hv le_rfl (by simp [Plan.size])]
    simp [Plan.view]
  | .yield site, hd, hv => by
    rw [Plan.entryAt, hd.least_eq hΨ hv le_rfl (by simp [Plan.size])]
    simp [Plan.view]
  | .jump before site means route, hd, hv => by
    have hr := route.least_out hΨ env (base + 1) site means hd.2
      (hv.mono (by omega) (by simp only [Plan.size]; omega))
    rw [Plan.entryAt, hd.1.least_eq hΨ hv le_rfl (by simp only [Plan.size]; omega), hr]
    simp [Plan.view]
  | .raise site route, hd, hv => by
    have hr := route.least_out hΨ env (base + 1) site .raising hd.2
      (hv.mono (by omega) (by simp only [Plan.size]; omega))
    rw [Plan.entryAt, hd.1.least_eq hΨ hv le_rfl (by simp only [Plan.size]; omega), hr]
    simp [Plan.view]
  | .hold before header region body, hd, hv => by
    have hb := body.least_entryAt hΨ (env.within region) (base + 1) next [] hd.2
      (hv.mono (by omega) (by simp only [Plan.size]; omega))
    rw [Plan.entryAt, hd.1.least_eq hΨ hv le_rfl (by simp only [Plan.size]; omega)]
    simp [Plan.view, hb, Env.ends]
  | .seq first rest, hd, hv => by
    simp only [Plan.size] at hv
    have hf := first.least_entryAt hΨ env base _ handlers hd.1 (hv.mono (by omega) (by omega))
    have hr := rest.least_entryAt hΨ env (base + first.size) next [] hd.2
      (hv.mono (by omega) (by omega))
    -- what follows the first part is the beginning of the rest
    simp only [List.mem_singleton, iSup_iSup_eq_left, List.not_mem_nil, iSup_false, iSup_bot]
      at hf hr
    rw [Plan.entryAt, hf, hr, Plan.view]
  | .branch test body rest, hd, hv => by
    obtain ⟨hs, hj, hbody, hrest⟩ := hd
    simp only [Plan.size] at hv
    -- both branches go on to the join, which has the value of what follows
    have hj := hj.least_eq hΨ hv (by omega) (by omega)
    have hb := body.least_entryAt hΨ env (base + 2) _ [] hbody (hv.mono (by omega) (by omega))
    have hr := rest.least_target hΨ env (base + 2 + body.size) (base + 1) hrest
      (hv.mono (by omega) (by omega))
    simp at hj hb
    rw [Plan.entryAt, hs.least_eq hΨ hv le_rfl (by omega)]
    simp [Plan.view, iSup_or, iSup_sup_eq, hb, hr, hj]
  | .loop header body orelse, hd, hv => by
    obtain ⟨hs, hj, hbody, horelse⟩ := hd
    simp only [Plan.size] at hv
    have hj := hj.least_eq hΨ hv (by omega) (by omega)
    simp at hj
    -- the value at the test is the least one that a round of the loop does not raise
    refine least_head hΨ (fun x y hxy => ?_) base ?_ fun x hx => ?_
    · exact A.see_mono _ (sup_le_sup_right (sup_le_sup_right
        (body.view_mono A _ hxy (.cons (Prod.mk_le_mk.2 ⟨hxy, le_rfl⟩) (List.forall₂_refl _))
          le_rfl) _) _)
    · -- a round that starts with that value does not raise it
      have hb := body.least_entryAt hΨ (env.inLoop ⟨base, base + 1⟩) (base + 2) _ [] hbody
        (hv.mono (by omega) (by omega))
      have ho := orelse.least_target hΨ env (base + 2 + body.size) (base + 1) .always horelse
        (hv.mono (by omega) (by omega))
      simp [Env.ends, hj] at hb ho
      conv_rhs => rw [hs.least_eq hΨ hv le_rfl (by omega)]
      simp [iSup_or, iSup_sup_eq, hb, ho, Env.ends]
    · -- with the value at the test given, the body is viewed against that value
      have hle := least_pin_le hΨ hx
      have hb := body.least_entryAt (pin_mono hΨ base x) (env.inLoop ⟨base, base + 1⟩) (base + 2)
        _ [] hbody (hv.pin x (by omega) (by omega) (by omega))
      have ho := orelse.least_target (pin_mono hΨ base x) env (base + 2 + body.size) (base + 1)
        .always horelse (hv.pin x (by omega) (by omega) (by omega))
      have hl := env.ends_mono hle
      have hnext := (hle (base + 1)).trans hj.le
      simp [least_pin_self hΨ] at hb
      rw [hv _ base le_rfl (by omega), hs.viewed_eq]
      simp only [Env.content_node, Content.events_test, iSup_mem_cons,
        iSup_mem_nil, sup_bot_eq, hb, ho]
      exact A.see_mono _ (sup_le_sup (sup_le_sup
        (body.view_mono A _ le_rfl (.cons (Prod.mk_le_mk.2 ⟨le_rfl, hnext⟩) hl) le_rfl)
        (orelse.view_mono A _ hnext hl)) (A.heed_mono (iSup₂_mono fun t _ => hle t.2)))
  | .dispatch subject region cases, hd, hv => by
    obtain ⟨hs, hj, hcases⟩ := hd
    simp only [Plan.size] at hv
    have hj := hj.least_eq hΨ hv (by omega) (by omega)
    have hc := cases.least_offered hΨ (env.within region) (base + 2) (base + 1) 0 .always hcases
      (hv.mono (by omega) (by omega))
    simp at hj
    rw [Plan.entryAt, hs.least_eq hΨ hv le_rfl (by omega)]
    simp only [Env.flat_within] at hc
    cases he : cases.exhaustive <;>
      simp [Plan.view, he, iSup_or, iSup_sup_eq, hc, hj, Env.ends]
  | .attempt region body handlers' orelse final, hd, hv => by
    obtain ⟨hj, hbody, hhandlers, horelse, hfinal⟩ := hd
    simp only [Plan.size] at hv
    have hj := hj.least_eq hΨ hv (by omega) (by omega)
    -- from the end of the statement backwards: the `finally` clause, the `else` clause, the
    -- handlers, and then the body, which goes on to the one and is watched over by the others
    have hf := final.least_target hΨ env (base + 1 + body.size + handlers'.size + orelse.size) base
      .always hfinal (hv.mono (by omega) (by omega))
    have ho := orelse.least_target hΨ env (base + 1 + body.size + handlers'.size) _ .always horelse
      (hv.mono (by omega) (by omega))
    have hh := handlers'.least_entries hΨ env (base + 1 + body.size) 0 _ hhandlers
      (hv.mono (by omega) (by omega))
    have hb := body.least_entryAt hΨ (env.within region) (base + 1) _ _ hbody
      (hv.mono (by omega) (by omega))
    simp at hj
    rw [hf] at ho
    simp [Annex.snd_bridge, iSup_or, iSup_sup_eq, hh, ho, hf] at hb
    rw [Plan.entryAt, hb]
    simp [Plan.view, hj, Env.ends]

/-- What is seen when a test of an `if` fails. -/
theorem Alternatives.least_target {Ψ : (Nat → V) → Nat → V} (hΨ : Monotone Ψ) (env : Env)
    (base join : Nat) : (rest : Alternatives) → rest.Drawn d env base join →
      d.ValuedBy A Ψ base (base + rest.size) →
      least Ψ (rest.target base join) =
        rest.view A env.flat (least Ψ join) (env.ends (least Ψ))
  | .done, _, _ => rfl
  | .otherwise body, hd, hv => by
    have hb := body.least_entryAt hΨ env base _ [] hd hv
    simpa [Alternatives.target, Alternatives.view] using hb
  | .test header body rest, hd, hv => by
    obtain ⟨hs, hbody, hrest⟩ := hd
    simp only [Alternatives.size] at hv
    have hb := body.least_entryAt hΨ env (base + 1) _ [] hbody (hv.mono (by omega) (by omega))
    have hr := rest.least_target hΨ env (base + 1 + body.size) join hrest
      (hv.mono (by omega) (by omega))
    simp at hb
    rw [Alternatives.target, hs.least_eq hΨ hv le_rfl (by omega)]
    simp [Alternatives.view, iSup_or, iSup_sup_eq, hb, hr]

/-- What is seen when the cases of a `match` are tried. -/
theorem Cases.least_offered {Ψ : (Nat → V) → Nat → V} (hΨ : Monotone Ψ) (env : Env)
    (base join index : Nat) (label : Label) : (cases : Cases) →
      cases.Drawn d env base join index true → d.ValuedBy A Ψ base (base + cases.size) →
      ⨆ t ∈ cases.offered env.flat label base join, least Ψ t.2 =
        cases.view A env.flat (least Ψ join) (env.ends (least Ψ))
  | .nil, _, _ => by simp [Cases.offered, Cases.view]
  | .cons patterns catchAll body rest, hd, hv => by
    obtain ⟨ha, hbody, hrest⟩ := hd
    simp only [Cases.size] at hv
    have hb := body.least_entryAt hΨ env (base + patterns.length) _ [] hbody
      (hv.mono (by omega) (by omega))
    -- the cases after this one, unless it accepts every subject
    have hr : ∀ label, catchAll = false →
        ⨆ t ∈ rest.offered env.flat label (base + patterns.length + body.size) join, least Ψ t.2 =
          rest.view A env.flat (least Ψ join) (env.ends (least Ψ)) := by
      rintro label rfl
      exact rest.least_offered hΨ env _ join (index + 1) label hrest (hv.mono (by omega) (by omega))
    simp at hb
    simp only [Cases.offered, Cases.view, ← hb]
    cases hf : env.flat with
    -- the flat layout: all alternatives side by side
    | true =>
      simp only [hf, Bool.not_true, Bool.false_and, Bool.false_eq_true, if_false] at ha
      have hflat := fun y => Piece.ShowsAlternatives.least_flat hΨ label y patterns base ha
        (hv.mono le_rfl (by omega))
      simp only [hf] at hr
      simp only [if_true, List.mem_append, iSup_or, iSup_sup_eq, hflat]
      cases catchAll with
      | true => simp
      | false => simp [hr]
    -- the chain: the first alternative, or the next case if there is none
    | false =>
      simp only [hf, Bool.not_false, Bool.true_and] at ha hr
      cases patterns with
      | nil =>
        cases catchAll with
        | true => simp
        | false => simpa using hr label rfl
      | cons pattern patterns =>
        have hchain := Piece.ShowsAlternatives.least_chain hΨ pattern patterns base ha
          (hv.mono le_rfl (by omega))
        cases catchAll with
        | true => simpa using hchain
        | false => simpa [← hr .noMatch rfl] using hchain

/-- What is seen at the handlers of a `try`. -/
theorem Handlers.least_entries {Ψ : (Nat → V) → Nat → V} (hΨ : Monotone Ψ) (env : Env)
    (base index : Nat) (next : List (Label × NodeId)) : (handlers : Handlers) →
      handlers.Drawn d env base next → d.ValuedBy A Ψ base (base + handlers.size) →
      ⨆ t ∈ handlers.entries base index, least Ψ t.2 =
        handlers.view A env.flat (⨆ t ∈ next, least Ψ t.2) (env.ends (least Ψ))
  | .nil, _, _ => by simp [Handlers.entries, Handlers.view]
  | .cons region handler rest, hd, hv => by
    simp only [Handlers.size] at hv
    have hb := handler.least_entryAt hΨ (env.within region) base next [] hd.1
      (hv.mono (by omega) (by omega))
    have hr := rest.least_entries hΨ env (base + handler.size) (index + 1) next hd.2
      (hv.mono (by omega) (by omega))
    simp [Handlers.entries, Handlers.view, iSup_or, iSup_sup_eq, hb, hr, Env.ends]

/-- What is seen at a clause that may be missing. -/
theorem Annex.least_target {Ψ : (Nat → V) → Nat → V} (hΨ : Monotone Ψ) (env : Env)
    (base otherwise : Nat) (label : Label) : (annex : Annex) →
      annex.Drawn d env base [(label, otherwise)] → d.ValuedBy A Ψ base (base + annex.size) →
      least Ψ (annex.target base otherwise) =
        annex.view A env.flat (least Ψ otherwise) (env.ends (least Ψ))
  | .absent, _, _ => rfl
  | .present region body, hd, hv => by
    have hb := body.least_entryAt hΨ (env.within region) base _ [] hd hv
    simpa [Annex.target, Annex.view, Env.ends] using hb

/-- What is seen along a jump on its way out. -/
theorem Route.least_out {Ψ : (Nat → V) → Nat → V} (hΨ : Monotone Ψ) (env : Env) (base : Nat)
    (site : Site) (means : Jump) : (route : Route) → route.Drawn d env base site means →
      d.ValuedBy A Ψ base (base + route.size) →
      (⨆ t ∈ route.out env.loops means base, least Ψ t.2) ⊔
          ⨆ c ∈ route.leaves site means, A.leave c =
        route.view A env.flat (env.ends (least Ψ)) site means
  | .arrive, _, _ => by
    cases means <;> cases h : env.loops <;>
      simp [Route.out, Route.leaves, Route.view, Env.ends, h]
  | .leaveLoop rest, hd, hv => by
    have hr := rest.least_out hΨ env.outsideLoop base site means hd hv
    simpa [Route.out, Route.leaves, Route.view, Env.ends, List.map_tail] using hr
  | .release header region outside rest, hd, hv => by
    obtain ⟨hs, hs', hrest⟩ := hd
    simp only [Route.size] at hv
    -- the release, and then the jump carried out again
    have hr := rest.least_out hΨ env (base + 2) site means hrest (hv.mono (by omega) (by omega))
    have h1 := hs'.least_eq hΨ hv (by omega) (by omega)
    have h0 := hs.least_eq hΨ hv (by omega) (by omega)
    rw [hr] at h1
    simp at h0 h1
    simp [Route.out, Route.leaves, Route.view, h0, h1]
  | .replay final outside body rest, hd, hv => by
    have hb := body.least_entryAt hΨ (env.copy final) base _ [] hd.1
      (hv.mono (by omega) (by simp only [Route.size]; omega))
    simp [Env.ends] at hb
    simp [Route.out, Route.leaves, Route.view, hb]
    cases hc : body.completes with
    -- a clause that does not complete never goes on with the jump
    | false => exact body.view_of_not_completes A _ _ _ _ _ hc
    | true =>
      simp only [Route.size, hc, if_true] at hv
      obtain ⟨hs, hrest⟩ := hd.2 hc
      have hr := rest.least_out hΨ env (base + body.size + 1) site means hrest
        (hv.mono (by omega) (by omega))
      have hn := hs.least_eq hΨ hv (by omega) (by omega)
      rw [hr] at hn
      simp at hn
      rw [hn]
      rfl
  | .swallow final body, hd, hv => by
    have hb := body.least_entryAt hΨ (env.copy final) base [] [] hd hv
    simpa [Route.out, Route.leaves, Route.view, Env.ends] using hb

end

end Least

/-- The least value of the entry of a function is the value of the plan of its body. -/
theorem Plan.DrawnWhole.least_zero {d : Piece} {flat : Bool} {plan : Plan}
    (h : plan.DrawnWhole d flat) (A : View V) :
    least (d.viewed A) 0 = plan.view A flat (A.leave .fallsThrough) [] ⊥ := by
  have hv : d.ValuedBy A (d.viewed A) 0 (plan.size + 2) := fun _ _ _ _ => rfl
  have hm := d.viewed_mono A
  have hb := plan.least_entryAt hm _ 1 _ _ h.body (hv.mono (by omega) (by omega))
  have he := h.exit.least_eq hm hv (by omega) (by omega)
  rw [h.entry.least_eq hm hv (by omega) (by omega)]
  simp at hb he
  simp [hb, he, Env.ends, Env.ofFunction]

end Flowgraph
