import Flowgraph.Proofs.Construction
import Flowgraph.Proofs.Stack

/-!
# The stack is balanced

Whatever is built with a stack of scopes leaves the stack as it was, unless it fails: what is pushed
is popped, and what is taken off is put back.  The same is true of the region of new nodes and of
the mark of copies.  So a body is built as a job that carries its scopes with it, and the bodies
inside it are the jobs that the job calls for.

A body is therefore built by bodies that are lighter, and the guard in the definition of the
construction is never met.  A jump finds every scope that it asks for, because its way out is a
suffix of the stack.

## Main definitions

* `Building.Tracks` : a computation does at a draft what another one does to its graph.
* `Building.Performs` : a body is built as a job.

## Main results

* `Building.Tracks.bind`, `Building.Tracks.inside`, `Building.Tracks.outside` : how computations on
  a draft are put together.
* `Building.tracks_step`, `Building.tracks_run` : a body is built as a job, and leaves the stack as
  it was.
* `Building.run_eq_step` : building a body builds the bodies inside it in the same way.
* `Building.tracks_function` : a function leaves the stack empty.
* `Graph.assemble_eq_ofBody` : the graph that is built with a stack is the graph that is planned.
-/

namespace Flowgraph

open Making

/-- Builds the clauses of a `try` that its `finally` clause watches over. -/
def Job.guarded (call : Job → Making Fragment) (t : Job) (site : Site) (whole : RegionId)
    (body : List Stmt) (list : List Handler) (orelse : List Stmt) :
    Making (NodeId × List NodeId) := do
  let region ← t.part site .body
  let built ← { t with region, body }.required call site
  let handled ← t.handlers call site built.entry 0 list
  let completed ← t.afterBody call whole built.exit orelse
  return (built.entry, completed.toList ++ handled)

theorem Job.attempt_eq (call : Job → Making Fragment) (t : Job) (site : Site) (body : List Stmt)
    (list : List Handler) (orelse final : List Stmt) :
    t.attempt call site body list orelse final = do
      settle (rejectIf (attemptFault? site list orelse final))
      let whole ← t.part site .whole
      let join ← newNode (t.env.node .join)
      let clause ← settle (t.clauseRegion site final)
      let (entry, completed) ←
        (t.watched whole final clause).guarded call site whole body list orelse
      let target ← t.beforeJoin call join final clause
      completed.forM fun u => connect u target .always
      return ⟨entry, some join⟩ := by
  have hpart : ∀ whole clause,
      (t.watched whole final clause).part site .body = t.part site .body := by
    intro whole clause
    cases clause <;> rfl
  simp only [attempt, guarded, hpart, bind_assoc, pure_bind]

namespace Building

/-! ## Computations on a draft and on its graph -/

section Tracks

variable {α β : Type} {s : Draft} {x x' : Building α} {y : Making α}

/-- At the draft `s` the first two computations do the same, and to the graph they do what the third
one does.  Unless they fail, they leave everything else as it was. -/
def Tracks (s : Draft) (x x' : Building α) (y : Making α) : Prop :=
  x s = x' s ∧
    match y s.made with
    | .ok a p => x s = .ok a { s with made := p }
    | .error failure p => ∃ t, x s = .error failure t ∧ t.made = p

theorem Tracks.of_ok {a : α} {p : Piece} (h : Tracks s x x' y) (hy : y s.made = .ok a p) :
    x s = .ok a { s with made := p } := by
  have h := h.2
  rwa [hy] at h

theorem Tracks.of_error {failure : Failure} {p : Piece} (h : Tracks s x x' y)
    (hy : y s.made = .error failure p) : ∃ t, x s = .error failure t ∧ t.made = p := by
  have h := h.2
  rwa [hy] at h

theorem tracks_of_ok {a : α} {p : Piece} (hy : y s.made = .ok a p)
    (hx : x s = .ok a { s with made := p }) (hx' : x' s = .ok a { s with made := p }) :
    Tracks s x x' y := by
  refine ⟨hx.trans hx'.symm, ?_⟩
  rw [hy]
  exact hx

theorem tracks_of_error {failure : Failure} {p : Piece} {t : Draft}
    (hy : y s.made = .error failure p) (hx : x s = .error failure t) (hx' : x' s = .error failure t)
    (ht : t.made = p) : Tracks s x x' y := by
  refine ⟨hx.trans hx'.symm, ?_⟩
  rw [hy]
  exact ⟨t, hx, ht⟩

theorem Tracks.congr {z z' : Building α} (h : Tracks s x x' y) (hz : z s = x s)
    (hz' : z' s = x' s) : Tracks s z z' y := by
  simpa only [Tracks, hz, hz'] using h

/-- Computations that follow one another. -/
theorem Tracks.bind {f f' : α → Building β} {g : α → Making β} (h : Tracks s x x' y)
    (hf : ∀ a p, y s.made = .ok a p → Tracks { s with made := p } (f a) (f' a) (g a)) :
    Tracks s (x >>= f) (x' >>= f') (y >>= g) := by
  cases hy : y s.made with
  | ok a p =>
    have hx := h.of_ok hy
    -- the second step begins at the draft that the first one leaves
    rw [Tracks, bind_apply_of_ok hy, bind_apply_of_ok hx, bind_apply_of_ok (h.1 ▸ hx)]
    exact hf a p hy
  | error failure p =>
    obtain ⟨t, hx, ht⟩ := h.of_error hy
    exact tracks_of_error (bind_apply_of_error hy) (bind_apply_of_error hx)
      (bind_apply_of_error (h.1 ▸ hx)) ht

theorem tracks_pure (a : α) : Tracks s (pure a) (pure a) (pure a) :=
  tracks_of_ok rfl rfl rfl

theorem Tracks.foldlM {f f' : β → α → Building β} {g : β → α → Making β} {xs : List α}
    (h : ∀ a ∈ xs, ∀ b p, Tracks { s with made := p } (f b a) (f' b a) (g b a)) (b : β)
    (p : Piece) : Tracks { s with made := p } (xs.foldlM f b) (xs.foldlM f' b) (xs.foldlM g b) := by
  induction xs generalizing b p with
  | nil => exact tracks_pure b
  | cons a xs ih =>
    rw [List.foldlM_cons, List.foldlM_cons, List.foldlM_cons]
    exact (h a List.mem_cons_self b p).bind fun b q _ =>
      ih (fun a ha => h a (List.mem_cons_of_mem _ ha)) b q

/-- What changes nothing but the graph. -/
theorem tracks_make (y : Making α) : Tracks s (make y) (make y) y := by
  cases hy : y s.made with
  | ok a p =>
    have hx : make y s = .ok a { s with made := p } := by rw [make, hy]
    exact tracks_of_ok hy hx hx
  | error failure p =>
    have hx : make y s = .error failure { s with made := p } := by rw [make, hy]
    exact tracks_of_error hy hx hx rfl

/-- What a job at the spot adds to the graph. -/
theorem tracks_onSpot (F : Job → Making α) : Tracks s (onSpot F) (onSpot F) (F (s.job [])) :=
  tracks_make (F (s.job []))

/-- What is done at another spot, if the way there and back is the same. -/
theorem Tracks.moved {t : Draft} {back : Draft → Draft} {z z' : Building α}
    (h : Tracks t x x' y) (hmade : t.made = s.made) (hz : z s = leaving back (x t))
    (hz' : z' s = leaving back (x' t))
    (hback : ∀ p, back { t with made := p } = { s with made := p })
    (hkeep : ∀ u, (back u).made = u.made) : Tracks s z z' y := by
  cases hy : y s.made with
  | ok a p =>
    have hx := h.of_ok (hmade ▸ hy)
    rw [← h.1, hx, leaving, hback] at hz'
    rw [hx, leaving, hback] at hz
    exact tracks_of_ok hy hz hz'
  | error failure p =>
    obtain ⟨u, hx, hu⟩ := h.of_error (hmade ▸ hy)
    rw [← h.1, hx, leaving] at hz'
    rw [hx, leaving] at hz
    exact tracks_of_error hy hz hz' ((hkeep u).trans hu)

theorem Tracks.within {region : RegionId} (h : Tracks { s with region } x x' y) :
    Tracks s (within region x) (within region x') y :=
  h.moved rfl rfl rfl (fun _ => rfl) fun _ => rfl

theorem Tracks.copying (h : Tracks { s with duplicate := true } x x' y) :
    Tracks s (copying x) (copying x') y :=
  h.moved rfl rfl rfl (fun _ => rfl) fun _ => rfl

theorem push_bind (scope : Scope) (f : Unit → Building α) (s : Draft) :
    (push scope >>= f) s = f () { s with scopes := scope :: s.scopes } := rfl

theorem inside_of_ok {scope : Scope} {a : α} {t : Draft}
    (h : x { s with scopes := scope :: s.scopes } = .ok a t) :
    inside scope x s = .ok a { t with scopes := t.scopes.tail } := by
  rw [inside, push_bind, bind_apply_of_ok h]
  rfl

/-- After a failure the scope stays on the stack. -/
theorem inside_of_error {scope : Scope} {failure : Failure} {t : Draft}
    (h : x { s with scopes := scope :: s.scopes } = .error failure t) :
    inside scope x s = .error failure t := by
  rw [inside, push_bind, bind_apply_of_error h]

/-- The scope that was pushed is on top of the stack when it is popped. -/
theorem Tracks.inside {scope : Scope} (h : Tracks { s with scopes := scope :: s.scopes } x x' y) :
    Tracks s (inside scope x) (inside scope x') y := by
  cases hy : y s.made with
  | ok a p =>
    have hx := h.of_ok hy
    exact tracks_of_ok hy (inside_of_ok hx) (inside_of_ok (h.1 ▸ hx))
  | error failure p =>
    obtain ⟨t, hx, ht⟩ := h.of_error hy
    exact tracks_of_error hy (inside_of_error hx) (inside_of_error (h.1 ▸ hx)) ht

/-- The inner scopes are put back on the outer ones. -/
theorem Tracks.outside {inner outer : List Scope} (hs : s.scopes = inner ++ outer)
    (h : Tracks { s with scopes := outer } x x' y) :
    Tracks s (outside outer.length x) (outside outer.length x') y := by
  have hlength : s.scopes.length - outer.length = inner.length := by
    rw [hs, List.length_append, Nat.add_sub_cancel]
  have hdrop : s.scopes.drop inner.length = outer := by rw [hs, List.drop_left]
  have htake : s.scopes.take inner.length = inner := by rw [hs, List.take_left]
  have houtside : ∀ x : Building α, Building.outside outer.length x s =
      leaving (fun t => { t with scopes := inner ++ t.scopes }) (x { s with scopes := outer }) := by
    intro x
    rw [Building.outside, hlength, hdrop, htake]
  refine h.moved rfl (houtside x) (houtside x') (fun p => ?_) fun _ => rfl
  rw [← hs]

/-- A jump finds the innermost of the scopes that it has yet to leave. -/
theorem scopeAt_apply {inner outer : List Scope} {scope : Scope}
    (hs : s.scopes = inner ++ scope :: outer) : scopeAt outer.length s = .ok scope s := by
  have hget : s.scopes.reverse[outer.length]? = some scope := by
    rw [hs, List.reverse_append, List.reverse_cons, List.append_assoc,
      List.getElem?_append_right (by simp)]
    simp
  rw [scopeAt, hget]

theorem Tracks.scopeAt {inner outer : List Scope} {scope : Scope} {f f' : Scope → Building α}
    (hs : s.scopes = inner ++ scope :: outer) (h : Tracks s (f scope) (f' scope) y) :
    Tracks s (scopeAt outer.length >>= f) (scopeAt outer.length >>= f') y :=
  h.congr (bind_apply_of_ok (scopeAt_apply hs)) (bind_apply_of_ok (scopeAt_apply hs))

theorem Tracks.depth {f f' : Nat → Building α}
    (h : Tracks s (f s.scopes.length) (f' s.scopes.length) y) :
    Tracks s (depth >>= f) (depth >>= f') y :=
  h

end Tracks

/-! ## Bodies are built as jobs -/

/-- Wherever the job stands, its body is built in the same way by the two functions, and as the job
is done. -/
def Performs (call call' : List Stmt → Building Fragment) (f : Job → Making Fragment) (t : Job) :
    Prop :=
  ∀ s : Draft, s.job t.body = t → Tracks s (call t.body) (call' t.body) (f t)

section Step

variable {call call' : List Stmt → Building Fragment} {f : Job → Making Fragment} {s : Draft}
  {owner : List Stmt}

theorem tracks_required {body : List Stmt} (h : Performs call call' f (s.job body)) (site : Site) :
    Tracks s (required call site body) (required call' site body)
      ((s.job body).required f site) := by
  cases body with
  | nil => exact tracks_make (settle (.error (.rejected (.ofSite .emptyBody site))))
  | cons first rest => exact h s rfl

theorem tracks_arm {body : List Stmt} (h : Performs call call' f (s.job body)) (site : Site)
    (source : NodeId) (label : Label) (join : NodeId) :
    Tracks s (arm call site source label body join) (arm call' site source label body join)
      ((s.job owner).arm f site source label body join) := by
  refine (tracks_required h site).bind fun built p _ => ?_
  exact (tracks_make _).bind fun _ _ _ => tracks_make _

variable (owner) in
theorem tracks_makeNode (content : Content) :
    Tracks s (makeNode content) (makeNode content) (newNode ((s.job owner).env.node content)) :=
  tracks_onSpot _

variable (owner) in
theorem tracks_part (site : Site) (part : Part) :
    Tracks s (Building.part site part) (Building.part site part) ((s.job owner).part site part) :=
  tracks_onSpot _

theorem tracks_clauses (site : Site) (join : NodeId) {rest : List BranchClause}
    (h : ∀ clause ∈ rest, Performs call call' f (s.job clause.body)) (test : NodeId)
    (hasElse : Bool) :
    Tracks s (clauses call site join test hasElse rest) (clauses call' site join test hasElse rest)
      ((s.job owner).clauses f site join test hasElse rest) := by
  induction rest generalizing s test hasElse with
  | nil =>
    cases hasElse with
    | true => exact tracks_pure ()
    | false => exact tracks_make (connect test join .no)
  | cons clause rest ih =>
    have hbody := h clause List.mem_cons_self
    have hrest := fun clause hc => h clause (List.mem_cons_of_mem _ hc)
    obtain ⟨_, _ | header, body⟩ := clause
    · exact (tracks_arm hbody site test .no join).bind fun _ p _ =>
        ih (s := { s with made := p }) hrest test true
    · refine (tracks_makeNode owner _).bind fun next p _ => (tracks_make _).bind fun _ q _ => ?_
      exact (tracks_arm (s := { s with made := q }) hbody site next .yes join).bind fun _ r _ =>
        ih (s := { s with made := r }) hrest next hasElse

theorem tracks_branch {site : Site} {test : Span} {body : List Stmt} {rest : List BranchClause}
    (hx : .branch site test body rest ∈ owner)
    (hcalls : ∀ t, (s.job owner).Calls t → Performs call call' f t) :
    Tracks s (branch call site test body rest) (branch call' site test body rest)
      ((s.job owner).branch f site test body rest) := by
  refine (tracks_make _).bind fun _ _ _ => (tracks_makeNode owner _).bind fun head _ _ =>
    (tracks_makeNode owner _).bind fun join p _ => ?_
  refine (tracks_arm (s := { s with made := p }) (hcalls _ (.arm hx)) site head .yes join).bind
    fun _ q _ => ?_
  exact (tracks_clauses (s := { s with made := q }) site join
    (fun clause hc => hcalls _ (.clause hx hc)) head false).bind fun _ _ _ => tracks_pure _

theorem tracks_afterLoop (site : Site) (guard after : NodeId) {orelse : List Stmt}
    (h : ∀ region, Performs call call' f ({ s with region }.job orelse)) :
    Tracks s (afterLoop call site guard after orelse) (afterLoop call' site guard after orelse)
      ((s.job owner).afterLoop f site guard after orelse) := by
  rw [afterLoop, afterLoop, Job.afterLoop]
  split
  · exact tracks_make _
  · refine (tracks_part owner site .orelse).bind fun region p _ => ?_
    refine (Tracks.within (h region { s with region, made := p } rfl)).bind fun built _ _ => ?_
    exact (tracks_make _).bind fun _ _ _ => tracks_make _

theorem tracks_loop {site : Site} {head : LoopHead} {body orelse : List Stmt}
    (hx : .loop site head body orelse ∈ owner)
    (hcalls : ∀ t, (s.job owner).Calls t → Performs call call' f t) :
    Tracks s (loop call site head.span body orelse) (loop call' site head.span body orelse)
      ((s.job owner).loop f site head.span body orelse) := by
  refine (tracks_makeNode owner _).bind fun guard _ _ =>
    (tracks_makeNode owner _).bind fun after p _ => ?_
  -- the body is built inside the loop, its `else` clause is not
  have hbody := tracks_required
    (s := { s with scopes := .loop ⟨guard, after⟩ :: s.scopes, made := p })
    (hcalls _ (.loop hx ⟨guard, after⟩)) site
  refine (Tracks.inside (s := { s with made := p }) hbody).bind fun built _ _ =>
    (tracks_make _).bind fun _ _ _ => (tracks_make _).bind fun _ q _ => ?_
  exact (tracks_afterLoop (s := { s with made := q }) site guard after
    fun region => hcalls _ (.afterLoop hx region)).bind fun _ _ _ => tracks_pure _

/-- The alternatives of a case are tested at the same spot, whatever body is built there. -/
theorem tracks_alternatives (dispatch body : NodeId) (index : Nat) (previous : Option NodeId)
    (tests : List NodeId) :
    Tracks s (onSpot (·.alternatives dispatch body index previous tests))
      (onSpot (·.alternatives dispatch body index previous tests))
      ((s.job owner).alternatives dispatch body index previous tests) := by
  have heq : (s.job owner).alternatives dispatch body index previous tests =
      (s.job []).alternatives dispatch body index previous tests := by
    induction tests generalizing previous with
    | nil => cases previous <;> rfl
    | cons test tests ih =>
      cases previous with
      | none => exact congrArg (connect test body (.case index) >>= fun _ => ·) (ih none)
      | some previous =>
        simp only [Job.alternatives, ih]
        rfl
  rw [heq]
  exact tracks_onSpot _

theorem tracks_cases (site : Site) (dispatch join : NodeId) {list : List MatchCase}
    (h : ∀ case ∈ list, Performs call call' f (s.job case.body)) (index : Nat)
    (previous : Option NodeId) :
    Tracks s (cases call site dispatch join index previous list)
      (cases call' site dispatch join index previous list)
      ((s.job owner).cases f site dispatch join index previous list) := by
  induction list generalizing s index previous with
  | nil =>
    cases previous with
    | none => exact tracks_pure ()
    | some last =>
      exact (tracks_make (connect dispatch join .noMatch)).bind fun _ _ _ =>
        tracks_make (connect last join .noMatch)
  | cons case list ih =>
    have hbody := h case List.mem_cons_self
    have hrest := fun case hc => h case (List.mem_cons_of_mem _ hc)
    obtain ⟨_, head, body⟩ := case
    refine (tracks_onSpot _).bind fun tests p _ => ?_
    refine (tracks_required (s := { s with made := p }) hbody site).bind fun built _ _ =>
      (tracks_make _).bind fun _ _ _ => ?_
    exact (tracks_alternatives dispatch built.entry index previous tests).bind fun previous q _ =>
      ih (s := { s with made := q }) hrest (index + 1) _

theorem tracks_dispatch {site : Site} {subject : Span} {list : List MatchCase}
    (hx : .dispatch site subject list ∈ owner)
    (hcalls : ∀ t, (s.job owner).Calls t → Performs call call' f t) :
    Tracks s (dispatch call site subject list) (dispatch call' site subject list)
      ((s.job owner).dispatch f site subject list) := by
  refine (tracks_make _).bind fun _ _ _ => (tracks_makeNode owner _).bind fun dispatch _ _ =>
    (tracks_makeNode owner _).bind fun join _ _ =>
    (tracks_part owner site .whole).bind fun region p _ => ?_
  exact (Tracks.within (s := { s with made := p }) (tracks_cases site dispatch join
    (fun case hc => hcalls _ (.case hx hc region)) 0 (some dispatch))).bind fun _ _ _ =>
      tracks_pure _

/-- Handlers have regions of their own, so the region that they are built from does not matter. -/
theorem tracks_handlers (site : Site) (entry : NodeId) {list : List Handler}
    (h : ∀ handler ∈ list, ∀ region, Performs call call' f ({ s with region }.job handler.body))
    (region : RegionId) (index : Nat) :
    Tracks s (handlers call site entry index list) (handlers call' site entry index list)
      (({ s with region }.job owner).handlers f site entry index list) := by
  induction list generalizing s index with
  | nil => exact tracks_pure []
  | cons handler list ih =>
    have hbody := h handler List.mem_cons_self
    have hrest := fun handler hh => h handler (List.mem_cons_of_mem _ hh)
    obtain ⟨_, _, body⟩ := handler
    refine (tracks_part owner site (.handler index)).bind fun region p _ => ?_
    have hbody := tracks_required (s := { s with region, made := p }) (hbody region) site
    refine (Tracks.within (s := { s with made := p }) hbody).bind fun built _ _ =>
      (tracks_make _).bind fun _ q _ => ?_
    exact (ih (s := { s with made := q }) hrest (index + 1)).bind fun _ _ _ => tracks_pure _

variable (owner) in
theorem tracks_afterBody (completed : Option NodeId) {orelse : List Stmt}
    (h : Performs call call' f (s.job orelse)) :
    Tracks s (afterBody call completed orelse) (afterBody call' completed orelse)
      ((s.job owner).afterBody f s.region completed orelse) := by
  rw [afterBody, afterBody, Job.afterBody]
  split
  · exact tracks_pure _
  · exact (h s rfl).bind fun built _ _ => (tracks_make _).bind fun _ _ _ => tracks_pure _

theorem tracks_beforeJoin (join : NodeId) {clause : List Stmt} (region : Option RegionId)
    (h : ∀ region, Performs call call' f ({ s with region }.job clause)) :
    Tracks s (beforeJoin call join clause region) (beforeJoin call' join clause region)
      ((s.job owner).beforeJoin f join clause region) := by
  cases region with
  | none => exact tracks_pure join
  | some region =>
    refine (Tracks.within (h region { s with region } rfl)).bind fun built _ _ => ?_
    exact (tracks_make _).bind fun _ _ _ => tracks_pure _

/-- The clauses that a `finally` clause watches over are built in the region of their `try`. -/
theorem tracks_guarded (site : Site) (whole : RegionId) {body : List Stmt} {list : List Handler}
    {orelse : List Stmt}
    (h : ∀ part ∈ body :: orelse :: list.map (·.body), ∀ region,
      Performs call call' f ({ s with region }.job part)) :
    Tracks s (guarded call site whole body list orelse) (guarded call' site whole body list orelse)
      ((s.job owner).guarded f site whole body list orelse) := by
  refine Tracks.within ((tracks_part owner site .body).bind fun region p _ => ?_)
  have hbody := tracks_required (s := { s with region, made := p }) (h body (by simp) region) site
  refine (Tracks.within (s := { s with region := whole, made := p }) hbody).bind fun built q _ => ?_
  refine (tracks_handlers (s := { s with region := whole, made := q }) site built.entry
    (fun handler hh region => h handler.body (by simp; grind) region) s.region 0).bind
    fun handled r _ => ?_
  exact (tracks_afterBody owner (s := { s with region := whole, made := r }) built.exit
    (h orelse (by simp) whole)).bind fun _ _ _ => tracks_pure _

theorem tracks_attempt {site : Site} {body : List Stmt} {list : List Handler}
    {orelse final : List Stmt} (hx : .attempt site body list orelse final ∈ owner)
    (hcalls : ∀ t, (s.job owner).Calls t → Performs call call' f t) :
    Tracks s (attempt call site body list orelse final) (attempt call' site body list orelse final)
      ((s.job owner).attempt f site body list orelse final) := by
  rw [Job.attempt_eq]
  refine (tracks_make _).bind fun _ _ _ => (tracks_part owner site .whole).bind fun whole _ _ =>
    (tracks_makeNode owner _).bind fun join _ _ =>
    (tracks_onSpot fun t => settle (t.clauseRegion site final)).bind fun clause p _ => ?_
  have hpart : Tracks { s with made := p }
      (watched whole final (guarded call site whole body list orelse) clause)
      (watched whole final (guarded call' site whole body list orelse) clause)
      (((s.job owner).watched whole final clause).guarded f site whole body list orelse) := by
    cases clause with
    | none =>
      exact tracks_guarded (s := { s with made := p }) site whole fun part hp region =>
        hcalls _ (.watched hx whole none hp region)
    | some region =>
      refine Tracks.inside (s := { s with made := p }) ?_
      exact tracks_guarded site whole fun part hp region' =>
        hcalls _ (.watched hx whole (some region) hp region')
  refine hpart.bind fun (entry, completed) q _ => ?_
  refine (tracks_beforeJoin (s := { s with made := q }) join clause fun region =>
    hcalls _ (.final hx region)).bind fun target _ _ => ?_
  exact (tracks_make _).bind fun _ _ _ => tracks_pure _

theorem tracks_hold {site : Site} {isAsync : Bool} {header : Span} {body : List Stmt}
    (hx : .hold site isAsync header body ∈ owner)
    (hcalls : ∀ t, (s.job owner).Calls t → Performs call call' f t) :
    Tracks s (hold call site header body) (hold call' site header body)
      ((s.job owner).hold f site header body) := by
  refine (tracks_part owner site .whole).bind fun region p _ => ?_
  refine Tracks.inside (s := { s with made := p }) (Tracks.within ?_)
  exact tracks_required (hcalls _ (.hold hx region)) site

/-- A jump leads through the scopes that stand around it.  Those that it has left are `inner`. -/
theorem tracks_unwind (site : Site) (means : Jump) {inner outer : List Scope}
    (hs : s.scopes = inner ++ outer)
    (h : ∀ clause whole region outer', .final clause whole region :: outer' <:+ outer →
      Performs call call' f
        { s.job owner with region, scopes := outer', duplicate := true, body := clause })
    (source : NodeId) :
    Tracks s (unwind call site means outer.length source)
      (unwind call' site means outer.length source)
      ((s.job owner).unwind f site means source outer) := by
  induction outer generalizing s inner source with
  | nil =>
    cases means with
    | returning => exact tracks_make (record ⟨source, .returns site⟩)
    | raising => exact tracks_make (record ⟨source, .raises site⟩)
    | breaking | continuing =>
      exact tracks_make (settle (.error (.rejected (.ofSite (.outsideLoop _) site))))
  | cons scope outer ih =>
    -- what has been left is then longer by one scope
    have hleft : s.scopes = (inner ++ [scope]) ++ outer := by simp [hs]
    have hrest : ∀ p source, Tracks { s with made := p }
        (unwind call site means outer.length source) (unwind call' site means outer.length source)
        ((s.job owner).unwind f site means source outer) := by
      intro p source
      refine ih (s := { s with made := p }) hleft ?_ source
      intro clause whole region outer' hsuffix
      exact h clause whole region outer' (hsuffix.trans (List.suffix_cons scope outer))
    refine Tracks.scopeAt hs ?_
    cases scope with
    | loop ends =>
      cases means with
      | returning | raising => exact hrest s.made source
      | breaking => exact tracks_make (connect source ends.exit .always)
      | continuing => exact tracks_make (connect source ends.head .loopBack)
    | resource header region =>
      refine (Tracks.within (tracks_makeNode owner _)).bind fun release p _ => ?_
      exact (tracks_onSpot (s := { s with made := p }) _).bind fun next _ _ =>
        (tracks_make _).bind fun _ _ _ => (tracks_make _).bind fun _ q _ => hrest q next
    | final clause whole region =>
      have hclause := h clause whole region outer List.suffix_rfl
        { s with region, scopes := outer, duplicate := true } rfl
      refine (Tracks.outside hleft (Tracks.copying (Tracks.within hclause))).bind fun built _ _ =>
        (tracks_make _).bind fun _ p _ => ?_
      cases built.exit with
      | none => exact tracks_pure ()
      | some last =>
        exact (tracks_onSpot (s := { s with made := p }) _).bind fun next _ _ =>
          (tracks_make _).bind fun _ q _ => hrest q next

theorem tracks_put (progress : Progress) (x : Stmt) :
    Tracks s (put progress x) (put progress x) ((s.job owner).put progress x) :=
  tracks_onSpot _

theorem tracks_stmt (hcalls : ∀ t, (s.job owner).Calls t → Performs call call' f t) {x : Stmt}
    (hx : x ∈ owner) (progress : Progress) :
    Tracks s (stmt call progress x) (stmt call' progress x) ((s.job owner).stmt f progress x) := by
  cases x with
  | simple | pass => exact (tracks_put progress _).bind fun _ _ _ => tracks_pure _
  | marker site name =>
    exact tracks_onSpot fun t =>
      if t.options.markers then do return (← t.put progress (.marker site name)).2
      else return progress
  | yield =>
    exact (tracks_makeNode owner _).bind fun _ _ _ => (tracks_make _).bind fun _ _ _ =>
      tracks_make _
  | jump site means =>
    have hunwind : ∀ p source, Tracks { s with made := p }
        (depth >>= fun depth => unwind call site means depth source)
        (depth >>= fun depth => unwind call' site means depth source)
        ((s.job owner).unwind f site means source s.scopes) := by
      intro p source
      refine Tracks.depth (tracks_unwind (s := { s with made := p }) site means
        (List.nil_append s.scopes).symm ?_ source)
      exact fun clause whole region outer hs => hcalls _ (.replay hx hs)
    cases means with
    | raising =>
      exact (tracks_makeNode owner _).bind fun node _ _ => (tracks_make _).bind fun _ p _ =>
        (hunwind p node).bind fun _ _ _ => tracks_pure _
    | returning | breaking | continuing =>
      exact (tracks_put progress _).bind fun (node, _) p _ =>
        (hunwind p node).bind fun _ _ _ => tracks_pure _
  | branch => exact (tracks_branch hx hcalls).bind fun _ _ _ => tracks_make _
  | loop => exact (tracks_loop hx hcalls).bind fun _ _ _ => tracks_make _
  | attempt => exact (tracks_attempt hx hcalls).bind fun _ _ _ => tracks_make _
  | hold =>
    exact (tracks_put progress _).bind fun _ p _ =>
      (tracks_hold (s := { s with made := p }) hx hcalls).bind fun _ _ _ => tracks_make _
  | dispatch => exact (tracks_dispatch hx hcalls).bind fun _ _ _ => tracks_make _
  | unsupported site => exact tracks_make (settle (.error (.rejected (.ofSite .unsupported site))))

/-- Building a body is doing a job, if building the bodies inside it is doing the jobs inside that
job. -/
theorem tracks_step (hcalls : ∀ t, (s.job owner).Calls t → Performs call call' f t) :
    Tracks s (step call owner) (step call' owner) ((s.job owner).step f) := by
  refine (Tracks.foldlM (fun x hx progress p => ?_) _ s.made).bind fun _ _ _ => tracks_onSpot _
  exact tracks_stmt (s := { s with made := p }) hcalls hx progress

end Step

/-! ## Building a body -/

/-- A body is built as a job, by building the bodies inside it in the same way.  The stack is left
as it was. -/
theorem tracks_run (s : Draft) (body : List Stmt) :
    Tracks s (run body) (step run body) (s.job body).run := by
  induction hw : (s.job body).weight using Nat.strong_induction_on generalizing s body with
  | _ weight ih =>
    subst hw
    rw [Job.run_eq_step]
    -- the jobs inside this one are lighter, so the guard lets them pass
    have hcalls : ∀ t, (s.job body).Calls t → Performs (fun body' s' =>
        if (s'.job body').weight < (s.job body).weight then run body' s' else .ok ⟨0, none⟩ s')
        run Job.run t := by
      intro t hcall s' hs'
      have hlt : (s'.job t.body).weight < (s.job body).weight := hs'.symm ▸ hcall.weight_lt
      have hrun := ih _ hlt s' t.body rfl
      rw [hs'] at hrun
      exact hrun.congr (if_pos hlt) hrun.1
    exact (tracks_step hcalls).congr (run.eq_1 body s) rfl

/-- Building a body builds the bodies inside it in the same way. -/
theorem run_eq_step (body : List Stmt) : run body = step run body :=
  funext fun s => (tracks_run s body).1

/-! ## Building a function -/

/-- A function is built in a single pass, and every scope has been left at its end. -/
theorem tracks_function (options : Options) (body : List Stmt) :
    Tracks (.start options (RegionTree.ofBody body)) (function body) (function body)
      (construct options body) := by
  rw [function, construct]
  split
  · exact tracks_make _
  · refine (tracks_makeNode body .entry).bind fun entry p _ => ?_
    have hrun := tracks_run { Draft.start options (RegionTree.ofBody body) with made := p } body
    refine (hrun.congr rfl hrun.1).bind fun built _ _ => (tracks_make _).bind fun _ q _ => ?_
    refine (tracks_makeNode body .exit).bind fun exit _ _ => (tracks_make _).bind fun _ _ _ =>
      (tracks_make _).bind fun _ _ _ => ?_
    -- the stack is as it was before the body
    exact tracks_of_ok rfl rfl rfl

end Building

/-- The graph that is built with a stack of scopes is the graph that is planned. -/
theorem Graph.assemble_eq_ofBody (options : Options) (body : List Stmt) :
    assemble options body = ofBody options body := by
  have hfunction := Building.tracks_function options body
  rw [ofBody_eq_construct, outcome, assemble]
  cases hrun : construct options body .nil with
  | ok exit p =>
    rw [hfunction.of_ok hrun]
    rfl
  | error failure p =>
    obtain ⟨t, ht, -⟩ := hfunction.of_error hrun
    rw [ht]
    rfl

end Flowgraph
