import Flowgraph.Proofs.Bodies
import Flowgraph.Proofs.Construction
import Flowgraph.Proofs.Requests

/-!
# Where nothing matches

An edge that is followed if nothing matches leaves the test of a pattern or the subject of a `match`
statement.  A test of a subject looks like the test of an `if` or of a loop, so this does not follow
from the graph alone: the statement has to be found in the body.

The construction is followed step by step, also where it fails.  What a node tests does not change
once the node is made, so each step may rely on the tests that the steps before it have made.  The
`match` statements in a `finally` clause are statements of the body as well, however often the
clause is built.

## Main definitions

* `Content.Dispatches` : a test that is left if nothing matches.
* `Making.Mindful`, `Making.Unobtrusive` : a computation requests edges for no match at such tests
  only.
* `Job.Within` : the statements that a job may build are among the given ones.

## Main results

* `Job.Calls.within` : the jobs inside a job build no other statements.
* `Job.step_unobtrusive`, `Job.run_unobtrusive` : building a body keeps to such tests.
* `unobtrusive_construct` : if nothing matches, a test of a `match` statement of the body is left.
-/

namespace Flowgraph

/-! ## Tests of `match` statements -/

/-- The test of a pattern, or of the subject of one of the `match` statements. -/
def Content.Dispatches (stmts : List Stmt) : Content → Prop
  | .caseTest _ => True
  | .test subject => ∃ site list, .dispatch site subject list ∈ stmts
  | _ => False

namespace Piece

variable {stmts : List Stmt} {p : Piece} {u : NodeId}

/-- The node is such a test. -/
def DispatchesAt (stmts : List Stmt) (p : Piece) (u : NodeId) : Prop :=
  ∃ content, p.HasContent u content ∧ content.Dispatches stmts

/-- The edges that are followed if nothing matches leave such tests. -/
def SkipsAtTests (stmts : List Stmt) (p : Piece) : Prop :=
  ∀ e ∈ p.edges, e.label = .noMatch → p.DispatchesAt stmts e.source

theorem DispatchesAt.append (h : p.DispatchesAt stmts u) (q : Piece) :
    (p ++ q).DispatchesAt stmts u := by
  obtain ⟨content, ⟨node, hnode, hcontent⟩, hd⟩ := h
  refine ⟨content, ⟨node, ?_, hcontent⟩, hd⟩
  rw [nodes_append, List.getElem?_append_left (List.getElem?_eq_some_iff.1 hnode).1, hnode]

theorem dispatchesAt_size {node : Node} (h : node.content.Dispatches stmts) :
    (p ++ .ofNodes [node]).DispatchesAt stmts p.size := by
  refine ⟨_, ⟨node, ?_, rfl⟩, h⟩
  simp [size]

/-- An edge past the cases of a `match` leaves the subject of one of the statements. -/
theorem SkipsCases.exists_dispatch {e : Edge} (h : p.SkipsCases e) (hp : p.SkipsAtTests stmts)
    (he : e ∈ p.edges) : ∃ site subject list, .dispatch site subject list ∈ stmts ∧
      p.HasContent e.source (.test subject) := by
  obtain ⟨content, hcontent, hd⟩ := hp e he h.label
  obtain ⟨subject, hsubject⟩ := h.subject
  obtain rfl := hcontent.unique hsubject
  obtain ⟨site, list, hm⟩ := hd
  exact ⟨site, subject, list, hm, hsubject⟩

end Piece

namespace Making

variable {α β : Type} {stmts : List Stmt} {known known' : List NodeId} {x : Making α}
  {f : α → Making β} {found : α → List NodeId} {found' : β → List NodeId}

/-- If the nodes `known` are tests of `match` statements, the computation requests edges for no
match at such tests only.  The tests stay, and those that it finds are tests as well. -/
def Mindful (stmts : List Stmt) (known : List NodeId) (x : Making α) (found : α → List NodeId) :
    Prop :=
  ∀ p : Piece, p.SkipsAtTests stmts → (∀ u ∈ known, p.DispatchesAt stmts u) →
    match x p with
    | .ok a q => q.SkipsAtTests stmts ∧ (∀ u, p.DispatchesAt stmts u → q.DispatchesAt stmts u) ∧
        ∀ u ∈ found a, q.DispatchesAt stmts u
    | .error _ q => q.SkipsAtTests stmts

/-- The computation finds no tests that the following ones rely on. -/
abbrev Unobtrusive (stmts : List Stmt) (x : Making α) : Prop :=
  Mindful stmts [] x fun _ => []

theorem Mindful.mono (h : Mindful stmts known x found) (hsub : known ⊆ known') :
    Mindful stmts known' x found :=
  fun p hp hk => h p hp fun u hu => hk u (hsub hu)

theorem Mindful.bind (hx : Mindful stmts known x found)
    (hf : ∀ a, Mindful stmts (found a ++ known) (f a) found') :
    Mindful stmts known (x >>= f) found' := by
  intro p hp hk
  have hx := hx p hp hk
  cases hxp : x p with
  | error failure q =>
    rw [hxp] at hx
    rw [bind_apply_of_error hxp]
    exact hx
  | ok a q =>
    rw [hxp] at hx
    rw [bind_apply_of_ok hxp]
    obtain ⟨hq, hstay, hfound⟩ := hx
    -- the tests that were known are still there
    have hknown : ∀ u ∈ found a ++ known, q.DispatchesAt stmts u := by
      intro u hu
      rcases List.mem_append.1 hu with hu | hu
      · exact hfound u hu
      · exact hstay u (hk u hu)
    have hfa := hf a q hq hknown
    cases hfq : f a q with
    | error failure r => rwa [hfq] at hfa
    | ok b r =>
      rw [hfq] at hfa
      exact ⟨hfa.1, fun u hu => hfa.2.1 u (hstay u hu), hfa.2.2⟩

/-- What finds no tests may stand in front of anything. -/
theorem Unobtrusive.bind (hx : Unobtrusive stmts x) (hf : ∀ a, Mindful stmts known (f a) found') :
    Mindful stmts known (x >>= f) found' :=
  Mindful.bind (hx.mono (List.nil_subset known)) hf

theorem mindful_pure {a : α} (h : found a ⊆ known) : Mindful stmts known (pure a) found :=
  fun _ hp hk => ⟨hp, fun _ hu => hu, fun u hu => hk u (h hu)⟩

theorem unobtrusive_pure (a : α) : Unobtrusive stmts (pure a) :=
  mindful_pure (List.nil_subset _)

theorem unobtrusive_settle (X : Except Failure α) : Unobtrusive stmts (settle X) := by
  intro p hp _
  cases X with
  | error failure => exact hp
  | ok a => exact ⟨hp, fun _ hu => hu, by simp⟩

theorem mindful_newNode {node : Node} (h : node.content.Dispatches stmts) :
    Mindful stmts known (newNode node) fun u => [u] := by
  intro p hp _
  refine ⟨fun e he hl => (hp e (by simpa using he) hl).append _, fun u hu => hu.append _, ?_⟩
  intro u hu
  rw [List.mem_singleton.1 hu]
  exact Piece.dispatchesAt_size h

theorem unobtrusive_newNode (node : Node) : Unobtrusive stmts (newNode node) := by
  intro p hp _
  exact ⟨fun e he hl => (hp e (by simpa using he) hl).append _, fun u hu => hu.append _, by simp⟩

/-- Edges that are requested for no match have to leave tests that are known. -/
theorem mindful_add {q : Piece} (h : ∀ e ∈ q.edges, e.label = .noMatch → e.source ∈ known) :
    Mindful stmts known (add q) fun _ => [] := by
  intro p hp hk
  refine ⟨fun e he hl => ?_, fun u hu => hu.append q, by simp⟩
  rcases List.mem_append.1 he with he | he
  · exact (hp e he hl).append q
  · exact (hk _ (h e he hl)).append q

theorem mindful_connect {u : NodeId} (hu : u ∈ known) (v : NodeId) (label : Label) :
    Mindful stmts known (connect u v label) fun _ => [] :=
  mindful_add (by simp [hu])

theorem unobtrusive_connect {label : Label} (h : label ≠ .noMatch) (u v : NodeId) :
    Unobtrusive stmts (connect u v label) :=
  mindful_add (by simp [h])

theorem unobtrusive_connectFrom {label : Label} (h : label ≠ .noMatch) (u : Option NodeId)
    (v : NodeId) : Unobtrusive stmts (connectFrom u v label) := by
  refine mindful_add ?_
  cases u <;> simp [h]

theorem unobtrusive_record (exit : Exit) : Unobtrusive stmts (record exit) :=
  mindful_add (by simp)

/-- A statement is added to blocks only, which are no tests. -/
theorem unobtrusive_push (block : NodeId) (s : Stmt) : Unobtrusive stmts (push block s) := by
  have hstay : ∀ p q, push block s p = .ok () q → ∀ u, p.DispatchesAt stmts u →
      q.DispatchesAt stmts u := by
    rintro p q hpush u ⟨content, ⟨node, hnode, rfl⟩, hd⟩
    cases hpush
    refine ⟨_, ⟨_, by rw [List.getElem?_modify, hnode]; rfl, rfl⟩, ?_⟩
    split
    · cases hcontent : node.content <;> simp_all [Content.Dispatches]
    · exact hd
  intro p hp _
  exact ⟨fun e he hl => hstay p _ rfl _ (hp e he hl), hstay p _ rfl, by simp⟩

theorem unobtrusive_forM_connect {label : Label} (h : label ≠ .noMatch) (us : List NodeId)
    (v : NodeId) : Unobtrusive stmts (us.forM fun u => connect u v label) := by
  induction us with
  | nil => exact unobtrusive_pure ()
  | cons u us ih => exact (unobtrusive_connect h u v).bind fun _ => ih

theorem mindful_mapM_newNode {γ : Type} {g : γ → Node} {list : List γ}
    (h : ∀ b ∈ list, (g b).content.Dispatches stmts) :
    Mindful stmts known (list.mapM fun b => newNode (g b)) id := by
  induction list generalizing known with
  | nil => exact mindful_pure (List.nil_subset _)
  | cons b list ih =>
    rw [List.mapM_cons]
    refine (mindful_newNode (h b List.mem_cons_self)).bind fun u =>
      (ih fun b hb => h b (List.mem_cons_of_mem _ hb)).bind fun us => mindful_pure ?_
    simp

end Making

open Making

/-! ## Building a body -/

namespace Job

/-- The statements that a job may build, in its body and in the `finally` clauses around it, are
among the given ones. -/
structure Within (stmts : List Stmt) (t : Job) : Prop where
  body : bodyStatements t.body ⊆ stmts
  scopes : ∀ clause whole region, .final clause whole region ∈ t.scopes →
    bodyStatements clause ⊆ stmts

variable {stmts : List Stmt} {call : Job → Making Fragment} {t : Job}

theorem Within.inside (h : t.Within stmts) {x : Stmt} (hx : x ∈ t.body)
    {b : Option Part × List Stmt} (hb : b ∈ x.bodies) : bodyStatements b.2 ⊆ stmts :=
  List.Subset.trans (bodyStatements_subset_of_mem_bodies (mem_bodyStatements_of_mem hx) hb) h.body

theorem exists_mem_bodies_attempt {site : Site} {body : List Stmt} {list : List Handler}
    {orelse final part : List Stmt} (hp : part ∈ body :: orelse :: list.map (·.body)) :
    ∃ p, (p, part) ∈ (Stmt.attempt site body list orelse final).bodies := by
  simp only [List.mem_cons, List.mem_map] at hp
  obtain rfl | rfl | ⟨handler, hh, rfl⟩ := hp
  · exact ⟨some .body, by simp [Stmt.bodies]⟩
  · exact ⟨some .whole, by simp [Stmt.bodies]⟩
  · obtain ⟨index, hindex⟩ := List.mem_iff_getElem?.1 hh
    refine ⟨some (.handler index), List.mem_append_left _ (List.mem_cons_of_mem _ ?_)⟩
    exact List.mem_map.2 ⟨(handler, index), List.mem_zipIdx_iff_getElem?.2 hindex, rfl⟩

/-- The jobs inside a job build no other statements. -/
theorem Calls.within {t' : Job} (hcall : t.Calls t') (h : t.Within stmts) : t'.Within stmts := by
  have hpart : ∀ {x : Stmt} {body : List Stmt}, x ∈ t.body → (∃ part, (part, body) ∈ x.bodies) →
      bodyStatements body ⊆ stmts := fun hx ⟨_, hb⟩ => h.inside hx hb
  cases hcall with
  | arm hx => exact ⟨hpart hx ⟨none, by simp [Stmt.bodies]⟩, h.scopes⟩
  | clause hx hc => exact ⟨hpart hx ⟨none, by simp [Stmt.bodies]; grind⟩, h.scopes⟩
  | loop hx ends =>
    exact ⟨hpart hx ⟨none, by simp [Stmt.bodies]⟩, fun clause whole region hs =>
      h.scopes clause whole region (by simpa using hs)⟩
  | afterLoop hx region => exact ⟨hpart hx ⟨some .orelse, by simp [Stmt.bodies]⟩, h.scopes⟩
  | case hx hc region => exact ⟨hpart hx ⟨some .whole, by simp [Stmt.bodies]; grind⟩, h.scopes⟩
  | @watched _ _ _ _ final hx whole clause _ hp region =>
    refine ⟨hpart hx (exists_mem_bodies_attempt hp), ?_⟩
    cases clause with
    | none => exact h.scopes
    | some clause =>
      intro clause' whole' region' hs
      -- the `finally` clause of the statement, or one that was around before
      rcases List.mem_cons.1 hs with hs | hs
      · cases hs
        exact hpart hx ⟨some .final, by simp [Stmt.bodies]⟩
      · exact h.scopes clause' whole' region' hs
  | final hx region => exact ⟨hpart hx ⟨some .final, by simp [Stmt.bodies]⟩, h.scopes⟩
  | hold hx region =>
    exact ⟨hpart hx ⟨some .whole, by simp [Stmt.bodies]⟩, fun clause whole region' hs =>
      h.scopes clause whole region' (by simpa using hs)⟩
  | replay hx hs =>
    refine ⟨h.scopes _ _ _ (hs.subset List.mem_cons_self), fun clause whole region hm => ?_⟩
    exact h.scopes clause whole region (hs.subset (List.mem_cons_of_mem _ hm))

theorem required_unobtrusive (h : Unobtrusive stmts (call t)) (site : Site) :
    Unobtrusive stmts (t.required call site) := by
  rw [required]
  split
  · exact unobtrusive_settle _
  · exact h

theorem arm_unobtrusive {body : List Stmt} (h : Unobtrusive stmts (call { t with body }))
    (site : Site) (source : NodeId) {label : Label} (hl : label ≠ .noMatch) (join : NodeId) :
    Unobtrusive stmts (t.arm call site source label body join) :=
  (required_unobtrusive h site).bind fun _ => (unobtrusive_connect hl _ _).bind fun _ =>
    unobtrusive_connectFrom (by simp) _ _

theorem clauses_unobtrusive (site : Site) (join : NodeId) {rest : List BranchClause}
    (h : ∀ clause ∈ rest, Unobtrusive stmts (call { t with body := clause.body })) (test : NodeId)
    (hasElse : Bool) : Unobtrusive stmts (t.clauses call site join test hasElse rest) := by
  induction rest generalizing test hasElse with
  | nil =>
    cases hasElse with
    | true => exact unobtrusive_pure ()
    | false => exact unobtrusive_connect (by simp) test join
  | cons clause rest ih =>
    have hbody := h clause List.mem_cons_self
    have hrest := ih fun clause hc => h clause (List.mem_cons_of_mem _ hc)
    obtain ⟨_, _ | header, body⟩ := clause
    · exact (arm_unobtrusive hbody site test (by simp) join).bind fun _ => hrest test true
    · exact (unobtrusive_newNode _).bind fun next => (unobtrusive_connect (by simp) _ _).bind
        fun _ => (arm_unobtrusive hbody site next (by simp) join).bind fun _ => hrest next hasElse

theorem branch_unobtrusive {site : Site} {test : Span} {body : List Stmt}
    {rest : List BranchClause} (hx : .branch site test body rest ∈ t.body)
    (hcalls : ∀ t', t.Calls t' → Unobtrusive stmts (call t')) :
    Unobtrusive stmts (t.branch call site test body rest) :=
  (unobtrusive_settle _).bind fun _ => (unobtrusive_newNode _).bind fun head =>
    (unobtrusive_newNode _).bind fun join =>
    (arm_unobtrusive (hcalls _ (.arm hx)) site head (by simp) join).bind fun _ =>
    (clauses_unobtrusive site join (fun _ hc => hcalls _ (.clause hx hc)) head false).bind fun _ =>
    unobtrusive_pure _

theorem afterLoop_unobtrusive (site : Site) (guard after : NodeId) {orelse : List Stmt}
    (h : ∀ region, Unobtrusive stmts (call { t with region, body := orelse })) :
    Unobtrusive stmts (t.afterLoop call site guard after orelse) := by
  rw [afterLoop]
  split
  · exact unobtrusive_connect (by simp) guard after
  · exact (unobtrusive_settle _).bind fun region => (h region).bind fun _ =>
      (unobtrusive_connect (by simp) _ _).bind fun _ => unobtrusive_connectFrom (by simp) _ _

theorem loop_unobtrusive {site : Site} {head : LoopHead} {body orelse : List Stmt}
    (hx : .loop site head body orelse ∈ t.body)
    (hcalls : ∀ t', t.Calls t' → Unobtrusive stmts (call t')) :
    Unobtrusive stmts (t.loop call site head.span body orelse) :=
  (unobtrusive_newNode _).bind fun guard => (unobtrusive_newNode _).bind fun after =>
    (required_unobtrusive (hcalls _ (.loop hx ⟨guard, after⟩)) site).bind fun _ =>
    (unobtrusive_connect (by simp) _ _).bind fun _ =>
    (unobtrusive_connectFrom (by simp) _ _).bind fun _ =>
    (afterLoop_unobtrusive site guard after fun region =>
      hcalls _ (.afterLoop hx region)).bind fun _ => unobtrusive_pure _

/-- Each alternative is tried after a test that is known, and may be left for the next one. -/
theorem alternatives_mindful (dispatch body : NodeId) (index : Nat) {known : List NodeId}
    {previous : Option NodeId} {tests : List NodeId} (hp : ∀ u ∈ previous, u ∈ known)
    (ht : tests ⊆ known) :
    Mindful stmts known (t.alternatives dispatch body index previous tests) Option.toList := by
  induction tests generalizing previous with
  | nil =>
    have hpure : Mindful stmts known (pure previous) Option.toList :=
      mindful_pure fun u hu => hp u (Option.mem_toList.1 hu)
    cases previous <;> exact hpure
  | cons test rest ih =>
    obtain ⟨htest, hrest⟩ := List.cons_subset.1 ht
    cases previous with
    | none =>
      exact (unobtrusive_connect (by simp) test body).bind fun _ => ih (by simp) hrest
    | some previous =>
      have hprevious := hp previous rfl
      refine (unobtrusive_connect (by simp) test body).bind fun _ =>
        (mindful_connect hprevious test _).bind fun _ => ih (fun u hu => ?_) hrest
      -- the next test hangs off this one, unless the dispatch is flat
      obtain rfl := Option.some.inj hu
      split
      · exact hprevious
      · exact htest

theorem cases_mindful (site : Site) {dispatch : NodeId} (join : NodeId) {list : List MatchCase}
    (h : ∀ case ∈ list, Unobtrusive stmts (call { t with body := case.body })) (index : Nat)
    {known : List NodeId} {previous : Option NodeId} (hd : dispatch ∈ known)
    (hp : ∀ u ∈ previous, u ∈ known) :
    Mindful stmts known (t.cases call site dispatch join index previous list) fun _ => [] := by
  induction list generalizing known index previous with
  | nil =>
    cases previous with
    | none => exact mindful_pure (List.nil_subset known)
    | some last =>
      exact (mindful_connect hd join .noMatch).bind fun _ =>
        mindful_connect (hp last rfl) join .noMatch
  | cons case list ih =>
    have hbody := h case List.mem_cons_self
    have hrest := fun case hc => h case (List.mem_cons_of_mem _ hc)
    obtain ⟨_, head, body⟩ := case
    refine (mindful_mapM_newNode (by intros; trivial)).bind fun tests =>
      (required_unobtrusive hbody site).bind fun built =>
      (unobtrusive_connectFrom (by simp) _ _).bind fun _ => ?_
    refine (alternatives_mindful dispatch built.entry index
      (fun u hu => List.mem_append_right _ (hp u hu)) (List.subset_append_left ..)).bind
      fun previous => ih hrest (index + 1) ?_ fun u hu => ?_
    · exact List.mem_append_right _ (List.mem_append_right _ hd)
    -- after a case that accepts every subject nothing is left to try
    · split at hu
      · cases hu
      · exact List.mem_append_left _ (Option.mem_toList.2 hu)

/-- The subject of a `match` statement is left if nothing matches. -/
theorem dispatch_unobtrusive {site : Site} {subject : Span} {list : List MatchCase}
    (hx : .dispatch site subject list ∈ t.body) (ht : t.Within stmts)
    (hcalls : ∀ t', t.Calls t' → Unobtrusive stmts (call t')) :
    Unobtrusive stmts (t.dispatch call site subject list) := by
  have hsubject : (Content.test subject).Dispatches stmts :=
    ⟨site, list, ht.body (mem_bodyStatements_of_mem hx)⟩
  refine (unobtrusive_settle _).bind fun _ => (mindful_newNode hsubject).bind fun dispatch =>
    (unobtrusive_newNode _).bind fun join => (unobtrusive_settle _).bind fun region => ?_
  refine (cases_mindful site join (fun case hc => hcalls _ (.case hx hc region)) 0
    List.mem_cons_self fun u hu => ?_).bind fun _ => mindful_pure (List.nil_subset _)
  obtain rfl := Option.some.inj hu
  exact List.mem_cons_self

theorem handlers_unobtrusive (site : Site) (entry : NodeId) {list : List Handler}
    (h : ∀ handler ∈ list, ∀ region,
      Unobtrusive stmts (call { t with region, body := handler.body })) (index : Nat) :
    Unobtrusive stmts (t.handlers call site entry index list) := by
  induction list generalizing index with
  | nil => exact unobtrusive_pure []
  | cons handler list ih =>
    have hbody := h handler List.mem_cons_self
    have hrest := ih fun handler hh => h handler (List.mem_cons_of_mem _ hh)
    obtain ⟨_, _, body⟩ := handler
    exact (unobtrusive_settle _).bind fun region =>
      (required_unobtrusive (hbody region) site).bind fun _ =>
      (unobtrusive_connect (by simp) _ _).bind fun _ => (hrest (index + 1)).bind fun _ =>
      unobtrusive_pure _

theorem afterBody_unobtrusive (whole : RegionId) (completed : Option NodeId) {orelse : List Stmt}
    (h : Unobtrusive stmts (call { t with region := whole, body := orelse })) :
    Unobtrusive stmts (t.afterBody call whole completed orelse) := by
  rw [afterBody]
  split
  · exact unobtrusive_pure completed
  · exact h.bind fun _ => (unobtrusive_connectFrom (by simp) _ _).bind fun _ => unobtrusive_pure _

theorem beforeJoin_unobtrusive (join : NodeId) {clause : List Stmt} (region : Option RegionId)
    (h : ∀ region, Unobtrusive stmts (call { t with region, body := clause })) :
    Unobtrusive stmts (t.beforeJoin call join clause region) := by
  cases region with
  | none => exact unobtrusive_pure join
  | some region =>
    exact (h region).bind fun _ => (unobtrusive_connectFrom (by simp) _ _).bind fun _ =>
      unobtrusive_pure _

theorem attempt_unobtrusive {site : Site} {body : List Stmt} {list : List Handler}
    {orelse final : List Stmt} (hx : .attempt site body list orelse final ∈ t.body)
    (hcalls : ∀ t', t.Calls t' → Unobtrusive stmts (call t')) :
    Unobtrusive stmts (t.attempt call site body list orelse final) := by
  refine (unobtrusive_settle _).bind fun _ => (unobtrusive_settle _).bind fun whole =>
    (unobtrusive_newNode _).bind fun join => (unobtrusive_settle _).bind fun clause =>
    (unobtrusive_settle _).bind fun region => ?_
  have hpart := fun part (hp : part ∈ body :: orelse :: list.map (·.body)) region =>
    hcalls _ (.watched hx whole clause hp region)
  exact (required_unobtrusive (hpart body (by simp) region) site).bind fun built =>
    (handlers_unobtrusive site built.entry (fun handler hh region => hpart handler.body
      (by simpa using .inr (.inr ⟨handler, hh, rfl⟩)) region) 0).bind fun _ =>
    (afterBody_unobtrusive whole built.exit (hpart orelse (by simp) whole)).bind fun _ =>
    (beforeJoin_unobtrusive join clause fun region => hcalls _ (.final hx region)).bind fun _ =>
    (unobtrusive_forM_connect (by simp) _ _).bind fun _ => unobtrusive_pure _

theorem unwind_unobtrusive (site : Site) (means : Jump) {scopes : List Scope}
    (h : ∀ clause whole region outer, .final clause whole region :: outer <:+ scopes →
      Unobtrusive stmts
        (call { t with region, scopes := outer, duplicate := true, body := clause }))
    (source : NodeId) : Unobtrusive stmts (t.unwind call site means source scopes) := by
  induction scopes generalizing source with
  | nil =>
    cases means with
    | returning | raising => exact unobtrusive_record _
    | breaking | continuing => exact fun p hp _ => hp
  | cons scope outer ih =>
    have hrest := ih fun clause whole region outer' hs =>
      h clause whole region outer' (hs.trans (List.suffix_cons scope outer))
    cases scope with
    | loop ends =>
      cases means with
      | returning | raising => exact hrest source
      | breaking | continuing => exact unobtrusive_connect (by simp) _ _
    | resource header region =>
      exact (unobtrusive_newNode _).bind fun _ => (unobtrusive_newNode _).bind fun next =>
        (unobtrusive_connect (by simp) _ _).bind fun _ =>
        (unobtrusive_connect (by simp) _ _).bind fun _ => hrest next
    | final clause whole region =>
      refine (h clause whole region outer List.suffix_rfl).bind fun built =>
        (unobtrusive_connect (by simp) _ _).bind fun _ => ?_
      cases built.exit with
      | none => exact unobtrusive_pure ()
      | some last =>
        exact (unobtrusive_newNode _).bind fun next =>
          (unobtrusive_connect (by simp) _ _).bind fun _ => hrest next

theorem append_unobtrusive (s : Progress) (part : Fragment) :
    Unobtrusive stmts (s.append part) := by
  rw [Progress.append]
  cases s.entry with
  | none => exact unobtrusive_pure _
  | some entry =>
    exact (unobtrusive_connectFrom (by simp) _ _).bind fun _ => unobtrusive_pure _

theorem put_unobtrusive (s : Progress) (x : Stmt) : Unobtrusive stmts (t.put s x) := by
  rw [put]
  cases s.block with
  | some block => exact (unobtrusive_push block x).bind fun _ => unobtrusive_pure _
  | none =>
    exact (unobtrusive_newNode _).bind fun block => (append_unobtrusive s _).bind fun _ =>
      (unobtrusive_push block x).bind fun _ => unobtrusive_pure _

/-- A statement keeps to the tests of `match` statements, if the bodies inside it do. -/
theorem stmt_unobtrusive {x : Stmt} (hx : x ∈ t.body) (ht : t.Within stmts)
    (hcalls : ∀ t', t.Calls t' → Unobtrusive stmts (call t')) (s : Progress) :
    Unobtrusive stmts (t.stmt call s x) := by
  have hput : Unobtrusive stmts (t.put s x >>= fun r => pure r.2) :=
    (put_unobtrusive s x).bind fun _ => unobtrusive_pure _
  have happend : ∀ {y : Making Fragment}, Unobtrusive stmts y →
      ∀ s : Progress, Unobtrusive stmts (y >>= s.append) :=
    fun hy s => hy.bind fun part => append_unobtrusive s part
  cases x with
  | simple | pass => exact hput
  | marker site name =>
    rw [stmt]
    split
    · exact hput
    · exact unobtrusive_pure s
  | yield site =>
    exact (unobtrusive_newNode _).bind fun node => (unobtrusive_record _).bind fun _ =>
      append_unobtrusive s _
  | jump site means =>
    have hunwind := unwind_unobtrusive site means fun clause whole region outer hs =>
      hcalls _ (.replay hx hs)
    by_cases hm : means = .raising
    · subst hm
      exact (unobtrusive_newNode _).bind fun node => (append_unobtrusive s _).bind fun _ =>
        (hunwind node).bind fun _ => unobtrusive_pure _
    · rw [stmt_jump hm]
      exact (put_unobtrusive s _).bind fun r => (hunwind r.1).bind fun _ => unobtrusive_pure _
  | branch => exact happend (branch_unobtrusive hx hcalls) s
  | loop => exact happend (loop_unobtrusive hx hcalls) s
  | attempt => exact happend (attempt_unobtrusive hx hcalls) s
  | hold site isAsync header body =>
    refine (put_unobtrusive s _).bind fun r => happend ?_ r.2
    exact (unobtrusive_settle _).bind fun region =>
      required_unobtrusive (hcalls _ (.hold hx region)) site
  | dispatch => exact happend (dispatch_unobtrusive hx ht hcalls) s
  | unsupported site => exact fun p hp _ => hp

theorem step_unobtrusive (ht : t.Within stmts)
    (hcalls : ∀ t', t.Calls t' → Unobtrusive stmts (call t')) :
    Unobtrusive stmts (t.step call) := by
  have hstmts : ∀ (rest : List Stmt) (s : Progress), rest ⊆ t.body →
      Unobtrusive stmts (rest.foldlM (t.stmt call) s) := by
    intro rest
    induction rest with
    | nil => exact fun s _ => unobtrusive_pure s
    | cons x rest ih =>
      intro s hsub
      obtain ⟨hx, hrest⟩ := List.cons_subset.1 hsub
      rw [List.foldlM_cons]
      exact (stmt_unobtrusive hx ht hcalls s).bind fun s => ih s hrest
  refine (hstmts t.body _ (List.Subset.refl _)).bind fun s => ?_
  cases s.entry with
  | some entry => exact unobtrusive_pure _
  | none => exact (unobtrusive_newNode _).bind fun _ => unobtrusive_pure _

/-- Building a body keeps to the tests of `match` statements. -/
theorem run_unobtrusive (t : Job) (ht : t.Within stmts) : Unobtrusive stmts t.run := by
  induction hw : t.weight using Nat.strong_induction_on generalizing t with
  | _ weight ih =>
    subst hw
    rw [run_eq_step]
    exact step_unobtrusive ht fun t' hcall => ih _ hcall.weight_lt t' (hcall.within ht) rfl

end Job

/-- The construction of a function leaves the tests of `match` statements of its body, and no other
nodes, if nothing matches. -/
theorem unobtrusive_construct (options : Options) (body : List Stmt) :
    Unobtrusive (bodyStatements body) (construct options body) := by
  have hwithin : (Job.ofBody options body).Within (bodyStatements body) :=
    ⟨List.Subset.refl _, by simp [Job.ofBody]⟩
  rw [construct]
  split
  · exact unobtrusive_settle _
  · exact (unobtrusive_newNode _).bind fun _ => (Job.run_unobtrusive _ hwithin).bind fun _ =>
      (unobtrusive_connect (by simp) _ _).bind fun _ => (unobtrusive_newNode _).bind fun _ =>
      (unobtrusive_connectFrom (by simp) _ _).bind fun _ => (unobtrusive_record _).bind fun _ =>
      unobtrusive_pure _

end Flowgraph
