import Flowgraph.Proofs.Agreement
import Flowgraph.Proofs.Forks

/-!
# The construction of a graph

A sequence of statements is built in a single pass by adding one statement after the other, while
a plan is put together from behind: a straight-line statement joins the block that comes next in
the plan, and the block that came last in the single pass.  The comparison therefore keeps the
statements of the last block apart; it goes by induction on the statements that follow them.

So every job is done as planned, and planning a function and laying out its plan gives the graph
that is made in a single pass.

## Main definitions

* `Plan.behind` : a plan behind the statements of a block.
* `Progress.upTo`, `Piece.upTo` : a sequence that ends in a block of given statements.
* `construct` : building a function in a single pass.

## Main results

* `Job.follows_run` : every job is done as planned.
* `construct_conforms`, `Graph.ofBody_eq_construct` : a function is built as planned.
* `Job.construction_terminates` : bodies are built in one way, and it comes to an end.
-/

namespace Flowgraph

open Making

/-! ## Sequences of statements -/

/-- What was built of a sequence that begins with `entry`, continues after `previous`, and ends in
a block of the given statements, if there are any, at the node `base`. -/
def Progress.upTo (base : NodeId) (entry previous : Option NodeId) : List Stmt → Progress
  | [] => ⟨entry, previous, none⟩
  | _ :: _ => ⟨some (entry.getD base), some base, some base⟩

/-- A sequence that has not begun does not continue anywhere. -/
def Progress.Sound (s : Progress) : Prop :=
  s.entry = none → s.tail = none

theorem Progress.Sound.upTo {entry previous : Option NodeId} (h : entry = none → previous = none)
    (base : NodeId) (stmts : List Stmt) : (Progress.upTo base entry previous stmts).Sound := by
  cases stmts with
  | nil => exact h
  | cons => exact fun h => absurd h (Option.some_ne_none _)

theorem Progress.Sound.append_apply {s : Progress} (h : s.Sound) (part : Fragment) (p : Piece) :
    s.append part p =
      .ok ⟨some (s.entry.getD part.entry), part.exit, none⟩
        (p ++ .edgeFrom s.tail part.entry .always) := by
  cases he : s.entry with
  | none =>
    rw [append, he, h he]
    show EStateM.Result.ok _ p = _
    rw [Piece.append_edgeFrom_none]
    rfl
  | some entry =>
    rw [append, he]
    rfl

namespace Plan

/-- The block of the given statements, if there are any. -/
def ofBlock : List Stmt → Option Plan
  | [] => none
  | s :: stmts => some (.block (s :: stmts))

theorem ofBlock_nil : ofBlock [] = none := rfl

/-- What is added for a plan, if there is one. -/
def pieceOf (env : Env) (base : NodeId) (previous : Option NodeId) : Option Plan → Piece
  | none => .nil
  | some plan => (plan.layout env base previous).piece

/-- The plan behind a block of the given statements, if there are any. -/
def behind (stmts : List Stmt) (plan : Plan) : Plan :=
  orIdle (Option.merge andThen (ofBlock stmts) (some plan))

theorem merge_ofBlock_some (stmts : List Stmt) (plan : Plan) :
    Option.merge andThen (ofBlock stmts) (some plan) = some (behind stmts plan) := by
  cases stmts <;> rfl

/-- A straight-line statement joins the block before it, and so does what follows. -/
theorem merge_ofBlock_concat (stmts : List Stmt) (x : Stmt) (plan : Option Plan) :
    Option.merge andThen (ofBlock (stmts ++ [x])) plan =
      Option.merge andThen (ofBlock stmts) (Option.merge andThen (some (.block [x])) plan) := by
  cases stmts with
  | nil => cases plan <;> rfl
  | cons s stmts =>
    cases plan with
    | none => exact congrArg some (foldr_precededBy_block (s :: stmts) [x]).symm
    | some plan =>
      show some ((s :: stmts ++ [x]).foldr precededBy plan) = _
      rw [List.foldr_append]
      rfl

theorem behind_seq (stmts : List Stmt) (first rest : Plan) :
    behind stmts (.seq first rest) = .seq (behind stmts first) rest := by
  cases stmts with
  | nil => rfl
  | cons s stmts => exact foldr_precededBy_seq (s :: stmts) first rest

theorem behind_jump (stmts : List Stmt) (site : Site) (means : Jump) (route : Route) :
    behind stmts (.jump [] site means route) = .jump stmts site means route := by
  cases stmts with
  | nil => rfl
  | cons s stmts =>
    show (s :: stmts).foldr precededBy _ = _
    rw [foldr_precededBy_jump, List.append_nil]

theorem behind_hold (stmts : List Stmt) (header : Stmt) (region : RegionId) (body : Plan) :
    behind stmts (.hold [] header region body) = .hold stmts header region body := by
  cases stmts with
  | nil => rfl
  | cons s stmts =>
    show (s :: stmts).foldr precededBy _ = _
    rw [foldr_precededBy_hold, List.append_nil]

theorem standsAlone.behind_cons {plan : Plan} (h : plan.standsAlone) (s : Stmt)
    (stmts : List Stmt) : behind (s :: stmts) plan = .seq (.block (s :: stmts)) plan := by
  show (s :: stmts).foldr precededBy plan = _
  induction stmts generalizing s with
  | nil => exact h s
  | cons s' stmts ih => rw [List.foldr_cons, ih s']; rfl

end Plan

/-- A piece that ends in a block of the given statements, if there are any. -/
def Piece.upTo (env : Env) (p : Piece) (previous : Option NodeId) (stmts : List Stmt) : Piece :=
  p ++ Plan.pieceOf env p.size previous (Plan.ofBlock stmts)

theorem Piece.upTo_nil (env : Env) (p : Piece) (previous : Option NodeId) :
    p.upTo env previous [] = p :=
  append_nodes_nil p

theorem Piece.upTo_concat (env : Env) (p : Piece) (previous : Option NodeId) (stmts : List Stmt)
    (x : Stmt) : p.upTo env previous (stmts ++ [x]) =
      p ++ .ofNodes [env.node (.block (stmts ++ [x]))] ++ .edgeFrom previous p.size .always := by
  cases stmts <;> exact (append_assoc _ _ _).symm

theorem Progress.upTo_concat (base : NodeId) (entry previous : Option NodeId) (stmts : List Stmt)
    (x : Stmt) : Progress.upTo base entry previous (stmts ++ [x]) =
      ⟨some (entry.getD base), some base, some base⟩ := by
  cases stmts <;> rfl

/-- A plan that no statement can join is laid out after the block. -/
theorem Plan.standsAlone.layout_behind {plan : Plan} (h : plan.standsAlone) (env : Env) (p : Piece)
    (entry previous : Option NodeId) (stmts : List Stmt) :
    p ++ ((behind stmts plan).layout env p.size previous).piece =
        p.upTo env previous stmts ++ (plan.layout env (p.upTo env previous stmts).size
          (Progress.upTo p.size entry previous stmts).tail).piece ∧
      entry.getD ((behind stmts plan).entryAt p.size) =
        (Progress.upTo p.size entry previous stmts).entry.getD
          (plan.entryAt (p.upTo env previous stmts).size) ∧
      (behind stmts plan).exitAt p.size = plan.exitAt (p.upTo env previous stmts).size := by
  cases stmts with
  | nil =>
    rw [Piece.upTo_nil]
    exact ⟨rfl, rfl, rfl⟩
  | cons s stmts =>
    rw [h.behind_cons]
    -- the block takes one node, whatever it holds
    have hsize : (p.upTo env previous (s :: stmts)).size = p.size + 1 := by
      simp [Piece.upTo, ofBlock, pieceOf, size]
    rw [hsize]
    refine ⟨Piece.ext_fields ?_ ?_ ?_, rfl, rfl⟩ <;>
      simp [Plan.layout, Piece.upTo, ofBlock, pieceOf, Progress.upTo, Stretch.size]

theorem modify_last {α : Type} (l : List α) (a : α) (f : α → α) :
    (l ++ [a]).modify l.length f = l ++ [f a] := by
  induction l with
  | nil => rfl
  | cons b l ih => exact congrArg (b :: ·) ih

namespace Job

/-- A straight-line statement joins the block that a sequence ends in. -/
theorem put_apply (t : Job) (x : Stmt) {entry previous : Option NodeId}
    (h : entry = none → previous = none) (p : Piece) (stmts : List Stmt) :
    t.put (.upTo p.size entry previous stmts) x (p.upTo t.env previous stmts) =
      .ok (p.size, .upTo p.size entry previous (stmts ++ [x]))
        (p.upTo t.env previous (stmts ++ [x])) := by
  -- the node of the block is the last one, so that statements can be added to it
  have hpush : ∀ stmts, push p.size x (p ++ .ofNodes [t.env.node (.block stmts)] ++
      .edgeFrom previous p.size .always) =
        .ok () (p ++ .ofNodes [t.env.node (.block (stmts ++ [x]))] ++
          .edgeFrom previous p.size .always) := by
    intro stmts
    refine congrArg (EStateM.Result.ok ()) (Piece.ext_fields ?_ ?_ ?_) <;>
      simp [Piece.size, modify_last, Env.node]
  have hupTo : ∀ s stmts, p.upTo t.env previous (s :: stmts) =
      p ++ .ofNodes [t.env.node (.block (s :: stmts))] ++ .edgeFrom previous p.size .always :=
    fun s stmts => (Piece.append_assoc _ _ _).symm
  cases stmts with
  | nil =>
    -- there is no block yet: a node is made, and led to from what came before
    have happend := (Progress.Sound.upTo h p.size []).append_apply ⟨p.size, some p.size⟩
      (p ++ .ofNodes [t.env.node (.block [])])
    rw [Piece.upTo_nil, List.nil_append, hupTo]
    show (newNode _ >>= _) p = _
    rw [newNode_bind, bind_apply_of_ok happend]
    exact bind_apply_of_ok (hpush [])
  | cons s stmts =>
    rw [List.cons_append, hupTo, hupTo]
    exact bind_apply_of_ok (hpush (s :: stmts))

/-- A statement at which control divides is planned as a plan at which it does. -/
theorem isFork_of_plan {x : Stmt} (hx : x.isFork = true) {cx : Context} {plan : Option Plan}
    (h : x.plan cx = .ok plan) : ∃ fork : Fork, plan = some fork.1 := by
  cases x with
  | branch site test body rest =>
    obtain ⟨q, rest', -, -, -, -, rfl⟩ := Stmt.plan_branch_eq_ok h
    exact ⟨⟨.branch test (.orIdle q) rest', rfl⟩, rfl⟩
  | loop site head body orelse =>
    obtain ⟨q, annex, -, -, -, rfl⟩ := Stmt.plan_loop_eq_ok h
    exact ⟨⟨.loop head.span (.orIdle q) annex, rfl⟩, rfl⟩
  | attempt site body list orelse final =>
    obtain ⟨_, _, region, q, handlers, annex, annex', -, -, -, -, -, -, -, -, -, rfl⟩ :=
      Stmt.plan_attempt_eq_ok h
    exact ⟨⟨.attempt region (.orIdle q) handlers annex annex', rfl⟩, rfl⟩
  | dispatch site subject list =>
    obtain ⟨region, cases', -, -, -, rfl⟩ := Stmt.plan_dispatch_eq_ok h
    exact ⟨⟨.dispatch subject region cases', rfl⟩, rfl⟩
  | _ => cases hx

end Job

/-- The edge that leads to a fork is the last one that is added. -/
theorem Fork.layout_previous (fork : Fork) (env : Env) (base : NodeId) (previous : Option NodeId) :
    (fork.1.layout env base previous).piece =
      (fork.1.layout env base none).piece ++
        .edgeFrom previous (fork.1.entryAt base) .always := by
  obtain ⟨plan, hplan⟩ := fork
  cases plan with
  | branch | loop | dispatch =>
    refine Piece.ext_fields ?_ ?_ ?_ <;> simp [Plan.layout, Plan.entryAt]
  | attempt region body handlers orelse final =>
    refine Piece.ext_fields ?_ ?_ ?_ <;> simp [Plan.layout_attempt, Plan.entryAt]
  | _ => cases hplan

theorem Fork.andThen (fork : Fork) (rest : Plan) : fork.1.andThen rest = .seq fork.1 rest := by
  obtain ⟨plan, hplan⟩ := fork
  cases plan with
  | branch | loop | dispatch | attempt => rfl
  | _ => cases hplan

theorem Fork.standsAlone (fork : Fork) : fork.1.standsAlone := by
  obtain ⟨plan, hplan⟩ := fork
  intro s
  cases plan with
  | branch | loop | dispatch | attempt => rfl
  | _ => cases hplan

namespace Job

variable {call : Job → Making Fragment} {t : Job}

/-- A fork that was built is led to from what was built before. -/
theorem append_fork_conforms {x : Stmt} (hx : x.isFork = true) {cx : Context}
    {build : Making Fragment} {s : Progress} (hs : s.Sound) {p : Piece}
    (h : Conforms (build p) (x.plan cx) (fun plan => (Plan.orIdle plan).fragment t.env p.size)
      (fun plan => (Plan.orIdle plan).after t.env p) (fun fork : Fork => fork.1.after t.env p)) :
    Conforms ((build >>= s.append) p) (x.plan cx)
      (fun plan => ⟨some (s.entry.getD ((Plan.orIdle plan).entryAt p.size)),
        (Plan.orIdle plan).exitAt p.size, none⟩)
      (fun plan => p ++ ((Plan.orIdle plan).layout t.env p.size s.tail).piece)
      (fun fork : Fork => p ++ (fork.1.layout t.env p.size s.tail).piece) := by
  refine h.andThen (fun fork => ⟨fork, ?_⟩) fun plan hplan => ?_
  -- the edge that leads to the fork comes after the fork itself
  · rw [fork.layout_previous, ← Piece.append_assoc]
    exact Piece.starts_append _ _
  · obtain ⟨fork, rfl⟩ := isFork_of_plan hx hplan
    rw [hs.append_apply, Plan.orIdle, fork.layout_previous, ← Piece.append_assoc]
    simp [Plan.fragment, Plan.after]

/-- A fork is built as planned. -/
theorem stmt_conforms_of_isFork {x : Stmt} (hx : x ∈ t.body) (hfork : x.isFork = true)
    (hcalls : ∀ t', t.Calls t' → t'.Follows call) {s : Progress} (hs : s.Sound) (p : Piece) :
    Conforms (t.stmt call s x p) (x.plan t.context)
      (fun plan => ⟨some (s.entry.getD ((Plan.orIdle plan).entryAt p.size)),
        (Plan.orIdle plan).exitAt p.size, none⟩)
      (fun plan => p ++ ((Plan.orIdle plan).layout t.env p.size s.tail).piece)
      (fun fork : Fork => p ++ (fork.1.layout t.env p.size s.tail).piece) := by
  cases x with
  | branch site test body rest =>
    exact append_fork_conforms hfork hs (branch_conforms (hcalls _ (.arm hx))
      (fun clause hc => hcalls _ (.clause hx hc)) p)
  | loop site head body orelse =>
    exact append_fork_conforms hfork hs (loop_conforms (fun ends => hcalls _ (.loop hx ends))
      (fun region => hcalls _ (.afterLoop hx region)) p)
  | attempt site body list orelse final =>
    exact append_fork_conforms hfork hs (attempt_conforms
      (fun whole clause part hp region => hcalls _ (.watched hx whole clause hp region))
      (fun region => hcalls _ (.final hx region)) p)
  | dispatch site subject list =>
    exact append_fork_conforms hfork hs (dispatch_conforms
      (fun case hc region => hcalls _ (.case hx hc region)) p)
  | _ => cases hfork

/-- A `raise` is built as planned. -/
theorem stmt_conforms_raise {site : Site} (hx : .jump site .raising ∈ t.body)
    (hcalls : ∀ t', t.Calls t' → t'.Follows call) {s : Progress} (hs : s.Sound) (p : Piece) :
    Conforms (t.stmt call s (.jump site .raising) p) ((Stmt.jump site .raising).plan t.context)
      (fun plan => ⟨some (s.entry.getD ((Plan.orIdle plan).entryAt p.size)),
        (Plan.orIdle plan).exitAt p.size, none⟩)
      (fun plan => p ++ ((Plan.orIdle plan).layout t.env p.size s.tail).piece)
      (fun route : Route => p ++ ((Plan.raise site route).layout t.env p.size s.tail).piece) := by
  have hunwind := unwind_conforms site .raising t.scopes
    (fun clause whole region outer h => hcalls _ (.replay hx h)) p.size
  simp only [stmt, newNode_bind, bind_apply_of_ok (hs.append_apply ..), Stmt.plan]
  refine (hunwind _).bind (fun route => ⟨route, ?_⟩) fun route _ => .done ?_ ?_ ?_ ?_
  · constructor <;> simp [Plan.layout]
  all_goals simp [Plan.layout, Plan.orIdle, Plan.entryAt, Plan.exitAt]

/-- A plan behind a block, as one more plan of a sequence. -/
theorem conforms_behind {ι : Type} {r : EStateM.Result Failure Piece Progress}
    {X : Except Failure (Option Plan)} {entry previous : Option NodeId} {p : Piece}
    {stmts : List Stmt} {g : ι → Plan}
    (h : Conforms r X
      (fun plan => ⟨some ((Progress.upTo p.size entry previous stmts).entry.getD
          ((Plan.orIdle plan).entryAt (p.upTo t.env previous stmts).size)),
        (Plan.orIdle plan).exitAt (p.upTo t.env previous stmts).size, none⟩)
      (fun plan => p.upTo t.env previous stmts ++
        ((Plan.orIdle plan).layout t.env (p.upTo t.env previous stmts).size
          (Progress.upTo p.size entry previous stmts).tail).piece)
      (fun i => p.upTo t.env previous stmts ++
        ((g i).layout t.env (p.upTo t.env previous stmts).size
          (Progress.upTo p.size entry previous stmts).tail).piece))
    (halone : ∀ plan, X = .ok plan → ∃ q, plan = some q ∧ q.standsAlone)
    (hg : ∀ i, (g i).standsAlone) :
    Conforms r X
      (fun plan => ⟨some (entry.getD ((Plan.behind stmts (Plan.orIdle plan)).entryAt p.size)),
        (Plan.behind stmts (Plan.orIdle plan)).exitAt p.size, none⟩)
      (fun plan => p ++ ((Plan.behind stmts (Plan.orIdle plan)).layout t.env p.size previous).piece)
      (fun plan : Plan => p ++ (plan.layout t.env p.size previous).piece) := by
  cases X with
  | ok plan =>
    obtain ⟨q, rfl, hq⟩ := halone plan rfl
    obtain ⟨hmade, hentry, hexit⟩ := hq.layout_behind t.env p entry previous stmts
    rw [conforms_ok] at h ⊢
    rw [h, Plan.orIdle, hmade, hentry, hexit]
  | error failure =>
    -- up to the failure the piece is the beginning of one that was planned
    obtain ⟨i, p', hr, hp'⟩ := h
    obtain ⟨hmade, -, -⟩ := (hg i).layout_behind t.env p entry previous stmts
    refine ⟨.behind stmts (g i), p', hr, ?_⟩
    show p'.Starts (p ++ _)
    rw [hmade]
    exact hp'

/-- A jump other than a `raise` joins the block before it. -/
theorem stmt_jump {means : Jump} (hm : means ≠ .raising) (site : Site) (s : Progress) :
    t.stmt call s (.jump site means) =
      t.put s (.jump site means) >>= fun r => t.unwind call site means r.1 t.scopes >>= fun _ =>
        pure { r.2 with tail := none, block := none } := by
  cases means with
  | raising => exact absurd rfl hm
  | _ => rfl

/-- A jump out of a block is built as planned. -/
theorem stmt_conforms_jump {site : Site} {means : Jump} (hm : means ≠ .raising)
    (hx : .jump site means ∈ t.body) (hcalls : ∀ t', t.Calls t' → t'.Follows call)
    {entry previous : Option NodeId} (h : entry = none → previous = none) (p : Piece)
    (stmts : List Stmt) :
    Conforms (t.stmt call (.upTo p.size entry previous stmts) (.jump site means)
        (p.upTo t.env previous stmts)) ((Stmt.jump site means).plan t.context)
      (fun plan => ⟨some (entry.getD ((Plan.behind stmts (Plan.orIdle plan)).entryAt p.size)),
        (Plan.behind stmts (Plan.orIdle plan)).exitAt p.size, none⟩)
      (fun plan => p ++ ((Plan.behind stmts (Plan.orIdle plan)).layout t.env p.size previous).piece)
      (fun plan : Plan => p ++ (plan.layout t.env p.size previous).piece) := by
  have hunwind := unwind_conforms site means t.scopes
    (fun clause whole region outer h => hcalls _ (.replay hx h)) p.size
  -- the jump joins the block in front of it, and unwinds from there
  have hput := t.put_apply (.jump site means) h p stmts
  have hplan : (Stmt.jump site means).plan t.context =
      Route.through site means t.context.around >>= fun route =>
        pure (some (.jump [] site means route)) := by
    cases means with
    | raising => exact absurd rfl hm
    | _ => rfl
  rw [stmt_jump hm, hplan, bind_apply_of_ok hput, Piece.upTo_concat, Progress.upTo_concat]
  refine (hunwind _).bind (fun route => ⟨.jump stmts site means route, ?_⟩) fun route _ =>
    .done ?_ ?_ ?_ ?_
  · constructor <;> simp [Plan.layout]
  all_goals simp [Plan.layout, Plan.orIdle, Plan.behind_jump, Plan.entryAt, Plan.exitAt]

/-- A `with` after the statements of a block is built as planned. -/
theorem stmt_conforms_hold {site : Site} {isAsync : Bool} {header : Span} {body : List Stmt}
    (hx : .hold site isAsync header body ∈ t.body) (hcalls : ∀ t', t.Calls t' → t'.Follows call)
    {entry previous : Option NodeId} (h : entry = none → previous = none) (p : Piece)
    (stmts : List Stmt) :
    Conforms (t.stmt call (.upTo p.size entry previous stmts) (.hold site isAsync header body)
        (p.upTo t.env previous stmts)) ((Stmt.hold site isAsync header body).plan t.context)
      (fun plan => ⟨some (entry.getD ((Plan.behind stmts (Plan.orIdle plan)).entryAt p.size)),
        (Plan.behind stmts (Plan.orIdle plan)).exitAt p.size, none⟩)
      (fun plan => p ++ ((Plan.behind stmts (Plan.orIdle plan)).layout t.env p.size previous).piece)
      (fun plan : Plan => p ++ (plan.layout t.env p.size previous).piece) := by
  have hput := t.put_apply (.hold site isAsync header body) h p stmts
  simp only [stmt, Stmt.plan, hold, bind_assoc, bind_apply_of_ok hput, Piece.upTo_concat,
    Progress.upTo_concat]
  -- if the region is missing, the block with the `with` has been built
  refine Conforms.settle ⟨.block (stmts ++ [.hold site isAsync header body]), ?_⟩ fun region _ => ?_
  · constructor <;> simp [Plan.layout]
  have hbody := (hcalls _ (.hold hx region)).required site
  refine (hbody _).bind (fun plan =>
    ⟨.hold stmts (.hold site isAsync header body) region plan, ?_⟩) fun plan _ => .done ?_ ?_ ?_ ?_
  · constructor <;> simp [Plan.after, Plan.layout]
  all_goals
    simp [Plan.after, Plan.fragment, Plan.layout, Plan.orIdle, Plan.behind_hold, Plan.entryAt,
      Plan.exitAt]

/-- A statement that ends the block before it is built as planned. -/
theorem stmt_conforms {x : Stmt} (hx : x ∈ t.body) (hs : x.isStraight = false)
    (hcalls : ∀ t', t.Calls t' → t'.Follows call) {entry previous : Option NodeId}
    (h : entry = none → previous = none) (p : Piece) (stmts : List Stmt) :
    Conforms (t.stmt call (.upTo p.size entry previous stmts) x (p.upTo t.env previous stmts))
      (x.plan t.context)
      (fun plan => ⟨some (entry.getD ((Plan.behind stmts (Plan.orIdle plan)).entryAt p.size)),
        (Plan.behind stmts (Plan.orIdle plan)).exitAt p.size, none⟩)
      (fun plan => p ++ ((Plan.behind stmts (Plan.orIdle plan)).layout t.env p.size previous).piece)
      (fun plan : Plan => p ++ (plan.layout t.env p.size previous).piece) := by
  have hsound := Progress.Sound.upTo h p.size stmts
  -- a fork begins with a node of its own, which ends the block in front of it
  have hfork : x.isFork = true → _ := fun hf =>
    conforms_behind (g := Subtype.val) (stmt_conforms_of_isFork hx hf hcalls hsound _)
      (fun plan hplan => by
        obtain ⟨fork, rfl⟩ := isFork_of_plan hf hplan
        exact ⟨fork.1, rfl, fork.standsAlone⟩) Fork.standsAlone
  cases x with
  | simple | pass | marker => cases hs
  | branch | loop | attempt | dispatch => exact hfork rfl
  | jump site means =>
    by_cases hm : means = .raising
    · subst hm
      refine conforms_behind (stmt_conforms_raise hx hcalls hsound _) (fun plan hplan => ?_)
        fun route _ => rfl
      obtain ⟨route, -, rfl⟩ := Stmt.plan_jump_eq_ok hplan
      exact ⟨.raise site route, rfl, fun _ => rfl⟩
    · exact stmt_conforms_jump hm hx hcalls h p stmts
  | hold site isAsync header body => exact stmt_conforms_hold hx hcalls h p stmts
  | yield site =>
    refine conforms_behind (g := fun _ : Unit => .yield site) ?_ (fun plan hplan => ?_)
      fun _ _ => rfl
    · rw [Stmt.plan, conforms_ok]
      refine (hsound.append_apply _ _).trans (congrArg _ (Piece.ext_fields ?_ ?_ ?_)) <;>
        simp [Plan.layout, Plan.orIdle]
    · cases hplan
      exact ⟨.yield site, rfl, fun _ => rfl⟩
  | unsupported site =>
    -- the statement fails at once: what has been built is the block in front of it
    refine ⟨.behind stmts .idle, p.upTo t.env previous stmts, rfl, ?_⟩
    have hidle : Plan.idle.standsAlone := fun _ => rfl
    show Piece.Starts _ (p ++ _)
    rw [(hidle.layout_behind t.env p entry previous stmts).1]
    exact Piece.starts_append _ _

/-- Where a sequence that began with `entry` and continued after `previous` begins and completes,
if a plan from the node `base` on was added to it. -/
def endsAfter (base : NodeId) (entry previous : Option NodeId) :
    Option Plan → Option NodeId × Option NodeId
  | none => (entry, previous)
  | some plan => (some (entry.getD (plan.entryAt base)), plan.exitAt base)

/-- A statement that is no straight-line statement has a plan that nothing joins from behind. -/
theorem andThen_of_plan {x : Stmt} (hs : x.isStraight = false) {cx : Context} {plan : Option Plan}
    (h : x.plan cx = .ok plan) :
    ∃ q, plan = some q ∧ ∀ rest, q.andThen rest = .seq q rest := by
  by_cases hf : x.isFork = true
  · obtain ⟨fork, rfl⟩ := isFork_of_plan hf h
    exact ⟨fork.1, rfl, fork.andThen⟩
  cases x with
  | simple | pass | marker => cases hs
  | branch | loop | attempt | dispatch => exact absurd rfl hf
  | yield site =>
    cases h
    exact ⟨.yield site, rfl, fun _ => rfl⟩
  | jump site means =>
    obtain ⟨route, -, rfl⟩ := Stmt.plan_jump_eq_ok h
    refine ⟨_, rfl, fun rest => ?_⟩
    split <;> rfl
  | hold site isAsync header body =>
    obtain ⟨region, q, -, -, -, rfl⟩ := Stmt.plan_hold_eq_ok h
    exact ⟨_, rfl, fun _ => rfl⟩
  | unsupported site => cases h

/-- A straight-line statement is added to the block, unless it is left out. -/
theorem stmt_of_isStraight {x : Stmt} (hs : x.isStraight = true) (s : Progress) :
    t.stmt call s x = if x.kept t.options.markers then t.put s x >>= fun r => pure r.2 else pure s
    := by
  cases x with
  | simple | pass | marker => rfl
  | _ => cases hs

/-- A sequence of statements is built as planned, from a block on that it ended in. -/
theorem stmts_conforms (hcalls : ∀ t', t.Calls t' → t'.Follows call) : (rest : List Stmt) →
    (∀ x ∈ rest, x ∈ t.body) → ∀ (entry previous : Option NodeId),
    (entry = none → previous = none) → ∀ (p : Piece) (stmts : List Stmt),
      Conforms ((rest.foldlM (t.stmt call) (.upTo p.size entry previous stmts) >>= fun s =>
          pure (s.entry, s.tail)) (p.upTo t.env previous stmts)) (planBody t.context rest)
        (fun plan => endsAfter p.size entry previous
          (Option.merge Plan.andThen (Plan.ofBlock stmts) plan))
        (fun plan => p ++ Plan.pieceOf t.env p.size previous
          (Option.merge Plan.andThen (Plan.ofBlock stmts) plan))
        (fun plan : Plan => p ++ (plan.layout t.env p.size previous).piece)
  | [], _, entry, previous, h, p, stmts => by
    cases stmts <;> rfl
  | x :: rest, hx, entry, previous, h, p, stmts => by
    rw [List.foldlM_cons, planBody, bind_assoc]
    cases hs : x.isStraight with
    | true =>
      have hrest := stmts_conforms hcalls rest (fun y hy => hx y (by simp [hy])) entry previous h p
      rw [stmt_of_isStraight hs, Stmt.plan_of_isStraight hs]
      show Conforms _ (planBody t.context rest >>= fun r => pure (Option.merge Plan.andThen
        (if x.kept t.options.markers then some (.block [x]) else none) r)) _ _ _
      -- a marker that is left out changes nothing
      cases x.kept t.options.markers with
      | false =>
        refine (hrest stmts).within (fun r => ?_) (fun r => ?_)
          fun r => ⟨r, Piece.Starts.refl _⟩ <;>
          simp
      | true =>
        rw [if_pos rfl, bind_assoc, bind_apply_of_ok (t.put_apply x h p stmts)]
        refine (hrest (stmts ++ [x])).within (fun r => ?_) (fun r => ?_)
          fun r => ⟨r, Piece.Starts.refl _⟩ <;>
          simp only [Plan.merge_ofBlock_concat, if_pos]
    | false =>
      refine (stmt_conforms (hx x (by simp)) hs hcalls h p stmts).bind
        (fun plan => ⟨plan, Piece.Starts.refl _⟩) fun plan hplan => ?_
      obtain ⟨q, rfl, hseq⟩ := andThen_of_plan hs hplan
      have hrest := stmts_conforms hcalls rest (fun y hy => hx y (by simp [hy]))
        (some (entry.getD ((Plan.behind stmts q).entryAt p.size)))
        ((Plan.behind stmts q).exitAt p.size) (fun h => absurd h (Option.some_ne_none _))
        (p ++ ((Plan.behind stmts q).layout t.env p.size previous).piece) []
      rw [Piece.upTo_nil] at hrest
      refine hrest.within (fun r => ?_) (fun r => ?_) fun r => ⟨.seq (.behind stmts q) r, ?_⟩
      · cases r <;> simp [endsAfter, Plan.ofBlock_nil, Plan.merge_ofBlock_some, hseq,
          Plan.behind_seq, Plan.entryAt, Plan.exitAt]
      · cases r <;> refine Piece.ext_fields ?_ ?_ ?_ <;>
          simp [Plan.pieceOf, Plan.ofBlock_nil, Plan.merge_ofBlock_some, hseq, Plan.behind_seq,
            Plan.layout]
      · constructor <;> simp [Plan.layout]

/-- A body is built as planned, if the jobs inside it are. -/
theorem step_conforms (hcalls : ∀ t', t.Calls t' → t'.Follows call) (p : Piece) :
    Conforms (t.step call p) (planBody t.context t.body)
      (fun plan => (Plan.orIdle plan).fragment t.env p.size)
      (fun plan => (Plan.orIdle plan).after t.env p) (Plan.after t.env p) := by
  have hstmts := stmts_conforms hcalls t.body (fun _ hx => hx) none none (fun _ => rfl) p []
  rw [Piece.upTo_nil] at hstmts
  have hstep : t.step call = (t.body.foldlM (t.stmt call) ⟨none, none, none⟩ >>= fun s =>
      pure (s.entry, s.tail)) >>= fun ends => t.complete ends.1 ends.2 := by
    rw [bind_assoc]
    rfl
  rw [hstep]
  refine hstmts.andThen (fun plan => ⟨plan, Piece.Starts.refl _⟩) fun plan _ => ?_
  cases plan with
  | none =>
    -- every statement was left out
    show (newNode _ >>= _) (p ++ .nil) = _
    rw [show p ++ .nil = p from Piece.append_nodes_nil p, newNode_bind]
    refine congrArg (EStateM.Result.ok _) (Piece.ext_fields ?_ ?_ ?_) <;>
      simp [Plan.after, Plan.orIdle, Plan.layout]
  | some plan =>
    rw [Plan.fragment, Plan.entry_layout, Plan.exit_layout]
    rfl

/-- Every job is done as planned. -/
theorem follows_run (t : Job) : t.Follows run := by
  induction hw : t.weight using Nat.strong_induction_on generalizing t with
  | _ weight ih =>
    subst hw
    intro p
    rw [run_eq_step]
    exact step_conforms (fun t' hcall => ih _ hcall.weight_lt t' rfl) p

/-- A jump out of all scopes takes the route that was planned. -/
theorem unwind_run_conforms (t : Job) (site : Site) (means : Jump) (source : NodeId) (s : Piece) :
    Conforms (t.unwind run site means source t.scopes s)
      (Route.through site means t.context.around) (fun _ => ())
      (fun route => s ++ route.layout t.env s.size source site means)
      (fun route : Route => s ++ route.layout t.env s.size source site means) :=
  unwind_conforms site means t.scopes (fun _ _ _ _ _ => follows_run _) source s

end Job

/-! ## Building a function -/

/-- The body of a function, as a job. -/
def Job.ofBody (options : Options) (body : List Stmt) : Job where
  regions := RegionTree.ofBody body
  options := options
  region := RegionTree.root
  scopes := []
  duplicate := false
  body := body

theorem Job.env_ofBody (options : Options) (body : List Stmt) :
    (Job.ofBody options body).env = ⟨RegionTree.root, false, options.flatDispatch, []⟩ := rfl

/-- Builds a function: its entry, its body, which must not be empty, and its exit. -/
def construct (options : Options) (body : List Stmt) : Making NodeId :=
  if body.isEmpty then settle (.error (.rejected ⟨.emptyBody, none, ⟨0, 0⟩⟩))
  else do
    let t := Job.ofBody options body
    let entry ← newNode (t.env.node .entry)
    let built ← t.run
    connect entry built.entry .always
    let exit ← newNode (t.env.node .exit)
    connectFrom built.exit exit .always
    record ⟨exit, .fallsThrough⟩
    return exit

/-- A function is built as planned. -/
theorem construct_conforms (options : Options) (body : List Stmt) :
    Conforms (construct options body .nil) (Plan.ofBody options (RegionTree.ofBody body) body)
      (fun plan => (Piece.ofPlan options.flatDispatch plan).2)
      (fun plan => (Piece.ofPlan options.flatDispatch plan).1)
      (fun plan : Plan => (Piece.ofPlan options.flatDispatch plan).1) := by
  rw [construct, Plan.ofBody]
  cases body.isEmpty with
  | true =>
    refine ⟨.idle, .nil, rfl, ?_⟩
    constructor <;> simp
  | false =>
    -- the entry is made before the body
    have hbody := ((Job.ofBody options body).follows_run
      (.nil ++ .ofNodes [(Job.ofBody options body).env.node .entry])).orIdle
    refine hbody.andThen (fun plan => ⟨plan, ?_⟩) fun plan _ => ?_
    · constructor <;> simp [Piece.ofPlan, Plan.after, Job.env_ofBody]
    · show EStateM.Result.ok _ _ = .ok _ _
      congr 1
      · simp [Piece.ofPlan, Plan.after]
      · refine Piece.ext_fields ?_ ?_ ?_ <;>
          simp [Piece.ofPlan, Plan.after, Plan.fragment, Job.env_ofBody]

/-- The value of a computation and what it made, unless it fails. -/
def Making.outcome {α : Type} (x : Making α) (s : Piece) : Except Failure (α × Piece) :=
  match x s with
  | .ok a p => .ok (a, p)
  | .error failure _ => .error failure

theorem Conforms.outcome {α β ι : Type} {x : Making α} {s : Piece} {X : Except Failure β}
    {value : β → α} {made : β → Piece} {cut : ι → Piece}
    (h : Conforms (x s) X value made cut) :
    x.outcome s = X.map fun b => (value b, made b) := by
  cases X with
  | ok b =>
    rw [Making.outcome, conforms_ok.1 h]
    rfl
  | error failure =>
    obtain ⟨_, p, hr, -⟩ := h
    rw [Making.outcome, hr]
    rfl

/-- Building a function in a single pass gives the graph that is planned. -/
theorem Graph.ofBody_eq_construct (options : Options) (body : List Stmt) :
    Graph.ofBody options body = (construct options body).outcome .nil >>= fun built =>
      Graph.ofLayout (RegionTree.ofBody body) built.2 built.1 := by
  rw [(construct_conforms options body).outcome, Graph.ofBody]
  cases Plan.ofBody options (RegionTree.ofBody body) body <;> rfl

/-- **The construction of a graph comes to an end.**  A body calls for lighter jobs only, and
unwinding a jump for jobs that are no heavier than the `finally` clauses around it, so there is one
way to build bodies; it is what planning them and laying out their plans comes to. -/
theorem Job.construction_terminates :
    (∀ t t' : Job, t.Calls t' → t'.weight < t.weight) ∧
    (∀ (f g : Job → Making Fragment) (t : Job), (∀ t', t.Calls t' → f t' = g t') →
      t.step f = t.step g) ∧
    (∀ (f g : Job → Making Fragment) (t : Job),
      (∀ t', t'.weight ≤ Scope.weight t.scopes → f t' = g t') → ∀ site means source,
      t.unwind f site means source t.scopes = t.unwind g site means source t.scopes) ∧
    (∀ t : Job, t.run = t.step run) ∧
    (∀ f : Job → Making Fragment, (∀ t : Job, f t = t.step f) → f = run) ∧
    (∀ (t : Job) (made : Piece), t.run.outcome made = do
      let plan ← planBody t.context t.body
      let stretch := (Plan.orIdle plan).layout t.env made.size none
      return (⟨stretch.entry, stretch.exit⟩, made ++ stretch.piece)) ∧
    (∀ (t : Job) (made : Piece) (site : Site) (means : Jump) (source : NodeId),
      (t.unwind run site means source t.scopes).outcome made = do
        let route ← Route.through site means t.context.around
        return ((), made ++ route.layout t.env made.size source site means)) ∧
    (∀ (options : Options) (body : List Stmt), Graph.ofBody options body = do
      let built ← (construct options body).outcome .nil
      Graph.ofLayout (RegionTree.ofBody body) built.2 built.1) := by
  refine ⟨fun t t' h => h.weight_lt, fun f g t h => step_congr h,
    fun f g t h site means source => ?_, run_eq_step, fun f h => funext (eq_run h),
    fun t made => ?_, fun t made site means source => ?_, Graph.ofBody_eq_construct⟩
  -- the clauses that unwinding builds are on the stack of scopes, which bounds their weight
  · refine unwind_congr site means t.scopes (fun clause whole region outer hs => h _ ?_) source
    exact Scope.weight_le_of_suffix hs
  · rw [(t.follows_run made).outcome]
    cases planBody t.context t.body <;> rfl
  · rw [(unwind_run_conforms t site means source made).outcome]
    cases Route.through site means t.context.around <;> rfl

end Flowgraph
