import Flowgraph.Proofs.Outlook
import Flowgraph.Proofs.Replay
import Flowgraph.Proofs.SinglePass

/-!
# Planning ahead makes no difference

A statement that is built in a single pass is built as it would be planned and laid out: the same
nodes, edges and exits are added in the same order, and the same failure is met.  A failure is met
on the way, though, when part of the statement is there already.  What was made until then is the
beginning of a layout.

The constructs where control divides, and the way out of a jump, are compared here one by one,
given that the jobs inside them are done as planned.

## Main definitions

* `Piece.Starts` : a piece is the beginning of another one.
* `Conforms` : the result of a computation is what was planned.
* `Job.Follows` : a job is done as planned.

## Main results

* `Conforms.bind` : computations that follow one another conform to plans that do.
* `Job.branch_conforms`, `Job.loop_conforms`, `Job.dispatch_conforms`, `Job.attempt_conforms` :
  statements where control divides are built as planned.
* `Job.unwind_conforms` : a jump takes the route that was planned.
-/

namespace Flowgraph

open Making

/-! ## Pieces that are cut short -/

/-- The first piece is the beginning of the second. -/
structure Piece.Starts (p q : Piece) : Prop where
  nodes : p.nodes <+: q.nodes
  edges : p.edges <+: q.edges
  exits : p.exits <+: q.exits

namespace Piece

variable {p q r : Piece}

theorem Starts.refl (p : Piece) : p.Starts p :=
  ⟨List.prefix_rfl, List.prefix_rfl, List.prefix_rfl⟩

theorem Starts.trans (h : p.Starts q) (h' : q.Starts r) : p.Starts r :=
  ⟨h.nodes.trans h'.nodes, h.edges.trans h'.edges, h.exits.trans h'.exits⟩

theorem ext_fields (hn : p.nodes = q.nodes) (he : p.edges = q.edges) (hx : p.exits = q.exits) :
    p = q := by
  cases p
  cases q
  simp_all

theorem size_append_node (p : Piece) (node : Node) : (p ++ .ofNodes [node]).size = p.size + 1 := by
  simp

theorem append_nodes_nil (p : Piece) : p ++ .ofNodes [] = p :=
  ext_fields (by simp) (by simp) (by simp)

theorem append_node_nodes (p : Piece) (node : Node) (nodes : List Node) :
    p ++ .ofNodes [node] ++ .ofNodes nodes = p ++ .ofNodes (node :: nodes) :=
  ext_fields (by simp) (by simp) (by simp)

theorem append_edges_nil (p : Piece) : p ++ .ofEdges [] = p :=
  ext_fields (by simp) (by simp) (by simp)

theorem append_edgeFrom_none (p : Piece) (v : NodeId) (label : Label) :
    p ++ .edgeFrom none v label = p :=
  append_edges_nil p

theorem append_edge_edges (p : Piece) (u v : NodeId) (label : Label) (edges : List Edge) :
    p ++ .edge u v label ++ .ofEdges edges = p ++ .ofEdges (⟨u, v, label⟩ :: edges) :=
  ext_fields (by simp) (by simp) (by simp)

theorem starts_append (p q : Piece) : p.Starts (p ++ q) :=
  ⟨List.prefix_append .., List.prefix_append .., List.prefix_append ..⟩

end Piece

/-! ## Computations that do what was planned -/

section Conforms

variable {α β γ δ ι κ : Type}

/-- The result of a computation is what was planned.  If the plan is complete, it determines the
value and what was made; if there is no plan, the computation fails in the same way and what was
made is cut short. -/
def Conforms (r : EStateM.Result Failure Piece α) (planned : Except Failure β) (value : β → α)
    (made : β → Piece) (cut : ι → Piece) : Prop :=
  match planned with
  | .ok b => r = .ok (value b) (made b)
  | .error failure => ∃ i p, r = .error failure p ∧ p.Starts (cut i)

@[simp] theorem conforms_ok {r : EStateM.Result Failure Piece α} {b : β} {value : β → α}
    {made : β → Piece} {cut : ι → Piece} :
    Conforms r (.ok b) value made cut ↔ r = .ok (value b) (made b) :=
  Iff.rfl

@[simp] theorem conforms_pure {r : EStateM.Result Failure Piece α} {b : β} {value : β → α}
    {made : β → Piece} {cut : ι → Piece} :
    Conforms r (pure b) value made cut ↔ r = .ok (value b) (made b) :=
  Iff.rfl

variable {x : Making α} {f : α → Making γ} {s : Piece} {X : Except Failure β}
  {F : β → Except Failure δ} {value : β → α} {made : β → Piece} {cut : ι → Piece}
  {value' : δ → γ} {made' : δ → Piece} {cut' : κ → Piece}

theorem Conforms.bind (hx : Conforms (x s) X value made cut)
    (hcut : ∀ i, ∃ j, (cut i).Starts (cut' j))
    (hf : ∀ b, X = .ok b → Conforms (f (value b) (made b)) (F b) value' made' cut') :
    Conforms ((x >>= f) s) (X >>= F) value' made' cut' := by
  cases X with
  | ok b =>
    have hx : x s = .ok (value b) (made b) := hx
    rw [bind_apply_of_ok hx]
    exact hf b rfl
  | error failure =>
    obtain ⟨i, p, hx, hp⟩ := hx
    -- what the first step built begins what both would build
    obtain ⟨j, hj⟩ := hcut i
    exact ⟨j, p, bind_apply_of_error hx, hp.trans hj⟩

/-- What follows cannot fail. -/
theorem Conforms.andThen {value' : β → γ} {made' : β → Piece} (hx : Conforms (x s) X value made cut)
    (hcut : ∀ i, ∃ j, (cut i).Starts (cut' j))
    (hf : ∀ b, X = .ok b → f (value b) (made b) = .ok (value' b) (made' b)) :
    Conforms ((x >>= f) s) X value' made' cut' := by
  have h : Conforms ((x >>= f) s) (X >>= pure) value' made' cut' := hx.bind hcut hf
  rwa [bind_pure] at h

theorem Conforms.settle {f : β → Making γ} (hcut : ∃ j, s.Starts (cut' j))
    (hf : ∀ b, X = .ok b → Conforms (f b s) (F b) value' made' cut') :
    Conforms ((settle X >>= f) s) (X >>= F) value' made' cut' := by
  cases X with
  | ok b => exact hf b rfl
  | error failure =>
    obtain ⟨j, hj⟩ := hcut
    exact ⟨j, s, rfl, hj⟩

/-- The plan is part of a larger one. -/
theorem Conforms.within {r : EStateM.Result Failure Piece α} {value' : δ → α} {g : β → δ}
    (h : Conforms r X value made cut) (hvalue : ∀ b, value b = value' (g b))
    (hmade : ∀ b, made b = made' (g b)) (hcut : ∀ i, ∃ j, (cut i).Starts (cut' j)) :
    Conforms r (X >>= fun b => pure (g b)) value' made' cut' := by
  cases X with
  | ok b =>
    have h : r = .ok (value b) (made b) := h
    rwa [hvalue, hmade] at h
  | error failure =>
    obtain ⟨i, p, hr, hp⟩ := h
    obtain ⟨j, hj⟩ := hcut i
    exact ⟨j, p, hr, hp.trans hj⟩

/-- The computation is over. -/
theorem Conforms.done {a : α} {p : Piece} {b : β} (ha : a = value b)
    (hn : p.nodes = (made b).nodes) (he : p.edges = (made b).edges)
    (hx : p.exits = (made b).exits) : Conforms (.ok a p) (pure b) value made cut := by
  rw [conforms_pure, ha, Piece.ext_fields hn he hx]

/-- An idle plan stands for no plan. -/
theorem Conforms.orIdle {r : EStateM.Result Failure Piece α} {X : Except Failure (Option Plan)}
    {value : Plan → α} {made : Plan → Piece}
    (h : Conforms r X (fun plan => value (.orIdle plan)) (fun plan => made (.orIdle plan)) cut) :
    Conforms r (X.map .orIdle) value made cut := by
  cases X with
  | ok plan => exact h
  | error failure => exact h

end Conforms

namespace Making

variable {α : Type}

@[simp] theorem pure_apply (a : α) (s : Piece) : (pure a : Making α) s = .ok a s := rfl

@[simp] theorem newNode_bind (node : Node) (f : NodeId → Making α) (s : Piece) :
    (newNode node >>= f) s = f s.size (s ++ .ofNodes [node]) := rfl

@[simp] theorem connect_bind (u v : NodeId) (label : Label) (f : Unit → Making α) (s : Piece) :
    (connect u v label >>= f) s = f () (s ++ .edge u v label) := rfl

@[simp] theorem connectFrom_bind (u : Option NodeId) (v : NodeId) (label : Label)
    (f : Unit → Making α) (s : Piece) :
    (connectFrom u v label >>= f) s = f () (s ++ .edgeFrom u v label) := rfl

@[simp] theorem connect_apply (u v : NodeId) (label : Label) (s : Piece) :
    connect u v label s = .ok () (s ++ .edge u v label) := rfl

theorem mapM_newNode {β : Type} (g : β → Node) (list : List β) (s : Piece) :
    (list.mapM fun b => newNode (g b)) s =
      .ok (List.range' s.size list.length) (s ++ .ofNodes (list.map g)) := by
  induction list generalizing s with
  | nil =>
    rw [List.mapM_nil, pure_apply, List.map_nil, Piece.append_nodes_nil]
    rfl
  | cons b list ih =>
    rw [List.mapM_cons, newNode_bind, bind_apply_of_ok (ih _), pure_apply, Piece.size_append_node,
      Piece.append_node_nodes]
    rfl

end Making

namespace Plan

/-- Where a plan that is laid out from `base` begins and completes. -/
def fragment (env : Env) (base : NodeId) (plan : Plan) : Fragment :=
  ⟨(plan.layout env base none).entry, (plan.layout env base none).exit⟩

/-- Control divides at the beginning of the plan. -/
def isFork : Plan → Bool
  | branch .. | loop .. | dispatch .. | attempt .. => true
  | idle | block _ | yield _ | jump .. | raise .. | hold .. | seq .. => false

/-- The layout of a plan after what was made. -/
def after (env : Env) (s : Piece) (plan : Plan) : Piece :=
  s ++ (plan.layout env s.size none).piece

end Plan

/-- A plan where control divides. -/
abbrev Fork := { plan : Plan // plan.isFork = true }

theorem Plan.layout_attempt (env : Env) (base : Nat) (previous : Option NodeId) (region : RegionId)
    (body : Plan) (handlers : Handlers) (orelse final : Annex) :
    (attempt region body handlers orelse final).layout env base previous =
      let body := body.layout (env.within region) (base + 1) none
      let handlers := handlers.layout env (base + 1 + body.size) body.entry 0
      let orelse :=
        orelse.layoutAfterBody env (base + 1 + body.size + handlers.1.size) body.exit
      let final :=
        final.layoutBefore env (base + 1 + body.size + handlers.1.size + orelse.1.size) base
      { piece := .ofNodes [env.node .join] ++ body.piece ++ handlers.1 ++ orelse.1 ++ final.1 ++
          .ofEdges ((orelse.2.toList ++ handlers.2).map fun u => ⟨u, final.2, .always⟩) ++
          .edgeFrom previous body.entry .always
        entry := body.entry, exit := some base } := rfl

@[simp] theorem Plan.size_piece_layout (env : Env) (base : Nat) (previous : Option NodeId)
    (plan : Plan) : (plan.layout env base previous).piece.size = plan.size :=
  plan.size_layout env base previous

/-! ## Jobs that are done as planned -/

namespace Job

section Env

variable (t : Job) (body : List Stmt)

@[simp] theorem env_body : env ⟨t.toSpot, t.duplicate, body⟩ = t.env := rfl

@[simp] theorem env_within (region : RegionId) :
    env ⟨⟨t.regions, t.options, region, t.scopes⟩, t.duplicate, body⟩ = t.env.within region := rfl

@[simp] theorem env_inLoop (ends : LoopEnds) :
    env ⟨⟨t.regions, t.options, t.region, .loop ends :: t.scopes⟩, t.duplicate, body⟩ =
      t.env.inLoop ends := rfl

@[simp] theorem env_holding (region : RegionId) (header : Span) :
    env ⟨⟨t.regions, t.options, region, .resource header region :: t.scopes⟩, t.duplicate, body⟩ =
      t.env.within region := rfl

@[simp] theorem env_watched (whole : RegionId) (clause : List Stmt) (region : Option RegionId) :
    (t.watched whole clause region).env = t.env := by
  cases region <;> rfl

end Env

/-- The job is done as planned, whatever was made before. -/
def Follows (call : Job → Making Fragment) (t : Job) : Prop :=
  ∀ s, Conforms (call t s) (planBody t.context t.body)
    (fun plan => (Plan.orIdle plan).fragment t.env s.size)
    (fun plan => (Plan.orIdle plan).after t.env s) (Plan.after t.env s)

variable {call : Job → Making Fragment} {t : Job}

theorem Follows.required (h : t.Follows call) (site : Site) (s : Piece) :
    Conforms (t.required call site s) (nonemptyBody site t.body (planBody t.context t.body))
      (Plan.fragment t.env s.size) (Plan.after t.env s) (Plan.after t.env s) := by
  rw [Job.required, nonemptyBody]
  cases t.body.isEmpty with
  | true => exact ⟨.idle, s, rfl, Piece.starts_append _ _⟩
  | false => exact (h s).orIdle

/-! ## Branches and loops -/

/-- What is made of the body that `source` leads to. -/
def armed (env : Env) (source : NodeId) (label : Label) (join : NodeId) (s : Piece) (body : Plan) :
    Piece :=
  body.after env s ++ .edge source (body.fragment env s.size).entry label ++
    .edgeFrom (body.fragment env s.size).exit join .always

theorem arm_conforms {body : List Stmt} (h : { t with body }.Follows call) (site : Site)
    (source : NodeId) (label : Label) (join : NodeId) (s : Piece) :
    Conforms (t.arm call site source label body join s)
      (nonemptyBody site body (planBody t.context body)) (fun _ => ())
      (armed t.env source label join s) (armed t.env source label join s) := by
  refine (h.required site s).andThen (fun plan => ⟨plan, ?_⟩) fun plan _ => rfl
  exact (Piece.starts_append _ _).trans (Piece.starts_append _ _)

theorem lastMisplaced?_cons {clause : BranchClause} {rest : List BranchClause}
    (h : Clause.lastMisplaced? (clause :: rest) = none) : Clause.lastMisplaced? rest = none := by
  cases rest with
  | nil => rfl
  | cons next rest =>
    simp only [Clause.lastMisplaced?, List.find?_eq_none, List.mem_reverse] at h ⊢
    exact fun c hc => h c (List.mem_cons_of_mem _ hc)

theorem eq_nil_of_lastMisplaced? {span : Span} {body : List Stmt} {rest : List BranchClause}
    (h : Clause.lastMisplaced? (⟨span, none, body⟩ :: rest) = none) : rest = [] := by
  cases rest with
  | nil => rfl
  | cons next rest =>
    simp only [Clause.lastMisplaced?, List.find?_eq_none, List.mem_reverse] at h
    exact absurd rfl (h ⟨span, none, body⟩ (by simp))

/-- The clauses of an `if` are built as planned.  Without an `else` clause in the wrong place, the
last test leads on unless the clauses end with an `else` clause. -/
theorem clauses_conforms (site : Site) (join : NodeId) : (rest : List BranchClause) →
    (∀ clause ∈ rest, { t with body := clause.body }.Follows call) →
    Clause.lastMisplaced? rest = none → ∀ (test : NodeId) (s : Piece),
      Conforms (t.clauses call site join test false rest s) (planAlternatives t.context site rest)
        (fun _ => ()) (fun rest => s ++ rest.layout t.env s.size test join)
        (fun rest : Alternatives => s ++ rest.layout t.env s.size test join)
  | [], _, _, test, s => by simp [clauses, planAlternatives, Alternatives.layout]
  | ⟨_, none, body⟩ :: rest, h, hm, test, s => by
    obtain rfl := eq_nil_of_lastMisplaced? hm
    have hbody := arm_conforms (h _ List.mem_cons_self) site test .no join s
    simp only [clauses, planAlternatives]
    refine hbody.bind (fun plan => ⟨.otherwise plan, ?_⟩) fun plan _ => ?_
    · constructor <;> simp [armed, Plan.after, Plan.fragment, Alternatives.layout]
    · simp [armed, Plan.after, Plan.fragment, Alternatives.layout, Piece.append_assoc]
  | ⟨_, some header, body⟩ :: rest, h, hm, test, s => by
    have hbody := arm_conforms (h _ List.mem_cons_self) site s.size .yes join
      (s ++ .ofNodes [t.env.node (.test header)] ++ .edge test s.size .no)
    have hrest := clauses_conforms site join rest (fun clause hc => h clause (by simp [hc]))
      (lastMisplaced?_cons hm) s.size
    simp only [clauses, newNode_bind, connect_bind, planAlternatives]
    -- a failure cuts the clauses short, here or further on
    refine hbody.bind (fun plan => ⟨.test header plan .done, ?_⟩) fun plan _ =>
      (hrest _).within (fun _ => rfl) (fun rest => ?_) fun rest => ⟨.test header plan rest, ?_⟩
    · constructor <;> simp [armed, Plan.after, Plan.fragment, Alternatives.layout]
    · simp [armed, Plan.after, Plan.fragment, Alternatives.layout, Piece.append_assoc,
        Nat.add_assoc]
    · constructor <;>
        simp [armed, Plan.after, Plan.fragment, Alternatives.layout, Nat.add_assoc]

/-- An `if` is built as planned. -/
theorem branch_conforms {site : Site} {test : Span} {body : List Stmt} {rest : List BranchClause}
    (hb : { t with body }.Follows call)
    (hr : ∀ clause ∈ rest, { t with body := clause.body }.Follows call) (s : Piece) :
    Conforms (t.branch call site test body rest s)
      ((Stmt.branch site test body rest).plan t.context)
      (fun plan => (Plan.orIdle plan).fragment t.env s.size)
      (fun plan => (Plan.orIdle plan).after t.env s) (fun fork : Fork => fork.1.after t.env s) := by
  simp only [branch, Stmt.plan]
  refine Conforms.settle ⟨⟨.branch test .idle .done, rfl⟩, Piece.starts_append _ _⟩ fun _ hf => ?_
  -- the clauses are checked before any of them is built
  have hm : Clause.lastMisplaced? rest = none := by
    simpa [branchFault?] using rejectIf_eq_ok.1 hf
  have hbody := arm_conforms hb site s.size .yes (s.size + 1)
    (s ++ .ofNodes [t.env.node (.test test), t.env.node .join])
  have hrest := clauses_conforms site (s.size + 1) rest hr hm s.size
  simp only [newNode_bind, Piece.size_append_node, Piece.append_node_nodes]
  -- wherever the construction stops, it has built the beginning of some `if`
  refine hbody.bind (fun plan => ⟨⟨.branch test plan .done, rfl⟩, ?_⟩) fun plan _ =>
    (hrest _).bind (fun rest => ⟨⟨.branch test plan rest, rfl⟩, ?_⟩) fun rest _ =>
      .done rfl ?_ ?_ ?_
  · constructor <;> simp [armed, Plan.after, Plan.fragment, Plan.layout]
  · constructor <;> simp [armed, Plan.after, Plan.fragment, Plan.layout, Nat.add_assoc]
  all_goals simp [armed, Plan.after, Plan.fragment, Plan.layout, Plan.orIdle, Nat.add_assoc]

theorem afterLoop_conforms {orelse : List Stmt}
    (h : ∀ region, { t with region, body := orelse }.Follows call) (site : Site)
    (guard after : NodeId) (s : Piece) :
    Conforms (t.afterLoop call site guard after orelse s)
      (optionalClause (t.context.region site .orelse) orelse (planBody t.context orelse))
      (fun _ => ()) (fun annex => s ++ annex.layoutAfterLoop t.env s.size guard after)
      (fun annex : Annex => s ++ annex.layoutAfterLoop t.env s.size guard after) := by
  rw [afterLoop, optionalClause]
  cases orelse.isEmpty with
  | true => simp [Annex.layoutAfterLoop]
  | false =>
    refine Conforms.settle ⟨.absent, Piece.starts_append _ _⟩ fun region _ =>
      (h region s).bind (fun plan => ⟨.present region plan, ?_⟩) fun plan _ => .done rfl ?_ ?_ ?_
    · constructor <;> simp [Plan.after, Annex.layoutAfterLoop]
    all_goals
      simp [Plan.after, Plan.fragment, Annex.layoutAfterLoop]

/-- A loop is built as planned. -/
theorem loop_conforms {site : Site} {head : LoopHead} {body orelse : List Stmt}
    (hb : ∀ ends, { t with scopes := .loop ends :: t.scopes, body }.Follows call)
    (ho : ∀ region, { t with region, body := orelse }.Follows call) (s : Piece) :
    Conforms (t.loop call site head.span body orelse s)
      ((Stmt.loop site head body orelse).plan t.context)
      (fun plan => (Plan.orIdle plan).fragment t.env s.size)
      (fun plan => (Plan.orIdle plan).after t.env s) (fun fork : Fork => fork.1.after t.env s) := by
  -- the body is built inside the loop whose ends are the two nodes just made
  have hbody := (hb ⟨s.size, s.size + 1⟩).required site
    (s ++ .ofNodes [t.env.node (.test head.span), t.env.node .join])
  have helse := afterLoop_conforms ho site s.size (s.size + 1)
  simp only [loop, Stmt.plan, newNode_bind, Piece.size_append_node, Piece.append_node_nodes]
  refine hbody.bind (fun plan => ⟨⟨.loop head.span plan .absent, rfl⟩, ?_⟩) fun plan _ =>
    (helse _).bind (fun annex => ⟨⟨.loop head.span plan annex, rfl⟩, ?_⟩) fun annex _ =>
      .done rfl ?_ ?_ ?_
  · constructor <;> simp [Plan.after, Plan.layout]
  · constructor <;> simp [Plan.after, Plan.fragment, Plan.layout, Nat.add_assoc]
  all_goals
    simp [Plan.after, Plan.fragment, Plan.layout, Plan.orIdle, Nat.add_assoc]

/-! ## Matches -/

/-- The alternatives of a case are connected one by one as a layout connects them all. -/
theorem alternatives_apply (t : Job) (dispatch body : NodeId) (index : Nat) (tests : List NodeId)
    (previous : Option NodeId) (s : Piece) :
    t.alternatives dispatch body index previous tests s =
      .ok (nextPrevious t.env.flat false tests previous)
        (s ++ .ofEdges (alternativeEdges t.env.flat dispatch body index previous tests)) := by
  induction tests generalizing previous s with
  | nil =>
    cases previous <;> cases hflat : t.env.flat <;>
      simp [alternatives, alternativeEdges, nextPrevious, Piece.append_edges_nil]
  | cons test tests ih =>
    cases previous with
    | none =>
      simp only [alternatives, connect_bind, ih, alternativeEdges, Piece.append_edge_edges]
      rfl
    | some previous =>
      -- in a flat layout all alternatives are tried from the same node
      have hnext : nextPrevious t.env.flat false (test :: tests) (some previous) =
          nextPrevious t.env.flat false tests (some (if t.env.flat then previous else test)) := by
        cases t.env.flat <;> simp [nextPrevious, List.getLast?_cons]
      simp only [alternatives, connect_bind, ih, alternativeEdges, Piece.append_edge_edges, hnext]

/-- The cases of a `match` are built as planned. -/
theorem cases_conforms (site : Site) (dispatch join : NodeId) : (list : List MatchCase) →
    (∀ case ∈ list, { t with body := case.body }.Follows call) →
    ∀ (index : Nat) (previous : Option NodeId) (s : Piece),
      Conforms (t.cases call site dispatch join index previous list s)
        (planCases t.context site list)
        (fun _ => ()) (fun cases => s ++ cases.layout t.env s.size dispatch join index previous)
        (fun cases : Cases => s ++ cases.layout t.env s.size dispatch join index previous)
  | [], _, index, previous, s => by
    cases previous <;> refine .done rfl ?_ ?_ ?_ <;> simp [Cases.layout]
  | ⟨_, head, body⟩ :: rest, h, index, previous, s => by
    have hbody := (h _ List.mem_cons_self).required site
      (s ++ .ofNodes (head.patterns.map fun pattern => t.env.node (.caseTest pattern.span)))
    have hrest := cases_conforms site dispatch join rest (fun case hc => h case (by simp [hc]))
      (index + 1)
    simp only [cases, planCases, bind_apply_of_ok (mapM_newNode ..)]
    refine hbody.bind (fun plan => ⟨.cons (head.patterns.map (·.span)) true plan .nil, ?_⟩)
      fun plan _ => ?_
    · constructor <;> simp [Plan.after, Cases.layout, nextPrevious, Function.comp_def]
    -- after a case that accepts everything, no test hangs off another node
    have hnext : ∀ tests, (if head.acceptsAll then none
        else nextPrevious t.env.flat false tests previous) =
          nextPrevious t.env.flat head.acceptsAll tests previous := by
      cases head.acceptsAll <;> simp [nextPrevious]
    simp only [connectFrom_bind, bind_apply_of_ok (alternatives_apply ..), hnext]
    refine (hrest _ _).within (fun _ => rfl) (fun cases => ?_)
      fun cases => ⟨.cons (head.patterns.map (·.span)) head.acceptsAll plan cases, ?_⟩
    · refine Piece.ext_fields ?_ ?_ ?_ <;>
        simp [Plan.after, Plan.fragment, Cases.layout, Function.comp_def, Nat.add_assoc]
    · constructor <;>
        simp [Plan.after, Plan.fragment, Cases.layout, Function.comp_def, Nat.add_assoc]

/-- A `match` is built as planned. -/
theorem dispatch_conforms {site : Site} {subject : Span} {list : List MatchCase}
    (h : ∀ case ∈ list, ∀ region, { t with region, body := case.body }.Follows call) (s : Piece) :
    Conforms (t.dispatch call site subject list s)
      ((Stmt.dispatch site subject list).plan t.context)
      (fun plan => (Plan.orIdle plan).fragment t.env s.size)
      (fun plan => (Plan.orIdle plan).after t.env s) (fun fork : Fork => fork.1.after t.env s) := by
  simp only [dispatch, Stmt.plan]
  refine Conforms.settle ⟨⟨.dispatch subject 0 .nil, rfl⟩, Piece.starts_append _ _⟩ fun _ _ => ?_
  simp only [newNode_bind, Piece.size_append_node, Piece.append_node_nodes]
  -- there is no region yet if it is not found, but then it does not matter which
  refine Conforms.settle ⟨⟨.dispatch subject 0 .nil, rfl⟩, ?_⟩ fun region _ => ?_
  · constructor <;> simp [Plan.after, Plan.layout]
  have hcases := cases_conforms (t := { t with region }) site s.size (s.size + 1) list
    (fun case hc => h case hc region) 0 (some s.size)
    (s ++ .ofNodes [t.env.node (.test subject), t.env.node .join])
  refine hcases.bind (fun cases => ⟨⟨.dispatch subject region cases, rfl⟩, ?_⟩) fun cases _ =>
    .done rfl ?_ ?_ ?_
  · constructor <;> simp [Plan.after, Plan.layout]
  all_goals simp [Plan.after, Plan.orIdle, Plan.layout]

/-! ## Exceptions -/

/-- The handlers of a `try` are built as planned. -/
theorem handlers_conforms (site : Site) (entry : NodeId) : (list : List Handler) →
    (∀ handler ∈ list, ∀ region, { t with region, body := handler.body }.Follows call) →
    ∀ (index : Nat) (s : Piece),
      Conforms (t.handlers call site entry index list s) (planHandlers t.context site index list)
        (fun handlers => (handlers.layout t.env s.size entry index).2)
        (fun handlers => s ++ (handlers.layout t.env s.size entry index).1)
        (fun handlers : Handlers => s ++ (handlers.layout t.env s.size entry index).1)
  | [], _, index, s => .done rfl (by simp [Handlers.layout]) (by simp [Handlers.layout])
      (by simp [Handlers.layout])
  | ⟨_, _, body⟩ :: rest, h, index, s => by
    simp only [handlers, planHandlers]
    refine Conforms.settle ⟨.nil, Piece.starts_append _ _⟩ fun region _ => ?_
    have hbody := (h _ List.mem_cons_self region).required site s
    have hrest := handlers_conforms site entry rest (fun handler hh => h handler (by simp [hh]))
      (index + 1)
    refine hbody.bind (fun plan => ⟨.cons region plan .nil, ?_⟩) fun plan _ =>
      (hrest _).bind (fun handlers => ⟨.cons region plan handlers, ?_⟩) fun handlers _ =>
        .done ?_ ?_ ?_ ?_
    · constructor <;> simp [Plan.after, Handlers.layout]
    · constructor <;> simp [Plan.after, Plan.fragment, Handlers.layout]
    all_goals simp [Plan.after, Plan.fragment, Handlers.layout]

theorem afterBody_conforms {whole : RegionId} {orelse : List Stmt}
    (h : { t with region := whole, body := orelse }.Follows call) (completed : Option NodeId)
    (s : Piece) :
    Conforms (t.afterBody call whole completed orelse s)
      (optionalClause (.ok whole) orelse (planBody t.context orelse))
      (fun annex => (annex.layoutAfterBody t.env s.size completed).2)
      (fun annex => s ++ (annex.layoutAfterBody t.env s.size completed).1)
      (fun annex : Annex => s ++ (annex.layoutAfterBody t.env s.size completed).1) := by
  rw [afterBody, optionalClause]
  cases orelse.isEmpty with
  | true => refine .done rfl ?_ ?_ ?_ <;> simp [Annex.layoutAfterBody]
  | false =>
    refine (h s).bind (fun plan => ⟨.present whole plan, ?_⟩) fun plan _ => .done rfl ?_ ?_ ?_
    · constructor <;> simp [Plan.after, Annex.layoutAfterBody]
    all_goals simp [Plan.after, Plan.fragment, Annex.layoutAfterBody]

theorem beforeJoin_conforms {site : Site} {final : List Stmt}
    (h : ∀ region, { t with region, body := final }.Follows call) (join : NodeId)
    {clause : Option RegionId} (hc : t.clauseRegion site final = .ok clause) (s : Piece) :
    Conforms (t.beforeJoin call join final clause s)
      (optionalClause (t.context.region site .final) final (planBody t.context final))
      (fun annex => (annex.layoutBefore t.env s.size join).2)
      (fun annex => s ++ (annex.layoutBefore t.env s.size join).1)
      (fun annex : Annex => s ++ (annex.layoutBefore t.env s.size join).1) := by
  rw [clauseRegion] at hc
  rw [optionalClause]
  cases hf : final.isEmpty with
  | true =>
    -- without statements the clause has no region
    simp only [hf, if_true, Except.ok.injEq] at hc
    subst hc
    refine .done rfl ?_ ?_ ?_ <;> simp [Annex.layoutBefore]
  | false =>
    simp only [hf, Bool.false_eq_true, if_false, bind_eq_ok, pure_eq_ok] at hc
    obtain ⟨region, hr, rfl⟩ := hc
    have hregion : t.context.region site .final = .ok region := hr
    rw [hregion]
    refine (h region s).bind (fun plan => ⟨.present region plan, ?_⟩) fun plan _ =>
      .done rfl ?_ ?_ ?_
    · constructor <;> simp [Plan.after, Annex.layoutBefore]
    all_goals simp [Plan.after, Plan.fragment, Annex.layoutBefore]

/-- What planning sees of the clauses that a `finally` clause watches over. -/
theorem enterFinal_eq (t : Job) (site : Site) (whole : RegionId) (final : List Stmt) :
    t.context.enterFinal site whole final (planBody t.context final) =
      (do return (t.watched whole final (← t.clauseRegion site final)).context) := by
  rw [Context.enterFinal, clauseRegion]
  cases final.isEmpty with
  | true => rfl
  | false =>
    show (t.regions.require site.id .final >>= _) = _
    cases t.regions.require site.id .final <;> rfl

theorem forM_connect (nodes : List NodeId) (target : NodeId) (label : Label) (s : Piece) :
    (nodes.forM fun u => connect u target label) s =
      .ok () (s ++ .ofEdges (nodes.map fun u => ⟨u, target, label⟩)) := by
  induction nodes generalizing s with
  | nil =>
    rw [List.map_nil, Piece.append_edges_nil]
    rfl
  | cons u nodes ih =>
    rw [List.map_cons, ← Piece.append_edge_edges, ← ih]
    rfl

/-- A `try` is built as planned. -/
theorem attempt_conforms {site : Site} {body : List Stmt} {list : List Handler}
    {orelse final : List Stmt}
    (hp : ∀ whole clause, ∀ part ∈ body :: orelse :: list.map (·.body), ∀ region,
      { t.watched whole final clause with region, body := part }.Follows call)
    (hf : ∀ region, { t with region, body := final }.Follows call) (s : Piece) :
    Conforms (t.attempt call site body list orelse final s)
      ((Stmt.attempt site body list orelse final).plan t.context)
      (fun plan => (Plan.orIdle plan).fragment t.env s.size)
      (fun plan => (Plan.orIdle plan).after t.env s) (fun fork : Fork => fork.1.after t.env s) := by
  simp only [attempt, Stmt.plan, enterFinal_eq, bind_assoc, pure_bind]
  -- what is made before the first part can fail begins any layout of a `try`
  let start : Fork := ⟨.attempt 0 .idle .nil .absent .absent, rfl⟩
  refine Conforms.settle ⟨start, Piece.starts_append _ _⟩ fun _ _ => ?_
  refine Conforms.settle ⟨start, Piece.starts_append _ _⟩ fun whole _ => ?_
  have hjoin : (s ++ .ofNodes [t.env.node .join]).Starts (start.1.after t.env s) := by
    constructor <;> simp [start, Plan.after, Plan.layout_attempt]
  simp only [newNode_bind]
  refine Conforms.settle ⟨start, hjoin⟩ fun clause hc =>
    Conforms.settle ⟨start, hjoin⟩ fun region _ => ?_
  have hbody := (hp whole clause body (by simp) region).required site
    (s ++ .ofNodes [t.env.node .join])
  have hlist := fun entry => handlers_conforms site entry list (fun handler hh region =>
    hp whole clause handler.body (by simpa using .inr (.inr ⟨handler, hh, rfl⟩)) region) 0
  have helse := fun completed =>
    afterBody_conforms (hp whole clause orelse (by simp) whole) completed
  have hfinal := beforeJoin_conforms hf s.size hc
  -- each part that is built completes the plan further
  refine hbody.bind (fun plan => ⟨⟨.attempt region plan .nil .absent .absent, rfl⟩, ?_⟩)
      fun plan _ =>
    (hlist _ _).bind (fun handlers => ⟨⟨.attempt region plan handlers .absent .absent, rfl⟩, ?_⟩)
      fun handlers _ =>
    (helse _ _).bind (fun annex => ⟨⟨.attempt region plan handlers annex .absent, rfl⟩, ?_⟩)
      fun annex _ =>
    (hfinal _).bind (fun annex' => ⟨⟨.attempt region plan handlers annex annex', rfl⟩, ?_⟩)
      fun annex' _ => ?_
  · constructor <;> simp [Plan.after, Plan.layout_attempt]
  · constructor <;> simp [Plan.after, Plan.fragment, Plan.layout_attempt, Nat.add_assoc]
  · constructor <;> simp [Plan.after, Plan.fragment, Plan.layout_attempt, Nat.add_assoc]
  · constructor <;> simp [Plan.after, Plan.fragment, Plan.layout_attempt, Nat.add_assoc]
  · rw [bind_apply_of_ok (forM_connect ..)]
    refine .done ?_ ?_ ?_ ?_ <;>
      simp [Plan.after, Plan.fragment, Plan.layout_attempt, Plan.orIdle, Nat.add_assoc]

/-! ## Jumps -/

/-- Where nodes stand that are made for a jump on its way through scopes. -/
def envAt (t : Job) (scopes : List Scope) : Env :=
  { t.env with loops := Scope.loopEnds scopes }

@[simp] theorem envAt_scopes (t : Job) : t.envAt t.scopes = t.env := rfl

@[simp] theorem env_replay (t : Job) (region : RegionId) (outer : List Scope) (clause : List Stmt) :
    env ⟨⟨t.regions, t.options, region, outer⟩, true, clause⟩ = (t.envAt outer).copy region := rfl

/-- A jump takes the route that was planned, through any scopes whose `finally` clauses are built as
planned. -/
theorem unwind_conforms (site : Site) (means : Jump) : (scopes : List Scope) →
    (∀ clause whole region outer, .final clause whole region :: outer <:+ scopes →
      { t with region, scopes := outer, duplicate := true, body := clause }.Follows call) →
    ∀ (source : NodeId) (s : Piece),
      Conforms (t.unwind call site means source scopes s)
        (Route.through site means (Scope.enclosures t.regions t.options.markers scopes))
        (fun _ => ()) (fun route => s ++ route.layout (t.envAt scopes) s.size source site means)
        (fun route : Route => s ++ route.layout (t.envAt scopes) s.size source site means)
  | [], _, source, s => by
    cases means with
    | returning | raising => exact .done rfl rfl rfl rfl
    | breaking | continuing => exact ⟨.arrive, s, rfl, Piece.starts_append _ _⟩
  | .loop ends :: outer, h, source, s => by
    have hrest := unwind_conforms site means outer (fun clause whole region outer' hs =>
      h clause whole region outer' (hs.trans (List.suffix_cons _ _))) source s
    cases means with
    | returning | raising =>
      exact hrest.within (fun _ => rfl) (fun _ => rfl)
        fun route => ⟨.leaveLoop route, Piece.Starts.refl _⟩
    | breaking | continuing => exact .done rfl rfl rfl rfl
  | .resource header region :: outer, h, source, s => by
    have hrest := unwind_conforms site means outer fun clause whole region outer' hs =>
      h clause whole region outer' (hs.trans (List.suffix_cons _ _))
    simp only [unwind, newNode_bind, Piece.size_append_node, Piece.append_node_nodes, connect_bind,
      Scope.enclosures, Route.through]
    refine (hrest _ _).within (fun _ => rfl) (fun route => ?_)
      fun route => ⟨.release header region ((t.regions.parent? region).getD region) route, ?_⟩
    · refine Piece.ext_fields ?_ ?_ ?_ <;>
        simp [Route.layout, envAt, Env.within, Env.node, Env.carryOn, Env.copy, Scope.loopEnds]
    · constructor <;>
        simp [Route.layout, envAt, Env.within, Env.node, Env.carryOn, Env.copy, Scope.loopEnds]
  | .final clause whole region :: outer, h, source, s => by
    have hbody := (h clause whole region outer List.suffix_rfl s).orIdle
    have hrest := unwind_conforms site means outer fun clause whole region outer' hs =>
      h clause whole region outer' (hs.trans (List.suffix_cons _ _))
    simp only [unwind, Scope.enclosures, Route.through]
    refine hbody.bind (fun plan => ⟨.swallow region plan, ?_⟩) fun plan _ => ?_
    · constructor <;> simp [Plan.after, Route.layout, envAt, Env.copy, Scope.loopEnds]
    -- the jump goes on if the clause completes, and is swallowed otherwise
    have hexit := plan.isSome_exitAt s.size
    simp only [connect_bind, Plan.fragment, Plan.exit_layout, Plan.entry_layout]
    cases hc : plan.completes with
    | false =>
      rw [hc, Option.isSome_eq_false_iff, Option.isNone_iff_eq_none] at hexit
      rw [hexit]
      refine .done rfl ?_ ?_ ?_ <;>
        simp [Plan.after, Route.layout, envAt, Env.copy, Scope.loopEnds]
    | true =>
      rw [hc, Option.isSome_iff_exists] at hexit
      obtain ⟨last, hexit⟩ := hexit
      rw [hexit]
      simp only [newNode_bind, connect_bind, if_true]
      refine (hrest _ _).within (fun _ => rfl) (fun route => ?_)
        fun route => ⟨.replay region whole plan route, ?_⟩
      · refine Piece.ext_fields ?_ ?_ ?_ <;>
          simp [Plan.after, Route.layout, envAt, Env.node, Env.carryOn, Env.copy, Scope.loopEnds,
            hexit, Nat.add_assoc]
      · constructor <;>
          simp [Plan.after, Route.layout, envAt, Env.node, Env.carryOn, Env.copy, Scope.loopEnds,
            hexit, Nat.add_assoc]

end Job

end Flowgraph
