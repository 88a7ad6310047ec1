import Flowgraph.Proofs.Built
import Flowgraph.Proofs.Survey

/-!
# What the nodes of a graph hold

The nodes that belong to no copy hold, in the order in which they were made, the statements of the
body in the order in which they are written: each statement that runs at a node, once.  The copies
that jumps make on their way out hold the jumps themselves and statements of `finally` clauses.

## Main definitions

* `Node.inLine` : the statements at the nodes that belong to no copy.
* `Plan.inLine` : the statements of a plan, without those of the copies that its jumps make.
* `Stmt.placed` : the statement has a place at a node.

## Main results

* `Graph.inLine_ofBody` : the statements in line are those of the body.
* `Graph.copies_ofBody` : what the copies hold.
* `Graph.stmts_in_document_order` : outside copies no statement is lost, repeated or moved.
-/

namespace Flowgraph

/-- The statements at the nodes that belong to no copy, in order. -/
def Node.inLine (nodes : List Node) : List Stmt :=
  nodes.flatMap fun n => bif n.duplicate then [] else n.stmts

namespace Node

@[simp] theorem inLine_nil : inLine [] = [] := rfl

@[simp] theorem inLine_cons (n : Node) (nodes : List Node) :
    inLine (n :: nodes) = (bif n.duplicate then [] else n.stmts) ++ inLine nodes := rfl

@[simp] theorem inLine_append (nodes nodes' : List Node) :
    inLine (nodes ++ nodes') = inLine nodes ++ inLine nodes' :=
  List.flatMap_append

theorem inLine_eq_flatMap_filter (nodes : List Node) :
    inLine nodes = (nodes.filter (!·.duplicate)).flatMap stmts := by
  induction nodes with
  | nil => rfl
  | cons n nodes ih =>
    rw [inLine_cons, ih]
    by_cases hd : n.duplicate = true
    · simp [hd]
    · simp [hd]

end Node

mutual

/-- The statements of a plan, in order, without those of the copies that its jumps make. -/
def Plan.inLine : Plan → List Stmt
  | .idle => []
  | .block stmts => stmts
  | .yield site => [.yield site]
  | .jump before site means _ => before ++ [.jump site means]
  | .raise site _ => [.jump site .raising]
  | .hold before header _ body => before ++ header :: body.inLine
  | .seq first rest => first.inLine ++ rest.inLine
  | .branch _ body rest => body.inLine ++ rest.inLine
  | .loop _ body orelse => body.inLine ++ orelse.inLine
  | .dispatch _ _ cases => cases.inLine
  | .attempt _ body handlers orelse final =>
    body.inLine ++ handlers.inLine ++ orelse.inLine ++ final.inLine

/-- The same for what follows a failed test of an `if`. -/
def Alternatives.inLine : Alternatives → List Stmt
  | .done => []
  | .otherwise body => body.inLine
  | .test _ body rest => body.inLine ++ rest.inLine

/-- The same for the cases of a `match`. -/
def Cases.inLine : Cases → List Stmt
  | .nil => []
  | .cons _ _ body rest => body.inLine ++ rest.inLine

/-- The same for the handlers of a `try`. -/
def Handlers.inLine : Handlers → List Stmt
  | .nil => []
  | .cons _ handler rest => handler.inLine ++ rest.inLine

/-- The same for a clause that may be missing. -/
def Annex.inLine : Annex → List Stmt
  | .absent => []
  | .present _ body => body.inLine

end

/-! ## Layouts -/

@[simp] theorem Env.duplicate_within (env : Env) (r : RegionId) :
    (env.within r).duplicate = env.duplicate := rfl

@[simp] theorem Env.duplicate_inLoop (env : Env) (ends : LoopEnds) :
    (env.inLoop ends).duplicate = env.duplicate := rfl

@[simp] theorem Env.duplicate_copy (env : Env) (r : RegionId) : (env.copy r).duplicate = true := rfl

@[simp] theorem Env.duplicate_carryOn (env : Env) (r : RegionId) (site : Site) (means : Jump) :
    (env.carryOn r site means).duplicate = true := rfl

@[simp] theorem Env.stmts_node (env : Env) (content : Content) :
    (env.node content).stmts = content.stmts := rfl

@[simp] theorem Env.stmts_carryOn (env : Env) (r : RegionId) (site : Site) (means : Jump) :
    (env.carryOn r site means).stmts = [.jump site means] := by
  cases means <;> rfl

mutual

/-- The nodes of a plan hold its statements, unless they all belong to a copy. -/
theorem Plan.inLine_layout (env : Env) (base : NodeId) (previous : Option NodeId) : (plan : Plan) →
    Node.inLine (plan.layout env base previous).piece.nodes =
      bif env.duplicate then [] else plan.inLine
  | .idle => by simp [Plan.layout, Plan.inLine, Content.stmts]
  | .block stmts => by simp [Plan.layout, Plan.inLine, Content.stmts]
  | .yield site => by simp [Plan.layout, Plan.inLine, Content.stmts]
  | .jump before site means route => by
    simp [Plan.layout, Plan.inLine, Content.stmts, route.inLine_layout]
  | .raise site route => by
    simp [Plan.layout, Plan.inLine, Content.stmts, route.inLine_layout]
  | .hold before header region body => by
    have hb := body.inLine_layout (env.within region) (base + 1) none
    cases hd : env.duplicate <;> simp [Plan.layout, Plan.inLine, Content.stmts, hb, hd]
  | .seq first rest => by
    have hf := first.inLine_layout env base previous
    -- what a node holds does not depend on its number
    have hr := fun base previous => rest.inLine_layout env base previous
    cases hd : env.duplicate <;> simp [Plan.layout, Plan.inLine, hf, hr, hd]
  | .branch test body rest => by
    have hb := body.inLine_layout env (base + 2) none
    have hr := fun base => rest.inLine_layout env base
    cases hd : env.duplicate <;> simp [Plan.layout, Plan.inLine, Content.stmts, hb, hr, hd]
  | .loop header body orelse => by
    have hb := body.inLine_layout (env.inLoop ⟨base, base + 1⟩) (base + 2) none
    have ho := fun base => orelse.inLine_layoutAfterLoop env base
    cases hd : env.duplicate <;> simp [Plan.layout, Plan.inLine, Content.stmts, hb, ho, hd]
  | .dispatch subject region cases => by
    have hc := cases.inLine_layout (env.within region) (base + 2) base (base + 1) 0 (some base)
    cases hd : env.duplicate <;> simp [Plan.layout, Plan.inLine, Content.stmts, hc, hd]
  | .attempt region body handlers orelse final => by
    have hb := body.inLine_layout (env.within region) (base + 1) none
    have hh := fun base => handlers.inLine_layout env base
    have ho := fun base => orelse.inLine_layoutAfterBody env base
    have hf := fun base => final.inLine_layoutBefore env base
    cases hd : env.duplicate <;> simp [Plan.layout, Plan.inLine, Content.stmts, hb, hh, ho, hf, hd]

theorem Alternatives.inLine_layout (env : Env) (base test join : NodeId) : (rest : Alternatives) →
    Node.inLine (rest.layout env base test join).nodes = bif env.duplicate then [] else rest.inLine
  | .done => by simp [Alternatives.layout, Alternatives.inLine]
  | .otherwise body => by
    simp [Alternatives.layout, Alternatives.inLine, body.inLine_layout env base none]
  | .test header body rest => by
    have hb := body.inLine_layout env (base + 1) none
    have hr := fun base test => rest.inLine_layout env base test join
    cases hd : env.duplicate <;>
      simp [Alternatives.layout, Alternatives.inLine, Content.stmts, hb, hr, hd]

theorem Cases.inLine_layout (env : Env) (base subject join : NodeId) (index : Nat)
    (previous : Option NodeId) : (cases : Cases) →
    Node.inLine (cases.layout env base subject join index previous).nodes =
      bif env.duplicate then [] else cases.inLine
  | .nil => by cases previous <;> simp [Cases.layout, Cases.inLine]
  | .cons patterns catchAll body rest => by
    have hb := body.inLine_layout env (base + patterns.length) none
    have hr := fun base previous =>
      rest.inLine_layout env base subject join (index + 1) previous
    -- the alternatives themselves are tests
    have hp : Node.inLine (patterns.map fun pattern => env.node (.caseTest pattern)) = [] := by
      simp [Node.inLine, Content.stmts]
    cases hd : env.duplicate <;> simp [Cases.layout, Cases.inLine, hb, hr, hp, hd]

theorem Handlers.inLine_layout (env : Env) (base body : NodeId) (index : Nat) :
    (handlers : Handlers) → Node.inLine (handlers.layout env base body index).1.nodes =
      bif env.duplicate then [] else handlers.inLine
  | .nil => by simp [Handlers.layout, Handlers.inLine]
  | .cons region handler rest => by
    have hb := handler.inLine_layout (env.within region) base none
    have hr := fun base => rest.inLine_layout env base body (index + 1)
    cases hd : env.duplicate <;> simp [Handlers.layout, Handlers.inLine, hb, hr, hd]

theorem Annex.inLine_layoutAfterLoop (env : Env) (base guard after : NodeId) : (annex : Annex) →
    Node.inLine (annex.layoutAfterLoop env base guard after).nodes =
      bif env.duplicate then [] else annex.inLine
  | .absent => by simp [Annex.layoutAfterLoop, Annex.inLine]
  | .present region body => by
    simp [Annex.layoutAfterLoop, Annex.inLine, body.inLine_layout (env.within region) base none]

theorem Annex.inLine_layoutAfterBody (env : Env) (base : NodeId) (completed : Option NodeId) :
    (annex : Annex) → Node.inLine (annex.layoutAfterBody env base completed).1.nodes =
      bif env.duplicate then [] else annex.inLine
  | .absent => by simp [Annex.layoutAfterBody, Annex.inLine]
  | .present region body => by
    simp [Annex.layoutAfterBody, Annex.inLine, body.inLine_layout (env.within region) base none]

theorem Annex.inLine_layoutBefore (env : Env) (base join : NodeId) : (annex : Annex) →
    Node.inLine (annex.layoutBefore env base join).1.nodes =
      bif env.duplicate then [] else annex.inLine
  | .absent => by simp [Annex.layoutBefore, Annex.inLine]
  | .present region body => by
    simp [Annex.layoutBefore, Annex.inLine, body.inLine_layout (env.within region) base none]

/-- Nothing that a jump makes on its way out is in line. -/
theorem Route.inLine_layout (env : Env) (base source : NodeId) (site : Site) (means : Jump) :
    (route : Route) → Node.inLine (route.layout env base source site means).nodes = []
  | .arrive => by cases means <;> simp [Route.layout, arrival]
  | .leaveLoop rest => by simp [Route.layout, rest.inLine_layout]
  | .release header region outside rest => by
    simp [Route.layout, Content.stmts, rest.inLine_layout]
  | .replay final outside body rest => by
    have hb := body.inLine_layout (env.copy final) base none
    simp only [Route.layout]
    split <;> simp [hb, rest.inLine_layout]
  | .swallow final body => by
    simp [Route.layout, body.inLine_layout (env.copy final) base none]

end

/-! ## Copies -/

/-- The statements at the nodes that belong to copies are among `S`. -/
def Node.CopiesIn (S : Stmt → Prop) (nodes : List Node) : Prop :=
  ∀ n ∈ nodes, n.duplicate = true → ∀ s ∈ n.stmts, S s

namespace Node

variable {S : Stmt → Prop}

@[simp] theorem copiesIn_nil : CopiesIn S [] := by
  simp [CopiesIn]

@[simp] theorem copiesIn_cons {n : Node} {nodes : List Node} :
    CopiesIn S (n :: nodes) ↔ (n.duplicate = true → ∀ s ∈ n.stmts, S s) ∧ CopiesIn S nodes := by
  simp [CopiesIn]

@[simp] theorem copiesIn_append {nodes nodes' : List Node} :
    CopiesIn S (nodes ++ nodes') ↔ CopiesIn S nodes ∧ CopiesIn S nodes' := by
  simp [CopiesIn, or_imp, forall_and]

end Node

/-- Asks of a copy that its statements are among `S`. -/
def copiesAmong (S : Stmt → Prop) : Survey where
  copy plan := ∀ s ∈ plan.inLine, S s

mutual

/-- The copies in the layout of a plan hold jumps and what the copies that its jumps make hold.  If
the layout is part of a copy itself, all its nodes belong to copies. -/
theorem Plan.copiesIn_layout {S : Stmt → Prop} (hj : ∀ site means, S (.jump site means)) (env : Env)
    (base : NodeId) (previous : Option NodeId) : (plan : Plan) → plan.Passes (copiesAmong S) →
      (env.duplicate = true → ∀ s ∈ plan.inLine, S s) →
      Node.CopiesIn S (plan.layout env base previous).piece.nodes
  | .idle, _, _ => by simp [Plan.layout, Content.stmts]
  | .block stmts, _, hS => by simpa [Plan.layout, Plan.inLine, Content.stmts] using hS
  | .yield site, _, hS => by simpa [Plan.layout, Plan.inLine, Content.stmts] using hS
  | .jump before site means route, hp, hS => by
    -- what a route repeats is asked of its copies, not of the statements of the plan
    have hr := route.copiesIn_layout hj env (base + 1) base site means hp
    simpa [Plan.layout, Plan.inLine, Content.stmts, hr] using hS
  | .raise site route, hp, hS => by
    have hr := route.copiesIn_layout hj env (base + 1) base site .raising hp
    simpa [Plan.layout, Plan.inLine, Content.stmts, hr] using hS
  | .hold before header region body, hp, hS => by
    simp only [Plan.inLine, List.mem_append, List.mem_cons] at hS
    have hb := body.copiesIn_layout hj (env.within region) (base + 1) none hp
      fun hd s hs => hS hd s (.inr (.inr hs))
    simp only [Plan.layout, Piece.nodes_append, Piece.nodes_ofNodes, Piece.nodes_edgeFrom,
      Piece.nodes_edge, List.append_nil, List.singleton_append, Node.copiesIn_cons]
    -- the node of a `with` holds the statements in front of it and the `with` itself
    refine ⟨fun hd s hs => hS hd s ?_, hb⟩
    rcases List.mem_append.1 hs with hs | hs
    · exact .inl hs
    · exact .inr (.inl (List.mem_singleton.1 hs))
  | .seq first rest, hp, hS => by
    simp only [Plan.inLine, List.mem_append] at hS
    have hf := first.copiesIn_layout hj env base previous hp.1 fun hd s hs => hS hd s (.inl hs)
    have hr := fun base previous => rest.copiesIn_layout hj env base previous hp.2
      fun hd s hs => hS hd s (.inr hs)
    simp [Plan.layout, hf, hr]
  | .branch test body rest, hp, hS => by
    simp only [Plan.inLine, List.mem_append] at hS
    have hb := body.copiesIn_layout hj env (base + 2) none hp.1 fun hd s hs => hS hd s (.inl hs)
    have hr := fun base test join => rest.copiesIn_layout hj env base test join hp.2
      fun hd s hs => hS hd s (.inr hs)
    simp [Plan.layout, Content.stmts, hb, hr]
  | .loop header body orelse, hp, hS => by
    simp only [Plan.inLine, List.mem_append] at hS
    have hb := body.copiesIn_layout hj (env.inLoop ⟨base, base + 1⟩) (base + 2) none hp.2.1
      fun hd s hs => hS hd s (.inl hs)
    have ho := fun base guard after => orelse.copiesIn_layoutAfterLoop hj env base guard after
      hp.2.2 fun hd s hs => hS hd s (.inr hs)
    simp [Plan.layout, Content.stmts, hb, ho]
  | .dispatch subject region cases, hp, hS => by
    have hc := cases.copiesIn_layout hj (env.within region) (base + 2) base (base + 1) 0 (some base)
      hp hS
    simp [Plan.layout, Content.stmts, hc]
  | .attempt region body handlers orelse final, hp, hS => by
    simp only [Plan.inLine, List.mem_append] at hS
    obtain ⟨hpb, hph, hpo, hpf⟩ := hp
    have hb := body.copiesIn_layout hj (env.within region) (base + 1) none hpb
      fun hd s hs => hS hd s (.inl (.inl (.inl hs)))
    have hh := fun base body => handlers.copiesIn_layout hj env base body 0 hph
      fun hd s hs => hS hd s (.inl (.inl (.inr hs)))
    have ho := fun base completed => orelse.copiesIn_layoutAfterBody hj env base completed hpo
      fun hd s hs => hS hd s (.inl (.inr hs))
    have hf := fun base join => final.copiesIn_layoutBefore hj env base join hpf
      fun hd s hs => hS hd s (.inr hs)
    simp [Plan.layout, Content.stmts, hb, hh, ho, hf]

theorem Alternatives.copiesIn_layout {S : Stmt → Prop} (hj : ∀ site means, S (.jump site means))
    (env : Env) (base test join : NodeId) : (rest : Alternatives) →
      rest.Passes (copiesAmong S) → (env.duplicate = true → ∀ s ∈ rest.inLine, S s) →
      Node.CopiesIn S (rest.layout env base test join).nodes
  | .done, _, _ => by simp [Alternatives.layout]
  | .otherwise body, hp, hS => by
    have hb := body.copiesIn_layout hj env base none hp hS
    simp [Alternatives.layout, hb]
  | .test header body rest, hp, hS => by
    simp only [Alternatives.inLine, List.mem_append] at hS
    have hb := body.copiesIn_layout hj env (base + 1) none hp.1 fun hd s hs => hS hd s (.inl hs)
    have hr := fun base test => rest.copiesIn_layout hj env base test join hp.2
      fun hd s hs => hS hd s (.inr hs)
    simp [Alternatives.layout, Content.stmts, hb, hr]

theorem Cases.copiesIn_layout {S : Stmt → Prop} (hj : ∀ site means, S (.jump site means))
    (env : Env) (base subject join : NodeId) (index : Nat) (previous : Option NodeId) :
    (cases : Cases) → cases.Passes (copiesAmong S) →
      (env.duplicate = true → ∀ s ∈ cases.inLine, S s) →
      Node.CopiesIn S (cases.layout env base subject join index previous).nodes
  | .nil, _, _ => by cases previous <;> simp [Cases.layout]
  | .cons patterns catchAll body rest, hp, hS => by
    simp only [Cases.inLine, List.mem_append] at hS
    have hb := body.copiesIn_layout hj env (base + patterns.length) none hp.1
      fun hd s hs => hS hd s (.inl hs)
    have hr := fun base previous => rest.copiesIn_layout hj env base subject join (index + 1)
      previous hp.2 fun hd s hs => hS hd s (.inr hs)
    have hpatterns :
        Node.CopiesIn S (patterns.map fun pattern => env.node (.caseTest pattern)) := by
      simp [Node.CopiesIn, Content.stmts]
    simp [Cases.layout, hb, hr, hpatterns]

theorem Handlers.copiesIn_layout {S : Stmt → Prop} (hj : ∀ site means, S (.jump site means))
    (env : Env) (base body : NodeId) (index : Nat) : (handlers : Handlers) →
      handlers.Passes (copiesAmong S) → (env.duplicate = true → ∀ s ∈ handlers.inLine, S s) →
      Node.CopiesIn S (handlers.layout env base body index).1.nodes
  | .nil, _, _ => by simp [Handlers.layout]
  | .cons region handler rest, hp, hS => by
    simp only [Handlers.inLine, List.mem_append] at hS
    have hb := handler.copiesIn_layout hj (env.within region) base none hp.1
      fun hd s hs => hS hd s (.inl hs)
    have hr := fun base => rest.copiesIn_layout hj env base body (index + 1) hp.2
      fun hd s hs => hS hd s (.inr hs)
    simp [Handlers.layout, hb, hr]

theorem Annex.copiesIn_layoutAfterLoop {S : Stmt → Prop} (hj : ∀ site means, S (.jump site means))
    (env : Env) (base guard after : NodeId) : (annex : Annex) → annex.Passes (copiesAmong S) →
      (env.duplicate = true → ∀ s ∈ annex.inLine, S s) →
      Node.CopiesIn S (annex.layoutAfterLoop env base guard after).nodes
  | .absent, _, _ => by simp [Annex.layoutAfterLoop]
  | .present region body, hp, hS => by
    have hb := body.copiesIn_layout hj (env.within region) base none hp hS
    simp [Annex.layoutAfterLoop, hb]

theorem Annex.copiesIn_layoutAfterBody {S : Stmt → Prop} (hj : ∀ site means, S (.jump site means))
    (env : Env) (base : NodeId) (completed : Option NodeId) : (annex : Annex) →
      annex.Passes (copiesAmong S) → (env.duplicate = true → ∀ s ∈ annex.inLine, S s) →
      Node.CopiesIn S (annex.layoutAfterBody env base completed).1.nodes
  | .absent, _, _ => by simp [Annex.layoutAfterBody]
  | .present region body, hp, hS => by
    have hb := body.copiesIn_layout hj (env.within region) base none hp hS
    simp [Annex.layoutAfterBody, hb]

theorem Annex.copiesIn_layoutBefore {S : Stmt → Prop} (hj : ∀ site means, S (.jump site means))
    (env : Env) (base join : NodeId) : (annex : Annex) → annex.Passes (copiesAmong S) →
      (env.duplicate = true → ∀ s ∈ annex.inLine, S s) →
      Node.CopiesIn S (annex.layoutBefore env base join).1.nodes
  | .absent, _, _ => by simp [Annex.layoutBefore]
  | .present region body, hp, hS => by
    have hb := body.copiesIn_layout hj (env.within region) base none hp hS
    simp [Annex.layoutBefore, hb]

theorem Route.copiesIn_layout {S : Stmt → Prop} (hj : ∀ site means, S (.jump site means))
    (env : Env) (base source : NodeId) (site : Site) (means : Jump) : (route : Route) →
      route.Passes (copiesAmong S) →
      Node.CopiesIn S (route.layout env base source site means).nodes
  | .arrive, _ => by cases means <;> simp [Route.layout, arrival]
  | .leaveLoop rest, hp => by
    have hr := rest.copiesIn_layout hj env.outsideLoop base source site means hp
    simp [Route.layout, hr]
  | .release header region outside rest, hp => by
    have hr := rest.copiesIn_layout hj env (base + 2) (base + 1) site means hp
    simp [Route.layout, Content.stmts, hr, hj]
  | .replay final outside body rest, hp => by
    -- everything in a copy belongs to it, so the survey answers for all its statements
    have hb := body.copiesIn_layout hj (env.copy final) base none hp.2.1 fun _ => hp.1
    have hr := fun base source => rest.copiesIn_layout hj env base source site means hp.2.2
    simp only [Route.layout]
    split <;> simp [hb, hr, hj]
  | .swallow final body, hp => by
    have hb := body.copiesIn_layout hj (env.copy final) base none hp.2 fun _ => hp.1
    simp [Route.layout, hb]

end

/-! ## Bodies -/

/-- The statement runs at a node.  The other statements only say how control goes on; a marker runs
if markers are kept. -/
def Stmt.placed (markers : Bool) : Stmt → Bool
  | .simple _ | .pass _ | .yield _ | .jump .. | .hold .. => true
  | .marker .. => markers
  | .branch .. | .loop .. | .attempt .. | .dispatch .. | .unsupported _ => false

section Planning

theorem Plan.inLine_precededBy (s : Stmt) : (plan : Plan) →
    (plan.precededBy s).inLine = s :: plan.inLine
  | .block _ => rfl
  | .jump .. => rfl
  | .hold .. => rfl
  | .seq first rest => by simp [precededBy, inLine, first.inLine_precededBy s]
  | .idle | .yield _ | .raise .. | .branch .. | .loop .. | .dispatch .. | .attempt .. => by
    simp [precededBy, inLine]

theorem Plan.inLine_andThen (first rest : Plan) :
    (first.andThen rest).inLine = first.inLine ++ rest.inLine := by
  cases first with
  | block stmts =>
    rw [andThen, inLine]
    induction stmts with
    | nil => rfl
    | cons s stmts ih => rw [List.foldr_cons, inLine_precededBy, ih, List.cons_append]
  | _ => rfl

theorem Plan.inLine_merge (first rest : Option Plan) :
    (orIdle (Option.merge andThen first rest)).inLine =
      (orIdle first).inLine ++ (orIdle rest).inLine := by
  cases first with
  | none => simp [orIdle, inLine]
  | some first =>
    cases rest with
    | none => simp [orIdle, inLine]
    | some rest => exact inLine_andThen first rest

theorem Annex.inLine_optionalClause {region : Except Failure RegionId} {body : List Stmt}
    {plan : Except Failure (Option Plan)} {annex : Annex} {markers : Bool}
    (h : optionalClause region body plan = .ok annex)
    (hplan : ∀ q, plan = .ok q →
      (Plan.orIdle q).inLine = (bodyStatements body).filter (Stmt.placed markers)) :
    annex.inLine = (bodyStatements body).filter (Stmt.placed markers) := by
  rcases optionalClause_eq_ok.1 h with ⟨rfl, rfl⟩ | ⟨-, r, q, -, hq, rfl⟩
  · rfl
  · exact hplan q hq

mutual

/-- The plan of a statement holds the statements that run in it, in order. -/
theorem Stmt.inLine_plan (cx : Context) : (s : Stmt) → (p : Option Plan) → s.plan cx = .ok p →
    (Plan.orIdle p).inLine = s.statements.filter (Stmt.placed cx.markers)
  | .simple _, p, h | .pass _, p, h | .yield _, p, h => by
    simp only [Stmt.plan, Except.ok.injEq] at h
    subst h
    rfl
  | .marker .., p, h => by
    simp only [Stmt.plan, Except.ok.injEq] at h
    subst h
    cases hm : cx.markers <;> rfl
  | .jump site means, p, h => by
    obtain ⟨route, -, rfl⟩ := Stmt.plan_jump_eq_ok h
    cases means <;> rfl
  | .branch site _ body clauses, p, h => by
    obtain ⟨q, rest, hf, -, hq, hr, rfl⟩ := Stmt.plan_branch_eq_ok h
    -- the clauses are in order, so all of them are planned
    have hm := Clause.misplaced_eq_nil (Option.map_eq_none_iff.1 hf)
    simp [Stmt.statements, Stmt.placed, Plan.orIdle, Plan.inLine, ← inLine_planBody cx body q hq,
      ← inLine_planAlternatives cx site clauses rest hm hr]
  | .loop _ _ body orelse, p, h => by
    obtain ⟨q, annex, -, hq, ha, rfl⟩ := Stmt.plan_loop_eq_ok h
    have ho := annex.inLine_optionalClause ha (inLine_planBody cx orelse)
    have hb := inLine_planBody (cx.enter .loop) body q hq
    rw [Context.markers_enter] at hb
    simp [Stmt.statements, Stmt.placed, Plan.orIdle, Plan.inLine, ← hb, ← ho]
  | .attempt site body handlers orelse final, p, h => by
    obtain ⟨whole, inner, region, q, handlers', annex, annex', -, -, hi, -, -, hq, hh, ha, ha',
      rfl⟩ := Stmt.plan_attempt_eq_ok h
    -- the context inside the `finally` clause keeps the same markers
    have hm := Context.markers_enterFinal hi
    have hb := inLine_planBody inner body q hq
    have hh := inLine_planHandlers inner site 0 handlers handlers' hh
    have ho := annex.inLine_optionalClause ha (inLine_planBody inner orelse)
    have hf := annex'.inLine_optionalClause ha' (inLine_planBody cx final)
    rw [hm] at hb hh ho
    simp [Stmt.statements, Stmt.placed, Plan.orIdle, Plan.inLine, ← hb, ← hh, ← ho, ← hf]
  | .hold _ _ header body, p, h => by
    obtain ⟨region, q, -, -, hq, rfl⟩ := Stmt.plan_hold_eq_ok h
    have hb := inLine_planBody (cx.enter (cx.resource header region)) body q hq
    rw [Context.markers_enter] at hb
    rw [Stmt.statements, List.filter_cons_of_pos rfl, ← hb]
    rfl
  | .dispatch site _ cases, p, h => by
    obtain ⟨region, cases', -, -, hc, rfl⟩ := Stmt.plan_dispatch_eq_ok h
    simp [Stmt.statements, Stmt.placed, Plan.orIdle, Plan.inLine,
      ← inLine_planCases cx site cases cases' hc]
  | .unsupported _, _, h => by simp [Stmt.plan] at h

/-- The plan of a body holds the statements that run in it, in order. -/
theorem inLine_planBody (cx : Context) : (body : List Stmt) → (p : Option Plan) →
    planBody cx body = .ok p →
      (Plan.orIdle p).inLine = (bodyStatements body).filter (Stmt.placed cx.markers)
  | [], p, h => by
    simp only [planBody, Except.ok.injEq] at h
    subst h
    rfl
  | s :: rest, p, h => by
    obtain ⟨first, after, hs, hr, rfl⟩ := planBody_cons_eq_ok.1 h
    rw [Plan.inLine_merge, s.inLine_plan cx first hs, inLine_planBody cx rest after hr,
      bodyStatements, List.filter_append]

/-- No clause stands after an `else` clause, so none is left out. -/
theorem inLine_planAlternatives (cx : Context) (site : Site) : (clauses : List BranchClause) →
    (rest : Alternatives) → Clause.misplaced clauses = [] →
      planAlternatives cx site clauses = .ok rest →
      rest.inLine = (clauseStatements clauses).filter (Stmt.placed cx.markers)
  | [], rest, _, h => by
    simp only [planAlternatives, Except.ok.injEq] at h
    subst h
    rfl
  | ⟨_, none, body⟩ :: clauses, rest, hm, h => by
    obtain ⟨q, -, hq, rfl⟩ := planAlternatives_else_eq_ok h
    -- an `else` before other clauses is misplaced
    cases clauses with
    | cons c clauses => simp [Clause.misplaced] at hm
    | nil => simpa [clauseStatements, Alternatives.inLine] using inLine_planBody cx body q hq
  | ⟨_, some _, body⟩ :: clauses, rest, hm, h => by
    obtain ⟨q, rest', -, hq, hr, rfl⟩ := planAlternatives_test_eq_ok h
    have hm' : Clause.misplaced clauses = [] := by
      cases clauses with
      | nil => rfl
      | cons c clauses => simpa [Clause.misplaced] using hm
    rw [Alternatives.inLine, inLine_planBody cx body q hq,
      inLine_planAlternatives cx site clauses rest' hm' hr, clauseStatements, List.filter_append]

theorem inLine_planHandlers (cx : Context) (site : Site) (index : Nat) :
    (handlers : List Handler) → (handlers' : Handlers) →
      planHandlers cx site index handlers = .ok handlers' →
      handlers'.inLine = (clauseStatements handlers).filter (Stmt.placed cx.markers)
  | [], handlers', h => by
    simp only [planHandlers, Except.ok.injEq] at h
    subst h
    rfl
  | ⟨_, _, body⟩ :: rest, handlers', h => by
    obtain ⟨region, q, rest', -, -, hq, hr, rfl⟩ := planHandlers_cons_eq_ok h
    rw [Handlers.inLine, inLine_planBody cx body q hq,
      inLine_planHandlers cx site (index + 1) rest rest' hr, clauseStatements, List.filter_append]

theorem inLine_planCases (cx : Context) (site : Site) : (cases : List MatchCase) →
    (cases' : Cases) → planCases cx site cases = .ok cases' →
      cases'.inLine = (caseStatements cases).filter (Stmt.placed cx.markers)
  | [], cases', h => by
    simp only [planCases, Except.ok.injEq] at h
    subst h
    rfl
  | ⟨_, head, body⟩ :: rest, cases', h => by
    obtain ⟨q, rest', -, hq, hr, rfl⟩ := planCases_cons_eq_ok h
    rw [Cases.inLine, inLine_planBody cx body q hq, inLine_planCases cx site rest rest' hr,
      caseStatements, List.filter_append]

end

end Planning

/-- The statements in the `finally` clause of a statement. -/
def Stmt.finalStatements : Stmt → List Stmt
  | .attempt _ _ _ _ final => bodyStatements final
  | _ => []

/-- The statements of a body that stand in `finally` clauses. -/
def bodyFinalStatements (body : List Stmt) : List Stmt :=
  (bodyStatements body).flatMap Stmt.finalStatements

/-- Copies of the code of a body may hold the statement: it is a jump or stands in a `finally`
clause. -/
def Copied (body : List Stmt) (s : Stmt) : Prop :=
  (∃ site means, s = .jump site means) ∨ s ∈ bodyFinalStatements body

/-- The copies in the plan of a body are copies of its `finally` clauses. -/
theorem covers_copiesAmong (body : List Stmt) :
    (copiesAmong (Copied body)).Covers (bodyStatements body) where
  loop _ _ _ _ _ := trivial
  copy site inner handlers orelse final hm cx p hp s hs := by
    rw [inLine_planBody cx final p hp] at hs
    exact .inr (List.mem_flatMap.2 ⟨_, hm, (List.mem_filter.1 hs).1⟩)

/-! ## Graphs -/

theorem Node.inLine_markDead (live : List NodeId) (nodes : List Node) :
    inLine (markDead live nodes) = inLine nodes := by
  have hmap : (markDead live nodes).map (fun n => bif n.duplicate then [] else n.stmts) =
      nodes.map fun n => bif n.duplicate then [] else n.stmts := by
    refine List.ext_getElem? fun i => ?_
    simp only [markDead, List.getElem?_map, List.getElem?_mapIdx, Option.map_map]
    rfl
  rw [inLine, inLine, List.flatMap_def, List.flatMap_def, hmap]

namespace Graph

variable {options : Options} {body : List Stmt} {g : Graph}

/-- The nodes that belong to no copy hold the statements of the body that run, in order. -/
theorem inLine_ofBody (h : ofBody options body = .ok g) :
    Node.inLine g.nodes = (bodyStatements body).filter (Stmt.placed options.markers) := by
  obtain ⟨plan, hp, hg, -⟩ := ofPiece_ofBody h
  have hplan : plan.inLine = (bodyStatements body).filter (Stmt.placed options.markers) := by
    rw [Plan.ofBody] at hp
    split at hp
    · cases hp
    · obtain ⟨p, hq, rfl⟩ := map_eq_ok.1 hp
      exact inLine_planBody _ body p hq
  rw [hg.nodes, Node.inLine_markDead, ← hplan]
  simp [Piece.ofPlan, Content.stmts, plan.inLine_layout]

/-- The nodes that belong to copies hold jumps and statements of `finally` clauses. -/
theorem copies_ofBody (h : ofBody options body = .ok g) {n : Node} (hn : n ∈ g.nodes)
    (hd : n.duplicate = true) {s : Stmt} (hs : s ∈ n.stmts) : Copied body s := by
  obtain ⟨plan, hp, hg, -⟩ := ofPiece_ofBody h
  have hplan := plan.copiesIn_layout (fun site means => .inl ⟨site, means, rfl⟩)
    (.ofFunction options.flatDispatch) 1 none (Plan.passes_ofBody hp (covers_copiesAmong body))
    (by simp [Env.ofFunction])
  have hcopies : Node.CopiesIn (Copied body) (Piece.ofPlan options.flatDispatch plan).1.nodes := by
    simpa [Piece.ofPlan, Env.ofFunction, Content.stmts] using hplan
  obtain ⟨u, hu⟩ := List.mem_iff_getElem?.1 hn
  rw [hg.getElem?_nodes] at hu
  obtain ⟨n', hn', rfl⟩ := Option.map_eq_some_iff.1 hu
  exact hcopies n' (List.mem_of_getElem? hn') hd s hs

/-- No statement is lost, repeated or moved outside copies: one after the other, the nodes that
belong to no copy hold the statements of the body that run at nodes, each once and in the order in
which they are written.  Whether control can reach a node does not matter. -/
theorem stmts_in_document_order {options : Options} {body : List Stmt} {g : Graph}
    (h : ofBody options body = .ok g) :
    (g.nodes.filter (!·.duplicate)).flatMap Node.stmts =
      (bodyStatements body).filter (Stmt.placed options.markers) := by
  rw [← inLine_ofBody h, Node.inLine_eq_flatMap_filter]

end Graph

/-- A `return` through two `finally` clauses, with code behind it that control never reaches; the
outer clause holds a `with` and a marker. -/
def deadCodeBehindReturn : List Stmt :=
  let site (id : Nat) : Site := ⟨id, ⟨id, id + 1⟩⟩
  [.attempt (site 0)
    [.attempt (site 1) [.simple (site 2), .jump (site 3) .returning, .yield (site 4)] [] []
      [.pass (site 5)]] [] []
    [.hold (site 6) false ⟨6, 7⟩ [.marker (site 7) "cleanup"]], .simple (site 8)]

theorem stmts_in_document_order_deadCodeBehindReturn :
    ∃ g, Graph.ofBody {} deadCodeBehindReturn = .ok g ∧
      ((g.nodes.filter (·.duplicate)).flatMap Node.stmts).map Stmt.id = [5, 3, 6, 7, 3] ∧
      ((g.nodes.filter (!·.duplicate)).flatMap Node.stmts).map Stmt.id = [2, 3, 4, 5, 6, 7, 8] := by
  have h : ∃ g, Graph.ofBody {} deadCodeBehindReturn = .ok g ∧
      ((g.nodes.filter (·.duplicate)).flatMap Node.stmts).map Stmt.id = [5, 3, 6, 7, 3] :=
    ⟨_, rfl, rfl⟩
  obtain ⟨g, hg, hc⟩ := h
  refine ⟨g, hg, hc, ?_⟩
  rw [Graph.stmts_in_document_order hg]
  rfl

end Flowgraph
