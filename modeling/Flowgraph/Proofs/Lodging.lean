import Flowgraph.Proofs.Contents
import Flowgraph.Proofs.Zones

/-!
# What may stand at the nodes of a region

A lodging says which statements may stand at the nodes of a region, which resources may be released
there and which jumps may pass through it, and which headers may be tested.  If a plan keeps to a
lodging, so do the nodes of its layout; and the plan of a body keeps to a lodging that has room for
every statement in the region of the part it stands in.

A jump is found in two kinds of places.  It stands with other statements where it is written, and on
its way out it stands alone at nodes of regions that enclose that place.  The two are asked for
separately.

## Main definitions

* `Lodging` : what may stand at the nodes of a region.
* `Plan.Lodged` : the parts of a plan keep to a lodging.
* `Stmt.places`, `bodyPlaces` : statements, each with the part it stands in.
* `Lodging.Houses` : a lodging has room for statements.

## Main results

* `Plan.lodged_layout` : the nodes of a plan keep to the lodging of the plan.
* `lodged_planBody` : the plan of a body keeps to a lodging that has room for its statements.
* `Graph.lodged_ofBody` : the same for the graph of a function body.
-/

namespace Flowgraph

/-- What may stand at the nodes of a region. -/
structure Lodging where
  /-- The statement may stand in the region. -/
  stmt : RegionId → Stmt → Prop
  /-- The jump may pass through the region on its way out. -/
  passing : RegionId → Stmt → Prop
  /-- The resource with this header may be released in the region. -/
  released : RegionId → Span → Prop
  /-- The header may be tested. -/
  tested : Span → Prop

/-- The node keeps to the lodging.  A node of a copy may hold a jump that only passes through. -/
structure Node.Lodged (L : Lodging) (n : Node) : Prop where
  stmts : (∀ s ∈ n.stmts, L.stmt n.region s) ∨ n.duplicate = true ∧
    ∃ site means, n.stmts = [.jump site means] ∧ L.passing n.region (.jump site means)
  released : ∀ header, n.content = .release header → L.released n.region header
  tested : ∀ header, n.content = .test header ∨ n.content = .caseTest header → L.tested header

section Node

variable {L : Lodging} {env : Env}

theorem Env.lodged_unwritten {content : Content} (h : content.isUnwritten = true) :
    (env.node content).Lodged L where
  stmts := by
    left
    cases content <;> simp [Content.isUnwritten, Content.stmts] at h ⊢
  released header hc := by
    cases hc
    simp [Content.isUnwritten] at h
  tested header hc := by rcases hc with hc | hc <;> (cases hc; simp [Content.isUnwritten] at h)

theorem Env.lodged_block {stmts : List Stmt} (h : ∀ s ∈ stmts, L.stmt env.region s) :
    (env.node (.block stmts)).Lodged L :=
  ⟨.inl h, by simp, by simp⟩

theorem Env.lodged_yield {site : Site} (h : L.stmt env.region (.yield site)) :
    (env.node (.yield site)).Lodged L :=
  ⟨.inl (by simpa [Content.stmts] using h), by simp, by simp⟩

theorem Env.lodged_raise {site : Site} (h : L.stmt env.region (.jump site .raising)) :
    (env.node (.raise site)).Lodged L :=
  ⟨.inl (by simpa [Content.stmts] using h), by simp, by simp⟩

theorem Env.lodged_test {header : Span} (h : L.tested header) :
    (env.node (.test header)).Lodged L :=
  ⟨.inl (by simp [Content.stmts]), by simp, by simpa using h⟩

theorem Env.lodged_caseTest {header : Span} (h : L.tested header) :
    (env.node (.caseTest header)).Lodged L :=
  ⟨.inl (by simp [Content.stmts]), by simp, by simpa using h⟩

theorem Env.lodged_release {header : Span} (h : L.released env.region header) :
    (env.node (.release header)).Lodged L :=
  ⟨.inl (by simp [Content.stmts]), by simpa using h, by simp⟩

theorem Env.lodged_carryOn {r : RegionId} {site : Site} {means : Jump}
    (h : L.passing r (.jump site means)) : (env.carryOn r site means).Lodged L where
  stmts := .inr ⟨rfl, site, means, env.stmts_carryOn r site means, h⟩
  released header hc := by cases means <;> cases hc
  tested header hc := by cases means <;> rcases hc with hc | hc <;> cases hc

end Node

/-! ## Plans and their layouts -/

mutual

/-- The parts of a plan that stands in the region `r` keep to the lodging. -/
def Plan.Lodged (L : Lodging) (r : RegionId) : Plan → Prop
  | .idle => True
  | .block stmts => ∀ s ∈ stmts, L.stmt r s
  | .yield site => L.stmt r (.yield site)
  | .jump before site means route =>
    (∀ s ∈ before ++ [.jump site means], L.stmt r s) ∧ route.Lodged L site means
  | .raise site route => L.stmt r (.jump site .raising) ∧ route.Lodged L site .raising
  | .hold before header region body =>
    (∀ s ∈ before ++ [header], L.stmt r s) ∧ body.Lodged L region
  | .seq first rest => first.Lodged L r ∧ rest.Lodged L r
  | .branch test body rest => L.tested test ∧ body.Lodged L r ∧ rest.Lodged L r
  | .loop header body orelse => L.tested header ∧ body.Lodged L r ∧ orelse.Lodged L
  | .dispatch subject region cases => L.tested subject ∧ cases.Lodged L region
  | .attempt region body handlers orelse final =>
    body.Lodged L region ∧ handlers.Lodged L ∧ orelse.Lodged L ∧ final.Lodged L

/-- The same for what follows a failed test of an `if`. -/
def Alternatives.Lodged (L : Lodging) (r : RegionId) : Alternatives → Prop
  | .done => True
  | .otherwise body => body.Lodged L r
  | .test header body rest => L.tested header ∧ body.Lodged L r ∧ rest.Lodged L r

/-- The same for the cases of a `match`. -/
def Cases.Lodged (L : Lodging) (r : RegionId) : Cases → Prop
  | .nil => True
  | .cons patterns _ body rest =>
    (∀ pattern ∈ patterns, L.tested pattern) ∧ body.Lodged L r ∧ rest.Lodged L r

/-- The same for the handlers of a `try`, which have regions of their own. -/
def Handlers.Lodged (L : Lodging) : Handlers → Prop
  | .nil => True
  | .cons region handler rest => handler.Lodged L region ∧ rest.Lodged L

/-- The same for a clause that may be missing, and that has a region of its own. -/
def Annex.Lodged (L : Lodging) : Annex → Prop
  | .absent => True
  | .present region body => body.Lodged L region

/-- The same for a jump on its way out. -/
def Route.Lodged (L : Lodging) (site : Site) (means : Jump) : Route → Prop
  | .arrive => True
  | .leaveLoop rest => rest.Lodged L site means
  | .release header region outside rest =>
    L.released region header ∧ L.passing outside (.jump site means) ∧ rest.Lodged L site means
  | .replay final outside body rest =>
    body.Lodged L final ∧ L.passing outside (.jump site means) ∧ rest.Lodged L site means
  | .swallow final body => body.Lodged L final

end

section Layout

variable {L : Lodging}

mutual

/-- The nodes of a plan keep to the lodging of the plan. -/
theorem Plan.lodged_layout (env : Env) (base : NodeId) (previous : Option NodeId) : (plan : Plan) →
    plan.Lodged L env.region → ∀ n ∈ (plan.layout env base previous).piece.nodes, n.Lodged L
  | .idle, _ => by simpa [Plan.layout] using env.lodged_unwritten rfl
  | .block stmts, h => by simpa [Plan.layout] using env.lodged_block h
  | .yield site, h => by simpa [Plan.layout] using env.lodged_yield h
  | .jump before site means route, h => by
    have hn := env.lodged_block h.1
    have hr := route.lodged_layout env (base + 1) base site means h.2
    simpa [Plan.layout] using ⟨hn, hr⟩
  | .raise site route, h => by
    have hn := env.lodged_raise h.1
    have hr := route.lodged_layout env (base + 1) base site .raising h.2
    simpa [Plan.layout] using ⟨hn, hr⟩
  | .hold before header region body, h => by
    have hn := env.lodged_block h.1
    have hb := body.lodged_layout (env.within region) (base + 1) none h.2
    simpa [Plan.layout] using ⟨hn, hb⟩
  | .seq first rest, h => by
    have hf := first.lodged_layout env base previous h.1
    -- in which region a node stands does not depend on its number
    have hr := fun base previous => rest.lodged_layout env base previous h.2
    simp only [Plan.layout, Piece.nodes_append, List.forall_mem_append]
    exact ⟨hf, hr _ _⟩
  | .branch test body rest, h => by
    -- a join holds nothing that is written in the body
    have hj : (env.node .join).Lodged L := env.lodged_unwritten rfl
    have hb := body.lodged_layout env (base + 2) none h.2.1
    have hr := fun base test join => rest.lodged_layout env base test join h.2.2
    simp only [Plan.layout, Piece.nodes_append, List.forall_mem_append, Piece.nodes_ofNodes,
      List.forall_mem_cons]
    exact ⟨⟨⟨⟨⟨⟨env.lodged_test h.1, hj, by simp⟩, hb⟩, by simp⟩, by simp⟩, hr _ _ _⟩, by simp⟩
  | .loop header body orelse, h => by
    have hj : (env.node .join).Lodged L := env.lodged_unwritten rfl
    have hb := body.lodged_layout (env.inLoop ⟨base, base + 1⟩) (base + 2) none h.2.1
    have ho := fun base guard after => orelse.lodged_layoutAfterLoop env base guard after h.2.2
    simp only [Plan.layout, Piece.nodes_append, List.forall_mem_append, Piece.nodes_ofNodes,
      List.forall_mem_cons]
    exact ⟨⟨⟨⟨⟨⟨env.lodged_test h.1, hj, by simp⟩, hb⟩, by simp⟩, by simp⟩, ho _ _ _⟩, by simp⟩
  | .dispatch subject region cases, h => by
    have hj : (env.node .join).Lodged L := env.lodged_unwritten rfl
    have hc := cases.lodged_layout (env.within region) (base + 2) base (base + 1) 0 (some base) h.2
    simp only [Plan.layout, Piece.nodes_append, List.forall_mem_append, Piece.nodes_ofNodes,
      List.forall_mem_cons]
    exact ⟨⟨⟨env.lodged_test h.1, hj, by simp⟩, hc⟩, by simp⟩
  | .attempt region body handlers orelse final, h => by
    have hj : (env.node .join).Lodged L := env.lodged_unwritten rfl
    obtain ⟨hb, hh, ho, hf⟩ := h
    have hb := body.lodged_layout (env.within region) (base + 1) none hb
    have hh := fun base body => handlers.lodged_layout env base body 0 hh
    have ho := fun base completed => orelse.lodged_layoutAfterBody env base completed ho
    have hf := fun base join => final.lodged_layoutBefore env base join hf
    simp only [Plan.layout, Piece.nodes_append, List.forall_mem_append, Piece.nodes_ofNodes,
      List.forall_mem_singleton]
    exact ⟨⟨⟨⟨⟨⟨hj, hb⟩, hh _ _⟩, ho _ _⟩, hf _ _⟩, by simp⟩, by simp⟩

theorem Alternatives.lodged_layout (env : Env) (base test join : NodeId) : (rest : Alternatives) →
    rest.Lodged L env.region → ∀ n ∈ (rest.layout env base test join).nodes, n.Lodged L
  | .done, _ => by simp [Alternatives.layout]
  | .otherwise body, h => by
    have hb := body.lodged_layout env base none h
    simpa [Alternatives.layout] using hb
  | .test header body rest, h => by
    have hb := body.lodged_layout env (base + 1) none h.2.1
    have hr := fun base test => rest.lodged_layout env base test join h.2.2
    simp only [Alternatives.layout, Piece.nodes_append, List.forall_mem_append,
      Piece.nodes_ofNodes, List.forall_mem_singleton]
    exact ⟨⟨⟨⟨⟨env.lodged_test h.1, by simp⟩, hb⟩, by simp⟩, by simp⟩, hr _ _⟩

theorem Cases.lodged_layout (env : Env) (base subject join : NodeId) (index : Nat)
    (previous : Option NodeId) : (cases : Cases) → cases.Lodged L env.region →
      ∀ n ∈ (cases.layout env base subject join index previous).nodes, n.Lodged L
  | .nil, _ => by cases previous <;> simp [Cases.layout]
  | .cons patterns catchAll body rest, h => by
    have hp : ∀ n ∈ patterns.map fun pattern => env.node (.caseTest pattern), n.Lodged L := by
      intro n hn
      obtain ⟨pattern, hp, rfl⟩ := List.mem_map.1 hn
      exact env.lodged_caseTest (h.1 pattern hp)
    have hb := body.lodged_layout env (base + patterns.length) none h.2.1
    have hr := fun base previous => rest.lodged_layout env base subject join (index + 1) previous
      h.2.2
    simp only [Cases.layout, Piece.nodes_append, List.forall_mem_append, Piece.nodes_ofNodes]
    exact ⟨⟨⟨⟨hp, hb⟩, by simp⟩, by simp⟩, hr _ _⟩

theorem Handlers.lodged_layout (env : Env) (base body : NodeId) (index : Nat) :
    (handlers : Handlers) → handlers.Lodged L →
      ∀ n ∈ (handlers.layout env base body index).1.nodes, n.Lodged L
  | .nil, _ => by simp [Handlers.layout]
  | .cons region handler rest, h => by
    have hb := handler.lodged_layout (env.within region) base none h.1
    have hr := fun base => rest.lodged_layout env base body (index + 1) h.2
    simp only [Handlers.layout, Piece.nodes_append, List.forall_mem_append]
    exact ⟨⟨hb, by simp⟩, hr _⟩

theorem Annex.lodged_layoutAfterLoop (env : Env) (base guard after : NodeId) : (annex : Annex) →
    annex.Lodged L → ∀ n ∈ (annex.layoutAfterLoop env base guard after).nodes, n.Lodged L
  | .absent, _ => by simp [Annex.layoutAfterLoop]
  | .present region body, h => by
    have hb := body.lodged_layout (env.within region) base none h
    simpa [Annex.layoutAfterLoop] using hb

theorem Annex.lodged_layoutAfterBody (env : Env) (base : NodeId) (completed : Option NodeId) :
    (annex : Annex) → annex.Lodged L →
      ∀ n ∈ (annex.layoutAfterBody env base completed).1.nodes, n.Lodged L
  | .absent, _ => by simp [Annex.layoutAfterBody]
  | .present region body, h => by
    have hb := body.lodged_layout (env.within region) base none h
    simpa [Annex.layoutAfterBody] using hb

theorem Annex.lodged_layoutBefore (env : Env) (base join : NodeId) : (annex : Annex) →
    annex.Lodged L → ∀ n ∈ (annex.layoutBefore env base join).1.nodes, n.Lodged L
  | .absent, _ => by simp [Annex.layoutBefore]
  | .present region body, h => by
    have hb := body.lodged_layout (env.within region) base none h
    simpa [Annex.layoutBefore] using hb

/-- The region of the place where a jump is written does not matter on its way out. -/
theorem Route.lodged_layout (env : Env) (base source : NodeId) (site : Site) (means : Jump) :
    (route : Route) → route.Lodged L site means →
      ∀ n ∈ (route.layout env base source site means).nodes, n.Lodged L
  | .arrive, _ => by cases means <;> simp [Route.layout, arrival]
  | .leaveLoop rest, h => rest.lodged_layout env.outsideLoop base source site means h
  | .release header region outside rest, h => by
    have hn := (env.within region).lodged_release h.1
    have hc := env.lodged_carryOn h.2.1
    have hr := rest.lodged_layout env (base + 2) (base + 1) site means h.2.2
    simp only [Route.layout, Piece.nodes_append, List.forall_mem_append, Piece.nodes_ofNodes,
      List.forall_mem_cons]
    exact ⟨⟨⟨⟨hn, hc, by simp⟩, by simp⟩, by simp⟩, hr⟩
  | .replay final outside body rest, h => by
    have hb := body.lodged_layout (env.copy final) base none h.1
    have hc := env.lodged_carryOn h.2.1
    have hr := fun base source => rest.lodged_layout env base source site means h.2.2
    simp only [Route.layout, Piece.nodes_append, List.forall_mem_append]
    refine ⟨⟨hb, by simp⟩, ?_⟩
    -- a clause that does not complete is not left
    split
    · simp
    · simp only [Piece.nodes_append, List.forall_mem_append, Piece.nodes_ofNodes,
        List.forall_mem_singleton]
      exact ⟨⟨hc, by simp⟩, hr _ _⟩
  | .swallow final body, h => by
    have hb := body.lodged_layout (env.copy final) base none h
    simpa [Route.layout] using hb

end

/-- The nodes of the layout of a function keep to the lodging of its plan. -/
theorem Piece.lodged_ofPlan (flat : Bool) {plan : Plan} (h : plan.Lodged L RegionTree.root) :
    ∀ n ∈ (Piece.ofPlan flat plan).1.nodes, n.Lodged L := by
  have hb := plan.lodged_layout (.ofFunction flat) 1 none h
  have he : ((Env.ofFunction flat).node .entry).Lodged L := Env.lodged_unwritten rfl
  have hx : ((Env.ofFunction flat).node .exit).Lodged L := Env.lodged_unwritten rfl
  simp only [Piece.ofPlan, Piece.nodes_append, List.forall_mem_append, Piece.nodes_ofNodes,
    List.forall_mem_singleton]
  exact ⟨⟨⟨⟨⟨he, hb⟩, by simp⟩, hx⟩, by simp⟩, by simp⟩

end Layout

/-! ## Statements and their places -/

mutual

/-- A statement in the part `outer` and the statements inside it, each with the innermost part that
it stands in and that has a region of its own. -/
def Stmt.places (outer : Option (StmtId × Part)) : Stmt → List (Stmt × Option (StmtId × Part))
  | .branch site test body clauses =>
    (.branch site test body clauses, outer) ::
      (bodyPlaces outer body ++ clausePlaces outer clauses)
  | .loop site head body orelse =>
    (.loop site head body orelse, outer) ::
      (bodyPlaces outer body ++ bodyPlaces (some (site.id, .orelse)) orelse)
  | .attempt site body handlers orelse final =>
    (.attempt site body handlers orelse final, outer) ::
      (bodyPlaces (some (site.id, .body)) body ++ handlerPlaces site.id 0 handlers ++
        bodyPlaces (some (site.id, .whole)) orelse ++ bodyPlaces (some (site.id, .final)) final)
  | .hold site isAsync header body =>
    (.hold site isAsync header body, outer) :: bodyPlaces (some (site.id, .whole)) body
  | .dispatch site subject cases =>
    (.dispatch site subject cases, outer) :: casePlaces (some (site.id, .whole)) cases
  | s => [(s, outer)]

/-- The statements of a body with their places. -/
def bodyPlaces (outer : Option (StmtId × Part)) :
    List Stmt → List (Stmt × Option (StmtId × Part))
  | [] => []
  | s :: rest => s.places outer ++ bodyPlaces outer rest

/-- The statements in the clauses of an `if` with their places. -/
def clausePlaces (outer : Option (StmtId × Part)) :
    List (Clause (Option Span) Stmt) → List (Stmt × Option (StmtId × Part))
  | [] => []
  | ⟨_, _, body⟩ :: rest => bodyPlaces outer body ++ clausePlaces outer rest

/-- The statements in the handlers of the `try` numbered `stmt`, counted from `index`, with their
places. -/
def handlerPlaces (stmt : StmtId) (index : Nat) :
    List (Clause (Option Span) Stmt) → List (Stmt × Option (StmtId × Part))
  | [] => []
  | ⟨_, _, body⟩ :: rest =>
    bodyPlaces (some (stmt, .handler index)) body ++ handlerPlaces stmt (index + 1) rest

/-- The statements in the cases of a `match` with their places. -/
def casePlaces (outer : Option (StmtId × Part)) :
    List (Clause CaseHead Stmt) → List (Stmt × Option (StmtId × Part))
  | [] => []
  | ⟨_, _, body⟩ :: rest => bodyPlaces outer body ++ casePlaces outer rest

end

/-- The headers that a statement tests. -/
def Stmt.tests : Stmt → List Span
  | .branch _ test _ clauses => test :: clauses.filterMap (·.head)
  | .loop _ head _ _ => [head.span]
  | .dispatch _ subject cases => subject :: cases.flatMap (·.head.patterns.map (·.span))
  | _ => []

/-- The lodging has room for the statements: for each in the region of the part it stands in, and
for a jump to pass through the regions around that one. -/
structure Lodging.Houses (L : Lodging) (t : RegionTree)
    (places : List (Stmt × Option (StmtId × Part))) : Prop where
  stmt : ∀ s outer r, (s, outer) ∈ places → t.number outer = some r → L.stmt r s
  passing : ∀ site means outer r x, (.jump site means, outer) ∈ places →
    t.number outer = some r → t.isWithin r x → L.passing x (.jump site means)
  released : ∀ site isAsync header body outer r, (.hold site isAsync header body, outer) ∈ places →
    t.number (some (site.id, .whole)) = some r → L.released r header
  tested : ∀ s outer, (s, outer) ∈ places → ∀ header ∈ s.tests, L.tested header

theorem Lodging.Houses.mono {L : Lodging} {t : RegionTree}
    {places places' : List (Stmt × Option (StmtId × Part))} (h : L.Houses t places)
    (hp : places' ⊆ places) : L.Houses t places' where
  stmt s outer r hm := h.stmt s outer r (hp hm)
  passing site means outer r x hm := h.passing site means outer r x (hp hm)
  released site isAsync header body outer r hm :=
    h.released site isAsync header body outer r (hp hm)
  tested s outer hm := h.tested s outer (hp hm)

/-! ## Planning -/

section Planning

variable {L : Lodging}

/-- What encloses statements in the region `r` keeps to the lodging. -/
def Enclosure.Lodged (L : Lodging) (t : RegionTree) (r : RegionId) : Enclosure → Prop
  | .loop => True
  | .final outside clause body =>
    t.isWithin r outside ∧ ∀ plan, body = .ok plan → plan.Lodged L clause
  | .resource header region outside => t.isWithin r outside ∧ L.released region header

theorem Enclosure.Lodged.deeper {t : RegionTree} {r r' : RegionId} {e : Enclosure}
    (h : e.Lodged L t r) (hr : ∀ x, t.isWithin r x → t.isWithin r' x) : e.Lodged L t r' := by
  cases e with
  | loop => trivial
  | final outside final body => exact ⟨hr _ h.1, h.2⟩
  | resource header region outside => exact ⟨hr _ h.1, h.2⟩

/-- A jump keeps to the lodging if the constructs around it do. -/
theorem Route.lodged_through {t : RegionTree} {r : RegionId} {site : Site} {means : Jump}
    {around : List Enclosure} {route : Route} (h : Route.through site means around = .ok route)
    (ha : ∀ e ∈ around, e.Lodged L t r)
    (hp : ∀ x, t.isWithin r x → L.passing x (.jump site means)) : route.Lodged L site means := by
  induction around generalizing route with
  | nil =>
    obtain ⟨-, rfl⟩ := through_nil_eq_ok.1 h
    trivial
  | cons e outer ih =>
    have ih := fun {rest} (hr : through site means outer = .ok rest) =>
      ih hr fun e' he' => ha e' (List.mem_cons_of_mem _ he')
    -- the continuation behind each construct stands in a region around the jump
    have he := ha e List.mem_cons_self
    cases e with
    | loop =>
      rcases through_loop_eq_ok.1 h with ⟨-, rfl⟩ | ⟨-, rest, hr, rfl⟩
      · trivial
      · have hrest : rest.Lodged L site means := ih hr
        exact hrest
    | resource header region outside =>
      obtain ⟨rest, hr, rfl⟩ := through_resource_eq_ok.1 h
      exact ⟨he.2, hp outside he.1, ih hr⟩
    | final outside final body =>
      obtain ⟨plan, rfl, hway⟩ := through_final_eq_ok.1 h
      have hplan : plan.Lodged L final := he.2 plan rfl
      rcases hway with ⟨-, rest, hr, rfl⟩ | ⟨-, rfl⟩
      · exact ⟨hplan, hp outside he.1, ih hr⟩
      · exact hplan

variable {r : RegionId}

theorem Plan.seqClosed_lodged : SeqClosed (·.Lodged L r) where
  block _ _ := by simp [Lodged]
  jump _ _ _ _ _ hs h := ⟨List.forall_mem_cons.2 ⟨hs _ (List.mem_singleton_self _), h.1⟩, h.2⟩
  hold _ _ _ _ _ hs h := ⟨List.forall_mem_cons.2 ⟨hs _ (List.mem_singleton_self _), h.1⟩, h.2⟩
  seq _ _ := Iff.rfl

theorem Annex.lodged_optionalClause {region : Except Failure RegionId} {body : List Stmt}
    {plan : Except Failure (Option Plan)} {annex : Annex}
    (h : optionalClause region body plan = .ok annex)
    (hplan : body ≠ [] → ∀ r q, region = .ok r → plan = .ok q → (Plan.orIdle q).Lodged L r) :
    annex.Lodged L := by
  rcases optionalClause_eq_ok.1 h with ⟨-, rfl⟩ | ⟨hb, r, q, hr, hq, rfl⟩
  · trivial
  · exact hplan hb r q hr hq

/-- Planning has come to statements in the part `outer`, whose region is `r`, and what encloses them
keeps to the lodging. -/
structure Quartered (L : Lodging) (links : List ((StmtId × Part) × Option (StmtId × Part)))
    (cx : Context) (outer : Option (StmtId × Part)) (r : RegionId) : Prop where
  nests : cx.regions.Nests links
  number : cx.regions.number outer = some r
  around : ∀ e ∈ cx.around, e.Lodged L cx.regions r

namespace Quartered

variable {links : List ((StmtId × Part) × Option (StmtId × Part))} {cx : Context}
  {outer : Option (StmtId × Part)}

/-- Inside a part of a statement. -/
theorem part (h : Quartered L links cx outer r) {site : Site} {part : Part} {r' : RegionId}
    (hk : ((site.id, part), outer) ∈ links) (hr : cx.region site part = .ok r') :
    Quartered L links cx (some (site.id, part)) r' := by
  have hr := Context.number_of_region hr
  have hp := h.nests.parent?_of_mem hk hr h.number
  refine ⟨h.nests, hr, fun e he => (h.around e he).deeper fun x hx => ?_⟩
  exact (h.nests.isWithin_iff hp).2 (.inr hx)

theorem enterLoop (h : Quartered L links cx outer r) :
    Quartered L links (cx.enter .loop) outer r :=
  ⟨h.nests, h.number, List.forall_mem_cons.2 ⟨trivial, h.around⟩⟩

/-- Inside a `with` statement. -/
theorem enterResource (h : Quartered L links cx outer r) {site : Site} {region : RegionId}
    (hk : ((site.id, .whole), outer) ∈ links) (hr : cx.region site .whole = .ok region)
    {header : Span} (hl : L.released region header) :
    Quartered L links (cx.enter (cx.resource header region)) (some (site.id, .whole)) region := by
  have hin := h.part hk hr
  have hp := h.nests.parent?_of_mem hk hin.number h.number
  refine ⟨h.nests, hin.number, List.forall_mem_cons.2 ⟨?_, hin.around⟩⟩
  rw [Context.resource, hp]
  exact ⟨(h.nests.isWithin_iff hp).2 (.inr (h.nests.isWithin_self r)), hl⟩

/-- Under the `finally` clause of a `try` whose region is `r`, if it has one. -/
theorem enterFinal (h : Quartered L links cx outer r) {site : Site} {final : List Stmt}
    {plan : Except Failure (Option Plan)} {inner : Context}
    (hi : cx.enterFinal site r final plan = .ok inner)
    (hplan : final ≠ [] → ∀ f, cx.region site .final = .ok f → ∀ q, plan = .ok q →
      (Plan.orIdle q).Lodged L f) :
    inner.regions = cx.regions ∧ Quartered L links inner outer r := by
  rcases Context.enterFinal_eq_ok.1 hi with ⟨-, rfl⟩ | ⟨hf, f, hr, rfl⟩
  · exact ⟨rfl, h⟩
  · refine ⟨rfl, h.nests, h.number, List.forall_mem_cons.2 ⟨?_, h.around⟩⟩
    refine ⟨h.nests.isWithin_self r, fun p hp => ?_⟩
    obtain ⟨q, hq, rfl⟩ := map_eq_ok.1 hp
    exact hplan hf f hr q hq

end Quartered

variable {links : List ((StmtId × Part) × Option (StmtId × Part))}

mutual

/-- The plan of a statement keeps to a lodging that has room for the statement. -/
theorem Stmt.lodged_plan (cx : Context) {outer : Option (StmtId × Part)} {r : RegionId}
    (hq : Quartered L links cx outer r) : (s : Stmt) → (p : Option Plan) → s.plan cx = .ok p →
      s.nesting outer ⊆ links → L.Houses cx.regions (s.places outer) →
      (Plan.orIdle p).Lodged L r
  | .simple _, p, h, _, hs | .pass _, p, h, _, hs => by
    simp only [Stmt.plan, Except.ok.injEq] at h
    subst h
    exact List.forall_mem_singleton.2 (hs.stmt _ outer r (by simp [Stmt.places]) hq.number)
  | .yield _, p, h, _, hs => by
    simp only [Stmt.plan, Except.ok.injEq] at h
    subst h
    exact hs.stmt _ outer r (by simp [Stmt.places]) hq.number
  | .marker .., p, h, _, hs => by
    simp only [Stmt.plan, Except.ok.injEq] at h
    subst h
    split
    · exact List.forall_mem_singleton.2 (hs.stmt _ outer r (by simp [Stmt.places]) hq.number)
    · trivial
  | .jump site means, p, h, _, hs => by
    obtain ⟨route, hr, rfl⟩ := Stmt.plan_jump_eq_ok h
    have hs' := hs.stmt (.jump site means) outer r (by simp [Stmt.places]) hq.number
    have hr := Route.lodged_through hr hq.around fun x hx =>
      hs.passing site means outer r x (by simp [Stmt.places]) hq.number hx
    rw [Plan.orIdle]
    split
    · next hm =>
      subst hm
      exact ⟨hs', hr⟩
    · exact ⟨List.forall_mem_singleton.2 hs', hr⟩
  | .branch site test body clauses, p, h, hl, hs => by
    obtain ⟨q, rest, -, -, hp, hr, rfl⟩ := Stmt.plan_branch_eq_ok h
    rw [Stmt.nesting, List.append_subset] at hl
    rw [Stmt.places] at hs
    have ht := hs.tested _ outer List.mem_cons_self
    refine ⟨ht test (by simp [Stmt.tests]),
      lodged_planBody cx hq body q hp hl.1 (hs.mono fun x hx => by simp [hx]),
      lodged_planAlternatives cx hq site clauses rest hr hl.2 (hs.mono fun x hx => by simp [hx])
        fun header hh => ht header ?_⟩
    exact List.mem_cons_of_mem _ hh
  | .loop site head body orelse, p, h, hl, hs => by
    obtain ⟨q, annex, -, hp, ha, rfl⟩ := Stmt.plan_loop_eq_ok h
    rw [Stmt.nesting, List.append_subset, List.append_subset] at hl
    rw [Stmt.places] at hs
    refine ⟨hs.tested _ outer List.mem_cons_self head.span (by simp [Stmt.tests]),
      lodged_planBody (cx.enter .loop) hq.enterLoop body q hp hl.1.1
        (hs.mono fun x hx => by simp [hx]),
      annex.lodged_optionalClause ha fun hne r' q' hr' hq' => ?_⟩
    exact lodged_planBody cx (hq.part (hl.1.2 (by simp [hne])) hr') orelse q' hq' hl.2
      (hs.mono fun x hx => by simp [hx])
  | .attempt site body handlers orelse final, p, h, hl, hs => by
    obtain ⟨whole, inner, region, q, handlers', annex, annex', -, hw, hi, hr, -, hp, hh, ha, ha',
      rfl⟩ := Stmt.plan_attempt_eq_ok h
    rw [Stmt.nesting] at hl
    rw [Stmt.places] at hs
    have hwhole := hq.part (hl (by simp)) hw
    -- the `finally` clause is planned where the statement stands, and once
    have hfinal : final ≠ [] → ∀ f, cx.region site .final = .ok f → ∀ q',
        planBody cx final = .ok q' → (Plan.orIdle q').Lodged L f := by
      intro hne f hf q' hq'
      exact lodged_planBody cx (hwhole.part (hl (by simp [hne])) hf) final q' hq'
        (fun x hx => hl (by simp [hx])) (hs.mono fun x hx => by simp [hx])
    obtain ⟨hregions, hin⟩ := hwhole.enterFinal hi hfinal
    rw [Context.region, ← hregions] at hr
    rw [← hregions] at hs
    refine ⟨lodged_planBody inner (hin.part (hl (by simp)) hr) body q hp
        (fun x hx => hl (by simp [hx])) (hs.mono fun x hx => by simp [hx]),
      lodged_planHandlers inner site hin 0 handlers handlers' hh (fun x hx => hl (by simp [hx]))
        (hs.mono fun x hx => by simp [hx]),
      annex.lodged_optionalClause ha fun _ r' q' hr' hq' => ?_,
      annex'.lodged_optionalClause ha' fun hne f q' hf hq' => hfinal hne f hf q' hq'⟩
    cases hr'
    exact lodged_planBody inner hin orelse q' hq' (fun x hx => hl (by simp [hx]))
      (hs.mono fun x hx => by simp [hx])
  | .hold site isAsync header body, p, h, hl, hs => by
    obtain ⟨region, q, hr, -, hp, rfl⟩ := Stmt.plan_hold_eq_ok h
    rw [Stmt.nesting, List.append_subset] at hl
    rw [Stmt.places] at hs
    have hreleased := hs.released site isAsync header body outer region (by simp)
      (Context.number_of_region hr)
    exact ⟨List.forall_mem_singleton.2 (hs.stmt _ outer r List.mem_cons_self hq.number),
      lodged_planBody _ (hq.enterResource (hl.1 (by simp)) hr hreleased) body q hp hl.2
        (hs.mono fun x hx => by simp [hx])⟩
  | .dispatch site subject cases, p, h, hl, hs => by
    obtain ⟨region, cases', -, hr, hp, rfl⟩ := Stmt.plan_dispatch_eq_ok h
    rw [Stmt.nesting, List.append_subset] at hl
    rw [Stmt.places] at hs
    have ht := hs.tested _ outer List.mem_cons_self
    refine ⟨ht subject (by simp [Stmt.tests]),
      lodged_planCases cx (hq.part (hl.1 (by simp)) hr) site cases cases' hp hl.2
        (hs.mono fun x hx => by simp [hx]) fun header hh => ht header ?_⟩
    exact List.mem_cons_of_mem _ hh
  | .unsupported _, _, h, _, _ => by simp [Stmt.plan] at h

/-- The plan of a body keeps to a lodging that has room for its statements. -/
theorem lodged_planBody (cx : Context) {outer : Option (StmtId × Part)} {r : RegionId}
    (hq : Quartered L links cx outer r) : (body : List Stmt) → (p : Option Plan) →
      planBody cx body = .ok p → bodyNesting outer body ⊆ links →
      L.Houses cx.regions (bodyPlaces outer body) → (Plan.orIdle p).Lodged L r
  | [], p, h, _, _ => by
    simp only [planBody, Except.ok.injEq] at h
    subst h
    trivial
  | s :: rest, p, h, hl, hs => by
    obtain ⟨first, after, hp, hr, rfl⟩ := planBody_cons_eq_ok.1 h
    rw [bodyNesting, List.append_subset] at hl
    rw [bodyPlaces] at hs
    exact Plan.seqClosed_lodged.merge
      (s.lodged_plan cx hq first hp hl.1 (hs.mono (List.subset_append_left _ _)))
      (lodged_planBody cx hq rest after hr hl.2 (hs.mono (List.subset_append_right _ _)))

theorem lodged_planAlternatives (cx : Context) {outer : Option (StmtId × Part)} {r : RegionId}
    (hq : Quartered L links cx outer r) (site : Site) : (clauses : List BranchClause) →
      (rest : Alternatives) → planAlternatives cx site clauses = .ok rest →
      clauseNesting outer clauses ⊆ links → L.Houses cx.regions (clausePlaces outer clauses) →
      (∀ header ∈ clauses.filterMap (·.head), L.tested header) → rest.Lodged L r
  | [], rest, h, _, _, _ => by
    simp only [planAlternatives, Except.ok.injEq] at h
    subst h
    trivial
  | ⟨_, none, body⟩ :: _, rest, h, hl, hs, _ => by
    obtain ⟨q, -, hp, rfl⟩ := planAlternatives_else_eq_ok h
    rw [clauseNesting, List.append_subset] at hl
    rw [clausePlaces] at hs
    exact lodged_planBody cx hq body q hp hl.1 (hs.mono (List.subset_append_left _ _))
  | ⟨_, some test, body⟩ :: clauses, rest, h, hl, hs, ht => by
    obtain ⟨q, rest', -, hp, hr, rfl⟩ := planAlternatives_test_eq_ok h
    rw [clauseNesting, List.append_subset] at hl
    rw [clausePlaces] at hs
    obtain ⟨ht, ht'⟩ := List.forall_mem_cons.1 ht
    exact ⟨ht, lodged_planBody cx hq body q hp hl.1 (hs.mono (List.subset_append_left _ _)),
      lodged_planAlternatives cx hq site clauses rest' hr hl.2
        (hs.mono (List.subset_append_right _ _)) ht'⟩

theorem lodged_planHandlers (cx : Context) {whole : RegionId} (site : Site)
    (hq : Quartered L links cx (some (site.id, .whole)) whole) (index : Nat) :
    (handlers : List Handler) → (handlers' : Handlers) →
      planHandlers cx site index handlers = .ok handlers' →
      handlerNesting site.id index handlers ⊆ links →
      L.Houses cx.regions (handlerPlaces site.id index handlers) → handlers'.Lodged L
  | [], handlers', h, _, _ => by
    simp only [planHandlers, Except.ok.injEq] at h
    subst h
    trivial
  | ⟨_, _, body⟩ :: rest, handlers', h, hl, hs => by
    obtain ⟨region, q, rest', hr, -, hp, hr', rfl⟩ := planHandlers_cons_eq_ok h
    rw [handlerNesting, List.append_subset, List.append_subset] at hl
    rw [handlerPlaces] at hs
    exact ⟨lodged_planBody cx (hq.part (hl.1.1 (by simp)) hr) body q hp hl.1.2
        (hs.mono (List.subset_append_left _ _)),
      lodged_planHandlers cx site hq (index + 1) rest rest' hr' hl.2
        (hs.mono (List.subset_append_right _ _))⟩

theorem lodged_planCases (cx : Context) {outer : Option (StmtId × Part)} {r : RegionId}
    (hq : Quartered L links cx outer r) (site : Site) : (cases : List MatchCase) →
      (cases' : Cases) → planCases cx site cases = .ok cases' → caseNesting outer cases ⊆ links →
      L.Houses cx.regions (casePlaces outer cases) →
      (∀ header ∈ cases.flatMap (·.head.patterns.map (·.span)), L.tested header) →
      cases'.Lodged L r
  | [], cases', h, _, _, _ => by
    simp only [planCases, Except.ok.injEq] at h
    subst h
    trivial
  | ⟨_, head, body⟩ :: rest, cases', h, hl, hs, ht => by
    obtain ⟨q, rest', -, hp, hr, rfl⟩ := planCases_cons_eq_ok h
    rw [caseNesting, List.append_subset] at hl
    rw [casePlaces] at hs
    rw [List.flatMap_cons, List.forall_mem_append] at ht
    exact ⟨ht.1, lodged_planBody cx hq body q hp hl.1 (hs.mono (List.subset_append_left _ _)),
      lodged_planCases cx hq site rest rest' hr hl.2 (hs.mono (List.subset_append_right _ _)) ht.2⟩

end

end Planning

/-- The nodes of the graph of a body keep to a lodging that has room for the statements of the
body. -/
theorem Graph.lodged_ofBody {L : Lodging} {options : Options} {body : List Stmt} {g : Graph}
    (h : ofBody options body = .ok g) (hid : ((bodyStatements body).map Stmt.id).Nodup)
    (hs : L.Houses (RegionTree.ofBody body) (bodyPlaces none body)) :
    ∀ n ∈ g.nodes, n.Lodged L := by
  obtain ⟨plan, hp, hg, -⟩ := ofPiece_ofBody h
  have hplan : plan.Lodged L RegionTree.root := by
    rw [Plan.ofBody] at hp
    split at hp
    · cases hp
    · obtain ⟨p, hb, rfl⟩ := map_eq_ok.1 hp
      have hq : Quartered L (bodyNesting none body)
          ⟨RegionTree.ofBody body, options.markers, []⟩ none RegionTree.root :=
        ⟨RegionTree.nests_ofBody hid, rfl, by simp⟩
      exact lodged_planBody _ hq body p hb (List.Subset.refl _) hs
  intro n hn
  obtain ⟨u, hu⟩ := List.mem_iff_getElem?.1 hn
  rw [hg.getElem?_nodes] at hu
  obtain ⟨n', hn', rfl⟩ := Option.map_eq_some_iff.1 hu
  -- being marked as dead changes nothing that is asked of a node
  obtain ⟨hst, hre, hte⟩ := Piece.lodged_ofPlan options.flatDispatch hplan n'
    (List.mem_of_getElem? hn')
  exact ⟨hst, hre, hte⟩

end Flowgraph
