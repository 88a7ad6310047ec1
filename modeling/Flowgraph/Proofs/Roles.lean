import Flowgraph.Proofs.Dispatch
import Flowgraph.Proofs.Forks

/-!
# The roles of nodes

A node of a drawn plan has one of three roles.  At most nodes control simply goes on, or leaves the
function.  At the test of an `if` or a loop it goes one of two ways.  The subject and the
alternatives of a `match` are drawn together, so the role of such a node is to belong to a drawn
`match`.  Whatever the role, exceptions leave a node only for the handlers of the `try` statements
whose bodies begin there.

That holds of every node of a plan because it holds of the nodes that each construct adds by
itself, given what surrounds it: control goes on from it by edges that are followed without a
choice, and what watches over it begins after it.

## Main definitions

* `Label.isOnward`, `Content.isStraight` : control goes on without a choice.
* `Content.departure?` : how control may leave the function at a node.
* `Piece.Role` : the roles of nodes.
* `Piece.Guarded` : the handlers that exceptions at a node reach.

## Main results

* `Plan.described_of_drawn` : the nodes of a drawn plan have their roles.
* `Plan.DrawnWhole.described`, `Plan.DrawnWhole.guarded` : the same for the layout of a function.
-/

namespace Flowgraph

/-- The edge is followed without a choice. -/
def Label.isOnward : Label → Bool
  | .always | .orelse | .resume | .loopBack => true
  | .yes | .no | .case _ | .noMatch | .exception _ => false

/-- At most one edge leads on, and no choice is made. -/
def Onward (out : List (Label × NodeId)) : Prop :=
  out = [] ∨ ∃ label v, out = [(label, v)] ∧ label.isOnward = true

theorem Onward.nil : Onward [] :=
  .inl rfl

theorem Onward.singleton {label : Label} (h : label.isOnward = true) (v : NodeId) :
    Onward [(label, v)] :=
  .inr ⟨label, v, rfl, h⟩

theorem Annex.onward_bridge (annex : Annex) (base v : Nat) :
    Onward [annex.bridge base (.always, v)] := by
  cases annex with
  | absent => exact .singleton rfl v
  | present region body => exact .singleton rfl _

theorem Route.onward_out (means : Jump) : (route : Route) → (loops : List LoopEnds) →
    (base : Nat) → Onward (route.out loops means base)
  | .arrive, [], _ => by cases means <;> exact .nil
  | .arrive, ends :: _, _ => by
    cases means with
    | breaking => exact .singleton rfl ends.exit
    | continuing => exact .singleton rfl ends.head
    | returning | raising => exact .nil
  | .leaveLoop rest, loops, base => rest.onward_out means loops.tail base
  | .release .., _, _ | .replay .., _, _ | .swallow .., _, _ => .singleton rfl _

/-- Control goes on from the node without a choice, if it does not leave the function. -/
def Content.isStraight : Content → Bool
  | .block _ | .yield _ | .raise _ | .join | .release _ | .empty => true
  | .entry | .test _ | .caseTest _ | .exit => false

/-- How control leaves the function at the statement, if it does. -/
def Stmt.departure? : Stmt → Option ExitCause
  | .jump site .returning => some (.returns site)
  | .jump site .raising => some (.raises site)
  | .yield site => some (.suspends site)
  | _ => none

/-- How control may leave the function at a node: by its last statement, or because the body is
over. -/
def Content.departure? : Content → Option ExitCause
  | .exit => some .fallsThrough
  | content => content.stmts.getLast?.bind Stmt.departure?

theorem Content.departure?_block_jump (before : List Stmt) (site : Site) (means : Jump) :
    (Content.block (before ++ [.jump site means])).departure? =
      (Stmt.jump site means).departure? := by
  simp [departure?, stmts]

theorem Env.departure?_carryOn (env : Env) (region : RegionId) (site : Site) (means : Jump) :
    (env.carryOn region site means).content.departure? = (Stmt.jump site means).departure? := by
  cases means <;> rfl

theorem Env.isStraight_carryOn (env : Env) (region : RegionId) (site : Site) (means : Jump) :
    (env.carryOn region site means).content.isStraight = true := by
  cases means <;> rfl

theorem Env.suspends_carryOn (env : Env) (region : RegionId) (site : Site) (means : Jump) :
    (env.carryOn region site means).content.suspends = false := by
  cases means <;> rfl

/-- A jump leaves the function by its own statement only. -/
theorem Route.departure?_of_mem_leaves {site : Site} {means : Jump} {c : ExitCause} :
    (route : Route) → c ∈ route.leaves site means → (Stmt.jump site means).departure? = some c
  | .arrive, h => by
    cases means <;> simp [leaves] at h <;> rw [h] <;> rfl
  | .leaveLoop rest, h => rest.departure?_of_mem_leaves h
  | .release .., h | .replay .., h | .swallow .., h => by simp [leaves] at h

/-! ## Roles -/

/-- The headers that an `if` tests after its first one. -/
def Alternatives.guards : Alternatives → List Span
  | .done | .otherwise _ => []
  | .test header _ rest => header :: rest.guards

/-- The headers that an `if` or a loop tests. -/
def Plan.guards : Plan → List Span
  | .branch test _ rest => test :: rest.guards
  | .loop header _ _ => [header]
  | _ => []

/-- The alternatives of the cases, case by case. -/
def Cases.tried (base : Nat) : Cases → List (List Nat)
  | .nil => []
  | .cons patterns _ body rest =>
    List.range' base patterns.length :: rest.tried (base + patterns.length + body.size)

section Roles

variable (d : Piece) (flat : Bool) (made : Plan → Prop)

/-- Control goes on from the node, or leaves the function at it by the last statement. -/
structure Piece.GoesStraight (u : Nat) (content : Content) : Prop where
  straight : content.isStraight = true
  out : Onward (d.row u).out
  leaves : ∀ c ∈ (d.row u).leaves, content.departure? = some c
  suspends : ∀ site, content = .yield site → .suspends site ∈ (d.row u).leaves

/-- What the node `u` is for in a drawn plan whose forks are `made`. -/
inductive Piece.Role (u : Nat) : Prop
  | straight (node : Node) (hn : d.nodes[u]? = some node) (hg : d.GoesStraight u node.content)
  | test (env : Env) (header : Span) (v w : Nat) (thrown : List (Label × NodeId))
      (hs : d.Shows u (env.node (.test header)) ⟨[(.yes, v), (.no, w)], thrown, []⟩) (hv : v ≠ w)
      (plan : Plan) (hp : made plan) (hh : header ∈ plan.guards)
  | dispatch (env : Env) (base : Nat) (next handlers : List (Label × NodeId)) (subject : Span)
      (region : RegionId) (cases : Cases) (hp : made (.dispatch subject region cases))
      (hf : env.flat = flat)
      (hd : (Plan.dispatch subject region cases).Drawn d env base next handlers)
      (hu : u = base ∨ u ∈ (cases.tried (base + 2)).flatten)

/-- The body of a `try` begins at the node `u`, and `t` leads to one of its handlers. -/
def Piece.Throws (u : Nat) (t : Label × NodeId) : Prop :=
  ∃ env base next outer region body handlers orelse final,
    made (.attempt region body handlers orelse final) ∧
    (Plan.attempt region body handlers orelse final).Drawn d env base next outer ∧
    u = body.entryAt (base + 1) ∧ t ∈ handlers.entries (base + 1 + body.size) 0

/-- What exceptions follow at the node `u` leads to different handlers of `try` statements whose
bodies begin there. -/
structure Piece.Guarded (u : Nat) (thrown : List (Label × NodeId)) : Prop where
  throws : ∀ t ∈ thrown, d.Throws made u t
  apart : thrown.Pairwise fun s t => s.2 ≠ t.2

/-- The node has a role, and exceptions at it reach handlers. -/
structure Piece.Described (u : Nat) : Prop where
  role : d.Role flat made u
  guarded : d.Guarded made u (d.row u).thrown

end Roles

section Nodes

variable {d : Piece} {flat : Bool} {made : Plan → Prop}

theorem Piece.Guarded.nil (u : Nat) : d.Guarded made u [] :=
  ⟨by simp, .nil⟩

/-- A node with an exit, from which control goes on if the exit is not for good. -/
theorem Piece.Shows.described {u : Nat} {node : Node} {row : Row} (hs : d.Shows u node row)
    (hc : node.content.isStraight = true) (ho : Onward row.out)
    (hl : ∀ c ∈ row.leaves, node.content.departure? = some c)
    (hy : ∀ site, node.content = .yield site → .suspends site ∈ row.leaves)
    (hg : d.Guarded made u row.thrown) : d.Described flat made u := by
  obtain ⟨hnode, rfl⟩ := hs
  exact ⟨.straight node hnode ⟨hc, ho, hl, hy⟩, hg⟩

/-- A node without an exit from which control goes on. -/
theorem Piece.Shows.onward {u : Nat} {node : Node} {out thrown : List (Label × NodeId)}
    (hs : d.Shows u node ⟨out, thrown, []⟩) (hc : node.content.isStraight = true)
    (hn : node.content.suspends = false) (ho : Onward out) (hg : d.Guarded made u thrown) :
    d.Described flat made u := by
  refine hs.described hc ho (by simp) (fun site h => ?_) hg
  rw [h] at hn
  cases hn

/-- The node where a jump carries on after leaving an enclosure. -/
theorem Piece.Shows.carriesOn {env : Env} {u base : Nat} {region : RegionId} {site : Site}
    {means : Jump} {route : Route} (hs : d.Shows u (env.carryOn region site means)
      ⟨route.out env.loops means base, [], route.leaves site means⟩) :
    d.Described flat made u := by
  refine hs.described (env.isStraight_carryOn region site means)
    (route.onward_out means env.loops base) (fun c hc => ?_) (fun s h => ?_) (.nil u)
  · rw [env.departure?_carryOn]
    exact route.departure?_of_mem_leaves hc
  · have hn := env.suspends_carryOn region site means
    rw [h] at hn
    cases hn

/-- The test of an `if` or a loop. -/
theorem Piece.Shows.tests {u v w : Nat} {env : Env} {header : Span} {plan : Plan}
    {thrown : List (Label × NodeId)}
    (hs : d.Shows u (env.node (.test header)) ⟨[(.yes, v), (.no, w)], thrown, []⟩) (hv : v ≠ w)
    (hp : made plan) (hh : header ∈ plan.guards) (hg : d.Guarded made u thrown) :
    d.Described flat made u :=
  ⟨.test env header v w thrown hs hv plan hp hh, by rw [hs.row]; exact hg⟩

theorem Handlers.pairwise_entries : (handlers : Handlers) → (base index : Nat) →
    (handlers.entries base index).Pairwise fun s t => s.2 ≠ t.2
  | .nil, _, _ => .nil
  | .cons region handler rest, base, index => by
    refine List.pairwise_cons.2
      ⟨fun t ht => ?_, rest.pairwise_entries (base + handler.size) (index + 1)⟩
    -- the later handlers begin after this one has ended
    have hh := handler.entryAt_bounds base
    have hr := rest.entries_bounds (base + handler.size) (index + 1) t ht
    show handler.entryAt base ≠ t.2
    exact Nat.ne_of_lt (by omega)

/-- The body of a `try` is watched over by its handlers and by what watches over the `try`. -/
theorem Piece.Guarded.attempt {env : Env} {base : Nat} {next outer : List (Label × NodeId)}
    {region : RegionId} {body : Plan} {handlers : Handlers} {orelse final : Annex}
    (hm : made (.attempt region body handlers orelse final))
    (hd : (Plan.attempt region body handlers orelse final).Drawn d env base next outer)
    (hg : d.Guarded made (body.entryAt (base + 1)) outer)
    (hle : ∀ t ∈ outer, base + 1 + body.size + handlers.size ≤ t.2) :
    d.Guarded made (body.entryAt (base + 1))
      (handlers.entries (base + 1 + body.size) 0 ++ outer) where
  throws t ht := by
    rcases List.mem_append.1 ht with ht | ht
    · exact ⟨env, base, next, outer, region, body, handlers, orelse, final, hm, hd, rfl, ht⟩
    · exact hg.throws t ht
  apart := by
    refine List.pairwise_append.2 ⟨handlers.pairwise_entries _ 0, hg.apart, fun s hs t ht => ?_⟩
    -- handlers of its own stand inside the statement, those of others behind it
    have hs := handlers.entries_bounds (base + 1 + body.size) 0 s hs
    have ht := hle t ht
    exact Nat.ne_of_lt (by omega)

end Nodes

/-! ## Drawn plans -/

section Plans

variable {d : Piece} {flat : Bool} {made : Plan → Prop}

mutual

/-- The nodes of a drawn plan have their roles. -/
theorem Plan.described_of_drawn (env : Env) (base : Nat) (next handlers : List (Label × NodeId)) :
    (plan : Plan) → plan.Drawn d env base next handlers → env.flat = flat →
      (∀ fork ∈ plan.forks, made fork) → plan.Passes (forksAmong made) → Onward next →
      d.Guarded made (plan.entryAt base) handlers → (∀ t ∈ handlers, base + plan.size ≤ t.2) →
        Throughout (d.Described flat made) base plan.size
  | .idle, h, _, _, _, hn, hg, _ | .block _, h, _, _, _, hn, hg, _ =>
    .one (h.onward rfl rfl hn hg)
  | .yield site, h, _, _, _, hn, hg, _ => by
    refine .one (h.described rfl hn (fun c hc => ?_) (fun s hs => ?_) hg)
    · rw [List.mem_singleton.1 hc]
      rfl
    · cases hs
      exact List.mem_singleton_self _
  | .jump before site means route, h, hf, _, hp, _, hg, _ => by
    have h0 : d.Described flat made base := by
      refine h.1.described rfl (route.onward_out means env.loops _) (fun c hc => ?_) (by simp) hg
      exact (Content.departure?_block_jump before site means).trans
        (route.departure?_of_mem_leaves hc)
    have hr := route.described_of_drawn env (base + 1) site means h.2 hf hp
    exact (Throughout.one h0).append hr rfl
  | .raise site route, h, hf, _, hp, _, hg, _ => by
    have h0 : d.Described flat made base := by
      refine h.1.described rfl (route.onward_out .raising env.loops _) (fun c hc => ?_) (by simp) hg
      exact route.departure?_of_mem_leaves hc
    have hr := route.described_of_drawn env (base + 1) site .raising h.2 hf hp
    exact (Throughout.one h0).append hr rfl
  | .hold before header region body, h, hf, hm, hp, hn, hg, _ => by
    have h0 : d.Described flat made base := h.1.onward rfl rfl (.singleton rfl _) hg
    have hb := body.described_of_drawn (env.within region) (base + 1) next [] h.2 hf hm hp hn
      (.nil _) (by simp)
    exact (Throughout.one h0).append hb rfl
  | .seq first rest, h, hf, hm, hp, hn, hg, hle => by
    rw [Plan.forks, List.forall_mem_append] at hm
    simp only [Plan.size] at hle
    have hfirst := first.described_of_drawn env base _ handlers h.1 hf hm.1 hp.1
      (.singleton rfl _) hg fun t ht => by have := hle t ht; omega
    have hr := rest.described_of_drawn env (base + first.size) next [] h.2 hf hm.2 hp.2 hn
      (.nil _) (by simp)
    exact hfirst.append hr rfl
  | .branch test body rest, h, hf, hm, hp, hn, hg, _ => by
    obtain ⟨h0, h1, hb, hr⟩ := h
    rw [Plan.forks, List.forall_mem_cons, List.forall_mem_append] at hm
    obtain ⟨hmade, hmb, hmr⟩ := hm
    have hbe := body.entryAt_bounds (base + 2)
    have hre := rest.target_bounds (base + 2 + body.size) (base + 1)
    -- control goes into the body, or to the end of the statement before it, or behind it
    have h0 : d.Described flat made base :=
      h0.tests (Nat.ne_iff_lt_or_gt.2 (by omega)) hmade List.mem_cons_self hg
    have h1 : d.Described flat made (base + 1) := h1.onward rfl rfl hn (.nil _)
    have hb := body.described_of_drawn env (base + 2) _ [] hb hf hmb hp.1 (.singleton rfl _)
      (.nil _) (by simp)
    have hr := rest.described_of_drawn env (base + 2 + body.size) (base + 1) hr hf hmr hp.2
      (by omega) fun header hh => ⟨_, hmade, List.mem_cons_of_mem _ hh⟩
    exact ((Throughout.two h0 h1).append hb rfl).append hr (by omega)
  | .loop header body orelse, h, hf, hm, hp, hn, hg, _ => by
    obtain ⟨h0, h1, hb, ho⟩ := h
    rw [Plan.forks, List.forall_mem_cons, List.forall_mem_append] at hm
    obtain ⟨hmade, hmb, hmo⟩ := hm
    have hbe := body.entryAt_bounds (base + 2)
    have hoe := orelse.target_bounds (base + 2 + body.size) (base + 1)
    have h0 : d.Described flat made base :=
      h0.tests (Nat.ne_iff_lt_or_gt.2 (by omega)) hmade (List.mem_singleton_self _) hg
    have h1 : d.Described flat made (base + 1) := h1.onward rfl rfl hn (.nil _)
    have hb := body.described_of_drawn (env.inLoop ⟨base, base + 1⟩) (base + 2) _ [] hb hf hmb
      hp.2.1 (.singleton rfl _) (.nil _) (by simp)
    have ho := orelse.described_of_drawn env (base + 2 + body.size) _ ho hf hmo hp.2.2
      (.singleton rfl _)
    exact ((Throughout.two h0 h1).append hb rfl).append ho (by omega)
  | .dispatch subject region cases, h, hf, hm, hp, hn, hg, _ => by
    rw [Plan.forks, List.forall_mem_cons] at hm
    have hrole : ∀ u, (u = base ∨ u ∈ (cases.tried (base + 2)).flatten) → d.Role flat made u :=
      fun u hu => .dispatch env base next handlers subject region cases hm.1 hf h hu
    obtain ⟨h0, h1, hc⟩ := h
    have h0 : d.Described flat made base := ⟨hrole base (.inl rfl), by rw [h0.row]; exact hg⟩
    have h1 : d.Described flat made (base + 1) := h1.onward rfl rfl hn (.nil _)
    have hc := cases.described_of_drawn (env.within region) (base + 2) (base + 1) 0 true hc hf hm.2
      hp fun u hu => hrole u (.inr hu)
    exact (Throughout.two h0 h1).append hc rfl
  | .attempt region body handlers' orelse final, h, hf, hm, hp, hn, hg, hle => by
    rw [Plan.forks, List.forall_mem_cons, List.forall_mem_append, List.forall_mem_append,
      List.forall_mem_append] at hm
    obtain ⟨hmade, ⟨⟨hmb, hmh⟩, hmo⟩, hmf⟩ := hm
    obtain ⟨hpb, hph, hpo, hpf⟩ := hp
    simp only [Plan.size] at hle
    have hgb := Piece.Guarded.attempt hmade h hg fun t ht => by have := hle t ht; omega
    obtain ⟨h0, hb, hh, ho, hfin⟩ := h
    have h0 : d.Described flat made base := h0.onward rfl rfl hn (.nil _)
    have hb := body.described_of_drawn (env.within region) (base + 1) _ _ hb hf hmb hpb
      (orelse.onward_bridge _ _) hgb fun t ht => by
        rcases List.mem_append.1 ht with ht | ht
        · exact (handlers'.entries_bounds _ 0 t ht).1
        · have := hle t ht
          omega
    have hh := handlers'.described_of_drawn env (base + 1 + body.size) _ hh hf hmh hph
      (.singleton rfl _)
    have ho := orelse.described_of_drawn env (base + 1 + body.size + handlers'.size) _ ho hf hmo hpo
      (.singleton rfl _)
    have hfin := final.described_of_drawn env
      (base + 1 + body.size + handlers'.size + orelse.size) _ hfin hf hmf hpf (.singleton rfl _)
    exact ((((Throughout.one h0).append hb rfl).append hh (by omega)).append ho
      (by omega)).append hfin (by omega)

theorem Alternatives.described_of_drawn (env : Env) (base join : Nat) : (rest : Alternatives) →
    rest.Drawn d env base join → env.flat = flat → (∀ fork ∈ rest.forks, made fork) →
    rest.Passes (forksAmong made) → join < base →
    (∀ header ∈ rest.guards, ∃ plan, made plan ∧ header ∈ plan.guards) →
      Throughout (d.Described flat made) base rest.size
  | .done, _, _, _, _, _, _ => .zero
  | .otherwise body, h, hf, hm, hp, _, _ =>
    body.described_of_drawn env base _ [] h hf hm hp (.singleton rfl _) (.nil _) (by simp)
  | .test header body rest, h, hf, hm, hp, hj, hh => by
    obtain ⟨h0, hb, hr⟩ := h
    rw [Alternatives.forks, List.forall_mem_append] at hm
    rw [Alternatives.guards, List.forall_mem_cons] at hh
    obtain ⟨⟨plan, hmade, hheader⟩, hh⟩ := hh
    have hbe := body.entryAt_bounds (base + 1)
    have hre := rest.target_bounds (base + 1 + body.size) join
    have h0 : d.Described flat made base :=
      h0.tests (Nat.ne_iff_lt_or_gt.2 (by omega)) hmade hheader (.nil _)
    have hb := body.described_of_drawn env (base + 1) _ [] hb hf hm.1 hp.1 (.singleton rfl _)
      (.nil _) (by simp)
    have hr := rest.described_of_drawn env (base + 1 + body.size) join hr hf hm.2 hp.2 (by omega) hh
    exact ((Throughout.one h0).append hb rfl).append hr (by omega)

theorem Cases.described_of_drawn (env : Env) (base join index : Nat) (reached : Bool) :
    (cases : Cases) → cases.Drawn d env base join index reached → env.flat = flat →
    (∀ fork ∈ cases.forks, made fork) → cases.Passes (forksAmong made) →
    (∀ u ∈ (cases.tried base).flatten, d.Role flat made u) →
      Throughout (d.Described flat made) base cases.size
  | .nil, _, _, _, _, _ => .zero
  | .cons patterns catchAll body rest, h, hf, hm, hp, hrole => by
    obtain ⟨ha, hb, hr⟩ := h
    rw [Cases.forks, List.forall_mem_append] at hm
    rw [Cases.tried, List.flatten_cons, List.forall_mem_append] at hrole
    have ha : Throughout (d.Described flat made) base patterns.length := by
      intro u hu hu'
      refine ⟨hrole.1 u (List.mem_range'_1.2 ⟨hu, hu'⟩), ?_⟩
      rw [(ha.row_cases patterns base u hu hu').1]
      exact .nil u
    have hb := body.described_of_drawn env (base + patterns.length) _ [] hb hf hm.1 hp.1
      (.singleton rfl _) (.nil _) (by simp)
    have hr := rest.described_of_drawn env (base + patterns.length + body.size) join (index + 1) _
      hr hf hm.2 hp.2 hrole.2
    exact (ha.append hb rfl).append hr (by omega)

theorem Handlers.described_of_drawn (env : Env) (base : Nat) (next : List (Label × NodeId)) :
    (handlers : Handlers) → handlers.Drawn d env base next → env.flat = flat →
    (∀ fork ∈ handlers.forks, made fork) → handlers.Passes (forksAmong made) → Onward next →
      Throughout (d.Described flat made) base handlers.size
  | .nil, _, _, _, _, _ => .zero
  | .cons region handler rest, h, hf, hm, hp, hn => by
    rw [Handlers.forks, List.forall_mem_append] at hm
    have hh := handler.described_of_drawn (env.within region) base next [] h.1 hf hm.1 hp.1 hn
      (.nil _) (by simp)
    have hr := rest.described_of_drawn env (base + handler.size) next h.2 hf hm.2 hp.2 hn
    exact hh.append hr rfl

theorem Annex.described_of_drawn (env : Env) (base : Nat) (next : List (Label × NodeId)) :
    (annex : Annex) → annex.Drawn d env base next → env.flat = flat →
    (∀ fork ∈ annex.forks, made fork) → annex.Passes (forksAmong made) → Onward next →
      Throughout (d.Described flat made) base annex.size
  | .absent, _, _, _, _, _ => .zero
  | .present region body, h, hf, hm, hp, hn =>
    body.described_of_drawn (env.within region) base next [] h hf hm hp hn (.nil _) (by simp)

/-- What a jump makes on its way out: releases, copies, and nodes where it carries on. -/
theorem Route.described_of_drawn (env : Env) (base : Nat) (site : Site) (means : Jump) :
    (route : Route) → route.Drawn d env base site means → env.flat = flat →
    route.Passes (forksAmong made) → Throughout (d.Described flat made) base route.size
  | .arrive, _, _, _ => .zero
  | .leaveLoop rest, h, hf, hp => rest.described_of_drawn env.outsideLoop base site means h hf hp
  | .release header region outside rest, h, hf, hp => by
    obtain ⟨h0, h1, hr⟩ := h
    have h0 : d.Described flat made base := h0.onward rfl rfl (.singleton rfl _) (.nil _)
    have hr := rest.described_of_drawn env (base + 2) site means hr hf hp
    exact (Throughout.two h0 h1.carriesOn).append hr rfl
  | .replay final outside body rest, h, hf, hp => by
    have hb := body.described_of_drawn (env.copy final) base _ [] h.1 hf hp.1 hp.2.1
      (.singleton rfl _) (.nil _) (by simp)
    rw [Route.size]
    cases hc : body.completes with
    -- a copy that does not complete is followed by nothing
    | false => exact hb.append .zero rfl
    | true =>
      obtain ⟨h1, hr⟩ := h.2 hc
      have hr := rest.described_of_drawn env (base + body.size + 1) site means hr hf hp.2.2
      exact hb.append ((Throughout.one h1.carriesOn).append hr rfl) rfl
  | .swallow final body, h, hf, hp =>
    body.described_of_drawn (env.copy final) base [] [] h hf hp.1 hp.2 .nil (.nil _) (by simp)

end

/-- Between the entry and the exit of a function every node has its role. -/
theorem Plan.DrawnWhole.described {plan : Plan} (h : plan.DrawnWhole d flat)
    (hm : ∀ fork ∈ plan.forks, made fork) (hp : plan.Passes (forksAmong made)) :
    Throughout (d.Described flat made) 1 plan.size :=
  plan.described_of_drawn (.ofFunction flat) 1 _ [] h.body rfl hm hp (.singleton rfl _) (.nil _)
    (by simp)

/-- Wherever exceptions are followed, they reach handlers. -/
theorem Plan.DrawnWhole.guarded {plan : Plan} (h : plan.DrawnWhole d flat)
    (hm : ∀ fork ∈ plan.forks, made fork) (hp : plan.Passes (forksAmong made)) (u : Nat) :
    d.Guarded made u (d.row u).thrown := by
  by_cases hu : 1 ≤ u ∧ u < 1 + plan.size
  · exact (h.described hm hp u hu.1 hu.2).guarded
  · -- nothing is watched at the entry, at the exit and after it
    have hthrown : (d.row u).thrown = [] := by
      obtain rfl | rfl | hu : u = 0 ∨ u = plan.size + 1 ∨ plan.size + 2 ≤ u := by omega
      · rw [h.entry.row]
      · rw [h.exit.row]
      · rw [h.row_eq_nil u hu]
        rfl
    rw [hthrown]
    exact .nil u

end Plans

end Flowgraph
