import Flowgraph.Proofs.Matching

/-!
# The ways on from a node

The edges out of a node are the outcomes of what happens there, each once.  Control goes on by one
edge, or leaves the function; a test has two outcomes; a `match` has one for each alternative it may
come to.  That holds at every node, also at those that control never reaches.  Exceptions are
followed only from where the body of a `try` begins, by one edge to each handler.

## Main definitions

* `Graph.ways` : the edges out of a node that control follows by itself.
* `Piece.DrawsTry` : a `try` is drawn, its body and its handlers beginning at the given nodes.
* `Graph.WaysAt` : the outcomes of a node.
* `Graph.OutEdges` : the edges out of all nodes.

## Main results

* `Graph.OfPiece.ways_eq` : the ways on from a node are those of the layout, one per target.
* `Graph.out_edges_partition_outcomes` : the edges of the graph of a body are the outcomes of its
  nodes.
-/

namespace Flowgraph

/-! ## The edges out of a node -/

/-- The edges out of a node that control follows by itself. -/
def Graph.ways (g : Graph) (u : NodeId) : List (Label × NodeId) :=
  (g.successors u).filter (!·.1.isException)

/-- Of two edges between the same nodes exceptions follow both or neither. -/
theorem Piece.isException_eq_of_parallel {d : Piece} {e f : Edge}
    (hapart : ∀ t ∈ (d.row e.source).out, ∀ s ∈ (d.row e.source).thrown, t.2 ≠ s.2)
    (he : e ∈ d.edges) (hf : f ∈ d.edges) (hp : e.parallel f = true) :
    e.label.isException = f.label.isException := by
  obtain ⟨source, target, label⟩ := e
  obtain ⟨source', target', label'⟩ := f
  obtain ⟨rfl, rfl⟩ : source = source' ∧ target = target' := Edge.parallel_iff.1 hp
  have hout : ∀ l, l.isException = false → ⟨source, target, l⟩ ∈ d.edges →
      (l, target) ∈ (d.row source).out := fun l hl hm => mem_out_row.2 ⟨hm, hl⟩
  have hthrown : ∀ l, l.isException = true → ⟨source, target, l⟩ ∈ d.edges →
      (l, target) ∈ (d.row source).thrown := fun l hl hm => mem_thrown_row.2 ⟨hm, hl⟩
  show label.isException = label'.isException
  -- if the two edges differed, a way on and an exception would share their target
  cases hl : label.isException with
  | false =>
    cases hl' : label'.isException with
    | false => rfl
    | true => exact (hapart _ (hout label hl he) _ (hthrown label' hl' hf) rfl).elim
  | true =>
    cases hl' : label'.isException with
    | false => exact (hapart _ (hout label' hl' hf) _ (hthrown label hl he) rfl).elim
    | true => rfl

namespace Graph.OfPiece

variable {g : Graph} {d : Piece} {u : Nat}

/-- The ways on from a node are those of the layout, one per target. -/
theorem ways_eq (h : g.OfPiece d)
    (hapart : ∀ t ∈ (d.row u).out, ∀ s ∈ (d.row u).thrown, t.2 ≠ s.2) :
    g.ways u = keepFirst sameTarget (d.row u).out := by
  let followed : Edge → Bool := fun e => e.source == u && !e.label.isException
  have hw : g.ways u = ((keepFirst Edge.parallel d.edges).filter followed).map
      fun e => (e.label, e.target) := by
    rw [ways, successors, h.edges, Edge.firstPerPair_eq, List.filter_map, List.filter_filter]
    exact congrArg (List.map _) (List.filter_congr fun e _ => Bool.and_comm _ _)
  have hsame : ∀ e ∈ d.edges, ∀ f ∈ d.edges, e.parallel f = true → followed e = followed f := by
    intro e he f hf hp
    show (e.source == u && _) = (f.source == u && _)
    rw [← (Edge.parallel_iff.1 hp).1]
    by_cases hu : e.source = u
    · subst hu
      rw [Piece.isException_eq_of_parallel hapart he hf hp]
    · rw [beq_false_of_ne hu, Bool.false_and, Bool.false_and]
  rw [hw, keepFirst_filter _ _ hsame, ← keepFirst_map Edge.parallel sameTarget]
  · rfl
  · -- all these edges leave the node `u`
    intro e he f hf
    have he : e.source = u := by simpa using (Bool.and_eq_true_iff.1 (List.mem_filter.1 he).2).1
    have hf : f.source = u := by simpa using (Bool.and_eq_true_iff.1 (List.mem_filter.1 hf).2).1
    rw [Edge.parallel, he, hf, beq_self_eq_true, Bool.true_and]
    rfl

/-- A node of the graph has the content that the layout gives it. -/
theorem hasContent (h : g.OfPiece d) {node : Node} (hn : g.nodes[u]? = some node) :
    d.HasContent u node.content := by
  rw [h.getElem?_nodes, Option.map_eq_some_iff] at hn
  obtain ⟨node', hn', rfl⟩ := hn
  exact ⟨node', hn', rfl⟩

/-- Exceptions follow the edges of the layout that lead to handlers. -/
theorem mem_edges_iff_mem_thrown (h : g.OfPiece d)
    (hapart : ∀ t ∈ (d.row u).out, ∀ s ∈ (d.row u).thrown, t.2 ≠ s.2)
    (hthrown : (d.row u).thrown.Pairwise fun s t => s.2 ≠ t.2) {v : Nat} {label : Label}
    (hl : label.isException = true) : ⟨u, v, label⟩ ∈ g.edges ↔ (label, v) ∈ (d.row u).thrown := by
  constructor
  · intro he
    exact Piece.mem_thrown_row.2 ⟨h.mem_edges he, hl⟩
  · -- the edge that is kept for the two nodes is the only one that exceptions follow
    intro ht
    have he := (Piece.mem_thrown_row.1 ht).1
    obtain ⟨⟨source, target, label'⟩, hf, hp⟩ := exists_mem_keepFirst Edge.parallel (by simp) he
    have hf' := (keepFirst_sublist _ _).subset hf
    obtain ⟨rfl, rfl⟩ : source = u ∧ target = v := Edge.parallel_iff.1 hp
    have hl' := (Piece.isException_eq_of_parallel hapart hf' he hp).trans hl
    have heq : (label', target) = (label, target) :=
      List.inj_on_of_nodup_map (f := Prod.snd) (List.pairwise_map.2 hthrown)
        (Piece.mem_thrown_row.2 ⟨hf', hl'⟩) ht rfl
    rw [h.edges, Edge.firstPerPair_eq, ← (Prod.mk.inj heq).1]
    exact hf

end Graph.OfPiece

/-! ## The statements of forks -/

/-- The headers that an `if` or a loop tests. -/
def Stmt.guards : Stmt → List Span
  | .branch _ test _ clauses => test :: clauses.filterMap (·.head)
  | .loop _ head _ _ => [head.span]
  | _ => []

theorem guards_planAlternatives {cx : Context} {site : Site} (clauses : List BranchClause)
    (rest : Alternatives) (h : planAlternatives cx site clauses = .ok rest) :
    rest.guards ⊆ clauses.filterMap (·.head) := by
  induction clauses generalizing rest with
  | nil =>
    simp only [planAlternatives, Except.ok.injEq] at h
    subst h
    exact List.nil_subset _
  | cons clause clauses ih =>
    obtain ⟨_, head, body⟩ := clause
    cases head with
    | none =>
      -- an `else` ends the tests
      obtain ⟨_, -, -, rfl⟩ := planAlternatives_else_eq_ok h
      exact List.nil_subset _
    | some header =>
      obtain ⟨_, rest', -, -, hr, rfl⟩ := planAlternatives_test_eq_ok h
      exact List.cons_subset_cons header (ih rest' hr)

/-- The statement and the plan are forks of the same kind. -/
def Stmt.Resembles : Stmt → Plan → Prop
  | .branch .., .branch .. | .loop .., .loop .. | .attempt .., .attempt .. => True
  | .dispatch _ subject _, .dispatch subject' _ _ => subject = subject'
  | _, _ => False

theorem Stmt.resembles_of_plan {s : Stmt} {cx : Context} {plan : Plan} (hf : s.isFork = true)
    (hp : s.plan cx = .ok (some plan)) : s.Resembles plan := by
  cases s with
  | branch site test inner clauses =>
    obtain ⟨_, _, -, -, -, -, he⟩ := plan_branch_eq_ok hp
    cases he
    trivial
  | loop site head inner orelse =>
    obtain ⟨_, _, -, -, -, he⟩ := plan_loop_eq_ok hp
    cases he
    trivial
  | attempt site inner handlers orelse final =>
    obtain ⟨_, _, _, _, _, _, _, -, -, -, -, -, -, -, -, -, he⟩ := plan_attempt_eq_ok hp
    cases he
    trivial
  | dispatch site subject cases =>
    obtain ⟨_, _, -, -, -, he⟩ := plan_dispatch_eq_ok hp
    cases he
    rfl
  | simple | pass | marker | yield | jump | hold | unsupported => simp [isFork] at hf

namespace MadeIn

variable {body : List Stmt}

/-- What a fork tests is tested by its statement. -/
theorem exists_guard {plan : Plan} (h : MadeIn body plan) {header : Span}
    (hh : header ∈ plan.guards) : ∃ s ∈ bodyStatements body, header ∈ s.guards := by
  obtain ⟨s, hs, hf, cx, hp⟩ := h
  refine ⟨s, hs, ?_⟩
  -- the statement is of the same kind as its plan, which leaves one case for each fork
  have hr := Stmt.resembles_of_plan hf hp
  cases plan with
  | branch test inner rest =>
    cases s with
    | branch site test' inner' clauses =>
      obtain ⟨q, rest', -, -, -, hr, he⟩ := Stmt.plan_branch_eq_ok hp
      cases he
      exact List.cons_subset_cons test (guards_planAlternatives clauses rest hr) hh
    | _ => exact hr.elim
  | loop header' inner orelse =>
    cases s with
    | loop site head inner' orelse' =>
      obtain ⟨q, annex, -, -, -, he⟩ := Stmt.plan_loop_eq_ok hp
      cases he
      exact hh
    | _ => exact hr.elim
  | _ => simp [Plan.guards] at hh

/-- Only a `match` is planned as a dispatch. -/
theorem exists_dispatch {subject : Span} {region : RegionId} {cases' : Cases}
    (h : MadeIn body (.dispatch subject region cases')) :
    ∃ site cases cx, .dispatch site subject cases ∈ bodyStatements body ∧
      (Stmt.dispatch site subject cases).plan cx =
        .ok (some (.dispatch subject region cases')) := by
  obtain ⟨s, hs, hf, cx, hp⟩ := h
  have hr := Stmt.resembles_of_plan hf hp
  cases s with
  | dispatch site subject' cases =>
    obtain rfl : subject' = subject := hr
    exact ⟨site, cases, cx, hs, hp⟩
  | _ => exact hr.elim

/-- Only a `try` is planned as an attempt. -/
theorem exists_attempt {region : RegionId} {body' : Plan} {handlers' : Handlers}
    {orelse' final' : Annex} (h : MadeIn body (.attempt region body' handlers' orelse' final')) :
    ∃ site inner handlers orelse final cx,
      .attempt site inner handlers orelse final ∈ bodyStatements body ∧
      (Stmt.attempt site inner handlers orelse final).plan cx =
        .ok (some (.attempt region body' handlers' orelse' final')) := by
  obtain ⟨s, hs, hf, cx, hp⟩ := h
  have hr := Stmt.resembles_of_plan hf hp
  cases s with
  | attempt site inner handlers orelse final =>
    exact ⟨site, inner, handlers, orelse, final, cx, hs, hp⟩
  | _ => exact hr.elim

end MadeIn

/-! ## Handlers -/

section Tries

variable {d : Piece}

/-- A `try` is drawn in the piece.  Control enters its body at the node `u`, and its handlers at the
nodes `vs`. -/
structure Piece.DrawsTry (d : Piece) (site : Site) (body : List Stmt) (handlers : List Handler)
    (orelse final : List Stmt) (u : Nat) (vs : List Nat) : Prop where
  drawn : ∃ cx region body' handlers' orelse' final' env base next outer,
    (Stmt.attempt site body handlers orelse final).plan cx =
      .ok (some (.attempt region body' handlers' orelse' final')) ∧
    (Plan.attempt region body' handlers' orelse' final').Drawn d env base next outer ∧
    u = body'.entryAt (base + 1) ∧ vs = (handlers'.entries (base + 1 + body'.size) 0).map Prod.snd
  body : d.Begins body u
  handlers : List.Forall₂ (fun handler v => d.Begins handler.body v) handlers vs

theorem Handlers.label_of_getElem?_entries : (handlers : Handlers) → (base index i : Nat) →
    {t : Label × NodeId} → (handlers.entries base index)[i]? = some t →
      t.1 = .exception (index + i)
  | .nil, _, _, _, _, h => by simp [entries] at h
  | .cons region handler rest, base, index, 0, t, h => by
    obtain rfl : (Label.exception index, handler.entryAt base) = t := by simpa [entries] using h
    rfl
  | .cons region handler rest, base, index, i + 1, t, h => by
    have ih := rest.label_of_getElem?_entries (base + handler.size) (index + 1) i
      (t := t) (by simpa [entries] using h)
    rw [ih, Nat.add_right_comm, Nat.add_assoc]

/-- The drawn handlers of a `try` begin where exceptions reach them. -/
theorem begins_planHandlers {cx : Context} {site : Site} {env : Env}
    {next : List (Label × NodeId)} : (handlers : List Handler) → (handlers' : Handlers) →
    (index : Nat) → planHandlers cx site index handlers = .ok handlers' → (base i : Nat) →
    handlers'.Drawn d env base next →
      List.Forall₂ (fun handler v => d.Begins handler.body v) handlers
        ((handlers'.entries base i).map Prod.snd)
  | [], handlers', _, h, _, _, _ => by
    simp only [planHandlers, Except.ok.injEq] at h
    subst h
    exact .nil
  | ⟨_, _, body⟩ :: rest, handlers', index, h, base, i, hd => by
    obtain ⟨region, q, rest', -, -, hq, hr, rfl⟩ := planHandlers_cons_eq_ok h
    exact .cons ⟨cx, q, _, base, next, [], hq, hd.1, rfl⟩
      (begins_planHandlers rest rest' (index + 1) hr _ (i + 1) hd.2)

/-- What watches over a drawn plan is followed from where the plan begins, after what watches over
parts of it that begin there. -/
theorem Plan.handlers_suffix_thrown : (plan : Plan) → {env : Env} → {base : Nat} →
    {next handlers : List (Label × NodeId)} → plan.Drawn d env base next handlers →
      handlers <:+ (d.row (plan.entryAt base)).thrown
  | .idle, _, _, _, _, h | .block _, _, _, _, _, h | .yield _, _, _, _, _, h =>
    ⟨[], (congrArg Row.thrown h.row).symm⟩
  | .jump .., _, _, _, _, h | .raise .., _, _, _, _, h | .hold .., _, _, _, _, h
  | .branch .., _, _, _, _, h | .loop .., _, _, _, _, h | .dispatch .., _, _, _, _, h =>
    ⟨[], (congrArg Row.thrown h.1.row).symm⟩
  | .seq first _, _, _, _, _, h => first.handlers_suffix_thrown h.1
  | .attempt _ body _ _ _, _, _, _, _, h =>
    (List.suffix_append _ _).trans (body.handlers_suffix_thrown h.2.1)

/-- A drawn attempt draws the statement it is planned from. -/
theorem Piece.DrawsTry.of_drawn {site : Site} {body : List Stmt} {handlers : List Handler}
    {orelse final : List Stmt} {cx : Context} {region : RegionId} {body' : Plan}
    {handlers' : Handlers} {orelse' final' : Annex} {env : Env} {base : Nat}
    {next outer : List (Label × NodeId)}
    (hp : (Stmt.attempt site body handlers orelse final).plan cx =
      .ok (some (.attempt region body' handlers' orelse' final')))
    (hd : (Plan.attempt region body' handlers' orelse' final').Drawn d env base next outer) :
    d.DrawsTry site body handlers orelse final (body'.entryAt (base + 1))
      ((handlers'.entries (base + 1 + body'.size) 0).map Prod.snd) := by
  obtain ⟨whole, inner, region', q, handlers'', annex, annex', -, -, -, -, -, hq, hh, -, -, he⟩ :=
    Stmt.plan_attempt_eq_ok hp
  cases he
  exact ⟨⟨cx, _, _, _, _, _, env, base, next, outer, hp, hd, rfl, rfl⟩,
    ⟨inner, q, _, _, _, _, hq, hd.2.1, rfl⟩,
    begins_planHandlers handlers handlers' 0 hh _ 0 hd.2.2.1⟩

end Tries

/-! ## The outcomes of a node -/

/-- The function was found to return or to raise at the node `u`. -/
def Piece.EndsAt (d : Piece) (u : Nat) : Prop :=
  ∃ site, ⟨u, .returns site⟩ ∈ d.exits ∨ ⟨u, .raises site⟩ ∈ d.exits

theorem Stmt.departure?_ne_fallsThrough (s : Stmt) : s.departure? ≠ some .fallsThrough := by
  cases s with
  | jump site means => cases means <;> simp [departure?]
  | _ => simp [departure?]

theorem Content.departure?_ne_fallsThrough {content : Content} (hc : content.isStraight = true) :
    content.departure? ≠ some .fallsThrough := by
  have hlast : content.departure? = content.stmts.getLast?.bind Stmt.departure? := by
    cases content with
    | exit => cases hc
    | _ => rfl
  intro h
  rw [hlast] at h
  obtain ⟨s, -, hs⟩ := Option.bind_eq_some_iff.1 h
  exact s.departure?_ne_fallsThrough hs

/-- Where control goes straight, nothing leads on exactly if the function returns or raises. -/
theorem Piece.GoesStraight.out_eq_nil_iff {d : Piece} {u : Nat} {content : Content}
    {scope : Nat → Prop} (h : d.GoesStraight u content) (hw : (d.row u).Wired scope) :
    (d.row u).out = [] ↔ d.EndsAt u := by
  rw [hw.ends]
  constructor
  · rintro ⟨c, hc, hf⟩
    have hd := h.leaves c hc
    have hx := mem_leaves_row.1 hc
    cases c with
    | returns site => exact ⟨site, .inl hx⟩
    | raises site => exact ⟨site, .inr hx⟩
    -- only the join at the end of the function falls through
    | fallsThrough => exact absurd hd (Content.departure?_ne_fallsThrough h.straight)
    | suspends site => cases hf
  · rintro ⟨site, hx | hx⟩
    · exact ⟨.returns site, mem_leaves_row.2 hx, rfl⟩
    · exact ⟨.raises site, mem_leaves_row.2 hx, rfl⟩

/-- The ways on from the node `u`, by its content.  The layout `d` says where the function was found
to leave and how the statements of the body are drawn. -/
inductive Graph.WaysAt (g : Graph) (d : Piece) (flat : Bool) (body : List Stmt) (u : Nat) :
    Content → Prop
  /-- Control enters the body. -/
  | entry (v : Nat) (hw : g.ways u = [(.always, v)]) : WaysAt g d flat body u .entry
  /-- The body is over. -/
  | exit (hw : g.ways u = []) : WaysAt g d flat body u .exit
  /-- Control goes on. -/
  | onward (content : Content) (hc : content.isStraight = true) (hn : ¬ d.EndsAt u)
      (label : Label) (v : Nat) (hl : label.isOnward = true) (hw : g.ways u = [(label, v)]) :
      WaysAt g d flat body u content
  /-- Control leaves the function. -/
  | ends (content : Content) (hc : content.isStraight = true) (he : d.EndsAt u)
      (hw : g.ways u = []) : WaysAt g d flat body u content
  /-- An `if` or a loop decides. -/
  | test (header : Span) (s : Stmt) (hs : s ∈ bodyStatements body) (hh : header ∈ s.guards)
      (v w : Nat) (hv : v ≠ w) (hw : g.ways u = [(.yes, v), (.no, w)]) :
      WaysAt g d flat body u (.test header)
  /-- A `match` hands its subject to its alternatives. -/
  | subject (site : Site) (subject : Span) (cases : List MatchCase)
      (hs : .dispatch site subject cases ∈ bodyStatements body) (m : MatchNodes)
      (hd : d.DrawsMatch flat site subject cases m) (hu : u = m.subject) :
      WaysAt g d flat body u (.test subject)
  /-- An alternative of a `match` is tried. -/
  | alternative (site : Site) (subject : Span) (cases : List MatchCase)
      (hs : .dispatch site subject cases ∈ bodyStatements body) (m : MatchNodes)
      (hd : d.DrawsMatch flat site subject cases m) (hu : u ∈ m.tried.flatten) (pattern : Span) :
      WaysAt g d flat body u (.caseTest pattern)

namespace Piece.DrawsMatch

variable {g : Graph} {d : Piece} {flat : Bool} {site : Site} {subject : Span}
  {cases : List MatchCase} {m : MatchNodes}

/-- The alternatives of a drawn `match` hold its patterns. -/
theorem exists_pattern (h : d.DrawsMatch flat site subject cases m) {u : Nat}
    (hu : u ∈ m.tried.flatten) : ∃ pattern, d.HasContent u (.caseTest pattern) := by
  obtain ⟨us, hus, hu⟩ := List.mem_flatten.1 hu
  obtain ⟨k, hk, rfl⟩ := List.getElem_of_mem hus
  have hk' : k < cases.length := h.tried.length_eq ▸ hk
  have hpatterns := h.tried.get hk' hk
  obtain ⟨j, hj, rfl⟩ := List.getElem_of_mem hu
  have hj' : j < cases[k].head.patterns.length := hpatterns.length_eq ▸ hj
  exact ⟨_, hpatterns.get hj' hj⟩

theorem ways_subject (h : d.DrawsMatch flat site subject cases m) (hg : g.OfPiece d)
    (hapart : ∀ t ∈ (d.row m.subject).out, ∀ s ∈ (d.row m.subject).thrown, t.2 ≠ s.2) :
    g.ways m.subject =
      (if flat then m.reached cases else (m.reached cases).take 1).map ((.always, ·)) ++
        (m.unmatched cases).map ((.noMatch, ·)) :=
  (hg.ways_eq hapart).trans h.out_subject

theorem ways_alternative (h : d.DrawsMatch flat site subject cases m) (hg : g.OfPiece d)
    {k u : Nat} {us : List Nat} (hus : m.tried[k]? = some us) (hu : u ∈ us) :
    ∃ v, m.bodies[k]? = some v ∧ g.ways u = (.case k, v) ::
      if flat then [] else (nextAfter u (m.path cases)).map ((.noMatch, ·)) := by
  obtain ⟨v, hv, hrow⟩ := h.row_alternative hus hu
  refine ⟨v, hv, ?_⟩
  rw [hg.ways_eq (by simp [hrow]), hrow]
  refine keepFirst_eq_self _ ?_
  -- the body of the case is not where the alternative leads on to
  cases flat with
  | true => exact List.pairwise_singleton _ _
  | false =>
    rw [if_neg Bool.false_ne_true]
    rcases nextAfter_cases u (m.path cases) with hn | ⟨w, hw, hn⟩
    · rw [hn]
      exact List.pairwise_singleton _ _
    · rw [hn]
      refine List.pairwise_pair.2 (sameTarget_eq_false.2 ?_)
      exact h.ne_of_mem_path (List.mem_of_getElem? hv) hw

end Piece.DrawsMatch

/-- The ways on from a node follow from its role. -/
theorem Piece.Role.waysAt {g : Graph} {d : Piece} {flat : Bool} {body : List Stmt} {u : Nat}
    {scope : Nat → Prop} {content : Content} (h : d.Role flat (MadeIn body) u) (hg : g.OfPiece d)
    (hw : (d.row u).Wired scope) (hc : d.HasContent u content) :
    g.WaysAt d flat body u content := by
  have hways := hg.ways_eq hw.apart
  cases h with
  | straight node hn hs =>
    obtain rfl : content = node.content := hc.unique ⟨node, hn, rfl⟩
    rcases hs.out with ho | ⟨label, v, ho, hl⟩
    · exact .ends _ hs.straight ((hs.out_eq_nil_iff hw).1 ho) (by rw [hways, ho]; rfl)
    · refine .onward _ hs.straight (fun he => ?_) label v hl (by rw [hways, ho]; rfl)
      rw [(hs.out_eq_nil_iff hw).2 he] at ho
      cases ho
  | test env header v w thrown hs hv plan hp hh =>
    -- the fork that was planned is a statement of the body, whose header is tested here
    obtain ⟨s, hs', hheader⟩ := hp.exists_guard hh
    rw [hc.unique hs.hasContent]
    refine .test header s hs' hheader v w hv ?_
    rw [hways, hs.row]
    exact keepFirst_eq_self _ (List.pairwise_pair.2 (sameTarget_eq_false.2 hv))
  | dispatch env base next handlers subject region cases' hp hf hd hu =>
    obtain ⟨site, cases, cx, hs, hplan⟩ := hp.exists_dispatch
    subst hf
    have hm := Piece.DrawsMatch.of_drawn hplan hd
    rcases hu with rfl | hu
    · rw [hc.unique hm.subject]
      exact .subject site subject cases hs _ hm rfl
    · obtain ⟨pattern, hpattern⟩ := hm.exists_pattern hu
      rw [hc.unique hpattern]
      exact .alternative site subject cases hs _ hm hu pattern

/-! ## Graphs of bodies -/

/-- The edges out of the nodes of a graph are the outcomes of the nodes. -/
structure Graph.OutEdges (g : Graph) (d : Piece) (flat : Bool) (body : List Stmt) : Prop where
  /-- At most one edge leads from one node to another. -/
  simple : g.edges.Pairwise fun e f => e.parallel f = false
  /-- The ways on from every node, whether control reaches it or not. -/
  ways : ∀ u node, g.nodes[u]? = some node → g.WaysAt d flat body u node.content
  /-- Every `match` and every `try` is drawn. -/
  dispatches : ∀ site subject cases, .dispatch site subject cases ∈ bodyStatements body →
    ∃ m, d.DrawsMatch flat site subject cases m
  tries : ∀ site inner handlers orelse final,
    .attempt site inner handlers orelse final ∈ bodyStatements body →
      ∃ u vs, d.DrawsTry site inner handlers orelse final u vs
  /-- The subject of a `match` leads to the alternatives that control may come to, or to the first
  of them, and past the statement unless a case accepts every subject. -/
  subjects : ∀ site subject cases m, d.DrawsMatch flat site subject cases m →
    g.ways m.subject =
      (if flat then m.reached cases else (m.reached cases).take 1).map ((.always, ·)) ++
        (m.unmatched cases).map ((.noMatch, ·))
  /-- An alternative of the case `k` leads into the body of the case, and in a chain to what comes
  after it. -/
  alternatives : ∀ site subject cases m, d.DrawsMatch flat site subject cases m →
    ∀ (k : Nat) (us : List Nat), m.tried[k]? = some us → ∀ u ∈ us,
      ∃ v, m.bodies[k]? = some v ∧ g.ways u = (.case k, v) ::
        if flat then [] else (nextAfter u (m.path cases)).map ((.noMatch, ·))
  /-- Exceptions lead from where the body of a `try` begins to each of its handlers, and nowhere
  else. -/
  exceptions : ∀ u v label, label.isException = true →
    (⟨u, v, label⟩ ∈ g.edges ↔ ∃ site inner handlers orelse final vs i,
      .attempt site inner handlers orelse final ∈ bodyStatements body ∧
      d.DrawsTry site inner handlers orelse final u vs ∧ vs[i]? = some v ∧ label = .exception i)

/-- A node is the entry, belongs to the plan, or is the exit. -/
theorem Plan.DrawnWhole.node_cases {d : Piece} {flat : Bool} {plan : Plan}
    (h : plan.DrawnWhole d flat) {u : Nat} {content : Content} (hc : d.HasContent u content) :
    (u = 0 ∧ content = .entry) ∨ (1 ≤ u ∧ u < 1 + plan.size) ∨
      (u = plan.size + 1 ∧ content = .exit) := by
  have hlt : u < plan.size + 2 := by
    obtain ⟨node, hn, -⟩ := hc
    have hu := (List.getElem?_eq_some_iff.1 hn).1
    rwa [h.length_nodes] at hu
  obtain rfl | hu | rfl : u = 0 ∨ (1 ≤ u ∧ u < 1 + plan.size) ∨ u = plan.size + 1 := by omega
  · exact .inl ⟨rfl, hc.unique h.entry.hasContent⟩
  · exact .inr (.inl hu)
  · exact .inr (.inr ⟨rfl, hc.unique h.exit.hasContent⟩)

/-- An edge that control follows is not parallel to one that only exceptions follow. -/
theorem Plan.DrawnWhole.apart {d : Piece} {flat : Bool} {plan : Plan} (h : plan.DrawnWhole d flat)
    (hf : plan.Fits 0) (u : Nat) :
    ∀ t ∈ (d.row u).out, ∀ s ∈ (d.row u).thrown, t.2 ≠ s.2 := by
  intro t ht
  refine (h.wired hf (h.lt_length_of_row_ne fun hnil => ?_)).apart t ht
  rw [hnil] at ht
  simp [Row.nil] at ht

/-- Where exceptions are followed, the body of a `try` begins. -/
theorem Piece.Throws.exists_drawsTry {d : Piece} {body : List Stmt} {u : Nat} {t : Label × NodeId}
    (h : d.Throws (MadeIn body) u t) : ∃ site inner handlers orelse final vs i,
      .attempt site inner handlers orelse final ∈ bodyStatements body ∧
      d.DrawsTry site inner handlers orelse final u vs ∧ vs[i]? = some t.2 ∧
      t.1 = .exception i := by
  obtain ⟨env, base, next, outer, region, body', handlers', orelse', final', hm, hd, rfl, ht⟩ := h
  obtain ⟨site, inner, handlers, orelse, final, cx, hs, hplan⟩ := hm.exists_attempt
  obtain ⟨i, hi⟩ := List.getElem?_of_mem ht
  refine ⟨site, inner, handlers, orelse, final, _, i, hs, .of_drawn hplan hd, ?_, ?_⟩
  · rw [List.getElem?_map, hi]
    rfl
  · rw [handlers'.label_of_getElem?_entries _ 0 i hi, Nat.zero_add]

/-- From where the body of a drawn `try` begins, exceptions lead to its handlers. -/
theorem Piece.DrawsTry.mem_thrown {d : Piece} {site : Site} {inner : List Stmt}
    {handlers : List Handler} {orelse final : List Stmt} {u v i : Nat} {vs : List Nat}
    (h : d.DrawsTry site inner handlers orelse final u vs) (hv : vs[i]? = some v) :
    (.exception i, v) ∈ (d.row u).thrown := by
  obtain ⟨cx, region, body', handlers', orelse', final', env, base, next, outer, -, hd, rfl, rfl⟩ :=
    h.drawn
  rw [List.getElem?_map, Option.map_eq_some_iff] at hv
  obtain ⟨⟨label, v'⟩, ht, rfl⟩ := hv
  have hl := handlers'.label_of_getElem?_entries _ 0 i ht
  rw [Nat.zero_add] at hl
  refine (body'.handlers_suffix_thrown hd.2.1).subset (List.mem_append_left _ ?_)
  rw [← hl]
  exact List.mem_of_getElem? ht

section Bodies

variable {options : Options} {regions : RegionTree} {body : List Stmt} {plan : Plan} {d : Piece}
  {flat : Bool}

/-- Every fork of a body is drawn in the layout of its plan. -/
theorem Plan.DrawnWhole.exists_fork (hw : plan.DrawnWhole d flat)
    (hp : Plan.ofBody options regions body = .ok plan) {s : Stmt} (hs : s ∈ bodyStatements body)
    (hf : s.isFork = true) :
    ∃ cx fork, s.plan cx = .ok (some fork) ∧ s.Resembles fork ∧ fork.DrawnIn d flat := by
  obtain ⟨fork, hfork, cx, hplan⟩ := (forks_ofBody hp).1.exists_plan hs hf
  exact ⟨cx, fork, hplan, Stmt.resembles_of_plan hf hplan,
    plan.drawsAll_forks _ 1 _ [] hw.body rfl fork hfork⟩

theorem Plan.DrawnWhole.exists_drawsMatch (hw : plan.DrawnWhole d flat)
    (hp : Plan.ofBody options regions body = .ok plan) {site : Site} {subject : Span}
    {cases : List MatchCase} (hs : .dispatch site subject cases ∈ bodyStatements body) :
    ∃ m, d.DrawsMatch flat site subject cases m := by
  obtain ⟨cx, fork, hplan, hr, env, base, next, outer, rfl, hd⟩ := hw.exists_fork hp hs rfl
  cases fork with
  | dispatch subject' region cases' =>
    obtain rfl : subject = subject' := hr
    exact ⟨_, .of_drawn hplan hd⟩
  | _ => exact hr.elim

theorem Plan.DrawnWhole.exists_drawsTry (hw : plan.DrawnWhole d flat)
    (hp : Plan.ofBody options regions body = .ok plan) {site : Site} {inner : List Stmt}
    {handlers : List Handler} {orelse final : List Stmt}
    (hs : .attempt site inner handlers orelse final ∈ bodyStatements body) :
    ∃ u vs, d.DrawsTry site inner handlers orelse final u vs := by
  obtain ⟨cx, fork, hplan, hr, env, base, next, outer, -, hd⟩ := hw.exists_fork hp hs rfl
  cases fork with
  | attempt region body' handlers' orelse' final' => exact ⟨_, _, .of_drawn hplan hd⟩
  | _ => exact hr.elim

theorem Plan.DrawnWhole.role (hw : plan.DrawnWhole d flat)
    (hp : Plan.ofBody options regions body = .ok plan) {u : Nat} (hu : 1 ≤ u ∧ u < 1 + plan.size) :
    d.Role flat (MadeIn body) u := by
  obtain ⟨hforks, hcopies⟩ := forks_ofBody hp
  exact (hw.described (fun _ hf => hforks.exists_stmt hf) hcopies u hu.1 hu.2).role

/-- The ways on from a node of the graph of a layout. -/
theorem Plan.DrawnWhole.waysAt {g : Graph} (hw : plan.DrawnWhole d flat)
    (hp : Plan.ofBody options regions body = .ok plan) (hg : g.OfPiece d) {u : Nat} {node : Node}
    (hn : g.nodes[u]? = some node) : g.WaysAt d flat body u node.content := by
  have hfits := fits_ofBody hp
  have hc := hg.hasContent hn
  have hways := hg.ways_eq (hw.apart hfits u)
  rcases hw.node_cases hc with ⟨rfl, he⟩ | hu | ⟨rfl, he⟩
  · rw [he]
    exact .entry _ (hways.trans (by rw [hw.entry.row]; rfl))
  · exact (hw.role hp hu).waysAt hg (hw.wired hfits (hw.length_nodes ▸ by omega)) hc
  · rw [he]
    exact .exit (hways.trans (by rw [hw.exit.row]; rfl))

/-- The edges of the graph of a layout that only exceptions follow. -/
theorem Plan.DrawnWhole.mem_edges_iff {g : Graph} (hw : plan.DrawnWhole d flat)
    (hp : Plan.ofBody options regions body = .ok plan) (hg : g.OfPiece d) (u v : Nat)
    {label : Label} (hl : label.isException = true) :
    ⟨u, v, label⟩ ∈ g.edges ↔ ∃ site inner handlers orelse final vs i,
      .attempt site inner handlers orelse final ∈ bodyStatements body ∧
      d.DrawsTry site inner handlers orelse final u vs ∧ vs[i]? = some v ∧
      label = .exception i := by
  obtain ⟨hforks, hcopies⟩ := forks_ofBody hp
  -- exceptions are followed from the beginnings of the bodies that handlers watch over
  have hguarded := hw.guarded (fun _ hf => hforks.exists_stmt hf) hcopies u
  rw [hg.mem_edges_iff_mem_thrown (hw.apart (fits_ofBody hp) u) hguarded.apart hl]
  constructor
  · intro ht
    exact (hguarded.throws _ ht).exists_drawsTry
  · rintro ⟨site, inner, handlers, orelse, final, vs, i, -, htry, hv, rfl⟩
    exact htry.mem_thrown hv

end Bodies

namespace Graph

/-- **The edges out of a node partition its outcomes.**  In the graph of a body control goes on from
every node as the content of the node says, and exceptions are followed from the bodies of `try`
statements to their handlers only. -/
theorem out_edges_partition_outcomes {options : Options} {body : List Stmt} {g : Graph}
    (h : ofBody options body = .ok g) :
    ∃ plan, Plan.ofBody options (RegionTree.ofBody body) body = .ok plan ∧
      g.OutEdges (Piece.ofPlan options.flatDispatch plan).1 options.flatDispatch body := by
  obtain ⟨plan, hp, hg, -⟩ := ofPiece_ofBody h
  have hw := Piece.drawnWhole_ofPlan options.flatDispatch plan
  have hapart := hw.apart (Plan.fits_ofBody hp)
  refine ⟨plan, hp, ⟨?_, ?_, ?_, ?_, ?_, ?_, ?_⟩⟩
  · rw [hg.edges, Edge.firstPerPair_eq]
    exact pairwise_keepFirst _ _
  · intro u node hn
    exact hw.waysAt hp hg hn
  · intro site subject cases hs
    exact hw.exists_drawsMatch hp hs
  · intro site inner handlers orelse final hs
    exact hw.exists_drawsTry hp hs
  · intro site subject cases m hm
    exact hm.ways_subject hg (hapart m.subject)
  · intro site subject cases m hm k us hus u hu
    exact hm.ways_alternative hg hus hu
  · intro u v label hl
    exact hw.mem_edges_iff hp hg u v hl

/-- A loop around a `try` whose body begins with another one, and a `match` in the handlers. -/
def nestedTries : List Stmt :=
  [.loop ⟨0, ⟨0, 90⟩⟩ (.condition ⟨6, 7⟩)
    [.attempt ⟨1, ⟨10, 80⟩⟩
      [.attempt ⟨2, ⟨15, 30⟩⟩ [.yield ⟨3, ⟨20, 25⟩⟩]
        [⟨⟨26, 28⟩, none, [.jump ⟨4, ⟨27, 28⟩⟩ .breaking]⟩] [] []]
      [⟨⟨31, 40⟩, some ⟨33, 34⟩, [.jump ⟨5, ⟨35, 40⟩⟩ .returning]⟩,
        ⟨⟨41, 70⟩, none,
          [.dispatch ⟨6, ⟨42, 70⟩⟩ ⟨43, 44⟩
            [⟨⟨45, 50⟩, ⟨[⟨⟨46, 47⟩, .refutable⟩, ⟨⟨48, 49⟩, .refutable⟩], none⟩,
                [.jump ⟨7, ⟨50, 51⟩⟩ .raising]⟩,
              ⟨⟨52, 60⟩, ⟨[⟨⟨53, 54⟩, .wildcard⟩], none⟩, [.pass ⟨8, ⟨55, 56⟩⟩]⟩,
              ⟨⟨61, 70⟩, ⟨[⟨⟨62, 63⟩, .wildcard⟩], none⟩, [.pass ⟨9, ⟨64, 65⟩⟩]⟩]]⟩]
      [] [.simple ⟨10, ⟨75, 78⟩⟩]]
    []]

/-- Both bodies begin at the node `5`, so exceptions there reach the handlers of both. -/
theorem nestedTries_out_edges : ∃ g, ofBody {} nestedTries = .ok g ∧
    g.successors 5 =
      [(.exception 0, 6), (.always, 4), (.exception 0, 9), (.exception 1, 12)] ∧
    g.ways 14 = [(.case 0, 16), (.noMatch, 15)] ∧ g.ways 19 = [(.case 1, 20)] ∧
    ∃ plan, Plan.ofBody {} (RegionTree.ofBody nestedTries) nestedTries = .ok plan ∧
      g.OutEdges (Piece.ofPlan false plan).1 false nestedTries := by
  obtain ⟨g, h, h5, h14, h19⟩ : ∃ g, ofBody {} nestedTries = .ok g ∧
      g.successors 5 =
        [(.exception 0, 6), (.always, 4), (.exception 0, 9), (.exception 1, 12)] ∧
      g.ways 14 = [(.case 0, 16), (.noMatch, 15)] ∧ g.ways 19 = [(.case 1, 20)] :=
    ⟨_, rfl, rfl, rfl, rfl⟩
  exact ⟨g, h, h5, h14, h19, out_edges_partition_outcomes h⟩

end Graph

end Flowgraph
