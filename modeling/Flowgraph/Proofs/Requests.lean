import Flowgraph.Proofs.Matching
import Flowgraph.Proofs.Wiring

/-!
# Requested edges

A layout requests edges, and of the edges between the same two nodes the graph keeps the first.
This hides nothing, for a layout never requests two different edges between the same two nodes.
What leaves a node is requested from several places, so the argument goes from node to node: the
parts that a node leads to are disjoint, and what comes after them and the handlers around them
are not among them.

One edge may be requested twice, the edge from the subject of a `match` past its cases.  It is
requested for the subject, and once more for the node that the next test would hang off, which is
the subject again if the dispatch is flat.

## Main definitions

* `Piece.SkipsCases` : the edge leads past the cases of a `match`.
* `Piece.Separate` : different edges out of a node lead to different nodes.
* `Piece.Harmless` : parallel edges are the same edge past the cases of a `match`.

## Main results

* `Plan.separate_of_drawn` : different edges out of a node of a drawn plan lead to different
  nodes.
* `Piece.pairwise_harmless_ofPlan` : the layout of a function requests the same edge twice at
  most, and only past the cases of a `match`.
-/

namespace Flowgraph

/-! ## Edges out of one node -/

/-- The edge leads past the cases of a `match`: from its subject, a test that is left if nothing
matches, to the end of the statement, which is the next node. -/
structure Piece.SkipsCases (d : Piece) (e : Edge) : Prop where
  label : e.label = .noMatch
  target : e.target = e.source + 1
  subject : ∃ subject, d.HasContent e.source (.test subject)
  join : d.HasContent e.target .join

/-- Different edges out of the node lead to different nodes.  An edge is requested twice only if it
leads past the cases of a `match`. -/
def Piece.Separate (d : Piece) (u : Nat) : Prop :=
  ((d.row u).out ++ (d.row u).thrown).Pairwise fun s t =>
    s.2 = t.2 → s = t ∧ d.SkipsCases ⟨u, s.2, s.1⟩

/-- The edges lead to different nodes. -/
abbrev Scattered (out : List (Label × NodeId)) : Prop :=
  out.Pairwise fun s t => s.2 ≠ t.2

theorem Scattered.pair {s t : Label × NodeId} (h : s.2 ≠ t.2) : Scattered [s, t] := by
  simpa using h

theorem Onward.scattered {out : List (Label × NodeId)} (h : Onward out) : Scattered out := by
  rcases h with rfl | ⟨label, v, rfl, -⟩
  · exact .nil
  · exact List.pairwise_singleton _ _

namespace Piece

variable {d : Piece}

theorem Shows.separate {u : Nat} {node : Node} {out thrown : List (Label × NodeId)}
    {leaves : List ExitCause} (hs : d.Shows u node ⟨out, thrown, leaves⟩) (ho : Scattered out)
    (ht : Scattered thrown) (hne : ∀ t ∈ out, ∀ s ∈ thrown, t.2 ≠ s.2) : d.Separate u := by
  rw [Separate, hs.row]
  exact (List.pairwise_append.2 ⟨ho, ht, hne⟩).imp fun h h' => absurd h' h

/-- A node where control goes on without handlers. -/
theorem Shows.separate_out {u : Nat} {node : Node} {out : List (Label × NodeId)}
    {leaves : List ExitCause} (hs : d.Shows u node ⟨out, [], leaves⟩) (ho : Scattered out) :
    d.Separate u :=
  hs.separate ho .nil (by simp)

end Piece

/-! ## The subject and the alternatives of a `match` -/

namespace Cases

/-- The edge past the cases is the only one that the subject may have twice. -/
theorem pairwise_subject (flat : Bool) (cases : Cases) {base join : Nat} (hj : join < base) :
    (cases.offered flat .always base join ++
        (if cases.exhaustive then [] else [(Label.noMatch, join)])).Pairwise
      fun s t => s.2 = t.2 → s = t ∧ s = (Label.noMatch, join) := by
  -- what is offered is part of the alternatives and of the edge past the cases
  have hsub : (cases.offered flat .always base join).Sublist
      ((cases.reachedAt base).map ((.always, ·)) ++
        (cases.unmatched join).map ((.noMatch, ·))) := by
    cases flat with
    | true => rw [offered_flat]
    | false =>
      rw [offered_chain]
      split
      · exact List.sublist_append_right _ _
      · exact ((List.take_sublist 1 _).map _).trans (List.sublist_append_left _ _)
  have hpair := (pairwise_sameTarget (List.Sublist.refl (cases.reachedAt base)) hj).sublist hsub
  refine List.pairwise_append.2 ⟨hpair.imp fun h h' => ?_, ?_, fun s hs t ht hst => ?_⟩
  · exact absurd h' (sameTarget_eq_false.1 h)
  · split
    · exact .nil
    · exact List.pairwise_singleton _ _
  · have ht : t = (.noMatch, join) := by
      split at ht
      · simp at ht
      · exact List.mem_singleton.1 ht
    subst ht
    -- an alternative is not the end of the statement
    have hs : s = (.noMatch, join) := by
      rcases List.mem_append.1 (hsub.subset hs) with hs | hs
      · obtain ⟨v, hv, rfl⟩ := List.mem_map.1 hs
        have := cases.reachedAt_bounds base v hv
        exact absurd hst (Nat.ne_of_gt (by omega))
      · obtain ⟨v, -, rfl⟩ := List.mem_map.1 hs
        exact Prod.ext rfl hst
    exact ⟨hs, hs⟩

theorem scattered_offered_noMatch (cases : Cases) (base join : Nat) :
    Scattered (cases.offered false .noMatch base join) := by
  rw [offered_noMatch]
  cases cases.path base join with
  | nil => exact .nil
  | cons v path => exact List.pairwise_singleton _ _

end Cases

/-- An alternative leads into the body of its case, and on to another alternative or out of the
statement. -/
theorem Piece.ShowsAlternatives.separate {d : Piece} {env : Env} {chained : Bool}
    {taken : Label × NodeId} {onward : List (Label × NodeId)} (ho : Scattered onward)
    (hne : ∀ t ∈ onward, taken.2 ≠ t.2) : (patterns : List Span) → (base : Nat) →
      d.ShowsAlternatives env chained taken onward base patterns →
      base + patterns.length ≤ taken.2 → Throughout d.Separate base patterns.length
  | [], _, _, _ => .zero
  | [pattern], base, h, _ => .one (h.separate_out (List.pairwise_cons.2 ⟨hne, ho⟩))
  | pattern :: pattern' :: rest, base, h, hle => by
    simp only [List.length_cons] at hle
    -- the next alternative comes before the body
    have h0 : d.Separate base := by
      refine h.1.separate_out (List.pairwise_cons.2 ⟨fun t ht => ?_, ?_⟩)
      · cases chained with
        | false => simp at ht
        | true =>
          obtain rfl := List.mem_singleton.1 ht
          exact Nat.ne_of_gt (show base + 1 < taken.2 by omega)
      · cases chained <;> simp
    exact .cons h0 (separate ho hne (pattern' :: rest) (base + 1) h.2
      (by simp only [List.length_cons]; omega))

/-! ## Drawn plans -/

/-- The surroundings of a plan, whatever lies there. -/
abbrev Lies (loops : List LoopEnds) (base size : Nat) (next handlers : List (Label × NodeId)) :
    Prop :=
  Placed (fun _ => True) loops base size next handlers

mutual

/-- Different edges out of a node of a drawn plan lead to different nodes. -/
theorem Plan.separate_of_drawn {d : Piece} (env : Env) (base : Nat)
    (next handlers : List (Label × NodeId)) : (plan : Plan) →
      plan.Drawn d env base next handlers → Onward next → Scattered handlers →
      Lies env.loops base plan.size next handlers → Throughout d.Separate base plan.size
  | .idle, h, hn, hh, hp | .block _, h, hn, hh, hp | .yield _, h, hn, hh, hp =>
    .one (h.separate hn.scattered hh hp.next_ne)
  | .jump before site means route, h, _, hh, hp => by
    have h0 := h.1.separate (route.onward_out means env.loops _).scattered hh hp.out_ne
    have hr := route.separate_of_drawn env (base + 1) site means h.2
      (hp.part (by omega) (by simp only [Plan.size]; omega) (by simp))
    exact (Throughout.one h0).append hr rfl
  | .raise site route, h, _, hh, hp => by
    have h0 := h.1.separate (route.onward_out .raising env.loops _).scattered hh hp.out_ne
    have hr := route.separate_of_drawn env (base + 1) site .raising h.2
      (hp.part (by omega) (by simp only [Plan.size]; omega) (by simp))
    exact (Throughout.one h0).append hr rfl
  | .hold before header region body, h, hn, hh, hp => by
    simp only [Plan.size] at hp
    have hb := body.entryAt_bounds (base + 1)
    have h0 := h.1.separate (List.pairwise_singleton _ _) hh (hp.inside_ne (by simp; omega))
    have hb := body.separate_of_drawn (env.within region) (base + 1) next [] h.2 hn .nil
      (hp.part (by omega) (by omega) (by simp))
    exact (Throughout.one h0).append hb rfl
  | .seq first rest, h, hn, hh, hp => by
    simp only [Plan.size] at hp
    have hr := rest.entryAt_bounds (base + first.size)
    have hp' : Lies env.loops base first.size
        [(.always, rest.entryAt (base + first.size))] ([] ++ handlers) :=
      hp.guarded (by omega) (by omega) (by omega) (by omega) (by simp) (by simp)
    have hfirst := first.separate_of_drawn env base _ handlers h.1 (.singleton rfl _) hh hp'
    have hr := rest.separate_of_drawn env (base + first.size) next [] h.2 hn .nil
      (hp.part (by omega) (by omega) (by simp))
    exact hfirst.append hr rfl
  | .branch test body rest, h, hn, hh, hp => by
    obtain ⟨h0, h1, hb, hr⟩ := h
    simp only [Plan.size] at hp
    have hbe := body.entryAt_bounds (base + 2)
    have hre := rest.target_bounds (base + 2 + body.size) (base + 1)
    -- control goes into the body, or to the end of the statement before it, or behind it
    have h0 := h0.separate (.pair (Nat.ne_iff_lt_or_gt.2 (by omega))) hh
      (hp.inside_ne (by simp; omega))
    have h1 := h1.separate_out hn.scattered
    have hb := body.separate_of_drawn env (base + 2) _ [] hb (.singleton rfl _) .nil
      (hp.partTo (by omega) (by omega) (by omega) (by omega))
    have hr := rest.separate_of_drawn env (base + 2 + body.size) (base + 1) hr (by omega)
      (hp.partTo (by omega) (by omega) (by omega) (by omega))
    exact ((Throughout.two h0 h1).append hb rfl).append hr (by omega)
  | .loop header body orelse, h, hn, hh, hp => by
    obtain ⟨h0, h1, hb, ho⟩ := h
    simp only [Plan.size] at hp
    have hbe := body.entryAt_bounds (base + 2)
    have hoe := orelse.target_bounds (base + 2 + body.size) (base + 1)
    have h0 := h0.separate (.pair (Nat.ne_iff_lt_or_gt.2 (by omega))) hh
      (hp.inside_ne (by simp; omega))
    have h1 := h1.separate_out hn.scattered
    have hb := body.separate_of_drawn (env.inLoop ⟨base, base + 1⟩) (base + 2) _ [] hb
      (.singleton rfl _) .nil (hp.inLoop (by omega))
    have ho := orelse.separate_of_drawn env (base + 2 + body.size) _ ho (.singleton rfl _)
      (hp.partTo (by omega) (by omega) (by omega) (by omega))
    exact ((Throughout.two h0 h1).append hb rfl).append ho (by omega)
  | .dispatch subject region cases, h, hn, hh, hp => by
    obtain ⟨h0, h1, hc⟩ := h
    simp only [Plan.size] at hp
    -- only the edge past the cases may be there twice
    have hskip : d.SkipsCases ⟨base, base + 1, .noMatch⟩ :=
      ⟨rfl, rfl, ⟨subject, h0.hasContent⟩, h1.hasContent⟩
    have h0 : d.Separate base := by
      rw [Piece.Separate, h0.row]
      refine List.pairwise_append.2 ⟨(cases.pairwise_subject env.flat (Nat.lt_succ_self _)).imp
        fun h h' => ⟨(h h').1, (h h').2 ▸ hskip⟩, hh.imp fun h h' => absurd h' h, ?_⟩
      exact fun t ht s hs h =>
        absurd h (hp.inside_ne (cases.subject_bounds env.flat base) t ht s hs)
    have h1 := h1.separate_out hn.scattered
    have hc := cases.separate_of_drawn (env.within region) (base + 2) (base + 1) 0 true hc
      (by omega) (hp.partTo (by omega) (by omega) (by omega) (by omega))
    exact (Throughout.two h0 h1).append hc rfl
  | .attempt region body handlers' orelse final, h, hn, hh, hp => by
    obtain ⟨h0, hb, hl, ho, hfin⟩ := h
    simp only [Plan.size] at hp
    have hft := final.target_bounds (base + 1 + body.size + handlers'.size + orelse.size) base
    -- the handlers of the statement begin before those around it
    have hscattered : Scattered (handlers'.entries (base + 1 + body.size) 0 ++ handlers) := by
      refine List.pairwise_append.2 ⟨handlers'.pairwise_entries _ 0, hh, fun s hs t ht => ?_⟩
      have := handlers'.entries_bounds (base + 1 + body.size) 0 s hs
      have := hp.le_handlers t ht
      exact Nat.ne_of_lt (by omega)
    have h0 := h0.separate_out hn.scattered
    have hb := body.separate_of_drawn (env.within region) (base + 1) _ _ hb
      (orelse.onward_bridge _ _) hscattered hp.attempt_body
    have hl := handlers'.separate_of_drawn env (base + 1 + body.size) _ hl (.singleton rfl _)
      (hp.partTo (by omega) (by omega) (by omega) (by omega))
    have ho := orelse.separate_of_drawn env (base + 1 + body.size + handlers'.size) _ ho
      (.singleton rfl _) (hp.partTo (by omega) (by omega) (by omega) (by omega))
    have hfin := final.separate_of_drawn env
      (base + 1 + body.size + handlers'.size + orelse.size) _ hfin (.singleton rfl _)
      (hp.partTo (by omega) (by omega) (by omega) (by omega))
    exact ((((Throughout.one h0).append hb rfl).append hl (by omega)).append ho
      (by omega)).append hfin (by omega)

theorem Alternatives.separate_of_drawn {d : Piece} (env : Env) (base join : Nat) :
    (rest : Alternatives) → rest.Drawn d env base join → join < base →
      Lies env.loops base rest.size [(.always, join)] [] → Throughout d.Separate base rest.size
  | .done, _, _, _ => .zero
  | .otherwise body, h, _, hp =>
    body.separate_of_drawn env base _ [] h (.singleton rfl _) .nil hp
  | .test header body rest, h, hj, hp => by
    obtain ⟨h0, hb, hr⟩ := h
    simp only [Alternatives.size] at hp
    have hbe := body.entryAt_bounds (base + 1)
    have hre := rest.target_bounds (base + 1 + body.size) join
    have h0 := h0.separate_out (.pair (Nat.ne_iff_lt_or_gt.2 (by omega)))
    have hb := body.separate_of_drawn env (base + 1) _ [] hb (.singleton rfl _) .nil
      (hp.part (by omega) (by omega) (by simp))
    have hr := rest.separate_of_drawn env (base + 1 + body.size) join hr (by omega)
      (hp.part (by omega) (by omega) (by simp))
    exact ((Throughout.one h0).append hb rfl).append hr (by omega)

theorem Cases.separate_of_drawn {d : Piece} (env : Env) (base join index : Nat) (reached : Bool) :
    (cases : Cases) → cases.Drawn d env base join index reached → join < base →
      Lies env.loops base cases.size [(.always, join)] [] → Throughout d.Separate base cases.size
  | .nil, _, _, _ => .zero
  | .cons patterns catchAll body rest, h, hj, hp => by
    obtain ⟨ha, hb, hr⟩ := h
    simp only [Cases.size] at hp
    have hbe := body.entryAt_bounds (base + patterns.length)
    have ha : Throughout d.Separate base patterns.length := by
      refine Piece.ShowsAlternatives.separate ?_ (fun t ht => ?_) patterns base ha
        (by show _ ≤ body.entryAt _; omega)
      · split
        · exact rest.scattered_offered_noMatch _ _
        · exact .nil
      · -- the body comes after the end of the statement and before the next case
        split at ht
        · have := rest.offered_bounds false .noMatch (base + patterns.length + body.size) join t ht
          exact Nat.ne_iff_lt_or_gt.2 (by omega)
        · simp at ht
    have hb := body.separate_of_drawn env (base + patterns.length) _ [] hb (.singleton rfl _) .nil
      (hp.part (by omega) (by omega) (by simp))
    have hr := rest.separate_of_drawn env (base + patterns.length + body.size) join (index + 1) _
      hr (by omega) (hp.part (by omega) (by omega) (by simp))
    exact (ha.append hb rfl).append hr (by omega)

theorem Handlers.separate_of_drawn {d : Piece} (env : Env) (base : Nat)
    (next : List (Label × NodeId)) : (handlers : Handlers) → handlers.Drawn d env base next →
      Onward next → Lies env.loops base handlers.size next [] →
      Throughout d.Separate base handlers.size
  | .nil, _, _, _ => .zero
  | .cons region handler rest, h, hn, hp => by
    simp only [Handlers.size] at hp
    have hh := handler.separate_of_drawn (env.within region) base next [] h.1 hn .nil
      (hp.part (by omega) (by omega) (by simp))
    have hr := rest.separate_of_drawn env (base + handler.size) next h.2 hn
      (hp.part (by omega) (by omega) (by simp))
    exact hh.append hr rfl

theorem Annex.separate_of_drawn {d : Piece} (env : Env) (base : Nat)
    (next : List (Label × NodeId)) : (annex : Annex) → annex.Drawn d env base next → Onward next →
      Lies env.loops base annex.size next [] → Throughout d.Separate base annex.size
  | .absent, _, _, _ => .zero
  | .present region body, h, hn, hp =>
    body.separate_of_drawn (env.within region) base next [] h hn .nil hp

theorem Route.separate_of_drawn {d : Piece} (env : Env) (base : Nat) (site : Site)
    (means : Jump) : (route : Route) → route.Drawn d env base site means →
      Lies env.loops base route.size [] [] → Throughout d.Separate base route.size
  | .arrive, _, _ => .zero
  | .leaveLoop rest, h, hp =>
    rest.separate_of_drawn env.outsideLoop base site means h hp.outsideLoop
  | .release header region outside rest, h, hp => by
    obtain ⟨h0, h1, hr⟩ := h
    simp only [Route.size] at hp
    have h0 := h0.separate_out (List.pairwise_singleton _ _)
    have h1 := h1.separate_out (rest.onward_out means env.loops _).scattered
    have hr := rest.separate_of_drawn env (base + 2) site means hr
      (hp.part (by omega) (by omega) (by simp))
    exact (Throughout.two h0 h1).append hr rfl
  | .replay final outside body rest, h, hp => by
    rw [Route.size] at hp ⊢
    have hb := body.separate_of_drawn (env.copy final) base _ [] h.1 (.singleton rfl _) .nil
      (hp.part (by omega) (by omega) (by simp))
    cases hc : body.completes with
    -- a copy that does not complete is followed by nothing
    | false => exact hb.append .zero rfl
    | true =>
      obtain ⟨h1, hr⟩ := h.2 hc
      rw [hc, if_pos rfl] at hp
      have h1 := h1.separate_out (rest.onward_out means env.loops _).scattered
      have hr := rest.separate_of_drawn env (base + body.size + 1) site means hr
        (hp.part (by omega) (by omega) (by simp))
      exact hb.append ((Throughout.one h1).append hr rfl) rfl
  | .swallow final body, h, hp =>
    body.separate_of_drawn (env.copy final) base [] [] h .nil .nil hp

end

/-! ## The layout of a function -/

namespace Piece

/-- If the two edges connect the same nodes, they are the same edge past the cases of a `match`. -/
def Harmless (d : Piece) (e o : Edge) : Prop :=
  e.parallel o = true → e = o ∧ d.SkipsCases e

/-- Edges that leave different nodes are not parallel, so the rows tell everything. -/
theorem pairwise_harmless {d : Piece} (h : ∀ u, d.Separate u) : d.edges.Pairwise d.Harmless := by
  rw [List.pairwise_iff_forall_sublist]
  intro e o hsub hpar
  obtain ⟨hsource, htarget⟩ := Edge.parallel_iff.1 hpar
  obtain ⟨hout, hthrown, hcross⟩ := List.pairwise_append.1 (h e.source)
  have hsame (h : (e.label, e.target) = (o.label, o.target) ∧ d.SkipsCases e) :
      e = o ∧ d.SkipsCases e :=
    ⟨by cases e; cases o; simp_all, h.2⟩
  have he : e ∈ d.edges := hsub.subset (by simp)
  have ho : ⟨e.source, o.target, o.label⟩ ∈ d.edges := hsource ▸ hsub.subset (by simp)
  cases hel : e.label.isException <;> cases hol : o.label.isException
  · -- both are in the part of the row for control that goes on
    have hsub := (hsub.filter fun e' => e'.source == e.source && !e'.label.isException).map
      fun e' => (e'.label, e'.target)
    simp only [List.filter_cons, List.filter_nil, hel, hol, ← hsource, beq_self_eq_true,
      Bool.not_false, Bool.and_self, if_true, List.map_cons, List.map_nil] at hsub
    exact hsame (List.pairwise_iff_forall_sublist.1 hout hsub htarget)
  · exact hsame (hcross (e.label, e.target) (mem_out_row.2 ⟨he, hel⟩) (o.label, o.target)
      (mem_thrown_row.2 ⟨ho, hol⟩) htarget)
  · -- an edge is not followed by exceptions and by other control
    have h := hcross (o.label, o.target) (mem_out_row.2 ⟨ho, hol⟩) (e.label, e.target)
      (mem_thrown_row.2 ⟨he, hel⟩) htarget.symm
    have hlabel : o.label = e.label := congrArg Prod.fst h.1
    rw [hlabel, hel] at hol
    cases hol
  · have hsub := (hsub.filter fun e' => e'.source == e.source && e'.label.isException).map
      fun e' => (e'.label, e'.target)
    simp only [List.filter_cons, List.filter_nil, hel, hol, ← hsource, beq_self_eq_true,
      Bool.and_self, if_true, List.map_cons, List.map_nil] at hsub
    exact hsame (List.pairwise_iff_forall_sublist.1 hthrown hsub htarget)

theorem separate_ofPlan (flat : Bool) (plan : Plan) (u : Nat) :
    (ofPlan flat plan).1.Separate u := by
  have hd := drawnWhole_ofPlan flat plan
  have hp : Lies (Env.ofFunction flat).loops 1 plan.size [(.always, plan.size + 1)] [] := by
    constructor <;> simp [Env.ofFunction]
  have hbody := plan.separate_of_drawn _ 1 _ [] hd.body (.singleton rfl _) .nil hp
  -- the entry, the exit, the nodes of the plan, and no others
  by_cases hu : u = 0
  · exact hu ▸ hd.entry.separate_out (List.pairwise_singleton _ _)
  by_cases hu' : u = plan.size + 1
  · exact hu' ▸ hd.exit.separate_out .nil
  rcases Nat.lt_or_ge u (plan.size + 1) with hlt | hge
  · exact hbody u (by omega) (by omega)
  · rw [Separate, hd.row_eq_nil u (by omega)]
    exact .nil

/-- A layout requests an edge between two nodes only once, or it is an edge past the cases of a
`match`. -/
theorem pairwise_harmless_ofPlan (flat : Bool) (plan : Plan) :
    (ofPlan flat plan).1.edges.Pairwise (ofPlan flat plan).1.Harmless :=
  pairwise_harmless (separate_ofPlan flat plan)

/-- A flat dispatch requests the edge past its cases twice. -/
example : (ofPlan true (.dispatch ⟨6, 7⟩ 1 (.cons [⟨9, 10⟩] false .idle .nil))).1.edges.count
    ⟨1, 2, .noMatch⟩ = 2 := by
  decide

end Piece

end Flowgraph
