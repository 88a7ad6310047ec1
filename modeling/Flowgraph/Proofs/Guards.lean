import Flowgraph.Proofs.Entering

/-!
# The guards of loops

An edge that goes round a loop leads back to the guard of the loop.  The guard has two ways out,
and control gets to the other nodes of the loop only through it: a loop that is entered in the
middle would need an edge into the middle of the statement.

## Main definitions

* `Piece.Guard` : a node with two ways out, the only one at which the nodes after it are entered.
* `Piece.Looped` : a plan whose surroundings go round loops at guards only.
* `RoundTo` : where the edges that go round a loop lead.
* `Piece.GoesRound` : what goes round a loop at a node goes to the guard of a loop around it.

## Main results

* `Plan.guards_of_drawn` : what goes round a loop goes to the guard of that loop.
* `Plan.DrawnWhole.guard_of_loopBack` : the same for the layout of a function.
-/

namespace Flowgraph

namespace Piece

/-- The node `g` has two ways out, neither of which comes straight back, and it is the only one at
which the `extent` nodes from `g` on are entered. -/
structure Guard (d : Piece) (g extent : Nat) : Prop where
  entered : d.EnteredAt g extent g
  splits : ∃ t ∈ (d.row g).out, ∃ s ∈ (d.row g).out, t.2 ≠ s.2
  irrefl : ¬ Edge.Links d.edges g g

/-- The `size` nodes from `base` on belong to the loop of the guard `g`. -/
def Around (d : Piece) (g base size : Nat) : Prop :=
  ∃ extent, d.Guard g extent ∧ g ≤ base ∧ base + size ≤ g + extent

variable {d : Piece}

theorem Around.part {g base size base' size' : Nat} (h : d.Around g base size) (hb : base ≤ base')
    (hs : base' + size' ≤ base + size) : d.Around g base' size' := by
  obtain ⟨extent, hg, hle, hle'⟩ := h
  exact ⟨extent, hg, by omega, by omega⟩

/-- Where a plan with `size` nodes from `base` on goes on lies outside it, and what goes round a
loop goes to the guard of a loop around the plan. -/
structure Looped (d : Piece) (loops : List LoopEnds) (base size : Nat)
    (next : List (Label × NodeId)) : Prop where
  outside : ∀ t ∈ next, base > t.2 ∨ base + size ≤ t.2
  next_guard : ∀ t ∈ next, t.1 = .loopBack → d.Around t.2 base size
  loops_guard : ∀ ends ∈ loops, d.Around ends.head base size

namespace Looped

variable {loops : List LoopEnds} {base size base' size' : Nat} {next : List (Label × NodeId)}

/-- The part of a plan that completes it. -/
theorem last (h : d.Looped loops base size next) (hb : base ≤ base')
    (hs : base' + size' ≤ base + size) : d.Looped loops base' size' next where
  outside t ht := by
    have := h.outside t ht
    omega
  next_guard t ht hl := (h.next_guard t ht hl).part hb hs
  loops_guard ends he := (h.loops_guard ends he).part hb hs

/-- A part of a plan that goes on to another node. -/
theorem part (h : d.Looped loops base size next) (hb : base ≤ base')
    (hs : base' + size' ≤ base + size) {t : Label × NodeId} (hl : t.1 ≠ .loopBack)
    (ht : base' > t.2 ∨ base' + size' ≤ t.2) : d.Looped loops base' size' [t] where
  outside s hs := by
    obtain rfl := List.mem_singleton.1 hs
    exact ht
  next_guard s hs hl' := by
    obtain rfl := List.mem_singleton.1 hs
    exact absurd hl' hl
  loops_guard ends he := (h.loops_guard ends he).part hb hs

/-- A jump on its way out. -/
theorem way (h : d.Looped loops base size next) (hb : base ≤ base')
    (hs : base' + size' ≤ base + size) : d.Looped loops base' size' [] where
  outside := by simp
  next_guard := by simp
  loops_guard ends he := (h.loops_guard ends he).part hb hs

theorem outsideLoop (h : d.Looped loops base size next) : d.Looped loops.tail base size next where
  outside := h.outside
  next_guard := h.next_guard
  loops_guard ends he := h.loops_guard ends (List.mem_of_mem_tail he)

/-- The body of a loop. -/
theorem inLoop (h : d.Looped loops base size next) (hs : 2 + size' ≤ size)
    (hg : d.Guard base size) :
    d.Looped (⟨base, base + 1⟩ :: loops) (base + 2) size' [(.loopBack, base)] where
  outside := by simp
  next_guard := by
    simp only [List.mem_singleton, forall_eq]
    exact fun _ => ⟨size, hg, by omega, by omega⟩
  loops_guard ends he := by
    rcases List.mem_cons.1 he with rfl | he
    · exact ⟨size, hg, Nat.le_add_right base 2, by show _ ≤ base + size; omega⟩
    · exact (h.loops_guard ends he).part (by omega) (by omega)

end Looped

end Piece

/-- A jump that goes round a loop goes to the guard of a loop around it. -/
theorem Route.out_loopBack (means : Jump) : (route : Route) → (loops : List LoopEnds) →
    (base : Nat) → ∀ t ∈ route.out loops means base, t.1 = .loopBack →
      ∃ ends ∈ loops, t.2 = ends.head
  | .arrive, [], base => by cases means <;> simp [out]
  | .arrive, ends :: loops, base => by cases means <;> simp [out]
  | .leaveLoop rest, loops, base => by
    intro t ht hl
    obtain ⟨ends, he, h⟩ := rest.out_loopBack means loops.tail base t ht hl
    exact ⟨ends, List.mem_of_mem_tail he, h⟩
  | .release .., loops, base | .replay .., loops, base | .swallow .., loops, base => by
    simp [out]

theorem Cases.offered_label (flat : Bool) (label : Label) : (cases : Cases) → (base join : Nat) →
    ∀ t ∈ cases.offered flat label base join, t.1 = label ∨ t.1 = .noMatch
  | .nil, _, _ => by simp [offered]
  | .cons patterns catchAll body rest, base, join => by
    -- alternatives after the first are tried when the one before does not match
    have ih := rest.offered_label flat label (base + patterns.length + body.size) join
    intro t ht
    cases catchAll <;> cases flat <;> cases hp : patterns.isEmpty <;>
      simp only [offered, hp, Bool.false_eq_true, if_false, if_true, List.mem_append, List.mem_map,
        List.mem_singleton, List.not_mem_nil, or_false] at ht
    all_goals grind

/-! ## Edges that go round -/

/-- Those edges of the list that go round a loop lead to `D`. -/
def RoundTo (D : Nat → Prop) (edges : List (Label × NodeId)) : Prop :=
  ∀ t ∈ edges, t.1 = .loopBack → D t.2

section RoundTo

variable {d : Piece} {D : Nat → Prop}

@[simp] theorem roundTo_nil : RoundTo D [] := by
  simp [RoundTo]

theorem roundTo_cons {t : Label × NodeId} {edges : List (Label × NodeId)} (ht : t.1 ≠ .loopBack)
    (h : RoundTo D edges) : RoundTo D (t :: edges) := by
  intro s hs hl
  rcases List.mem_cons.1 hs with rfl | hs
  · exact absurd hl ht
  · exact h s hs hl

theorem roundTo_singleton {t : Label × NodeId} (ht : t.1 ≠ .loopBack) : RoundTo D [t] :=
  roundTo_cons ht roundTo_nil

/-- The ways out of a test do not go round. -/
theorem roundTo_test (v w : NodeId) : RoundTo D [(.yes, v), (.no, w)] :=
  roundTo_cons (by simp) (roundTo_singleton (by simp))

theorem Annex.roundTo_bridge (annex : Annex) (base v : Nat) :
    RoundTo D [annex.bridge base (.always, v)] := by
  cases annex <;> exact roundTo_singleton (by simp [bridge])

theorem Piece.Shows.roundTo {u : Nat} {node : Node} {row : Row} (hs : d.Shows u node row)
    (h : RoundTo D row.out) : RoundTo D (d.row u).out :=
  hs.row ▸ h

theorem Route.roundTo_out {route : Route} {loops : List LoopEnds} {means : Jump} {base : Nat}
    (hl : ∀ ends ∈ loops, D ends.head) : RoundTo D (route.out loops means base) := by
  intro t ht hb
  obtain ⟨ends, he, hv⟩ := route.out_loopBack means loops base t ht hb
  exact hv ▸ hl ends he

theorem Cases.roundTo_offered {cases : Cases} {flat : Bool} {label : Label} {base join : Nat}
    (h : label ≠ .loopBack) : RoundTo D (cases.offered flat label base join) := by
  intro t ht hb
  rcases cases.offered_label flat label base join t ht with h' | h'
  · exact absurd (h'.symm.trans hb) h
  · simp [h'] at hb

theorem Cases.roundTo_subject (cases : Cases) (flat : Bool) (base join : Nat) :
    RoundTo D (cases.offered flat .always base join ++
      (if cases.exhaustive then [] else [(.noMatch, join)])) := by
  intro t ht hb
  rcases List.mem_append.1 ht with ht | ht
  · exact roundTo_offered (by simp) t ht hb
  · split at ht
    · simp at ht
    · exact roundTo_singleton (by simp) t ht hb

/-- No alternative of a case goes round a loop. -/
theorem Cases.roundTo_alternative {env : Env} {patterns : List Span} {catchAll : Bool}
    {body : Plan} {rest : Cases} {base join index : Nat} {reached : Bool}
    (h : (Cases.cons patterns catchAll body rest).Drawn d env base join index reached) {u : Nat}
    (hu : base ≤ u) (hu' : u < base + patterns.length) : RoundTo D (d.row u).out := by
  intro t ht hb
  rcases (h.1.row_cases patterns base u hu hu').2 t ht with rfl | ht | ⟨hl, -⟩
  · cases hb
  · split at ht
    · exact roundTo_offered (by simp) t ht hb
    · simp at ht
  · simp [hl] at hb

end RoundTo

namespace Piece

/-- What goes round a loop at the node `u` goes to the guard of a loop around `u`. -/
abbrev GoesRound (d : Piece) (u : Nat) : Prop :=
  RoundTo (d.Around · u 1) (d.row u).out

variable {d : Piece} {loops : List LoopEnds} {base size u : Nat} {next : List (Label × NodeId)}

theorem Looped.roundTo_next (h : d.Looped loops base size next) (hu : base ≤ u)
    (hu' : u < base + size) : RoundTo (d.Around · u 1) next :=
  fun t ht hl => (h.next_guard t ht hl).part hu (by omega)

theorem Looped.roundTo_out (h : d.Looped loops base size next) (hu : base ≤ u)
    (hu' : u < base + size) {route : Route} {means : Jump} {base' : Nat} :
    RoundTo (d.Around · u 1) (route.out loops means base') :=
  Route.roundTo_out fun ends he => (h.loops_guard ends he).part hu (by omega)

end Piece

/-! ## Drawn plans -/

/-- The test of a loop is a guard. -/
theorem Plan.guard_loop {d : Piece} {scope : Nat → Prop} {env : Env} {base : Nat}
    {next handlers : List (Label × NodeId)} {header : Span} {body : Plan} {orelse : Annex}
    (h : (Plan.loop header body orelse).Drawn d env base next handlers)
    (hp : Placed scope env.loops base (2 + body.size + orelse.size) next handlers)
    (he : d.EnteredAt base (2 + body.size + orelse.size) base) :
    d.Guard base (2 + body.size + orelse.size) := by
  have hbe := body.entryAt_bounds (base + 2)
  have hoe := orelse.target_bounds (base + 2 + body.size) (base + 1)
  -- the two ways out: into the body, and to the `else` clause or the exit
  refine ⟨he, ⟨(.yes, body.entryAt (base + 2)), by simp [h.1.row],
    (.no, orelse.target (base + 2 + body.size) (base + 1)), by simp [h.1.row], ?_⟩, fun hl => ?_⟩
  · show body.entryAt (base + 2) ≠ orelse.target (base + 2 + body.size) (base + 1)
    omega
  · have l0 : ∀ w v : Nat, Edge.Links d.edges w v → w = base → v = body.entryAt (base + 2) ∨
        v = orelse.target (base + 2 + body.size) (base + 1) ∨
        base + (2 + body.size + orelse.size) ≤ v :=
      h.1.leads (by simp) fun t ht => .inr (.inr (hp.le_handlers t ht))
    have := l0 base base hl rfl
    omega

mutual

/-- Where a plan is entered at its beginning only, what goes round a loop goes to the guard of that
loop. -/
theorem Plan.guards_of_drawn {d : Piece} {scope : Nat → Prop} (env : Env) (base : Nat)
    (next handlers : List (Label × NodeId)) : (plan : Plan) →
      plan.Drawn d env base next handlers → plan.Fits env.loops.length →
      Placed scope env.loops base plan.size next handlers →
      (plan.completes = true → next ≠ []) → d.Looped env.loops base plan.size next →
      d.EnteredAt base plan.size (plan.entryAt base) → Throughout d.GoesRound base plan.size
  | .idle, h, _, _, _, hg, _ | .block _, h, _, _, _, hg, _ | .yield _, h, _, _, _, hg, _ =>
    .one (h.roundTo hg.next_guard)
  | .jump before site means route, h, hf, hp, _, hg, he => by
    simp only [Plan.size, Plan.entryAt] at hp hg he
    have h0 : d.GoesRound base := h.1.roundTo (hg.roundTo_out (by omega) (by omega))
    have hr := route.guards_of_drawn env (base + 1) site means h.2 hf
      (hp.part (by omega) (by omega) (by simp)) (hg.way (by omega) (by omega))
      (hp.enteredAt_route he h.1)
    exact (Throughout.one h0).append hr rfl
  | .raise site route, h, hf, hp, _, hg, he => by
    simp only [Plan.size, Plan.entryAt] at hp hg he
    have h0 : d.GoesRound base := h.1.roundTo (hg.roundTo_out (by omega) (by omega))
    have hr := route.guards_of_drawn env (base + 1) site .raising h.2 hf
      (hp.part (by omega) (by omega) (by simp)) (hg.way (by omega) (by omega))
      (hp.enteredAt_route he h.1)
    exact (Throughout.one h0).append hr rfl
  | .hold before header region body, h, hf, hp, hn, hg, he => by
    simp only [Plan.size, Plan.entryAt] at hp hg he
    have h0 : d.GoesRound base := h.1.roundTo (roundTo_singleton (by simp))
    have hb := body.guards_of_drawn (env.within region) (base + 1) next [] h.2 hf
      (hp.part (by omega) (by omega) hp.next_scope) hn (hg.last (by omega) (by omega))
      (Plan.enteredAt_hold h hp he)
    exact (Throughout.one h0).append hb rfl
  | .seq first rest, h, hf, hp, hn, hg, he => by
    simp only [Plan.size, Plan.entryAt] at hp hg he
    obtain ⟨hef, her⟩ := Plan.enteredAt_seq h hf hp hn hg.outside he
    have hre := rest.entryAt_bounds (base + first.size)
    have hpf : Placed scope env.loops base first.size
        [(.always, rest.entryAt (base + first.size))] ([] ++ handlers) :=
      hp.guarded (by omega) (by omega) (by omega) (by omega) (by simp) (by simp)
    have hfirst := first.guards_of_drawn env base _ handlers h.1 hf.1 hpf (by simp)
      (hg.part (by omega) (by omega) (by simp) (.inr hre.1)) hef
    have hr := rest.guards_of_drawn env (base + first.size) next [] h.2 hf.2
      (hp.part (by omega) (by omega) hp.next_scope) hn (hg.last (by omega) (by omega)) her
    exact hfirst.append hr rfl
  | .branch test body rest, h, hf, hp, hn, hg, he => by
    simp only [Plan.size, Plan.entryAt] at hp hg he
    obtain ⟨heb, her⟩ := Plan.enteredAt_branch h hf hp hg.outside he
    obtain ⟨h0, h1, hb, hr⟩ := h
    have h0 : d.GoesRound base := h0.roundTo (roundTo_test _ _)
    have h1 : d.GoesRound (base + 1) := h1.roundTo (hg.roundTo_next (by omega) (by omega))
    have hb := body.guards_of_drawn env (base + 2) _ [] hb hf.1
      (hp.partTo (by omega) (by omega) (by omega) (by omega)) (by simp)
      (hg.part (by omega) (by omega) (by simp) (.inl (Nat.lt_succ_self _))) heb
    have hr := rest.guards_of_drawn env (base + 2 + body.size) (base + 1) hr hf.2
      (hp.partTo (by omega) (by omega) (by omega) (by omega))
      (hg.part (by omega) (by omega) (by simp) (.inl (by show base + 1 < _; omega))) her
    exact ((Throughout.two h0 h1).append hb rfl).append hr (by omega)
  | .loop header body orelse, h, hf, hp, hn, hg, he => by
    simp only [Plan.size, Plan.entryAt] at hp hg he
    -- the test is a guard because the statement is entered there only
    have hguard := Plan.guard_loop h hp he
    obtain ⟨heb, heo⟩ := Plan.enteredAt_loop h hf hp hg.outside he
    obtain ⟨h0, h1, hb, ho⟩ := h
    have h0 : d.GoesRound base := h0.roundTo (roundTo_test _ _)
    have h1 : d.GoesRound (base + 1) := h1.roundTo (hg.roundTo_next (by omega) (by omega))
    have hb := body.guards_of_drawn (env.inLoop ⟨base, base + 1⟩) (base + 2) _ [] hb hf.1
      (hp.inLoop (by omega)) (by simp) (hg.inLoop (by omega) hguard) heb
    have ho := orelse.guards_of_drawn env (base + 2 + body.size) _ (base + 1) ho hf.2
      (hp.partTo (by omega) (by omega) (by omega) (by omega)) (by simp)
      (hg.part (by omega) (by omega) (by simp) (.inl (by show base + 1 < _; omega))) heo
    exact ((Throughout.two h0 h1).append hb rfl).append ho (by omega)
  | .dispatch subject region cases, h, hf, hp, hn, hg, he => by
    simp only [Plan.size, Plan.entryAt] at hp hg he
    have hec := Plan.enteredBy_dispatch h hp hg.outside he
    obtain ⟨h0, h1, hc⟩ := h
    have h0 : d.GoesRound base := h0.roundTo (cases.roundTo_subject _ _ _)
    have h1 : d.GoesRound (base + 1) := h1.roundTo (hg.roundTo_next (by omega) (by omega))
    have hc := cases.guards_of_drawn (env.within region) (base + 2) (base + 1) 0 true hc hf
      (hp.partTo (by omega) (by omega) (by omega) (by omega))
      (hg.part (by omega) (by omega) (by simp) (.inl (by show base + 1 < _; omega))) hec
    exact (Throughout.two h0 h1).append hc rfl
  | .attempt region body handlers' orelse final, h, hf, hp, hn, hg, he => by
    simp only [Plan.size, Plan.entryAt] at hp hg he
    -- where the body, the handlers, the `else` clause and the `finally` clause are entered
    obtain ⟨heb, heh, heo, hef⟩ := Plan.enteredAt_attempt h hf hp hg.outside he
    obtain ⟨h0, hb, hh, ho, hfin⟩ := h
    have hft := final.target_bounds (base + 1 + body.size + handlers'.size + orelse.size) base
    have hbt := orelse.bridge_bounds final (base + 1 + body.size + handlers'.size) base .always
    have h0 : d.GoesRound base := h0.roundTo (hg.roundTo_next (by omega) (by omega))
    have hb := body.guards_of_drawn (env.within region) (base + 1) _ _ hb hf.1 hp.attempt_body
      (by simp) (hg.part (by omega) (by omega) (by cases orelse <;> simp [Annex.bridge])
        (by omega)) heb
    have hh := handlers'.guards_of_drawn env (base + 1 + body.size) _ hh hf.2.1
      (hp.partTo (by omega) (by omega) (by omega) (by omega)) (by simp)
      (hg.part (by omega) (by omega) (by simp) (by show _ > final.target _ _ ∨ _; omega)) heh
    have ho := orelse.guards_of_drawn env (base + 1 + body.size + handlers'.size) _
      (final.target (base + 1 + body.size + handlers'.size + orelse.size) base) ho hf.2.2.1
      (hp.partTo (by omega) (by omega) (by omega) (by omega)) (by simp)
      (hg.part (by omega) (by omega) (by simp) (by show _ > final.target _ _ ∨ _; omega)) heo
    have hfin := final.guards_of_drawn env
      (base + 1 + body.size + handlers'.size + orelse.size) _ base hfin hf.2.2.2
      (hp.partTo (by omega) (by omega) (by omega) (by omega)) (by simp)
      (hg.part (by omega) (by omega) (by simp) (.inl (by show base < _; omega))) hef
    exact ((((Throughout.one h0).append hb rfl).append hh (by omega)).append ho
      (by omega)).append hfin (by omega)

theorem Alternatives.guards_of_drawn {d : Piece} {scope : Nat → Prop} (env : Env)
    (base join : Nat) : (rest : Alternatives) → rest.Drawn d env base join →
      rest.Fits env.loops.length → Placed scope env.loops base rest.size [(.always, join)] [] →
      d.Looped env.loops base rest.size [(.always, join)] →
      d.EnteredAt base rest.size (rest.target base join) → Throughout d.GoesRound base rest.size
  | .done, _, _, _, _, _ => .zero
  | .otherwise body, h, hf, hp, hg, he =>
    body.guards_of_drawn env base _ [] h hf hp (by simp) hg he
  | .test header body rest, h, hf, hp, hg, he => by
    simp only [Alternatives.size, Alternatives.target] at hp hg he
    obtain ⟨heb, her⟩ := Alternatives.enteredAt_test h hf hp
      (hg.outside (.always, join) (by simp)) he
    obtain ⟨h0, hb, hr⟩ := h
    -- a test leads into its branches and never goes round
    have h0 : d.GoesRound base := h0.roundTo (roundTo_test _ _)
    have hb := body.guards_of_drawn env (base + 1) _ [] hb hf.1
      (hp.part (by omega) (by omega) hp.next_scope) (by simp) (hg.last (by omega) (by omega)) heb
    have hr := rest.guards_of_drawn env (base + 1 + body.size) join hr hf.2
      (hp.part (by omega) (by omega) hp.next_scope) (hg.last (by omega) (by omega)) her
    exact ((Throughout.one h0).append hb rfl).append hr (by omega)

theorem Cases.guards_of_drawn {d : Piece} {scope : Nat → Prop} (env : Env) (base join index : Nat)
    (reached : Bool) : (cases : Cases) → cases.Drawn d env base join index reached →
      cases.Fits env.loops.length → Placed scope env.loops base cases.size [(.always, join)] [] →
      d.Looped env.loops base cases.size [(.always, join)] →
      d.EnteredBy base cases.size (cases.IsAlternative base) →
      Throughout d.GoesRound base cases.size
  | .nil, _, _, _, _, _ => .zero
  | .cons patterns catchAll body rest, h, hf, hp, hg, he => by
    simp only [Cases.size] at hp hg he
    obtain ⟨heb, her⟩ := Cases.enteredAt_cons h hf hp (hg.outside (.always, join) (by simp)) he
    -- alternatives do not go round either
    have ha : Throughout d.GoesRound base patterns.length :=
      fun u hu hu' => Cases.roundTo_alternative h hu hu'
    obtain ⟨-, hb, hr⟩ := h
    have hb := body.guards_of_drawn env (base + patterns.length) _ [] hb hf.2.1
      (hp.part (by omega) (by omega) hp.next_scope) (by simp) (hg.last (by omega) (by omega)) heb
    have hr := rest.guards_of_drawn env (base + patterns.length + body.size) join (index + 1) _ hr
      hf.2.2 (hp.part (by omega) (by omega) hp.next_scope) (hg.last (by omega) (by omega)) her
    exact (ha.append hb rfl).append hr (by omega)

theorem Handlers.guards_of_drawn {d : Piece} {scope : Nat → Prop} (env : Env) (base : Nat)
    (next : List (Label × NodeId)) : (handlers : Handlers) → handlers.Drawn d env base next →
      handlers.Fits env.loops.length → Placed scope env.loops base handlers.size next [] →
      next ≠ [] → d.Looped env.loops base handlers.size next →
      d.EnteredBy base handlers.size (handlers.IsEntry base) →
      Throughout d.GoesRound base handlers.size
  | .nil, _, _, _, _, _, _ => .zero
  | .cons region handler rest, h, hf, hp, hn, hg, he => by
    simp only [Handlers.size] at hp hg he
    obtain ⟨heh, her⟩ := Handlers.enteredAt_cons h hf hp hn hg.outside he
    have hh := handler.guards_of_drawn (env.within region) base next [] h.1 hf.1
      (hp.part (by omega) (by omega) hp.next_scope) (fun _ => hn) (hg.last (by omega) (by omega))
      heh
    have hr := rest.guards_of_drawn env (base + handler.size) next h.2 hf.2
      (hp.part (by omega) (by omega) hp.next_scope) hn (hg.last (by omega) (by omega)) her
    exact hh.append hr rfl

theorem Annex.guards_of_drawn {d : Piece} {scope : Nat → Prop} (env : Env) (base : Nat)
    (next : List (Label × NodeId)) (otherwise : Nat) : (annex : Annex) →
      annex.Drawn d env base next → annex.Fits env.loops.length →
      Placed scope env.loops base annex.size next [] → next ≠ [] →
      d.Looped env.loops base annex.size next →
      d.EnteredAt base annex.size (annex.target base otherwise) →
      Throughout d.GoesRound base annex.size
  | .absent, _, _, _, _, _, _ => .zero
  | .present region body, h, hf, hp, hn, hg, he =>
    body.guards_of_drawn (env.within region) base next [] h hf hp (fun _ => hn) hg he

theorem Route.guards_of_drawn {d : Piece} {scope : Nat → Prop} (env : Env) (base : Nat)
    (site : Site) (means : Jump) : (route : Route) → route.Drawn d env base site means →
      route.Fits means env.loops.length → Placed scope env.loops base route.size [] [] →
      d.Looped env.loops base route.size [] → d.EnteredAt base route.size (route.entryAt base) →
      Throughout d.GoesRound base route.size
  | .arrive, _, _, _, _, _ => .zero
  | .leaveLoop rest, h, hf, hp, hg, he =>
    rest.guards_of_drawn env.outsideLoop base site means h (by simpa [Env.outsideLoop] using hf.2)
      hp.outsideLoop hg.outsideLoop he
  | .release header region outside rest, h, hf, hp, hg, he => by
    obtain ⟨h0, h1, hr⟩ := h
    simp only [Route.size, Route.entryAt] at hp hg he
    have l0 : ∀ w v : Nat, Edge.Links d.edges w v → w = base → v = base + 1 :=
      h0.leads (by simp) (by simp)
    have hp' : Placed scope env.loops (base + 1) (1 + rest.size) [] [] :=
      hp.part (by omega) (by omega) (by simp)
    -- the jump behind the release is entered from the release only
    have he' : d.EnteredAt (base + 1) (1 + rest.size) (base + 1) := by
      intro w v hwv hv hv'
      have := he w v hwv
      have := l0 w v hwv
      omega
    have hr := rest.guards_of_drawn env (base + 2) site means hr hf
      (hp.part (by omega) (by omega) (by simp)) (hg.way (by omega) (by omega))
      (hp'.enteredAt_route he' h1)
    have h0 : d.GoesRound base := h0.roundTo (roundTo_singleton (by simp))
    have h1 : d.GoesRound (base + 1) := h1.roundTo (hg.roundTo_out (by omega) (by omega))
    exact (Throughout.two h0 h1).append hr rfl
  | .replay final outside body rest, h, hf, hp, hg, he => by
    -- a copy that is replayed completes, and the jump is carried out again behind it
    have hc : body.completes = true := hf.1
    simp only [Route.size, Route.entryAt, hc, if_true] at hp hg he ⊢
    obtain ⟨heb, her⟩ := Route.enteredAt_replay hc h hf hp he
    obtain ⟨-, hfb, hfr⟩ := hf
    obtain ⟨hb, hr⟩ := h
    obtain ⟨h1, hr⟩ := hr hc
    have hp' : Placed scope env.loops (base + body.size) (1 + rest.size) [] [] :=
      hp.part (by omega) (by omega) (by simp)
    have hb := body.guards_of_drawn (env.copy final) base _ [] hb hfb
      (hp.partTo (by omega) (by omega) (by omega) (by omega)) (by simp)
      (hg.part (by omega) (by omega) (by simp) (.inr (Nat.le_refl _))) heb
    have hr := rest.guards_of_drawn env (base + body.size + 1) site means hr hfr
      (hp.part (by omega) (by omega) (by simp)) (hg.way (by omega) (by omega))
      (hp'.enteredAt_route her h1)
    have h1 : d.GoesRound (base + body.size) :=
      h1.roundTo (hg.roundTo_out (by omega) (by omega))
    exact hb.append ((Throughout.one h1).append hr rfl) rfl
  | .swallow final body, h, hf, hp, hg, he =>
    body.guards_of_drawn (env.copy final) base [] [] h hf.2 hp (by simp [hf.1]) hg he

end

/-- The edges of the layout of a function leave the entry and the nodes of the body. -/
theorem Plan.DrawnWhole.lt_of_links {d : Piece} {flat : Bool} {plan : Plan}
    (h : plan.DrawnWhole d flat) {u v : Nat} (hl : Edge.Links d.edges u v) : u < 1 + plan.size := by
  refine Nat.lt_of_not_le fun hle => ?_
  rcases Nat.eq_or_lt_of_le hle with rfl | hlt
  · rw [Piece.links_iff, Nat.add_comm, h.exit.row] at hl
    simp at hl
  · rw [Piece.links_iff, h.row_eq_nil u (by omega)] at hl
    simp [Row.nil] at hl

/-- An edge that goes round a loop leads to the guard of a loop around its source. -/
theorem Plan.DrawnWhole.guard_of_loopBack {d : Piece} {flat : Bool} {plan : Plan}
    (h : plan.DrawnWhole d flat) (hf : plan.Fits 0) {u : Nat} {t : Label × NodeId}
    (ht : t ∈ (d.row u).out) (hl : t.1 = .loopBack) : d.Around t.2 u 1 := by
  have l0 : ∀ w v : Nat, Edge.Links d.edges w v → w = 0 → v = plan.entryAt 1 :=
    h.entry.leads (by simp) (by simp)
  -- the body is entered from the entry, since nothing leaves the exit
  have entered : d.EnteredAt 1 plan.size (plan.entryAt 1) := by
    intro w v hwv _ _
    have := h.lt_of_links hwv
    have := l0 w v hwv
    omega
  have hu := h.lt_of_links (Piece.links_iff.2 (.inl ⟨t, ht, rfl⟩))
  rcases Nat.eq_zero_or_pos u with rfl | hpos
  · rw [h.entry.row] at ht
    obtain rfl := List.mem_singleton.1 ht
    cases hl
  · exact plan.guards_of_drawn _ 1 _ _ h.body hf h.placed (by simp)
      ⟨by simp; omega, by simp, by simp [Env.ofFunction]⟩ entered u hpos hu t ht hl

end Flowgraph
