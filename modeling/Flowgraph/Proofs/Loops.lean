import Flowgraph.Proofs.Wiring

/-!
# Staying in a graph

Control can stay among some nodes of a graph for good only by going round a loop: where from every
node of a set an edge leads to a node of the set, one of these edges closes a loop.  And it goes
round only as long as the guard of the loop holds: one of the edges closes a loop whose guard leads
out of the set when it fails.

A plan is read backwards for this.  If control does not come back to the set after the plan, then
its last part has no node in the set, and so neither has the part before it.

## Main definitions

* `Piece.Returns` : a set of nodes in which control can stay without going round a loop.
* `Piece.Lingers` : a set of nodes in which control can stay whatever the guards of loops say.

## Main results

* `Plan.misses_of_drawn` : a plan has no node in such a set if its surroundings have none.
* `Plan.DrawnWhole.not_lingers` : control can stay nowhere once the guards of loops fail.
* `Plan.DrawnWhole.not_returns` : control can stay nowhere without going round a loop.
-/

namespace Flowgraph

/-- From every node of `D` an edge that does not go round a loop leads to a node of `D`. -/
def Piece.Returns (d : Piece) (D : Nat → Prop) : Prop :=
  ∀ u, D u → ∃ t, (t ∈ (d.row u).out ∨ t ∈ (d.row u).thrown) ∧ t.1 ≠ .loopBack ∧ D t.2

/-- The edge leads to a node of `D`.  If it goes round a loop, then so does the guard of the loop
when it fails. -/
def Piece.LeadsInto (d : Piece) (D : Nat → Prop) (t : Label × NodeId) : Prop :=
  D t.2 ∧ (t.1 = .loopBack → ∀ v, (.no, v) ∈ (d.row t.2).out → D v)

/-- From every node of `D` an edge leads to a node of `D`, and the guards of the loops that such
edges go round do not lead out of `D` when they fail. -/
def Piece.Lingers (d : Piece) (D : Nat → Prop) : Prop :=
  ∀ u, D u → ∃ t, (t ∈ (d.row u).out ∨ t ∈ (d.row u).thrown) ∧ d.LeadsInto D t

/-- No edge of the list leads into `D`. -/
def Piece.Misses (d : Piece) (D : Nat → Prop) (edges : List (Label × NodeId)) : Prop :=
  ∀ t ∈ edges, ¬ d.LeadsInto D t

/-- The exits of the loops are outside `D`, and their guards lead out of `D` when they fail. -/
def Piece.LeavesLoops (d : Piece) (D : Nat → Prop) (loops : List LoopEnds) : Prop :=
  ∀ ends ∈ loops, ¬ D ends.exit ∧ ∃ v, (.no, v) ∈ (d.row ends.head).out ∧ ¬ D v

section Misses

variable {d : Piece} {D : Nat → Prop}

theorem Piece.Returns.lingers (h : d.Returns D) : d.Lingers D := by
  intro u hu
  obtain ⟨t, ht, hl, hD⟩ := h u hu
  exact ⟨t, ht, hD, fun he => absurd he hl⟩

theorem Piece.LeavesLoops.tail {loops : List LoopEnds} (h : d.LeavesLoops D loops) :
    d.LeavesLoops D loops.tail :=
  fun ends he => h ends (List.mem_of_mem_tail he)

@[simp] theorem misses_nil : d.Misses D [] := by
  simp [Piece.Misses]

theorem misses_cons {t : Label × NodeId} {edges : List (Label × NodeId)} (ht : ¬ D t.2)
    (h : d.Misses D edges) : d.Misses D (t :: edges) := by
  intro s hs
  rcases List.mem_cons.1 hs with rfl | hs
  · exact fun hD => ht hD.1
  · exact h s hs

theorem misses_singleton {t : Label × NodeId} (ht : ¬ D t.2) : d.Misses D [t] :=
  misses_cons ht misses_nil

theorem misses_append {edges edges' : List (Label × NodeId)} (h : d.Misses D edges)
    (h' : d.Misses D edges') : d.Misses D (edges ++ edges') := by
  intro t ht
  rcases List.mem_append.1 ht with ht | ht
  · exact h t ht
  · exact h' t ht

/-- What goes round a loop does not lead into a set that the guard of the loop leads out of. -/
theorem misses_loopBack {u v : Nat} (hv : (.no, v) ∈ (d.row u).out) (hD : ¬ D v) :
    d.Misses D [(.loopBack, u)] := by
  intro t ht hinto
  obtain rfl := List.mem_singleton.1 ht
  exact hD (hinto.2 rfl v hv)

/-- A node is outside a set in which control can stay, if no edge out of it leads there. -/
theorem Piece.Lingers.not_mem (h : d.Lingers D) {u : Nat} {node : Node} {row : Row}
    (hs : d.Shows u node row) (ho : d.Misses D row.out) (ht : d.Misses D row.thrown) : ¬ D u := by
  intro hu
  obtain ⟨t, hm, hinto⟩ := h u hu
  rw [hs.row] at hm
  rcases hm with hm | hm
  · exact ho t hm hinto
  · exact ht t hm hinto

theorem Route.misses_out {means : Jump} : {route : Route} → {loops : List LoopEnds} →
    {base : Nat} → d.LeavesLoops D loops → Throughout (¬ D ·) base route.size →
      d.Misses D (route.out loops means base)
  | .arrive, [], _, _, _ => by cases means <;> simp [out]
  | .arrive, ends :: loops, _, hl, _ => by
    cases means
    case breaking => exact misses_singleton (hl ends (by simp)).1
    case continuing =>
      -- `continue` goes back to a test, from which the loop can be left
      obtain ⟨v, hv, hD⟩ := (hl ends (by simp)).2
      exact misses_loopBack hv hD
    all_goals exact misses_nil
  | .leaveLoop rest, loops, base, hl, h => by
    have ih : d.Misses D (rest.out loops.tail means base) :=
      misses_out hl.tail h
    exact ih
  | .release .., _, base, _, h =>
    misses_singleton (h base (Nat.le_refl _) (by simp only [size]; omega))
  | .replay _ _ body _, _, base, _, h => by
    have := body.entryAt_bounds base
    exact misses_singleton (h _ this.1 (by simp only [size]; omega))
  | .swallow _ body, _, base, _, h => misses_singleton (body.forall_entryAt h)

theorem Cases.misses_offered (flat : Bool) (label : Label) {cases : Cases} {base join : Nat}
    (hj : ¬ D join) (h : Throughout (¬ D ·) base cases.size) :
    d.Misses D (cases.offered flat label base join) := by
  intro t ht hinto
  rcases cases.offered_bounds flat label base join t ht with hv | hv
  · exact hj (hv ▸ hinto.1)
  · exact h t.2 hv.1 hv.2 hinto.1

theorem Handlers.misses_entries {handlers : Handlers} {base index : Nat}
    (h : Throughout (¬ D ·) base handlers.size) : d.Misses D (handlers.entries base index) := by
  intro t ht hinto
  have := handlers.entries_bounds base index t ht
  exact h t.2 this.1 this.2 hinto.1

theorem Piece.ShowsAlternatives.misses (hD : d.Lingers D) {env : Env} {chained : Bool}
    {taken : Label × NodeId} {onward : List (Label × NodeId)} (ht : ¬ D taken.2)
    (ho : d.Misses D onward) : (patterns : List Span) → (base : Nat) →
      d.ShowsAlternatives env chained taken onward base patterns →
      Throughout (¬ D ·) base patterns.length
  | [], _, _ => .zero
  | [pattern], base, h => .one (hD.not_mem h (misses_cons ht ho) misses_nil)
  | pattern :: pattern' :: rest, base, h => by
    -- a chain is left out from its last alternative on
    have ih := misses hD ht ho (pattern' :: rest) (base + 1) h.2
    refine .cons (hD.not_mem h.1 (misses_cons ht ?_) misses_nil) ih
    split
    · exact misses_singleton (ih (base + 1) (Nat.le_refl _) (by simp))
    · exact misses_nil

end Misses

section Plans

variable {d : Piece} {D : Nat → Prop}

mutual

/-- Where control can stay whatever guards say, there is no node of a plan whose surroundings are
not there.  The parts of the plan are left out from the last one on. -/
theorem Plan.misses_of_drawn (hD : d.Lingers D) (env : Env) (base : Nat)
    (next handlers : List (Label × NodeId)) : (plan : Plan) →
      plan.Drawn d env base next handlers →
      (plan.completes = true → d.Misses D next) → d.Misses D handlers →
      d.LeavesLoops D env.loops → Throughout (¬ D ·) base plan.size
  | .idle, h, hn, hh, _ | .block _, h, hn, hh, _ | .yield _, h, hn, hh, _ =>
    .one (hD.not_mem h (hn rfl) hh)
  | .jump before site means route, h, _, hh, hl => by
    have hr := route.misses_of_drawn hD env (base + 1) site means h.2 hl
    have h0 := hD.not_mem h.1 (Route.misses_out hl hr) hh
    exact (Throughout.one h0).append hr rfl
  | .raise site route, h, _, hh, hl => by
    have hr := route.misses_of_drawn hD env (base + 1) site .raising h.2 hl
    have h0 := hD.not_mem h.1 (Route.misses_out hl hr) hh
    exact (Throughout.one h0).append hr rfl
  | .hold before header region body, h, hn, hh, hl => by
    have hb := body.misses_of_drawn hD (env.within region) (base + 1) next [] h.2 hn misses_nil hl
    have h0 := hD.not_mem h.1 (misses_singleton (body.forall_entryAt hb)) hh
    exact (Throughout.one h0).append hb rfl
  | .seq first rest, h, hn, hh, hl => by
    -- the rest first: it has no node in the set, and the first part goes on to the rest
    have hr := rest.misses_of_drawn hD env (base + first.size) next [] h.2 hn misses_nil hl
    have hf := first.misses_of_drawn hD env base _ handlers h.1
      (fun _ => misses_singleton (rest.forall_entryAt hr)) hh hl
    exact hf.append hr rfl
  | .branch test body rest, h, hn, hh, hl => by
    obtain ⟨h0, h1, hb, hr⟩ := h
    -- the join, then both branches, and the test last
    have hj := hD.not_mem h1 (hn rfl) misses_nil
    have hr := rest.misses_of_drawn hD env (base + 2 + body.size) (base + 1) hr hj hl
    have hb := body.misses_of_drawn hD env (base + 2) _ [] hb (fun _ => misses_singleton hj)
      misses_nil hl
    have h0 := hD.not_mem h0 (misses_cons (body.forall_entryAt hb)
      (misses_singleton (Alternatives.forall_target hj hr))) hh
    exact ((Throughout.two h0 hj).append hb rfl).append hr (by omega)
  | .loop header body orelse, h, hn, hh, hl => by
    obtain ⟨h0, h1, hb, ho⟩ := h
    have hj := hD.not_mem h1 (hn rfl) misses_nil
    have ho := orelse.misses_of_drawn hD env (base + 2 + body.size) _ ho (misses_singleton hj) hl
    have hoe := Annex.forall_target hj ho
    -- the body comes back to the guard only, which has a way out when it fails
    have hno : (.no, orelse.target (base + 2 + body.size) (base + 1)) ∈ (d.row base).out := by
      simp [h0.row]
    have hl' : d.LeavesLoops D (env.inLoop ⟨base, base + 1⟩).loops :=
      List.forall_mem_cons.2 ⟨⟨hj, _, hno, hoe⟩, hl⟩
    have hb := body.misses_of_drawn hD (env.inLoop ⟨base, base + 1⟩) (base + 2) _ [] hb
      (fun _ => misses_loopBack hno hoe) misses_nil hl'
    have h0 := hD.not_mem h0 (misses_cons (body.forall_entryAt hb) (misses_singleton hoe)) hh
    exact ((Throughout.two h0 hj).append hb rfl).append ho (by omega)
  | .dispatch subject region cases, h, hn, hh, hl => by
    obtain ⟨h0, h1, hc⟩ := h
    have hj := hD.not_mem h1 (hn rfl) misses_nil
    have hc := cases.misses_of_drawn hD (env.within region) (base + 2) (base + 1) 0 true hc hj hl
    have h0 := hD.not_mem h0
      (misses_append (Cases.misses_offered env.flat .always hj hc) (by
        split
        · exact misses_nil
        · exact misses_singleton hj)) hh
    exact (Throughout.two h0 hj).append hc rfl
  | .attempt region body handlers' orelse final, h, hn, hh, hl => by
    -- the end of the statement, the clauses from the last one on, and then the body
    obtain ⟨h0, hb, hh', ho, hfin⟩ := h
    have hj := hD.not_mem h0 (hn rfl) misses_nil
    have hfin := final.misses_of_drawn hD env
      (base + 1 + body.size + handlers'.size + orelse.size) _ hfin (misses_singleton hj) hl
    have hfinish := Annex.forall_target hj hfin
    have ho := orelse.misses_of_drawn hD env (base + 1 + body.size + handlers'.size) _ ho
      (misses_singleton hfinish) hl
    have hh' := handlers'.misses_of_drawn hD env (base + 1 + body.size) _ hh'
      (misses_singleton hfinish) hl
    have hbridge : ¬ D (orelse.bridge (base + 1 + body.size + handlers'.size) (.always,
        final.target (base + 1 + body.size + handlers'.size + orelse.size) base)).2 := by
      rw [Annex.snd_bridge]
      exact Annex.forall_target hfinish ho
    have hb := body.misses_of_drawn hD (env.within region) (base + 1) _ _ hb
      (fun _ => misses_singleton hbridge) (misses_append (Handlers.misses_entries hh') hh) hl
    exact ((((Throughout.one hj).append hb rfl).append hh' (by omega)).append ho
      (by omega)).append hfin (by omega)

theorem Alternatives.misses_of_drawn (hD : d.Lingers D) (env : Env) (base join : Nat) :
    (rest : Alternatives) → rest.Drawn d env base join → ¬ D join → d.LeavesLoops D env.loops →
      Throughout (¬ D ·) base rest.size
  | .done, _, _, _ => .zero
  | .otherwise body, h, hj, hl =>
    body.misses_of_drawn hD env base _ [] h (fun _ => misses_singleton hj) misses_nil hl
  | .test header body rest, h, hj, hl => by
    obtain ⟨h0, hb, hr⟩ := h
    -- from the end backwards: a node is left if something that it leads to is
    have hr := rest.misses_of_drawn hD env (base + 1 + body.size) join hr hj hl
    have hb := body.misses_of_drawn hD env (base + 1) _ [] hb (fun _ => misses_singleton hj)
      misses_nil hl
    have h0 := hD.not_mem h0 (misses_cons (body.forall_entryAt hb)
      (misses_singleton (Alternatives.forall_target hj hr))) misses_nil
    exact ((Throughout.one h0).append hb rfl).append hr (by omega)

theorem Cases.misses_of_drawn (hD : d.Lingers D) (env : Env) (base join index : Nat)
    (reached : Bool) : (cases : Cases) → cases.Drawn d env base join index reached → ¬ D join →
      d.LeavesLoops D env.loops → Throughout (¬ D ·) base cases.size
  | .nil, _, _, _ => .zero
  | .cons patterns catchAll body rest, h, hj, hl => by
    obtain ⟨ha, hb, hr⟩ := h
    have hr := rest.misses_of_drawn hD env (base + patterns.length + body.size) join (index + 1) _
      hr hj hl
    have hb := body.misses_of_drawn hD env (base + patterns.length) _ [] hb
      (fun _ => misses_singleton hj) misses_nil hl
    have ha := ha.misses hD (body.forall_entryAt hb) (by
      split
      · exact Cases.misses_offered false .noMatch hj hr
      · exact misses_nil) patterns base
    exact (ha.append hb rfl).append hr (by omega)

theorem Handlers.misses_of_drawn (hD : d.Lingers D) (env : Env) (base : Nat)
    (next : List (Label × NodeId)) : (handlers : Handlers) →
      handlers.Drawn d env base next → d.Misses D next → d.LeavesLoops D env.loops →
      Throughout (¬ D ·) base handlers.size
  | .nil, _, _, _ => .zero
  | .cons region handler rest, h, hn, hl =>
    (handler.misses_of_drawn hD (env.within region) base next [] h.1 (fun _ => hn) misses_nil
      hl).append (rest.misses_of_drawn hD env (base + handler.size) next h.2 hn hl) rfl

theorem Annex.misses_of_drawn (hD : d.Lingers D) (env : Env) (base : Nat)
    (next : List (Label × NodeId)) : (annex : Annex) →
      annex.Drawn d env base next → d.Misses D next → d.LeavesLoops D env.loops →
      Throughout (¬ D ·) base annex.size
  | .absent, _, _, _ => .zero
  | .present region body, h, hn, hl =>
    body.misses_of_drawn hD (env.within region) base next [] h (fun _ => hn) misses_nil hl

theorem Route.misses_of_drawn (hD : d.Lingers D) (env : Env) (base : Nat) (site : Site)
    (means : Jump) : (route : Route) →
      route.Drawn d env base site means → d.LeavesLoops D env.loops →
      Throughout (¬ D ·) base route.size
  | .arrive, _, _ => .zero
  | .leaveLoop rest, h, hl => rest.misses_of_drawn hD env.outsideLoop base site means h hl.tail
  | .release header region outside rest, h, hl => by
    obtain ⟨h0, h1, hr⟩ := h
    have hr := rest.misses_of_drawn hD env (base + 2) site means hr hl
    have h1 := hD.not_mem h1 (Route.misses_out hl hr) misses_nil
    have h0 := hD.not_mem h0 (misses_singleton h1) misses_nil
    exact (Throughout.two h0 h1).append hr rfl
  | .replay final outside body rest, h, hl => by
    obtain ⟨hb, hr⟩ := h
    rw [Route.size]
    cases hc : body.completes with
    -- what would follow a copy that does not complete is not drawn
    | false =>
      have hb := body.misses_of_drawn hD (env.copy final) base _ [] hb (by simp [hc]) misses_nil hl
      exact hb.append .zero rfl
    | true =>
      obtain ⟨h1, hr⟩ := hr hc
      have hr := rest.misses_of_drawn hD env (base + body.size + 1) site means hr hl
      have h1 := hD.not_mem h1 (Route.misses_out hl hr) misses_nil
      have hb := body.misses_of_drawn hD (env.copy final) base _ [] hb
        (fun _ => misses_singleton h1) misses_nil hl
      exact hb.append ((Throughout.one h1).append hr rfl) rfl
  | .swallow final body, h, hl =>
    body.misses_of_drawn hD (env.copy final) base [] [] h (fun _ => misses_nil) misses_nil hl

end

end Plans

/-- Control can stay nowhere once the guards of loops fail. -/
theorem Plan.DrawnWhole.not_lingers {d : Piece} {flat : Bool} {plan : Plan} {D : Nat → Prop}
    (h : plan.DrawnWhole d flat) (hD : d.Lingers D) (u : Nat) : ¬ D u := by
  -- nothing leaves the exit, and the body goes on to it
  have hexit : ¬ D (plan.size + 1) := hD.not_mem h.exit misses_nil misses_nil
  have hbody := plan.misses_of_drawn hD _ 1 _ _ h.body (fun _ => misses_singleton hexit) misses_nil
    (by simp [Env.ofFunction, Piece.LeavesLoops])
  have hentry : ¬ D 0 :=
    hD.not_mem h.entry (misses_singleton (plan.forall_entryAt hbody)) misses_nil
  rcases Nat.eq_zero_or_pos u with rfl | hpos
  · exact hentry
  rcases Nat.lt_or_ge u (1 + plan.size) with hlt | hge
  · exact hbody u hpos hlt
  rcases Nat.lt_or_ge u (plan.size + 2) with hlt' | hge'
  · obtain rfl : u = plan.size + 1 := by omega
    exact hexit
  · intro hu
    obtain ⟨t, ht, -⟩ := hD u hu
    simp [h.row_eq_nil u hge', Row.nil] at ht

/-- Control can stay nowhere without going round a loop. -/
theorem Plan.DrawnWhole.not_returns {d : Piece} {flat : Bool} {plan : Plan} {D : Nat → Prop}
    (h : plan.DrawnWhole d flat) (hD : d.Returns D) (u : Nat) : ¬ D u :=
  h.not_lingers hD.lingers u

end Flowgraph
