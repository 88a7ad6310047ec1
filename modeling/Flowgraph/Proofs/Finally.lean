import Flowgraph.Proofs.Wiring
import Flowgraph.Proofs.Zones

/-!
# No way around a `finally` clause

Control that is in the body or in a handler of a `try` leaves the statement through its `finally`
clause, unless an exception takes it out.  It may leave at the end of the body, of a handler or of
the `else` clause, or by a jump from anywhere inside; in each case the first node behind is the one
where the `finally` clause begins, in place or as a copy made for the jump.

A plan is read backwards: if control cannot leave after the plan, then not from its last part, and
so not from the part before it.  A loop is read as often as control goes round, so the statement is
about ways out of bounded length.

## Main definitions

* `Piece.Escapes` : a way out of a `try` statement that avoids its `finally` clause.

## Main results

* `Plan.sealed_of_drawn` : a plan whose surroundings have no such way out has none itself.
* `Graph.final_on_way_out` : every way out of a `try` statement passes its `finally` clause.
-/

namespace Flowgraph

/-- In at most `n` steps, none of them an exception, control comes from the node `u` to a node
outside the statement, without coming to a node of the `finally` clause. -/
def Piece.Escapes (d : Piece) (z : Zone) : Nat → Nat → Prop
  | 0, u => ∃ node, d.nodes[u]? = some node ∧ ¬ z.final node.region ∧ ¬ z.whole node.region
  | n + 1, u => ∃ node, d.nodes[u]? = some node ∧ ¬ z.final node.region ∧
      (¬ z.whole node.region ∨ ∃ t ∈ (d.row u).out, d.Escapes z n t.2)

namespace Piece

variable {d : Piece} {z : Zone} {n : Nat}

theorem Escapes.succ : {n : Nat} → {u : Nat} → d.Escapes z n u → d.Escapes z (n + 1) u
  | 0, _, ⟨node, hu, hf, hw⟩ => ⟨node, hu, hf, .inl hw⟩
  | _ + 1, _, ⟨node, hu, hf, .inl hw⟩ => ⟨node, hu, hf, .inl hw⟩
  | _ + 1, _, ⟨node, hu, hf, .inr ⟨t, ht, h⟩⟩ => ⟨node, hu, hf, .inr ⟨t, ht, h.succ⟩⟩

theorem Escapes.mono {m u : Nat} (h : d.Escapes z m u) (hm : m ≤ n) : d.Escapes z n u := by
  induction hm with
  | refl => exact h
  | step _ ih => exact ih.succ

theorem not_escapes_of_final {u : Nat} {node : Node} (hu : d.nodes[u]? = some node)
    (hf : z.final node.region) : ¬ d.Escapes z n u := by
  cases n <;>
    · rintro ⟨node', hu', hf', -⟩
      rw [hu, Option.some.injEq] at hu'
      exact hf' (hu' ▸ hf)

/-- None of the edges leads to a node from which control can leave. -/
def Holds (d : Piece) (z : Zone) (n : Nat) (edges : List (Label × NodeId)) : Prop :=
  ∀ t ∈ edges, ¬ d.Escapes z n t.2

@[simp] theorem holds_nil : d.Holds z n [] := by
  simp [Holds]

@[simp] theorem holds_cons {t : Label × NodeId} {edges : List (Label × NodeId)} :
    d.Holds z n (t :: edges) ↔ ¬ d.Escapes z n t.2 ∧ d.Holds z n edges := by
  simp [Holds]

@[simp] theorem holds_append {edges edges' : List (Label × NodeId)} :
    d.Holds z n (edges ++ edges') ↔ d.Holds z n edges ∧ d.Holds z n edges' := by
  simp [Holds, or_imp, forall_and]

theorem Holds.mono {m : Nat} {edges : List (Label × NodeId)} (h : d.Holds z n edges) (hm : m ≤ n) :
    d.Holds z m edges :=
  fun t ht he => h t ht (he.mono hm)

theorem not_escapes_zero {u : Nat} {node : Node} {row : Row} (hs : d.Shows u node row)
    (hw : z.whole node.region) : ¬ d.Escapes z 0 u := by
  rintro ⟨node', hu, -, h⟩
  rw [hs.node, Option.some.injEq] at hu
  exact h (hu ▸ hw)

/-- A node inside the statement is left in one more step than the nodes after it. -/
theorem not_escapes_succ {u : Nat} {node : Node} {row : Row} (hs : d.Shows u node row)
    (hw : z.whole node.region) (ho : d.Holds z n row.out) : ¬ d.Escapes z (n + 1) u := by
  rintro ⟨node', hu, -, h⟩
  rw [hs.node, Option.some.injEq] at hu
  subst hu
  rcases h with h | ⟨t, ht, h⟩
  · exact h hw
  · rw [hs.row] at ht
    exact ho t ht h

/-- Control cannot leave from the nodes of the body and of the handlers among the `size` nodes from
`base` on. -/
def Covers (d : Piece) (z : Zone) (n base size : Nat) : Prop :=
  ∀ u, base ≤ u → u < base + size → ∀ node, d.nodes[u]? = some node → z.start node.region →
    ¬ d.Escapes z n u

theorem covers_zero (base : Nat) : d.Covers z n base 0 :=
  Throughout.zero

theorem Covers.append {base base' size size' : Nat} (h : d.Covers z n base size)
    (h' : d.Covers z n base' size') (hb : base + size = base') :
    d.Covers z n base (size + size') :=
  Throughout.append h h' hb

/-- The loops on the side of a statement are not left from their ends. -/
def LoopsHold (d : Piece) (z : Zone) (n : Nat) (side : Side) (loops : List LoopEnds) : Prop :=
  ∀ ends ∈ loops.take side.loops, ¬ d.Escapes z n ends.head ∧ ¬ d.Escapes z n ends.exit

theorem loopsHold_outside {loops : List LoopEnds} : d.LoopsHold z n .outside loops := by
  simp [LoopsHold, Side.loops]

theorem LoopsHold.mono {m : Nat} {side : Side} {loops : List LoopEnds}
    (h : d.LoopsHold z n side loops) (hm : m ≤ n) : d.LoopsHold z m side loops :=
  fun ends he => ⟨fun hh => (h ends he).1 (hh.mono hm), fun hh => (h ends he).2 (hh.mono hm)⟩

theorem LoopsHold.inLoop {side : Side} {loops : List LoopEnds} (h : d.LoopsHold z n side loops)
    {ends : LoopEnds} (hhead : side ≠ .outside → ¬ d.Escapes z n ends.head)
    (hexit : side ≠ .outside → ¬ d.Escapes z n ends.exit) :
    d.LoopsHold z n side.inLoop (ends :: loops) := by
  cases side with
  | outside => exact loopsHold_outside
  | inside k =>
    simp only [LoopsHold, Side.inLoop, Side.loops, List.take_succ_cons, List.mem_cons]
    rintro e (rfl | he)
    · exact ⟨hhead (Side.inside_ne_outside k), hexit (Side.inside_ne_outside k)⟩
    · exact h e he

theorem LoopsHold.outsideLoop {side side' : Side} {loops : List LoopEnds}
    (h : d.LoopsHold z n side loops) (hs : side.outsideLoop? = some side') :
    d.LoopsHold z n side' loops.tail := by
  cases side with
  | outside =>
    cases hs
    exact loopsHold_outside
  | inside k =>
    cases k with
    -- inside no loop of the statement, there is no loop to leave
    | zero => cases hs
    | succ k =>
      cases hs
      cases loops with
      | nil => simp [LoopsHold]
      | cons ends loops => exact fun e he => h e (List.mem_cons_of_mem _ he)

section Node

variable {side : Side} {u : Nat} {node : Node} {row : Row}

/-- Control does not leave from a node inside the statement, if not from the nodes after it. -/
theorem not_escapes_node (hs : d.Shows u node row) (ha : z.Admits side node.region)
    (ho : side ≠ .outside → d.Holds z n row.out) : side ≠ .outside → ¬ d.Escapes z n u := by
  intro hside he
  exact not_escapes_succ hs (ha.whole hside) (ho hside) he.succ

/-- A node outside the statement is not in its body or a handler. -/
theorem covers_node (hs : d.Shows u node row) (ha : z.Admits side node.region)
    (hu : side ≠ .outside → ¬ d.Escapes z n u) : d.Covers z n u 1 := by
  intro v hv hv' node' hn hstart
  obtain rfl : u = v := by omega
  rw [hs.node, Option.some.injEq] at hn
  subst hn
  cases side with
  | outside => exact absurd hstart ha
  | inside k => exact hu (Side.inside_ne_outside k)

end Node

/-- The alternatives of a case, the last one first. -/
theorem ShowsAlternatives.sealed {side : Side} {env : Env} {chained : Bool} {taken : Label × NodeId}
    {onward : List (Label × NodeId)} (ha : z.Admits side env.region)
    (ht : side ≠ .outside → ¬ d.Escapes z n taken.2) (ho : side ≠ .outside → d.Holds z n onward) :
    (patterns : List Span) → (base : Nat) →
      d.ShowsAlternatives env chained taken onward base patterns →
      (side ≠ .outside → ∀ u, base ≤ u → u < base + patterns.length → ¬ d.Escapes z n u) ∧
        d.Covers z n base patterns.length
  | [], base, _ => by
    refine ⟨fun _ u hu hu' => ?_, covers_zero base⟩
    simp only [List.length_nil] at hu'
    omega
  | [pattern], base, h => by
    have h0 := not_escapes_node h ha fun hs => holds_cons.2 ⟨ht hs, ho hs⟩
    refine ⟨fun hs u hu hu' => ?_, covers_node h ha h0⟩
    obtain rfl : base = u := by
      simp only [List.length_singleton] at hu'
      omega
    exact h0 hs
  | pattern :: pattern' :: rest, base, h => by
    obtain ⟨hrest, hcovers⟩ := sealed ha ht ho (pattern' :: rest) (base + 1) h.2
    -- in a chain the next alternative was dealt with before this one
    have h0 := not_escapes_node h.1 ha fun hs => holds_cons.2 ⟨ht hs, by
      split
      · exact holds_cons.2 ⟨hrest hs _ (Nat.le_refl _) (by simp), holds_nil⟩
      · exact holds_nil⟩
    refine ⟨fun hs u hu hu' => ?_, ?_⟩
    · rcases Nat.eq_or_lt_of_le hu with rfl | hu
      · exact h0 hs
      · exact hrest hs u hu (by simp only [List.length_cons] at hu' ⊢; omega)
    · rw [List.length_cons, Nat.add_comm]
      exact (covers_node h.1 ha h0).append hcovers rfl

end Piece

/-- A plan begins in its entry region. -/
theorem Plan.exists_entry_of_drawn {d : Piece} : (plan : Plan) → {env : Env} → {base : Nat} →
    {next handlers : List (Label × NodeId)} → plan.Drawn d env base next handlers →
      ∃ node, d.nodes[plan.entryAt base]? = some node ∧ node.region = plan.entryRegion env.region
  | .idle, _, _, _, _, h | .block _, _, _, _, _, h | .yield _, _, _, _, _, h => ⟨_, h.node, rfl⟩
  | .jump .., _, _, _, _, h | .raise .., _, _, _, _, h | .hold .., _, _, _, _, h
  | .branch .., _, _, _, _, h | .loop .., _, _, _, _, h | .dispatch .., _, _, _, _, h =>
    ⟨_, h.1.node, rfl⟩
  | .seq first _, _, _, _, _, h => first.exists_entry_of_drawn h.1
  | .attempt _ body _ _ _, _, _, _, _, h => body.exists_entry_of_drawn h.2.1

/-- The copy of a `finally` clause, or the clause itself, begins in its region. -/
theorem Plan.not_escapes_entryAt {d : Piece} {z : Zone} {n : Nat} {plan : Plan} {env : Env}
    {base : Nat} {next handlers : List (Label × NodeId)}
    (h : plan.Drawn d env base next handlers) (hf : z.final (plan.entryRegion env.region)) :
    ¬ d.Escapes z n (plan.entryAt base) := by
  obtain ⟨node, hn, hr⟩ := plan.exists_entry_of_drawn h
  exact Piece.not_escapes_of_final hn (hr ▸ hf)

mutual

/-- Where control cannot leave the statement after a plan, it cannot leave from the plan: not from
where the plan begins, if the plan stands inside, and not from the body and the handlers of the
statement, if the statement is part of the plan.  The parts are read from the last one on. -/
theorem Plan.sealed_of_drawn {d : Piece} {z : Zone} (n : Nat) (env : Env) (base : Nat)
    (next handlers : List (Label × NodeId)) (side : Side) : (plan : Plan) →
      plan.Drawn d env base next handlers → plan.Zoned z side → z.Admits side env.region →
      (side ≠ .outside → plan.completes = true → d.Holds z n next) →
      d.LoopsHold z n side env.loops →
      (side ≠ .outside → ¬ d.Escapes z n (plan.entryAt base)) ∧ d.Covers z n base plan.size
  | .idle, h, _, ha, hn, _ | .block _, h, _, ha, hn, _ | .yield _, h, _, ha, hn, _ => by
    have h0 := Piece.not_escapes_node h ha fun hs => hn hs rfl
    exact ⟨h0, Piece.covers_node h ha h0⟩
  | .jump before site means route, h, hz, ha, _, hl => by
    obtain ⟨hout, hcovers⟩ := route.sealed_of_drawn n env (base + 1) site means side h.2 hz hl
    have h0 := Piece.not_escapes_node h.1 ha hout
    exact ⟨h0, (Piece.covers_node h.1 ha h0).append hcovers rfl⟩
  | .raise site route, h, hz, ha, _, hl => by
    obtain ⟨hout, hcovers⟩ := route.sealed_of_drawn n env (base + 1) site .raising side h.2 hz hl
    have h0 := Piece.not_escapes_node h.1 ha hout
    exact ⟨h0, (Piece.covers_node h.1 ha h0).append hcovers rfl⟩
  | .hold before header region body, h, hz, ha, hn, hl => by
    obtain ⟨hb, hcovers⟩ := body.sealed_of_drawn n (env.within region) (base + 1) next [] side h.2
      hz.2 hz.1 hn hl
    have h0 := Piece.not_escapes_node h.1 ha fun hs => by simpa using hb hs
    exact ⟨h0, (Piece.covers_node h.1 ha h0).append hcovers rfl⟩
  | .seq first rest, h, hz, ha, hn, hl => by
    obtain ⟨hr, hcovers⟩ := rest.sealed_of_drawn n env (base + first.size) next [] side h.2 hz.2 ha
      hn hl
    obtain ⟨hf, hcovers'⟩ := first.sealed_of_drawn n env base _ handlers side h.1 hz.1 ha
      (fun hs _ => by simpa using hr hs) hl
    exact ⟨hf, hcovers'.append hcovers rfl⟩
  | .branch test body rest, h, hz, ha, hn, hl => by
    obtain ⟨h0, h1, hb, hr⟩ := h
    -- the join, then both branches, and the test last
    have hj := Piece.not_escapes_node h1 ha fun hs => hn hs rfl
    obtain ⟨hb, hcovers⟩ := body.sealed_of_drawn n env (base + 2) _ [] side hb hz.1 ha
      (fun hs _ => by simpa using hj hs) hl
    obtain ⟨hr, hcovers'⟩ := rest.sealed_of_drawn n env (base + 2 + body.size) (base + 1) side hr
      hz.2 ha hj hl
    have htest := Piece.not_escapes_node h0 ha fun hs => by simpa using ⟨hb hs, hr hs⟩
    exact ⟨htest, (((Piece.covers_node h0 ha htest).append (Piece.covers_node h1 ha hj) rfl).append
      hcovers rfl).append hcovers' (by omega)⟩
  | .loop header body orelse, h, hz, ha, hn, hl => by
    obtain ⟨h0, h1, hb, ho⟩ := h
    have hj := Piece.not_escapes_node h1 ha fun hs => hn hs rfl
    obtain ⟨ho, hcovers⟩ := orelse.sealed_of_drawn n env (base + 2 + body.size)
      [(.always, base + 1)] side ho hz.2 (fun hs => by simpa using hj hs) hl
    have ha' : z.Admits side.inLoop env.region := by
      cases side <;> exact ha
    have hbody := fun m (hm : m ≤ n) (hhead : side ≠ .outside → ¬ d.Escapes z m base) =>
      body.sealed_of_drawn m (env.inLoop ⟨base, base + 1⟩) (base + 2) _ [] side.inLoop hb hz.1 ha'
        (fun hs _ => by simpa using hhead (by simpa using hs))
        ((hl.mono hm).inLoop hhead fun hs he => hj hs (he.mono hm))
    -- each time round the loop control comes back to the guard with fewer steps left
    have hguard : side ≠ .outside → ∀ m, m ≤ n → ¬ d.Escapes z m base := by
      intro hs m hm
      have hw : z.whole env.region := ha.whole hs
      induction m with
      | zero => exact Piece.not_escapes_zero h0 hw
      | succ m ih =>
        have hm : m ≤ n := Nat.le_of_succ_le hm
        refine Piece.not_escapes_succ h0 hw ?_
        simpa using ⟨(hbody m hm fun _ => ih hm).1 (by simpa using hs),
          fun he => ho hs (base + 1) (hj hs) (he.mono hm)⟩
    have hguard := fun hs => hguard hs n (Nat.le_refl n)
    have hends := (Piece.covers_node h0 ha hguard).append (Piece.covers_node h1 ha hj) rfl
    exact ⟨hguard,
      (hends.append (hbody n (Nat.le_refl n) hguard).2 rfl).append hcovers (by omega)⟩
  | .dispatch subject region cases, h, hz, ha, hn, hl => by
    obtain ⟨h0, h1, hc⟩ := h
    have hj := Piece.not_escapes_node h1 ha fun hs => hn hs rfl
    obtain ⟨hc, hcovers⟩ := cases.sealed_of_drawn n (env.within region) (base + 2) (base + 1) 0 true
      side hc hz.2 hz.1 hj hl
    have htest := Piece.not_escapes_node h0 ha fun hs => by
      refine Piece.holds_append.2 ⟨hc hs env.flat .always, ?_⟩
      split
      · exact Piece.holds_nil
      · simpa using hj hs
    exact ⟨htest, ((Piece.covers_node h0 ha htest).append (Piece.covers_node h1 ha hj) rfl).append
      hcovers rfl⟩
  | .attempt region body handlers' orelse final, h, hz, ha, hn, hl => by
    obtain ⟨h0, hb, hh, ho, hfin⟩ := h
    have hj := Piece.not_escapes_node h0 ha fun hs => hn hs rfl
    -- the clauses under the `finally` clause stand on one side, and it begins where they end
    obtain ⟨side', ha', hzb, hzh, hzo, hl', hside, hfinish, hcf⟩ : ∃ side', z.Admits side' region ∧
        body.Zoned z side' ∧ handlers'.Zoned z side' ∧ orelse.Zoned z side' ∧
        d.LoopsHold z n side' env.loops ∧ (side ≠ .outside → side' ≠ .outside) ∧
        (side' ≠ .outside → ¬ d.Escapes z n
          (final.target (base + 1 + body.size + handlers'.size + orelse.size) base)) ∧
        d.Covers z n (base + 1 + body.size + handlers'.size + orelse.size) final.size := by
      rcases hz with ⟨ha', hzb, hzh, hzo, hzf⟩ | ⟨rfl, ha', hzb, hzh, hzo, hzf⟩
      · obtain ⟨hfinish, hcf⟩ := final.sealed_of_drawn n env
          (base + 1 + body.size + handlers'.size + orelse.size) _ side hfin hzf
          (fun hs => by simpa using hj hs) hl
        exact ⟨side, ha', hzb, hzh, hzo, hl, id, fun hs => hfinish hs base (hj hs), hcf⟩
      · obtain ⟨hfinish, hcf⟩ := final.sealed_of_closes n env
          (base + 1 + body.size + handlers'.size + orelse.size) _ hfin hzf
        exact ⟨.inside 0, ha', hzb, hzh, hzo, by simp [Piece.LoopsHold, Side.loops], by simp,
          fun _ => hfinish base, hcf⟩
    obtain ⟨hbridge, hco⟩ := orelse.sealed_of_drawn n env
      (base + 1 + body.size + handlers'.size) _ side' ho hzo
      (fun hs => by simpa using hfinish hs) hl'
    have hch := handlers'.sealed_of_drawn n env (base + 1 + body.size) _ side' hh hzh
      (fun hs => by simpa using hfinish hs) hl'
    obtain ⟨hb, hcb⟩ := body.sealed_of_drawn n (env.within region) (base + 1) _ _ side' hb hzb ha'
      (fun hs _ => by simpa using hbridge hs _ (hfinish hs)) hl'
    exact ⟨fun hs => hb (hside hs), ((((Piece.covers_node h0 ha hj).append hcb rfl).append hch
      (by omega)).append hco (by omega)).append hcf (by omega)⟩

theorem Alternatives.sealed_of_drawn {d : Piece} {z : Zone} (n : Nat) (env : Env) (base join : Nat)
    (side : Side) : (rest : Alternatives) → rest.Drawn d env base join → rest.Zoned z side →
      z.Admits side env.region → (side ≠ .outside → ¬ d.Escapes z n join) →
      d.LoopsHold z n side env.loops →
      (side ≠ .outside → ¬ d.Escapes z n (rest.target base join)) ∧ d.Covers z n base rest.size
  | .done, _, _, _, hj, _ => ⟨hj, Piece.covers_zero base⟩
  | .otherwise body, h, hz, ha, hj, hl =>
    body.sealed_of_drawn n env base _ [] side h hz ha (fun hs _ => by simpa using hj hs) hl
  | .test header body rest, h, hz, ha, hj, hl => by
    obtain ⟨h0, hb, hr⟩ := h
    obtain ⟨hb, hcovers⟩ := body.sealed_of_drawn n env (base + 1) _ [] side hb hz.1 ha
      (fun hs _ => by simpa using hj hs) hl
    obtain ⟨hr, hcovers'⟩ := rest.sealed_of_drawn n env (base + 1 + body.size) join side hr hz.2 ha
      hj hl
    have h0' := Piece.not_escapes_node h0 ha fun hs => by simpa using ⟨hb hs, hr hs⟩
    exact ⟨h0', ((Piece.covers_node h0 ha h0').append hcovers rfl).append hcovers' (by omega)⟩

theorem Cases.sealed_of_drawn {d : Piece} {z : Zone} (n : Nat) (env : Env)
    (base join index : Nat) (reached : Bool) (side : Side) : (cases : Cases) →
      cases.Drawn d env base join index reached → cases.Zoned z side → z.Admits side env.region →
      (side ≠ .outside → ¬ d.Escapes z n join) → d.LoopsHold z n side env.loops →
      (side ≠ .outside → ∀ flat label, d.Holds z n (cases.offered flat label base join)) ∧
        d.Covers z n base cases.size
  | .nil, _, _, _, hj, _ => by
    refine ⟨fun hs flat label => ?_, Piece.covers_zero base⟩
    simpa [Cases.offered] using hj hs
  | .cons patterns catchAll body rest, h, hz, ha, hj, hl => by
    obtain ⟨hp, hb, hr⟩ := h
    obtain ⟨hb, hcovers⟩ := body.sealed_of_drawn n env (base + patterns.length) _ [] side hb hz.1 ha
      (fun hs _ => by simpa using hj hs) hl
    obtain ⟨hr, hcovers'⟩ := rest.sealed_of_drawn n env (base + patterns.length + body.size) join
      (index + 1) _ side hr hz.2 ha hj hl
    obtain ⟨hp, hcovers''⟩ := hp.sealed ha hb (fun hs => by
      split
      · exact hr hs false .noMatch
      · exact Piece.holds_nil) patterns base
    refine ⟨fun hs flat label => ?_, (hcovers''.append hcovers rfl).append hcovers' (by omega)⟩
    -- an alternative of this case, or what is offered after it
    have honward : d.Holds z n (if catchAll then []
        else rest.offered flat label (base + patterns.length + body.size) join) := by
      split
      · exact Piece.holds_nil
      · exact hr hs flat label
    simp only [Cases.offered]
    split
    · refine Piece.holds_append.2 ⟨fun t ht => ?_, honward⟩
      obtain ⟨v, hv, rfl⟩ := List.mem_map.1 ht
      rw [List.mem_range'_1] at hv
      exact hp hs v hv.1 hv.2
    · split
      · exact honward
      · next he =>
        have hpos : 0 < patterns.length := List.length_pos_iff.2 (by simpa using he)
        simpa using hp hs base (Nat.le_refl _) (by omega)

theorem Handlers.sealed_of_drawn {d : Piece} {z : Zone} (n : Nat) (env : Env) (base : Nat)
    (next : List (Label × NodeId)) (side : Side) : (handlers : Handlers) →
      handlers.Drawn d env base next → handlers.Zoned z side →
      (side ≠ .outside → d.Holds z n next) → d.LoopsHold z n side env.loops →
      d.Covers z n base handlers.size
  | .nil, _, _, _, _ => Piece.covers_zero base
  | .cons region handler rest, h, hz, hn, hl =>
    (handler.sealed_of_drawn n (env.within region) base next [] side h.1 hz.2.1 hz.1
      (fun hs _ => hn hs) hl).2.append
      (rest.sealed_of_drawn n env (base + handler.size) next side h.2 hz.2.2 hn hl) rfl

theorem Annex.sealed_of_drawn {d : Piece} {z : Zone} (n : Nat) (env : Env) (base : Nat)
    (next : List (Label × NodeId)) (side : Side) : (annex : Annex) →
      annex.Drawn d env base next → annex.Zoned z side → (side ≠ .outside → d.Holds z n next) →
      d.LoopsHold z n side env.loops →
      (side ≠ .outside → ∀ otherwise, ¬ d.Escapes z n otherwise →
        ¬ d.Escapes z n (annex.target base otherwise)) ∧ d.Covers z n base annex.size
  | .absent, _, _, _, _ => ⟨fun _ _ ho => ho, Piece.covers_zero base⟩
  | .present region body, h, hz, hn, hl => by
    obtain ⟨hb, hcovers⟩ := body.sealed_of_drawn n (env.within region) base next [] side h hz.2 hz.1
      (fun hs _ => hn hs) hl
    exact ⟨fun hs _ _ => hb hs, hcovers⟩

/-- The `finally` clause of the statement. -/
theorem Annex.sealed_of_closes {d : Piece} {z : Zone} (n : Nat) (env : Env) (base : Nat)
    (next : List (Label × NodeId)) : (annex : Annex) → annex.Drawn d env base next →
      annex.Closes z → (∀ otherwise, ¬ d.Escapes z n (annex.target base otherwise)) ∧
        d.Covers z n base annex.size
  | .absent, _, hz => hz.elim
  | .present region body, h, hz =>
    ⟨fun _ => Plan.not_escapes_entryAt h hz.2.1,
      (body.sealed_of_drawn n (env.within region) base next [] .outside h hz.2.2 hz.1
        (fun hs => absurd rfl hs) Piece.loopsHold_outside).2⟩

theorem Route.sealed_of_drawn {d : Piece} {z : Zone} (n : Nat) (env : Env) (base : Nat)
    (site : Site) (means : Jump) (side : Side) : (route : Route) →
      route.Drawn d env base site means → route.Zoned z means side →
      d.LoopsHold z n side env.loops →
      (side ≠ .outside → d.Holds z n (route.out env.loops means base)) ∧
        d.Covers z n base route.size
  | .arrive, _, hz, hl => by
    refine ⟨fun hs => ?_, Piece.covers_zero base⟩
    cases side with
    | outside => exact absurd rfl hs
    | inside k =>
      -- the jump is meant for a loop of the statement
      obtain ⟨hm, hk⟩ := hz
      cases hloops : env.loops with
      | nil => cases means <;> simp [Route.out]
      | cons ends loops =>
        have hends := hl ends (by
          obtain ⟨k, rfl⟩ := Nat.exists_eq_succ_of_ne_zero (Nat.ne_of_gt hk)
          simp [hloops, Side.loops])
        cases means with
        | breaking => simpa [Route.out] using hends.2
        | continuing => simpa [Route.out] using hends.1
        | returning => cases hm
        | raising => cases hm
  | .leaveLoop rest, h, hz, hl => by
    obtain ⟨side', hs', hz⟩ := hz
    obtain ⟨hout, hcovers⟩ := rest.sealed_of_drawn n env.outsideLoop base site means side' h hz
      (hl.outsideLoop hs')
    refine ⟨fun hs => hout ?_, hcovers⟩
    rintro rfl
    exact hs (Side.outsideLoop?_eq_outside hs')
  | .release header region outside rest, h, hz, hl => by
    obtain ⟨h0, h1, hr⟩ := h
    obtain ⟨hout, hcovers⟩ := rest.sealed_of_drawn n env (base + 2) site means side hr hz.2.2 hl
    have h1' := Piece.not_escapes_node h1 hz.2.1 hout
    have h0' := Piece.not_escapes_node h0 hz.1 fun hs => by simpa using h1' hs
    exact ⟨fun hs => by simpa [Route.out] using h0' hs,
      ((Piece.covers_node h0 hz.1 h0').append (Piece.covers_node h1 hz.2.1 h1') rfl).append hcovers
        rfl⟩
  | .replay final outside body rest, h, hz, hl => by
    obtain ⟨hb, hr⟩ := h
    -- from the inside the jump runs the `finally` clause of the statement and goes on outside
    obtain ⟨side', hf, ho, hz, hz', hl', hentry⟩ : ∃ side', z.Admits side' final ∧
        z.Admits side' outside ∧ body.Zoned z side' ∧ rest.Zoned z means side' ∧
        d.LoopsHold z n side' env.loops ∧
        (side ≠ .outside → side' ≠ .outside ∨ ¬ d.Escapes z n (body.entryAt base)) := by
      rcases hz with ⟨hf, ho, hz, hz'⟩ | ⟨-, hf, he, ho, hz, hz'⟩
      · exact ⟨side, hf, ho, hz, hz', hl, .inl⟩
      · exact ⟨.outside, hf, ho, hz, hz', Piece.loopsHold_outside, fun _ =>
          .inr (Plan.not_escapes_entryAt hb he)⟩
    suffices h : (side' ≠ .outside → ¬ d.Escapes z n (body.entryAt base)) ∧
        d.Covers z n base (Route.replay final outside body rest).size by
      refine ⟨fun hs => ?_, h.2⟩
      simpa [Route.out] using (hentry hs).elim h.1 id
    cases hc : body.completes with
    -- what would follow a copy that does not complete is not drawn
    | false =>
      simpa [Route.size, hc] using body.sealed_of_drawn n (env.copy final) base _ [] side' hb hz hf
        (by simp [hc]) hl'
    | true =>
      obtain ⟨h1, hr⟩ := hr hc
      obtain ⟨hout, hcovers⟩ := rest.sealed_of_drawn n env (base + body.size + 1) site means side'
        hr hz' hl'
      have h1' := Piece.not_escapes_node h1 ho hout
      obtain ⟨hb, hcovers'⟩ := body.sealed_of_drawn n (env.copy final) base _ [] side' hb hz hf
        (fun hs _ => by simpa using h1' hs) hl'
      simp only [Route.size, hc, if_true]
      exact ⟨hb, hcovers'.append ((Piece.covers_node h1 ho h1').append hcovers rfl) rfl⟩
  | .swallow final body, h, hz, hl => by
    rcases hz with ⟨hf, hz⟩ | ⟨rfl, hf, he, hz⟩
    · obtain ⟨hb, hcovers⟩ := body.sealed_of_drawn n (env.copy final) base [] [] side h hz hf
        (fun _ _ => Piece.holds_nil) hl
      exact ⟨fun hs => by simpa [Route.out] using hb hs, hcovers⟩
    · -- the jump runs the `finally` clause of the statement and goes on outside
      obtain ⟨-, hcovers⟩ := body.sealed_of_drawn n (env.copy final) base [] [] .outside h hz hf
        (fun _ _ => Piece.holds_nil) Piece.loopsHold_outside
      exact ⟨fun _ => by simpa [Route.out] using Plan.not_escapes_entryAt h he, hcovers⟩

end

/-- Control leaves a `try` statement from nowhere in its body and its handlers without coming to its
`finally` clause. -/
theorem Plan.DrawnWhole.not_escapes {d : Piece} {flat : Bool} {plan : Plan} {z : Zone}
    (h : plan.DrawnWhole d flat) (hz : plan.Zoned z .outside)
    (hroot : z.Admits .outside RegionTree.root) {u : Nat} {node : Node}
    (hu : d.nodes[u]? = some node) (hs : z.start node.region) (n : Nat) : ¬ d.Escapes z n u := by
  obtain ⟨-, hcovers⟩ := plan.sealed_of_drawn n (.ofFunction flat) 1 _ _ .outside h.body hz hroot
    (fun hs => absurd rfl hs) Piece.loopsHold_outside
  have hlt : u < plan.size + 2 := h.length_nodes ▸ (List.getElem?_eq_some_iff.1 hu).1
  -- the entry and the exit lie in no `try` statement
  have hout : ∀ v, Side.outside ≠ .outside → ¬ d.Escapes z n v := fun v hs => absurd rfl hs
  rcases Nat.eq_zero_or_pos u with rfl | hpos
  · exact Piece.covers_node h.entry hroot (hout 0) 0 (Nat.le_refl 0) Nat.one_pos node hu hs
  rcases Nat.lt_or_ge u (plan.size + 1) with hlt' | hge
  · exact hcovers u hpos (by omega) node hu hs
  · obtain rfl : u = plan.size + 1 := by omega
    exact Piece.covers_node h.exit hroot (hout _) _ (Nat.le_refl _) (Nat.lt_succ_self _) node hu hs

namespace Graph

/-- An edge that is not an exception's connects the two nodes. -/
def Proceeds (g : Graph) (u v : NodeId) : Prop :=
  ∃ e ∈ g.edges, e.source = u ∧ e.target = v ∧ e.label.isException = false

instance (g : Graph) (u v : NodeId) : Decidable (g.Proceeds u v) :=
  inferInstanceAs (Decidable (∃ e ∈ g.edges, _))

/-- The node lies in the given part of the statement numbered `stmt`. -/
def liesIn (g : Graph) (u : NodeId) (stmt : StmtId) (part : Part) : Bool :=
  match g.nodes[u]?, g.regions.find? stmt part with
  | some node, some r => g.regions.isWithin node.region r
  | _, _ => false

theorem liesIn_iff {g : Graph} {u : NodeId} {stmt : StmtId} {part : Part} :
    g.liesIn u stmt part ↔ ∃ node r, g.nodes[u]? = some node ∧ g.regions.find? stmt part = some r ∧
      g.regions.isWithin node.region r := by
  rw [liesIn]
  split
  · next node r hn hr => simp [hn, hr]
  · next h =>
    simp only [Bool.false_eq_true, false_iff]
    rintro ⟨node, r, hn, hr, -⟩
    exact h node r hn hr

theorem OfPiece.liesIn_iff {g : Graph} {d : Piece} (hg : g.OfPiece d) {u : NodeId} {stmt : StmtId}
    {part : Part} : g.liesIn u stmt part ↔ ∃ node r, d.nodes[u]? = some node ∧
      g.regions.find? stmt part = some r ∧ g.regions.isWithin node.region r := by
  rw [Graph.liesIn_iff]
  constructor
  · rintro ⟨node, r, hn, hr, hin⟩
    rw [hg.getElem?_nodes] at hn
    obtain ⟨node', hn', rfl⟩ := Option.map_eq_some_iff.1 hn
    exact ⟨node', r, hn', hr, hin⟩
  · rintro ⟨node, r, hn, hr, hin⟩
    obtain ⟨dead, hn⟩ := hg.exists_dead hn
    exact ⟨_, r, hn, hr, hin⟩

theorem OfPiece.mem_out_of_proceeds {g : Graph} {d : Piece} (hg : g.OfPiece d) {u v : NodeId}
    (h : g.Proceeds u v) : ∃ t ∈ (d.row u).out, t.2 = v := by
  obtain ⟨e, he, rfl, rfl, hl⟩ := h
  exact ⟨(e.label, e.target), Piece.mem_out_row.2 ⟨hg.mem_edges he, hl⟩, rfl⟩

/-- A path out of a statement that avoids its `finally` clause is a way out. -/
theorem OfPiece.escapes_of_isChain {g : Graph} {d : Piece} (hg : g.OfPiece d) {z : Zone}
    (hnode : ∀ u v, g.Proceeds u v → ∃ node, d.nodes[v]? = some node) {path : List NodeId}
    {u v : NodeId} (hc : path.IsChain g.Proceeds) (hu : path.head? = some u)
    (hv : path.getLast? = some v) (hn : ∃ node, d.nodes[u]? = some node)
    (hout : ∀ node, d.nodes[v]? = some node → ¬ z.whole node.region)
    (havoid : ∀ x ∈ path, ∀ node, d.nodes[x]? = some node → ¬ z.final node.region) :
    d.Escapes z path.length u := by
  induction path generalizing u with
  -- by induction on the path: it ends outside, or it goes on from its second node
  | nil => cases hu
  | cons x path ih =>
    obtain rfl : x = u := by simpa using hu
    obtain ⟨node, hn⟩ := hn
    refine ⟨node, hn, havoid x (by simp) node hn, ?_⟩
    cases path with
    | nil =>
      obtain rfl : x = v := by simpa using hv
      exact .inl (hout node hn)
    | cons y path =>
      obtain ⟨hl, hc⟩ := List.isChain_cons_cons.1 hc
      obtain ⟨t, ht, rfl⟩ := hg.mem_out_of_proceeds hl
      exact .inr ⟨t, ht, ih hc rfl (by simpa using hv) (hnode x t.2 hl)
        fun w hw => havoid w (List.mem_cons_of_mem _ hw)⟩

/-- Every way out of a `try` statement passes its `finally` clause: a path from a node of the body
or of a handler to a node outside the statement, by edges that are not exceptions', contains a node
of the clause or of a copy of it. -/
theorem final_on_way_out {options : Options} {body : List Stmt} {g : Graph}
    (h : ofBody options body = .ok g) (hid : ((bodyStatements body).map Stmt.id).Nodup)
    {site : Site} {inner : List Stmt} {handlers : List Handler} {orelse final : List Stmt}
    (ht : .attempt site inner handlers orelse final ∈ bodyStatements body) (hf : final ≠ [])
    {path : List NodeId} {u v : NodeId} (hc : path.IsChain g.Proceeds) (hu : path.head? = some u)
    (hv : path.getLast? = some v)
    (hin : g.liesIn u site.id .body ∨ ∃ i, g.liesIn u site.id (.handler i))
    (hout : ¬ g.liesIn v site.id .whole) : ∃ x ∈ path, g.liesIn x site.id .final := by
  obtain ⟨plan, hp, hg, hr⟩ := ofPiece_ofBody h
  have hd := Piece.drawnWhole_ofPlan options.flatDispatch plan
  -- no other statement has the number, so the `finally` clause of this one is meant
  have hclosed : Closed site.id (bodyStatements body) := by
    intro site' inner' handlers' orelse' final' ht' hid'
    have heq := List.inj_on_of_nodup_map hid ht' ht hid'
    exact (Stmt.attempt.inj heq).2.2.2.2 ▸ hf
  obtain ⟨hz, hroot⟩ := Plan.zoned_ofBody hp hid hclosed
  rw [← hr] at hz hroot
  have hstart : ∃ node, (Piece.ofPlan options.flatDispatch plan).1.nodes[u]? = some node ∧
      (g.regions.zone site.id).start node.region := by
    rcases hin with hin | ⟨i, hin⟩
    · obtain ⟨node, r, hn, hr, hin⟩ := hg.liesIn_iff.1 hin
      exact ⟨node, hn, .body, r, rfl, hr, hin⟩
    · obtain ⟨node, r, hn, hr, hin⟩ := hg.liesIn_iff.1 hin
      exact ⟨node, hn, .handler i, r, rfl, hr, hin⟩
  obtain ⟨node, hn, hs⟩ := hstart
  by_contra havoid
  refine hd.not_escapes hz hroot hn hs path.length
    (hg.escapes_of_isChain ?_ hc hu hv ⟨node, hn⟩ ?_ ?_)
  · rintro x y ⟨e, he, rfl, rfl, -⟩
    have hlt := (hd.links_bounds (Plan.fits_ofBody hp) ⟨e, hg.mem_edges he, rfl, rfl⟩).2.2
    exact ⟨_, List.getElem?_eq_getElem hlt⟩
  · rintro node' hn' ⟨w, hw, hin'⟩
    exact hout (hg.liesIn_iff.2 ⟨node', w, hn', hw, hin'⟩)
  · rintro x hx node' hn' ⟨f, hf', hin'⟩
    exact havoid ⟨x, hx, hg.liesIn_iff.2 ⟨node', f, hn', hf', hin'⟩⟩

end Graph

/-- A loop that is left by a `break` inside a `with`, in a handler over a `finally` clause. -/
def breakInHandler : List Stmt :=
  let site (id : Nat) : Site := ⟨id, ⟨id, id + 1⟩⟩
  [.loop (site 1) (.condition ⟨1, 2⟩)
    [.attempt (site 2) [.simple (site 3)]
      [⟨⟨4, 5⟩, none, [.hold (site 5) false ⟨6, 7⟩ [.jump (site 6) .breaking]]⟩] []
      [.simple (site 7)]] []]

theorem final_on_way_out_breakInHandler :
    ∃ g, Graph.ofBody {} breakInHandler = .ok g ∧ [5, 6, 7, 8, 9, 10, 2].IsChain g.Proceeds ∧
      g.liesIn 5 2 (.handler 0) ∧ ¬ g.liesIn 2 2 .whole ∧
      ∀ path : List NodeId, path.IsChain g.Proceeds → path.head? = some 5 →
        path.getLast? = some 2 → ∃ x ∈ path, g.liesIn x 2 .final := by
  have h : ∃ g, Graph.ofBody {} breakInHandler = .ok g ∧
      [5, 6, 7, 8, 9, 10, 2].IsChain g.Proceeds ∧ g.liesIn 5 2 (.handler 0) ∧
      ¬ g.liesIn 2 2 .whole :=
    ⟨_, rfl, by decide, by decide, by decide⟩
  obtain ⟨g, hg, hc, hin, hout⟩ := h
  refine ⟨g, hg, hc, hin, hout, fun path hp hu hv => ?_⟩
  have ht : ∃ inner handlers orelse, .attempt ⟨2, ⟨2, 3⟩⟩ inner handlers orelse
      [.simple ⟨7, ⟨7, 8⟩⟩] ∈ bodyStatements breakInHandler :=
    ⟨_, _, _, .tail _ (.head _)⟩
  obtain ⟨inner, handlers, orelse, ht⟩ := ht
  exact Graph.final_on_way_out hg (by decide) ht (by simp) hp hu hv (.inr ⟨0, hin⟩) hout

end Flowgraph
