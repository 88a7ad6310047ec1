import Flowgraph.Proofs.Extent

/-!
# What a layout says about one node

A row collects what a piece says about one node: the edges out of it that control follows by
itself, the edges out of it that only exceptions follow, and the exits at it.  Rows of
consecutive pieces append.

The lemmas here are the frame of a layout.  About a node that is not its own, a layout says
nothing, except at the few nodes it was told to connect: the node before it, the test it hangs
off, the node a jump starts from.

## Main definitions

* `Row`, `Piece.row` : what a piece says about a node.
* `Row.after`, `Row.caught` : the rows that give a node its next edges, or its handlers.
* `Alternatives.target`, `Annex.target`, `Cases.offered`, `Handlers.entries`, `Route.out`,
  `Route.leaves` : what a part adds at the node it hangs off.

## Main results

* `Plan.row_layout_outside`, and the same for every part of a plan.
-/

namespace Flowgraph

namespace Label

@[simp] theorem isException_always : always.isException = false := rfl

@[simp] theorem isException_yes : yes.isException = false := rfl

@[simp] theorem isException_no : no.isException = false := rfl

@[simp] theorem isException_noMatch : noMatch.isException = false := rfl

@[simp] theorem isException_orelse : orelse.isException = false := rfl

@[simp] theorem isException_resume : resume.isException = false := rfl

@[simp] theorem isException_loopBack : loopBack.isException = false := rfl

@[simp] theorem isException_exception (index : Nat) : (exception index).isException = true := rfl

end Label

/-- What a piece says about one node. -/
structure Row where
  /-- The edges out of the node that control follows by itself. -/
  out : List (Label × NodeId)
  /-- The edges out of the node that only exceptions follow. -/
  thrown : List (Label × NodeId)
  /-- The exits at the node. -/
  leaves : List ExitCause

namespace Row

/-- Nothing is said. -/
def nil : Row := ⟨[], [], []⟩

/-- One row after another. -/
def append (r s : Row) : Row :=
  ⟨r.out ++ s.out, r.thrown ++ s.thrown, r.leaves ++ s.leaves⟩

instance : Append Row := ⟨append⟩

@[simp] theorem nil_append (r : Row) : nil ++ r = r := rfl

@[simp] theorem append_nil (r : Row) : r ++ nil = r := by
  show append r nil = r
  simp [append, nil]

theorem append_assoc (r s t : Row) : r ++ s ++ t = r ++ (s ++ t) := by
  show append (append r s) t = append r (append s t)
  simp [append, List.append_assoc]

theorem mk_append_mk (a b a' b' : List (Label × NodeId)) (c c' : List ExitCause) :
    (⟨a, b, c⟩ : Row) ++ ⟨a', b', c'⟩ = ⟨a ++ a', b ++ b', c ++ c'⟩ := rfl

/-- The row that sends control on from the node `x`. -/
def after (x : Option Nat) (next : List (Label × NodeId)) (u : Nat) : Row :=
  if x = some u then ⟨next, [], []⟩ else nil

/-- The row that hangs handlers off the node `entry`. -/
def caught (entry : Nat) (handlers : List (Label × NodeId)) (u : Nat) : Row :=
  if entry = u then ⟨[], handlers, []⟩ else nil

@[simp] theorem after_none (next : List (Label × NodeId)) (u : Nat) : after none next u = nil := rfl

@[simp] theorem after_self (next : List (Label × NodeId)) (u : Nat) :
    after (some u) next u = ⟨next, [], []⟩ := by
  simp [after]

theorem after_of_ne {w u : Nat} (h : w ≠ u) (next : List (Label × NodeId)) :
    after (some w) next u = nil := by
  simp [after, h]

theorem after_nil (x : Option Nat) (u : Nat) : after x [] u = nil := by
  unfold after nil
  split <;> rfl

theorem after_append (x : Option Nat) (u : Nat) (next next' : List (Label × NodeId)) :
    after x next u ++ after x next' u = after x (next ++ next') u := by
  unfold after
  split <;> rfl

theorem after_comm (x y : Option Nat) (u : Nat) (next : List (Label × NodeId)) :
    after x next u ++ after y next u = after y next u ++ after x next u := by
  unfold after
  split <;> split <;> simp

theorem after_exitAt_outside {plan : Plan} {base u : Nat}
    (h : u < base ∨ base + plan.size ≤ u) (next : List (Label × NodeId)) :
    after (plan.exitAt base) next u = nil := by
  refine if_neg fun he => ?_
  have := plan.exitAt_bounds base he
  omega

@[simp] theorem caught_self (handlers : List (Label × NodeId)) (u : Nat) :
    caught u handlers u = ⟨[], handlers, []⟩ := by
  simp [caught]

theorem caught_of_ne {w u : Nat} (h : w ≠ u) (handlers : List (Label × NodeId)) :
    caught w handlers u = nil := by
  simp [caught, h]

@[simp] theorem caught_nil (w u : Nat) : caught w [] u = nil := by
  unfold caught nil
  split <;> rfl

theorem caught_append (w u : Nat) (hs hs' : List (Label × NodeId)) :
    caught w hs u ++ caught w hs' u = caught w (hs ++ hs') u := by
  unfold caught
  split <;> rfl

theorem caught_append_after (w u : Nat) (x : Option Nat) (hs next : List (Label × NodeId)) :
    caught w hs u ++ after x next u = after x next u ++ caught w hs u := by
  unfold caught after
  split <;> split <;> simp [mk_append_mk]

end Row

namespace Piece

/-- What a piece says about the node `u`. -/
def row (p : Piece) (u : Nat) : Row where
  out := (p.edges.filter fun e => e.source == u && !e.label.isException).map
    fun e => (e.label, e.target)
  thrown := (p.edges.filter fun e => e.source == u && e.label.isException).map
    fun e => (e.label, e.target)
  leaves := (p.exits.filter (·.node == u)).map (·.cause)

@[simp] theorem row_append (p q : Piece) (u : Nat) : (p ++ q).row u = p.row u ++ q.row u := by
  show _ = Row.append _ _
  simp [row, Row.append]

@[simp] theorem row_nil (u : Nat) : nil.row u = .nil := rfl

@[simp] theorem row_ofNodes (nodes : List Node) (u : Nat) : (ofNodes nodes).row u = .nil := rfl

@[simp] theorem row_edge (w v u : Nat) (label : Label) :
    (edge w v label).row u =
      if label.isException then .caught w [(label, v)] u else .after (some w) [(label, v)] u := by
  unfold row Row.after Row.caught Row.nil
  cases hl : label.isException <;> by_cases hw : w = u <;> simp [hw, hl]

theorem row_edge_of_normal {label : Label} (h : label.isException = false) (w v u : Nat) :
    (edge w v label).row u = .after (some w) [(label, v)] u := by
  simp [h]

@[simp] theorem row_edgeFrom (x : Option Nat) (v u : Nat) (label : Label) :
    (edgeFrom x v label).row u =
      if label.isException then x.elim .nil fun w => .caught w [(label, v)] u
      else .after x [(label, v)] u := by
  cases x with
  | none => simp [row, edgeFrom, Row.nil]
  | some w => exact row_edge w v u label

theorem row_ofExit (w u : Nat) (cause : ExitCause) :
    (ofExit ⟨w, cause⟩).row u = if w = u then ⟨[], [], [cause]⟩ else .nil := by
  unfold row Row.nil
  by_cases hw : w = u <;> simp [hw]

end Piece

/-! ## What a part adds at the node it hangs off -/

/-- Where control goes when a test of an `if` fails. -/
def Alternatives.target (base join : Nat) : Alternatives → Nat
  | .done => join
  | .otherwise body => body.entryAt base
  | .test .. => base

/-- Where a clause begins, or `otherwise` when there is none. -/
def Annex.target (base otherwise : Nat) : Annex → Nat
  | .absent => otherwise
  | .present _ body => body.entryAt base

/-- Where a clause completes, or `otherwise` when there is none. -/
def Annex.exitAt (base : Nat) (otherwise : Option Nat) : Annex → Option Nat
  | .absent => otherwise
  | .present _ body => body.exitAt base

/-- How the body of a `try` goes on: to its `else` clause, or to where the statement ends. -/
def Annex.bridge (base : Nat) (finish : Label × NodeId) : Annex → Label × NodeId
  | .absent => finish
  | .present _ body => (.orelse, body.entryAt base)

@[simp] theorem Annex.snd_bridge (annex : Annex) (base : Nat) (finish : Label × NodeId) :
    (annex.bridge base finish).2 = annex.target base finish.2 := by
  cases annex <;> rfl

/-- The edge from the body of a `try` to its `else` clause, if there is one. -/
def Annex.continued (base : Nat) : Annex → List (Label × NodeId)
  | .absent => []
  | .present _ body => [(.orelse, body.entryAt base)]

/-- The edges to the handlers of a `try`, counted from `index`. -/
def Handlers.entries (base index : Nat) : Handlers → List (Label × NodeId)
  | .nil => []
  | .cons _ handler rest =>
    (.exception index, handler.entryAt base) :: rest.entries (base + handler.size) (index + 1)

/-- The row that sends control on from where the handlers of a `try` complete. -/
def Handlers.after (base : Nat) (next : List (Label × NodeId)) (u : Nat) : Handlers → Row
  | .nil => .nil
  | .cons _ handler rest =>
    .after (handler.exitAt base) next u ++ rest.after (base + handler.size) next u

/-- Some case accepts every subject. -/
def Cases.exhaustive : Cases → Bool
  | .nil => false
  | .cons _ catchAll _ rest => catchAll || rest.exhaustive

/-- The edges by which the node before the cases reaches their alternatives, or the end of the
statement when there are none.  In a chain it reaches the first alternative only. -/
def Cases.offered (flat : Bool) (label : Label) (base join : Nat) : Cases → List (Label × NodeId)
  | .nil => [(.noMatch, join)]
  | .cons patterns catchAll body rest =>
    let onward :=
      if catchAll then []
      else rest.offered flat label (base + patterns.length + body.size) join
    if flat then (List.range' base patterns.length).map ((label, ·)) ++ onward
    else if patterns.isEmpty then onward else [(label, base)]

/-- The edges out of the node that a jump starts from. -/
def Route.out (loops : List LoopEnds) (means : Jump) (base : Nat) : Route → List (Label × NodeId)
  | .arrive =>
    match means with
    | .breaking => loops.head?.toList.map fun ends => (.always, ends.exit)
    | .continuing => loops.head?.toList.map fun ends => (.loopBack, ends.head)
    | .returning | .raising => []
  | .leaveLoop rest => rest.out loops.tail means base
  | .release .. => [(.always, base)]
  | .replay _ _ body _ | .swallow _ body => [(.always, body.entryAt base)]

/-- The exits at the node that a jump starts from. -/
def Route.leaves (site : Site) (means : Jump) : Route → List ExitCause
  | .arrive =>
    match means with
    | .returning => [.returns site]
    | .raising => [.raises site]
    | .breaking | .continuing => []
  | .leaveLoop rest => rest.leaves site means
  | .release .. | .replay .. | .swallow .. => []

theorem row_arrival (env : Env) (source u : Nat) (site : Site) (means : Jump) :
    (arrival env source site means).row u =
      if source = u then ⟨Route.out env.loops means 0 .arrive, [], Route.leaves site means .arrive⟩
      else .nil := by
  cases means with
  -- a `return` or `raise` leaves the function at the node
  | returning => simpa [arrival, Route.out, Route.leaves] using Piece.row_ofExit source u _
  | raising => simpa [arrival, Route.out, Route.leaves] using Piece.row_ofExit source u _
  -- a `break` or `continue` has nowhere to go without a loop
  | breaking =>
    cases h : env.loops.head? <;> by_cases hs : source = u <;>
      simp [arrival, Piece.row, Route.out, Route.leaves, Row.nil, h, hs]
  | continuing =>
    cases h : env.loops.head? <;> by_cases hs : source = u <;>
      simp [arrival, Piece.row, Route.out, Route.leaves, Row.nil, h, hs]

/-! ## The alternatives of a case -/

theorem Piece.row_ofEdges_append (edges edges' : List Edge) (u : Nat) :
    (ofEdges (edges ++ edges')).row u = (ofEdges edges).row u ++ (ofEdges edges').row u :=
  row_append (ofEdges edges) (ofEdges edges') u

theorem Piece.row_ofEdges_cons (w v u : Nat) (label : Label) (edges : List Edge) :
    (ofEdges (⟨w, v, label⟩ :: edges)).row u = (edge w v label).row u ++ (ofEdges edges).row u :=
  row_ofEdges_append [⟨w, v, label⟩] edges u

theorem isException_offer (p : Prop) [Decidable p] :
    (if p then Label.always else Label.noMatch).isException = false := by
  split <;> rfl

/-- About a node that is none of the alternatives, their edges say how it reaches them. -/
theorem row_alternativeEdges_outside (flat : Bool) (subject body index : Nat)
    (previous : Option Nat) :
    ∀ (base count : Nat) {u : Nat}, (u < base ∨ base + count ≤ u) →
      (Piece.ofEdges (alternativeEdges flat subject body index previous
          (List.range' base count))).row u =
        .after previous
          (let label := if previous = some subject then .always else .noMatch
            if flat then (List.range' base count).map ((label, ·))
            else if count = 0 then [] else [(label, base)]) u := by
  intro base count
  -- by induction on the alternatives: each hangs off the one before, or off the same node
  induction count generalizing base previous with
  | zero =>
    intro u _
    cases previous <;> cases flat <;>
      simp [alternativeEdges, Piece.row, Row.nil, Row.after]
  | succ count ih =>
    intro u hu
    cases previous with
    -- nothing leads to the alternatives any more
    | none =>
      rw [List.range'_succ, alternativeEdges, Piece.row_ofEdges_cons, Piece.row_edge_of_normal rfl,
        ih none _ (by omega), Row.after_of_ne (by omega)]
      rfl
    | some v =>
      rw [List.range'_succ, alternativeEdges, Piece.row_ofEdges_cons, Piece.row_ofEdges_cons,
        Piece.row_edge_of_normal rfl,
        Piece.row_edge_of_normal (isException_offer _), ih _ _ (by omega),
        Row.after_of_ne (by omega), Row.nil_append]
      cases flat with
      -- in a chain the next alternative hangs off this one
      | false => simp [Row.after_of_ne (show base ≠ u by omega)]
      -- otherwise all of them hang off the same node
      | true =>
        by_cases hv : v = u
        · subst hv
          simp [Row.mk_append_mk]
        · simp [Row.after_of_ne hv]

/-- An alternative leads into the body of its case and, in a chain, to the next one. -/
theorem row_alternativeEdges_inside (flat : Bool) (subject body index : Nat)
    (previous : Option Nat) : ∀ (base count i : Nat), i < count → subject < base →
      (∀ v, previous = some v → v < base) →
      (Piece.ofEdges (alternativeEdges flat subject body index previous
          (List.range' base count))).row (base + i) =
        ⟨(.case index, body) ::
          if (!flat && previous.isSome) = true ∧ i + 1 < count then [(.noMatch, base + i + 1)]
          else [], [], []⟩ := by
  intro base count
  induction count generalizing base previous with
  | zero => intro i hi; omega
  | succ count ih =>
    intro i hi hs hp
    cases previous with
    | none =>
      rw [List.range'_succ, alternativeEdges, Piece.row_ofEdges_cons, Piece.row_edge_of_normal rfl]
      cases i with
      | zero => rw [row_alternativeEdges_outside _ _ _ _ _ _ _ (by omega)]; simp
      | succ i =>
        rw [Row.after_of_ne (by omega), Row.nil_append,
          show base + (i + 1) = base + 1 + i by omega,
          ih none (base + 1) i (by omega) (by omega) (by simp)]
        simp
    | some v =>
      have hv := hp v rfl
      rw [List.range'_succ, alternativeEdges, Piece.row_ofEdges_cons, Piece.row_ofEdges_cons,
        Piece.row_edge_of_normal rfl,
        Piece.row_edge_of_normal (isException_offer _),
        Row.after_of_ne (show v ≠ base + i by omega), Row.nil_append]
      -- the first alternative, and those after it by induction
      cases i with
      | zero =>
        rw [Nat.add_zero, Row.after_self, row_alternativeEdges_outside _ _ _ _ _ _ _ (by omega)]
        cases flat with
        | false =>
          have hne : base ≠ subject := by omega
          rw [if_neg Bool.false_ne_true, Row.after_self]
          cases count <;> simp [Row.mk_append_mk, hne]
        | true => simp [Row.after_of_ne (show v ≠ base by omega)]
      | succ i =>
        rw [Row.after_of_ne (by omega), Row.nil_append,
          show base + (i + 1) = base + 1 + i by omega,
          ih (some (if flat then v else base)) (base + 1) i (by omega) (by omega) (by
            intro w hw
            cases flat <;> simp at hw <;> omega)]
        simp

/-! ## The frame of a layout -/

@[simp] theorem Annex.snd_layoutAfterBody (env : Env) (base : Nat) (completed : Option NodeId)
    (annex : Annex) :
    (annex.layoutAfterBody env base completed).2 = annex.exitAt base completed := by
  cases annex <;> simp [layoutAfterBody, exitAt]

@[simp] theorem Annex.snd_layoutBefore (env : Env) (base join : Nat) (annex : Annex) :
    (annex.layoutBefore env base join).2 = annex.target base join := by
  cases annex <;> simp [layoutBefore, target]

/-- The edges that lead on from where the handlers complete. -/
theorem Handlers.row_handled (env : Env) (body target u : Nat) :
    (handlers : Handlers) → (base index : Nat) →
      (Piece.ofEdges ((handlers.layout env base body index).2.map
        fun w => ⟨w, target, .always⟩)).row u = handlers.after base [(.always, target)] u
  | .nil, _, _ => rfl
  | .cons region handler rest, base, index => by
    have ih := rest.row_handled env body target u (base + handler.size) (index + 1)
    have hf := Piece.row_edgeFrom (handler.exitAt base) target u .always
    -- one edge for each handler that completes
    simp only [layout, Plan.exit_layout, Plan.size_layout, List.map_append,
      Piece.row_ofEdges_append, ih, after]
    rw [Piece.edgeFrom] at hf
    simp [hf]

/-- The row of a `try`, part by part. -/
theorem Plan.row_layout_attempt (env : Env) (base : Nat) (previous : Option Nat)
    (region : RegionId) (body : Plan) (handlers : Handlers) (orelse final : Annex) (u : Nat) :
    ((attempt region body handlers orelse final).layout env base previous).piece.row u =
      (body.layout (env.within region) (base + 1) none).piece.row u ++
      (handlers.layout env (base + 1 + body.size) (body.entryAt (base + 1)) 0).1.row u ++
      (orelse.layoutAfterBody env (base + 1 + body.size + handlers.size)
        (body.exitAt (base + 1))).1.row u ++
      (final.layoutBefore env (base + 1 + body.size + handlers.size + orelse.size) base).1.row u ++
      .after (orelse.exitAt (base + 1 + body.size + handlers.size) (body.exitAt (base + 1)))
        [(.always, final.target (base + 1 + body.size + handlers.size + orelse.size) base)] u ++
      handlers.after (base + 1 + body.size)
        [(.always, final.target (base + 1 + body.size + handlers.size + orelse.size) base)] u ++
      .after previous [(.always, body.entryAt (base + 1))] u := by
  -- what completes leads to the `finally` clause: the `else` clause or the body, and the handlers
  have hf := Piece.row_edgeFrom
    (orelse.exitAt (base + 1 + body.size + handlers.size) (body.exitAt (base + 1)))
    (final.target (base + 1 + body.size + handlers.size + orelse.size) base) u .always
  have hh := handlers.row_handled env (body.entryAt (base + 1))
    (final.target (base + 1 + body.size + handlers.size + orelse.size) base) u
    (base + 1 + body.size) 0
  rw [Piece.edgeFrom] at hf
  simp [layout, Piece.row_ofEdges_append, hf, hh, handlers.size_layout,
    orelse.size_layoutAfterBody, Row.append_assoc]

theorem Handlers.after_outside : (handlers : Handlers) → {base u : Nat} →
    (u < base ∨ base + handlers.size ≤ u) → (next : List (Label × NodeId)) →
      handlers.after base next u = .nil
  | .nil, _, _, _, _ => rfl
  | .cons region handler rest, base, u, h, next => by
    simp only [size] at h
    rw [after, Row.after_exitAt_outside (by omega), rest.after_outside (by omega)]
    rfl

mutual

/-- About a node that is not its own, the layout of a plan says only that the node before it
goes on with it. -/
theorem Plan.row_layout_outside (env : Env) (base : Nat) (previous : Option Nat) :
    (plan : Plan) → {u : Nat} → (u < base ∨ base + plan.size ≤ u) →
      (plan.layout env base previous).piece.row u =
        .after previous [(.always, plan.entryAt base)] u
  | .idle, u, h | .block _, u, h => by
    simp [Plan.layout, Plan.entryAt]
  | .yield _, u, h => by
    -- the exit is at the node of the `yield` itself
    have hu : base ≠ u := by simp only [Plan.size] at h; omega
    simp [Plan.layout, Plan.entryAt, Piece.row_ofExit, hu]
  | .jump before site means route, u, h => by
    simp only [Plan.size] at h
    have hu : base ≠ u := by omega
    simp [Plan.layout, Plan.entryAt, hu,
      route.row_layout_outside env (base + 1) base site means (u := u) (by omega)]
  | .raise site route, u, h => by
    simp only [Plan.size] at h
    have hu : base ≠ u := by omega
    simp [Plan.layout, Plan.entryAt, hu,
      route.row_layout_outside env (base + 1) base site .raising (u := u) (by omega)]
  | .hold before header region body, u, h => by
    simp only [Plan.size] at h
    have hu : base ≠ u := by omega
    simp [Plan.layout, Plan.entryAt,
      Row.after_of_ne hu,
      body.row_layout_outside (env.within region) (base + 1) none (u := u) (by omega)]
  | .seq first rest, u, h => by
    simp only [Plan.size] at h
    simp (disch := omega) [Plan.layout, Plan.entryAt,
      first.row_layout_outside env base previous (u := u) (by omega),
      rest.row_layout_outside env (base + first.size) (first.exitAt base) (u := u) (by omega),
      Row.after_exitAt_outside]
  | .branch test body rest, u, h => by
    simp only [Plan.size] at h
    have hu : base ≠ u := by omega
    simp (disch := omega) [Plan.layout, Plan.entryAt,
      Row.after_of_ne hu, body.row_layout_outside env (base + 2) none (u := u) (by omega),
      rest.row_layout_outside env (base + 2 + body.size) base (base + 1) (u := u) (by omega),
      Row.after_exitAt_outside]
  | .loop header body orelse, u, h => by
    simp only [Plan.size] at h
    have hu : base ≠ u := by omega
    simp (disch := omega) [Plan.layout, Plan.entryAt,
      Row.after_of_ne hu,
      body.row_layout_outside (env.inLoop ⟨base, base + 1⟩) (base + 2) none (u := u) (by omega),
      orelse.row_layoutAfterLoop_outside env (base + 2 + body.size) base (base + 1) (u := u)
        (by omega),
      Row.after_exitAt_outside]
  | .dispatch subject region cases, u, h => by
    simp only [Plan.size] at h
    have hu : base ≠ u := by omega
    rw [Plan.layout, Piece.row_append, Piece.row_append,
      cases.row_layout_outside (env.within region) (base + 2) base (base + 1) 0 (some base) (u := u)
        (by omega)]
    -- the edge past the cases leaves the subject as well
    cases cases.exhaustive <;>
      simp [Plan.entryAt, Row.after_of_ne hu]
  | .attempt region body handlers orelse final, u, h => by
    simp only [Plan.size] at h
    have hb := body.entryAt_bounds (base + 1)
    rw [Plan.row_layout_attempt, Plan.entryAt,
      body.row_layout_outside (env.within region) (base + 1) none (by omega),
      handlers.row_layout_outside env (base + 1 + body.size) (body.entryAt (base + 1)) 0 (by omega),
      orelse.row_layoutAfterBody_outside env (base + 1 + body.size + handlers.size)
        (body.exitAt (base + 1)) (by omega),
      final.row_layoutBefore_outside env (base + 1 + body.size + handlers.size + orelse.size) base
        (by omega),
      handlers.after_outside (by omega), Row.after_exitAt_outside (by omega),
      Row.caught_of_ne (by omega)]
    -- what completes is the `else` clause, or the body when there is none
    cases orelse with
    | absent =>
      rw [Annex.exitAt, Row.after_exitAt_outside (by omega)]
      rfl
    | present region' body' =>
      simp only [Annex.size] at h
      rw [Annex.exitAt, Row.after_exitAt_outside (by omega)]
      rfl

/-- What follows a failed test hangs off that test. -/
theorem Alternatives.row_layout_outside (env : Env) (base test join : Nat) :
    (rest : Alternatives) → {u : Nat} → (u < base ∨ base + rest.size ≤ u) →
      (rest.layout env base test join).row u =
        .after (some test) [(.no, rest.target base join)] u
  | .done, u, h => by simp [Alternatives.layout, Alternatives.target]
  | .otherwise body, u, h => by
    simp only [Alternatives.size] at h
    simp (disch := omega) [Alternatives.layout, Alternatives.target,
      body.row_layout_outside env base none (u := u) (by omega),
      Row.after_exitAt_outside]
  | .test header body rest, u, h => by
    simp only [Alternatives.size] at h
    have hu : base ≠ u := by omega
    simp (disch := omega) [Alternatives.layout, Alternatives.target,
      Row.after_of_ne hu, body.row_layout_outside env (base + 1) none (u := u) (by omega),
      rest.row_layout_outside env (base + 1 + body.size) base join (u := u) (by omega),
      Row.after_exitAt_outside]

theorem Cases.row_layout_outside (env : Env) (base subject join index : Nat)
    (previous : Option Nat) :
    (cases : Cases) → {u : Nat} → (u < base ∨ base + cases.size ≤ u) →
      (cases.layout env base subject join index previous).row u =
        .after previous
          (cases.offered env.flat (if previous = some subject then .always else .noMatch) base join)
          u ++
        .after (if previous.isNone || cases.exhaustive then none else some subject)
          [(.noMatch, join)] u
  | .nil, u, h => by
    cases previous with
    | none => simp [Cases.layout]
    | some last =>
      simp [Cases.layout, Cases.offered, Cases.exhaustive,
        Row.after_comm (some subject) (some last)]
  | .cons patterns catchAll body rest, u, h => by
    simp only [Cases.size] at h
    have hb := body.row_layout_outside env (base + patterns.length) none (u := u) (by omega)
    have he : Row.after (body.exitAt (base + patterns.length)) [(.always, join)] u = .nil :=
      Row.after_exitAt_outside (by omega) _
    have ha := row_alternativeEdges_outside env.flat subject (body.entryAt (base + patterns.length))
      index previous base patterns.length (u := u) (by omega)
    have hr := rest.row_layout_outside env (base + patterns.length + body.size) subject join
      (index + 1) (nextPrevious env.flat catchAll (List.range' base patterns.length) previous)
      (u := u) (by omega)
    rw [Cases.layout]
    simp only [Piece.row_append, Piece.row_ofNodes, Plan.entry_layout, Plan.exit_layout,
      Plan.size_layout, Piece.row_edgeFrom, Label.isException_always, Bool.false_eq_true, if_false,
      hb, he, ha, hr, Row.after_none, Row.nil_append]
    cases catchAll with
    -- nothing is tried after a case that accepts every subject
    | true =>
      cases env.flat <;> cases patterns <;> simp [nextPrevious, Cases.offered, Cases.exhaustive]
    | false =>
      cases previous with
      | none => cases env.flat <;> simp [nextPrevious, Cases.offered, Cases.exhaustive]
      | some v =>
        cases hf : env.flat with
        -- without a chain the rest hangs off the subject as this case does
        | true =>
          simp [nextPrevious, Cases.offered, Cases.exhaustive, ← Row.append_assoc, Row.after_append]
        | false =>
          -- in a chain the rest hangs off the last alternative, unless there is none
          cases patterns with
          | nil => simp [nextPrevious, Cases.offered, Cases.exhaustive, Row.after_nil]
          | cons p ps =>
            have hlast : (List.range' base (ps.length + 1)).getLast? = some (base + ps.length) := by
              simp [List.range'_concat]
            have hne : base + ps.length ≠ u := by simp only [List.length_cons] at h; omega
            simp [nextPrevious, Cases.offered, Cases.exhaustive, hlast, Row.after_of_ne hne]

theorem Handlers.row_layout_outside (env : Env) (base body index : Nat) :
    (handlers : Handlers) → {u : Nat} → (u < base ∨ base + handlers.size ≤ u) →
      (handlers.layout env base body index).1.row u = .caught body (handlers.entries base index) u
  | .nil, u, h => by simp [Handlers.layout, Handlers.entries]
  | .cons region handler rest, u, h => by
    simp only [Handlers.size] at h
    simp [Handlers.layout, Handlers.entries,
      handler.row_layout_outside (env.within region) base none (u := u) (by omega),
      rest.row_layout_outside env (base + handler.size) body (index + 1) (u := u) (by omega),
      Row.caught_append]

theorem Annex.row_layoutAfterLoop_outside (env : Env) (base guard after : Nat) :
    (annex : Annex) → {u : Nat} → (u < base ∨ base + annex.size ≤ u) →
      (annex.layoutAfterLoop env base guard after).row u =
        .after (some guard) [(.no, annex.target base after)] u
  | .absent, u, h => by simp [Annex.layoutAfterLoop, Annex.target]
  | .present region body, u, h => by
    simp only [Annex.size] at h
    simp (disch := omega) [Annex.layoutAfterLoop, Annex.target,
      body.row_layout_outside (env.within region) base none (u := u) (by omega),
      Row.after_exitAt_outside]

theorem Annex.row_layoutAfterBody_outside (env : Env) (base : Nat) (completed : Option Nat) :
    (annex : Annex) → {u : Nat} → (u < base ∨ base + annex.size ≤ u) →
      (annex.layoutAfterBody env base completed).1.row u =
        .after completed (annex.continued base) u
  | .absent, u, h => by simp [Annex.layoutAfterBody, Annex.continued, Row.after_nil]
  | .present region body, u, h => by
    simp only [Annex.size] at h
    simp [Annex.layoutAfterBody, Annex.continued,
      body.row_layout_outside (env.within region) base none (u := u) (by omega)]

theorem Annex.row_layoutBefore_outside (env : Env) (base join : Nat) :
    (annex : Annex) → {u : Nat} → (u < base ∨ base + annex.size ≤ u) →
      (annex.layoutBefore env base join).1.row u = .nil
  | .absent, u, h => by simp [Annex.layoutBefore]
  | .present region body, u, h => by
    simp only [Annex.size] at h
    simp (disch := omega) [Annex.layoutBefore,
      body.row_layout_outside (env.within region) base none (u := u) (by omega),
      Row.after_exitAt_outside]

theorem Route.row_layout_outside (env : Env) (base source : Nat) (site : Site) (means : Jump) :
    (route : Route) → {u : Nat} → (u < base ∨ base + route.size ≤ u) →
      (route.layout env base source site means).row u =
        if source = u then ⟨route.out env.loops means base, [], route.leaves site means⟩
        else .nil
  | .arrive, u, h => row_arrival env source u site means
  | .leaveLoop rest, u, h => by
    simp only [Route.size] at h
    exact rest.row_layout_outside env.outsideLoop base source site means h
  | .release header region outside rest, u, h => by
    simp only [Route.size] at h
    have hu : base ≠ u := by omega
    have hu' : base + 1 ≠ u := by omega
    simp [Route.layout, Route.out, Route.leaves, Row.after, hu, hu',
      rest.row_layout_outside env (base + 2) (base + 1) site means (u := u) (by omega)]
  | .replay final outside body rest, u, h => by
    have hc := body.isSome_exitAt base
    simp only [Route.size] at h
    have hb := body.row_layout_outside (env.copy final) base none (u := u) (by omega)
    -- the copied clause carries the jump on from where it completes
    cases he : body.exitAt base with
    | none => simp [Route.layout, Route.out, Route.leaves, Row.after, hb, he]
    | some last =>
      have hl := body.exitAt_bounds base he
      rw [he, Option.isSome_some] at hc
      simp only [← hc, if_true] at h
      have hu : last ≠ u := by omega
      have hu' : base + body.size ≠ u := by omega
      simp [Route.layout, Route.out, Route.leaves, Row.after, hb, he, hu, hu',
        rest.row_layout_outside env (base + body.size + 1) (base + body.size) site means (u := u)
          (by omega)]
  | .swallow final body, u, h => by
    simp only [Route.size] at h
    simp [Route.layout, Route.out, Route.leaves, Row.after,
      body.row_layout_outside (env.copy final) base none (u := u) (by omega)]

end

end Flowgraph
