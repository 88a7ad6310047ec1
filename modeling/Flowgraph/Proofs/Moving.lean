import Flowgraph.Proofs.Built

/-!
# Moving a layout

A layout depends on what was made before it only through numbers: the number of its first node, the
ends of the loops around it and the node it goes on from.  If these are renamed, the edges and exits
of the layout are renamed in the same way, and its nodes stay what they are.  Whether the nodes
belong to a copy may change as well; that is the only difference between a `finally` clause in its
place and a copy of it.

A layout that follows every renaming cannot mention any other number.  So its edges lead to its own
nodes and to the ends of loops.

## Main definitions

* `Node.original` : a node, apart from whether it belongs to a copy.
* `Piece.Moves` : one piece is another one with its nodes renamed.
* `Carries` : a renaming carries a range of nodes to another place.

## Main results

* `Plan.moves_layout`, `Route.moves_layout` : layouts follow renamings.
* `Plan.mem_edges_layout` : the nodes that a layout connects.
-/

namespace Flowgraph

/-! ## Renaming nodes -/

/-- The edge between the renamed nodes. -/
def Edge.rename (f : Nat → Nat) (e : Edge) : Edge :=
  ⟨f e.source, f e.target, e.label⟩

/-- The exit at the renamed node. -/
def Exit.rename (f : Nat → Nat) (x : Exit) : Exit :=
  ⟨f x.node, x.cause⟩

/-- The ends of a loop, renamed. -/
def LoopEnds.rename (f : Nat → Nat) (ends : LoopEnds) : LoopEnds :=
  ⟨f ends.head, f ends.exit⟩

/-- The node, apart from whether it belongs to a copy. -/
def Node.original (n : Node) : Node :=
  { n with duplicate := false }

/-- The second piece is the first one with its nodes renamed, apart from which of the new nodes
belong to a copy. -/
structure Piece.Moves (f : Nat → Nat) (p q : Piece) : Prop where
  nodes : q.nodes.map Node.original = p.nodes.map Node.original
  edges : q.edges = p.edges.map (Edge.rename f)
  exits : q.exits = p.exits.map (Exit.rename f)

namespace Piece.Moves

variable {f : Nat → Nat} {p p' q q' : Piece}

theorem append (h : p.Moves f q) (h' : p'.Moves f q') : (p ++ p').Moves f (q ++ q') where
  nodes := by simp [h.nodes, h'.nodes]
  edges := by simp [h.edges, h'.edges]
  exits := by simp [h.exits, h'.exits]

theorem nil : Piece.nil.Moves f .nil :=
  ⟨rfl, rfl, rfl⟩

theorem ofNodes {nodes nodes' : List Node}
    (h : nodes'.map Node.original = nodes.map Node.original) :
    (Piece.ofNodes nodes).Moves f (.ofNodes nodes') :=
  ⟨h, rfl, rfl⟩

theorem ofEdges {edges edges' : List Edge} (h : edges' = edges.map (Edge.rename f)) :
    (Piece.ofEdges edges).Moves f (.ofEdges edges') :=
  ⟨rfl, h, rfl⟩

theorem ofExit {u v : NodeId} (h : f u = v) (cause : ExitCause) :
    (Piece.ofExit ⟨u, cause⟩).Moves f (.ofExit ⟨v, cause⟩) :=
  ⟨rfl, rfl, by simp [Exit.rename, h]⟩

theorem edge {u u' v v' : NodeId} (hu : f u = u') (hv : f v = v') (label : Label) :
    (Piece.edge u v label).Moves f (.edge u' v' label) :=
  ⟨rfl, by simp [Edge.rename, hu, hv], rfl⟩

theorem edgeFrom {x x' : Option NodeId} {v v' : NodeId} (hx : x.map f = x') (hv : f v = v')
    (label : Label) : (Piece.edgeFrom x v label).Moves f (.edgeFrom x' v' label) := by
  subst hx
  cases x with
  | none => exact ⟨rfl, rfl, rfl⟩
  | some u => exact edge rfl hv label

end Piece.Moves

/-- The second place is the first one with its loops renamed, apart from whether it is in a copy. -/
structure Env.Moves (f : Nat → Nat) (env env' : Env) : Prop where
  region : env'.region = env.region
  flat : env'.flat = env.flat
  loops : env'.loops = env.loops.map (LoopEnds.rename f)

namespace Env.Moves

variable {f : Nat → Nat} {env env' : Env}

theorem node (h : env.Moves f env') (content : Content) :
    (env'.node content).original = (env.node content).original := by
  simp [Env.node, Node.original, h.region]

theorem within (h : env.Moves f env') (region : RegionId) :
    (env.within region).Moves f (env'.within region) :=
  ⟨rfl, h.flat, h.loops⟩

theorem copy (h : env.Moves f env') (region : RegionId) :
    (env.copy region).Moves f (env'.copy region) :=
  ⟨rfl, h.flat, h.loops⟩

theorem inLoop (h : env.Moves f env') {ends ends' : LoopEnds} (he : ends.rename f = ends') :
    (env.inLoop ends).Moves f (env'.inLoop ends') :=
  ⟨h.region, h.flat, by simp [Env.inLoop, h.loops, he]⟩

theorem outsideLoop (h : env.Moves f env') : env.outsideLoop.Moves f env'.outsideLoop :=
  ⟨h.region, h.flat, by simp [Env.outsideLoop, h.loops]⟩

end Env.Moves

/-! ## Where a renamed layout begins and completes -/

/-- The renaming carries the range of `size` nodes from `base` on to the one from `base'` on. -/
def Carries (f : Nat → Nat) (base base' size : Nat) : Prop :=
  ∀ u, base ≤ u → u < base + size → f u + base = u + base'

theorem Plan.entryAt_add (base base' : Nat) : (plan : Plan) →
    plan.entryAt base + base' = plan.entryAt base' + base
  | .seq first _ => first.entryAt_add base base'
  | .attempt _ body _ _ _ => by
    have := body.entryAt_add (base + 1) (base' + 1)
    simp only [entryAt]
    omega
  | .idle | .block _ | .yield _ | .jump .. | .raise .. | .hold .. | .branch .. | .loop ..
  | .dispatch .. => Nat.add_comm base base'

theorem Plan.exitAt_add (base base' : Nat) : (plan : Plan) → {u : Nat} →
    plan.exitAt base = some u → ∃ v, plan.exitAt base' = some v ∧ v + base = u + base'
  | .idle, u, h | .block _, u, h | .yield _, u, h | .attempt .., u, h => by
    simp only [exitAt, Option.some.injEq] at h
    exact ⟨base', rfl, by omega⟩
  | .branch .., u, h | .loop .., u, h | .dispatch .., u, h => by
    simp only [exitAt, Option.some.injEq] at h
    exact ⟨base' + 1, rfl, by omega⟩
  | .hold _ _ _ body, u, h => by
    obtain ⟨v, hv, hu⟩ := body.exitAt_add (base + 1) (base' + 1) h
    exact ⟨v, hv, by omega⟩
  | .seq first rest, u, h => by
    obtain ⟨v, hv, hu⟩ := rest.exitAt_add (base + first.size) (base' + first.size) h
    exact ⟨v, hv, by omega⟩
  | .jump .., u, h | .raise .., u, h => by simp [exitAt] at h

namespace Carries

variable {f : Nat → Nat} {base base' size : Nat}

/-- What happens to one node of the range. -/
theorem apply (h : Carries f base base' size) {u v : Nat} (hu : base ≤ u)
    (hu' : u < base + size) (hv : v + base = u + base') : f u = v := by
  have := h u hu hu'
  omega

/-- A part of the range. -/
theorem part (h : Carries f base base' size) {part part' size' : Nat} (hp : base ≤ part)
    (hs : part + size' ≤ base + size) (he : part' + base = part + base') :
    Carries f part part' size' := by
  intro u hu hu'
  have := h u (by omega) (by omega)
  omega

theorem entryAt {plan : Plan} (h : Carries f base base' plan.size) :
    f (plan.entryAt base) = plan.entryAt base' := by
  obtain ⟨hle, hlt⟩ := plan.entryAt_bounds base
  exact h.apply hle hlt (plan.entryAt_add base base').symm

theorem exitAt {plan : Plan} (h : Carries f base base' plan.size) :
    (plan.exitAt base).map f = plan.exitAt base' := by
  cases hx : plan.exitAt base with
  | none =>
    have hn := plan.isSome_exitAt base
    rw [hx, ← plan.isSome_exitAt base'] at hn
    exact (Option.isNone_iff_eq_none.1 (by simpa using hn.symm)).symm
  | some u =>
    obtain ⟨hle, hlt⟩ := plan.exitAt_bounds base hx
    obtain ⟨v, hv, he⟩ := plan.exitAt_add base base' hx
    rw [hv, Option.map_some, h.apply hle hlt he]

end Carries

theorem Annex.entryAt_of_carries {f : Nat → Nat} {base base' other other' : Nat} {annex : Annex}
    (h : Carries f base base' annex.size) (ho : f other = other') :
    f (annex.target base other) = annex.target base' other' := by
  cases annex with
  | absent => exact ho
  | present region body => exact h.entryAt

theorem Annex.exitAt_of_carries {f : Nat → Nat} {base base' : Nat} {other other' : Option Nat}
    {annex : Annex} (h : Carries f base base' annex.size) (ho : other.map f = other') :
    (annex.exitAt base other).map f = annex.exitAt base' other' := by
  cases annex with
  | absent => exact ho
  | present region body => exact h.exitAt

/-! ## Parts of a layout that make no nodes -/

theorem Env.Moves.carryOn {f : Nat → Nat} {env env' : Env} (h : env.Moves f env')
    (region : RegionId) (site : Site) (means : Jump) :
    (env'.carryOn region site means).original = (env.carryOn region site means).original :=
  (h.copy region).node _

theorem Env.Moves.arrival {f : Nat → Nat} {env env' : Env} (h : env.Moves f env')
    {source source' : Nat} (hs : f source = source') (site : Site) (means : Jump) :
    (arrival env source site means).Moves f (arrival env' source' site means) := by
  have hh : env'.loops.head? = env.loops.head?.map (LoopEnds.rename f) := by simp [h.loops]
  cases means with
  | returning | raising => exact .ofExit hs _
  | breaking | continuing =>
    -- the innermost loop, if there is one, was renamed with the others
    refine .ofEdges ?_
    rw [hh]
    cases env.loops.head? <;> simp [Edge.rename, LoopEnds.rename, hs]

/-- The alternatives of a case, renamed one by one. -/
theorem map_range'_of_carries {f : Nat → Nat} {base base' count : Nat}
    (h : Carries f base base' count) :
    (List.range' base count).map f = List.range' base' count := by
  induction count generalizing base base' with
  | zero => rfl
  | succ count ih =>
    have hb : f base = base' := h.apply (Nat.le_refl _) (by omega) (by omega)
    have hc : Carries f (base + 1) (base' + 1) count := h.part (by omega) (by omega) (by omega)
    rw [List.range'_succ, List.range'_succ, List.map_cons, hb, ih hc]

/-- Which alternatives hang off the subject of a `match` itself is not changed by a renaming that
takes no other node to the subject. -/
theorem alternativeEdges_map {f : Nat → Nat} (flat : Bool) {subject : Nat} (body index : Nat) :
    (previous : Option Nat) → (alternatives : List Nat) →
      (∀ v, previous = some v → f v = f subject → v = subject) →
      (∀ v ∈ alternatives, f v ≠ f subject) →
      alternativeEdges flat (f subject) (f body) index (previous.map f) (alternatives.map f) =
        (alternativeEdges flat subject body index previous alternatives).map (Edge.rename f)
  | _, [], _, _ => by simp [alternativeEdges]
  | none, u :: rest, hp, ha => by
    have ih := alternativeEdges_map flat body index none rest hp
      fun v hv => ha v (List.mem_cons_of_mem u hv)
    simpa [alternativeEdges, Edge.rename] using ih
  | some v, u :: rest, hp, ha => by
    have hv : f v = f subject ↔ v = subject := ⟨hp v rfl, fun h => by rw [h]⟩
    -- in a chain the next alternative hangs off this one, which is not the subject
    have ih := alternativeEdges_map flat body index (some (if flat then v else u)) rest
      (by
        intro w hw hf
        cases flat
        · simp only [Bool.false_eq_true, if_false, Option.some.injEq] at hw
          exact absurd hf (hw ▸ ha u (by simp))
        · simp only [if_true, Option.some.injEq] at hw
          exact hw ▸ hp v rfl (hw ▸ hf))
      fun w hw => ha w (List.mem_cons_of_mem u hw)
    rw [Option.map_some, apply_ite f] at ih
    simp [alternativeEdges, Edge.rename, hv, ih]

theorem nextPrevious_map {f : Nat → Nat} (flat catchAll : Bool) (alternatives : List Nat)
    (previous : Option Nat) :
    nextPrevious flat catchAll (alternatives.map f) (previous.map f) =
      (nextPrevious flat catchAll alternatives previous).map f := by
  cases catchAll <;> cases flat <;> cases previous <;>
    simp [nextPrevious, List.getLastD_eq_getLast?]

/-- The next alternatives hang off one of these, or off what these hang off. -/
theorem mem_nextPrevious {flat catchAll : Bool} {alternatives : List Nat} {previous : Option Nat}
    {v : Nat} (h : nextPrevious flat catchAll alternatives previous = some v) :
    previous = some v ∨ v ∈ alternatives := by
  cases catchAll <;> cases flat <;> cases previous <;> simp [nextPrevious] at h
  · cases hl : alternatives.getLast? with
    | none => exact .inl (by simpa [hl] using h)
    | some w =>
      rw [hl, Option.getD_some] at h
      exact .inr (h ▸ List.mem_of_getLast? hl)
  · exact .inl (congrArg some h)

/-! ## Layouts follow renamings -/

mutual

/-- The layout of a plan follows a renaming of the nodes it depends on. -/
theorem Plan.moves_layout {f : Nat → Nat} {env env' : Env} (he : env.Moves f env')
    {base base' : Nat} {previous previous' : Option Nat} (hp : previous.map f = previous') :
    (plan : Plan) → Carries f base base' plan.size →
      (plan.layout env base previous).piece.Moves f (plan.layout env' base' previous').piece
  | .idle, h | .block _, h => by
    have hb : f base = base' := h.apply (Nat.le_refl _) (by simp [Plan.size]) (by omega)
    exact .append (.ofNodes (by simp [he.node])) (.edgeFrom hp hb _)
  | .yield _, h => by
    have hb : f base = base' := h.apply (Nat.le_refl _) (by simp [Plan.size]) (by omega)
    exact .append (.append (.ofNodes (by simp [he.node])) (.ofExit hb _)) (.edgeFrom hp hb _)
  | .jump before site means route, h => by
    simp only [Plan.size] at h
    have hb : f base = base' := h.apply (Nat.le_refl _) (by omega) (by omega)
    exact .append (.append (.ofNodes (by simp [he.node])) (.edgeFrom hp hb _))
      (route.moves_layout he hb site means (h.part (by omega) (by omega) (by omega)))
  | .raise site route, h => by
    simp only [Plan.size] at h
    have hb : f base = base' := h.apply (Nat.le_refl _) (by omega) (by omega)
    exact .append (.append (.ofNodes (by simp [he.node])) (.edgeFrom hp hb _))
      (route.moves_layout he hb site .raising (h.part (by omega) (by omega) (by omega)))
  | .hold before header region body, h => by
    simp only [Plan.size] at h
    have hb : f base = base' := h.apply (Nat.le_refl _) (by omega) (by omega)
    have hc : Carries f (base + 1) (base' + 1) body.size :=
      h.part (by omega) (by omega) (by omega)
    have ih := body.moves_layout (he.within region) (Option.map_none f) hc
    simp only [Plan.layout, Plan.entry_layout]
    exact .append (.append (.append (.ofNodes (by simp [he.node])) (.edgeFrom hp hb _)) ih)
      (.edge hb hc.entryAt _)
  | .seq first rest, h => by
    simp only [Plan.size] at h
    have hc : Carries f base base' first.size := h.part (by omega) (by omega) (by omega)
    simp only [Plan.layout, Plan.exit_layout, Plan.size_layout]
    exact .append (first.moves_layout he hp hc)
      (rest.moves_layout he hc.exitAt (h.part (by omega) (by omega) (by omega)))
  | .branch test body rest, h => by
    simp only [Plan.size] at h
    have hb : f base = base' := h.apply (Nat.le_refl _) (by omega) (by omega)
    have hj : f (base + 1) = base' + 1 := h.apply (by omega) (by omega) (by omega)
    have hc : Carries f (base + 2) (base' + 2) body.size :=
      h.part (by omega) (by omega) (by omega)
    have ih := body.moves_layout he (Option.map_none f) hc
    have hr : Carries f (base + 2 + body.size) (base' + 2 + body.size) rest.size :=
      h.part (by omega) (by omega) (by omega)
    have ih' := rest.moves_layout he hb hj hr
    simp only [Plan.layout, Plan.entry_layout, Plan.exit_layout, Plan.size_layout]
    exact .append (.append (.append (.append (.append (.ofNodes (by simp [he.node])) ih)
      (.edge hb hc.entryAt _)) (.edgeFrom hc.exitAt hj _)) ih') (.edgeFrom hp hb _)
  | .loop header body orelse, h => by
    simp only [Plan.size] at h
    have hb : f base = base' := h.apply (Nat.le_refl _) (by omega) (by omega)
    have hj : f (base + 1) = base' + 1 := h.apply (by omega) (by omega) (by omega)
    have hc : Carries f (base + 2) (base' + 2) body.size :=
      h.part (by omega) (by omega) (by omega)
    -- the ends of the loop are nodes of the plan
    have hl : LoopEnds.rename f ⟨base, base + 1⟩ = ⟨base', base' + 1⟩ := by
      simp [LoopEnds.rename, hb, hj]
    have ho : Carries f (base + 2 + body.size) (base' + 2 + body.size) orelse.size :=
      h.part (by omega) (by omega) (by omega)
    have ih := body.moves_layout (he.inLoop hl) (Option.map_none f) hc
    have ih' := orelse.moves_layoutAfterLoop he hb hj ho
    simp only [Plan.layout, Plan.entry_layout, Plan.exit_layout, Plan.size_layout]
    exact .append (.append (.append (.append (.append (.ofNodes (by simp [he.node])) ih)
      (.edge hb hc.entryAt _)) (.edgeFrom hc.exitAt hb _)) ih') (.edgeFrom hp hb _)
  | .dispatch subject region cases, h => by
    simp only [Plan.size] at h
    have hb : f base = base' := h.apply (Nat.le_refl _) (by omega) (by omega)
    have hj : f (base + 1) = base' + 1 := h.apply (by omega) (by omega) (by omega)
    have hc : Carries f (base + 2) (base' + 2) cases.size :=
      h.part (by omega) (by omega) (by omega)
    have hs : (some base).map f = some base' := congrArg some hb
    have ih := cases.moves_layout (he.within region) 0 hb hj hs (by simp) hc (by omega)
    simp only [Plan.layout]
    exact .append (.append (.ofNodes (by simp [he.node])) ih) (.edgeFrom hp hb _)
  | .attempt region body handlers orelse final, h => by
    simp only [Plan.size] at h
    have hb : f base = base' := h.apply (Nat.le_refl _) (by omega) (by omega)
    have hc : Carries f (base + 1) (base' + 1) body.size :=
      h.part (by omega) (by omega) (by omega)
    have hco : Carries f (base + 1 + body.size + handlers.size)
        (base' + 1 + body.size + handlers.size) orelse.size :=
      h.part (by omega) (by omega) (by omega)
    have hcf : Carries f (base + 1 + body.size + handlers.size + orelse.size)
        (base' + 1 + body.size + handlers.size + orelse.size) final.size :=
      h.part (by omega) (by omega) (by omega)
    have ih := body.moves_layout (he.within region) (Option.map_none f) hc
    have hch : Carries f (base + 1 + body.size) (base' + 1 + body.size) handlers.size :=
      h.part (by omega) (by omega) (by omega)
    obtain ⟨ihh, hhandled⟩ := handlers.moves_layout he 0 hc.entryAt hch
    have iho := orelse.moves_layoutAfterBody he hc.exitAt hco
    have ihf := final.moves_layoutBefore he hb hcf
    have htarget := Annex.entryAt_of_carries hcf hb
    have hcompleted := Annex.exitAt_of_carries hco hc.exitAt
    simp only [Plan.layout, Plan.entry_layout, Plan.exit_layout, Plan.size_layout,
      Handlers.size_layout, Annex.size_layoutAfterBody, Annex.snd_layoutAfterBody,
      Annex.snd_layoutBefore]
    refine .append (.append (.append (.append (.append (.append (.ofNodes (by simp [he.node])) ih)
      ihh) iho) ihf) (.ofEdges ?_)) (.edgeFrom hp hc.entryAt _)
    -- what completes is renamed, and so is where it goes on
    rw [hhandled, ← hcompleted, ← htarget, List.map_map, Option.toList_map, ← List.map_append,
      List.map_map]
    rfl

theorem Alternatives.moves_layout {f : Nat → Nat} {env env' : Env} (he : env.Moves f env')
    {base base' test test' join join' : Nat} (ht : f test = test') (hj : f join = join') :
    (rest : Alternatives) → Carries f base base' rest.size →
      (rest.layout env base test join).Moves f (rest.layout env' base' test' join')
  | .done, _ => .edge ht hj _
  | .otherwise body, h => by
    have ih := body.moves_layout he (Option.map_none f) h
    simp only [Alternatives.layout, Plan.entry_layout, Plan.exit_layout]
    exact .append (.append ih (.edge ht h.entryAt _)) (.edgeFrom h.exitAt hj _)
  | .test header body rest, h => by
    simp only [Alternatives.size] at h
    have hb : f base = base' := h.apply (Nat.le_refl _) (by omega) (by omega)
    -- the parts are numbered from where they begin, so the renaming carries each of them over
    have hc : Carries f (base + 1) (base' + 1) body.size :=
      h.part (by omega) (by omega) (by omega)
    have ih := body.moves_layout he (Option.map_none f) hc
    have hr : Carries f (base + 1 + body.size) (base' + 1 + body.size) rest.size :=
      h.part (by omega) (by omega) (by omega)
    have ih' := rest.moves_layout he hb hj hr
    simp only [Alternatives.layout, Plan.entry_layout, Plan.exit_layout, Plan.size_layout]
    exact .append (.append (.append (.append (.append (.ofNodes (by simp [he.node]))
      (.edge ht hb _)) ih) (.edge hb hc.entryAt _)) (.edgeFrom hc.exitAt hj _)) ih'

/-- The cases of a `match`.  The subject comes before them, so that no alternative is taken for
it. -/
theorem Cases.moves_layout {f : Nat → Nat} {env env' : Env} (he : env.Moves f env')
    (index : Nat) {base base' subject subject' join join' : Nat}
    {previous previous' : Option Nat} (hs : f subject = subject') (hj : f join = join')
    (hp : previous.map f = previous')
    (hps : ∀ v, previous = some v → f v = f subject → v = subject) :
    (cases : Cases) → Carries f base base' cases.size → subject' < base' →
      (cases.layout env base subject join index previous).Moves f
        (cases.layout env' base' subject' join' index previous')
  | .nil, _, _ => by
    subst hp
    cases previous with
    | none => exact .nil
    | some last => exact .append (.edge hs hj _) (.edge rfl hj _)
  | .cons patterns catchAll body rest, h, hlt => by
    simp only [Cases.size] at h
    have hca : Carries f base base' patterns.length := h.part (by omega) (by omega) (by omega)
    have hc : Carries f (base + patterns.length) (base' + patterns.length) body.size :=
      h.part (by omega) (by omega) (by omega)
    have hne : ∀ v ∈ List.range' base patterns.length, f v ≠ f subject := by
      intro v hv
      rw [List.mem_range'_1] at hv
      have := hca v hv.1 hv.2
      omega
    have ih := body.moves_layout he (Option.map_none f) hc
    have hr : Carries f (base + patterns.length + body.size)
        (base' + patterns.length + body.size) rest.size :=
      h.part (by omega) (by omega) (by omega)
    have hn : (nextPrevious env.flat catchAll (List.range' base patterns.length) previous).map f =
        nextPrevious env'.flat catchAll (List.range' base' patterns.length) previous' := by
      rw [← nextPrevious_map, map_range'_of_carries hca, hp, he.flat]
    have ih' := rest.moves_layout he (index + 1) hs hj hn ?_ hr (by omega)
    · simp only [Cases.layout, Plan.entry_layout, Plan.exit_layout, Plan.size_layout]
      refine .append (.append (.append (.append (.ofNodes (by simp [he.node])) ih)
        (.edgeFrom hc.exitAt hj _)) (.ofEdges ?_)) ih'
      rw [← alternativeEdges_map _ _ _ _ _ hps hne, hc.entryAt, map_range'_of_carries hca, hp, hs,
        he.flat]
    · -- the next alternatives hang off one of these, or off what these hang off
      intro v hv hf
      rcases mem_nextPrevious hv with hv | hv
      · exact hps v hv hf
      · exact absurd hf (hne v hv)

theorem Handlers.moves_layout {f : Nat → Nat} {env env' : Env} (he : env.Moves f env')
    (index : Nat) {base base' body body' : Nat} (hb : f body = body') :
    (handlers : Handlers) → Carries f base base' handlers.size →
      (handlers.layout env base body index).1.Moves f (handlers.layout env' base' body' index).1 ∧
      (handlers.layout env' base' body' index).2 = (handlers.layout env base body index).2.map f
  | .nil, _ => ⟨.nil, rfl⟩
  | .cons region handler rest, h => by
    simp only [Handlers.size] at h
    have hc : Carries f base base' handler.size := h.part (by omega) (by omega) (by omega)
    have ih := handler.moves_layout (he.within region) (Option.map_none f) hc
    have hr : Carries f (base + handler.size) (base' + handler.size) rest.size :=
      h.part (by omega) (by omega) (by omega)
    obtain ⟨ih', hhandled⟩ := rest.moves_layout he (index + 1) hb hr
    simp only [Handlers.layout, Plan.entry_layout, Plan.exit_layout, Plan.size_layout]
    refine ⟨.append (.append ih (.edge hb hc.entryAt _)) ih', ?_⟩
    rw [hhandled, ← hc.exitAt, List.map_append, Option.toList_map]

theorem Annex.moves_layoutAfterLoop {f : Nat → Nat} {env env' : Env} (he : env.Moves f env')
    {base base' guard guard' after after' : Nat} (hg : f guard = guard') (ha : f after = after') :
    (annex : Annex) → Carries f base base' annex.size →
      (annex.layoutAfterLoop env base guard after).Moves f
        (annex.layoutAfterLoop env' base' guard' after')
  | .absent, _ => .edge hg ha _
  | .present region body, h => by
    have ih := body.moves_layout (he.within region) (Option.map_none f) h
    simp only [Annex.layoutAfterLoop, Plan.entry_layout, Plan.exit_layout]
    exact .append (.append ih (.edge hg (Carries.entryAt h) _))
      (.edgeFrom (Carries.exitAt h) ha _)

theorem Annex.moves_layoutAfterBody {f : Nat → Nat} {env env' : Env} (he : env.Moves f env')
    {base base' : Nat} {completed completed' : Option Nat}
    (hc : completed.map f = completed') : (annex : Annex) → Carries f base base' annex.size →
      (annex.layoutAfterBody env base completed).1.Moves f
        (annex.layoutAfterBody env' base' completed').1
  | .absent, _ => .nil
  | .present region body, h => by
    have ih := body.moves_layout (he.within region) (Option.map_none f) h
    simp only [Annex.layoutAfterBody, Plan.entry_layout]
    exact .append ih (.edgeFrom hc (Carries.entryAt h) _)

theorem Annex.moves_layoutBefore {f : Nat → Nat} {env env' : Env} (he : env.Moves f env')
    {base base' join join' : Nat} (hj : f join = join') :
    (annex : Annex) → Carries f base base' annex.size →
      (annex.layoutBefore env base join).1.Moves f (annex.layoutBefore env' base' join').1
  | .absent, _ => .nil
  | .present region body, h => by
    have ih := body.moves_layout (he.within region) (Option.map_none f) h
    simp only [Annex.layoutBefore, Plan.exit_layout]
    exact .append ih (.edgeFrom (Carries.exitAt h) hj _)

/-- The layout of a jump on its way out follows a renaming of the nodes it depends on. -/
theorem Route.moves_layout {f : Nat → Nat} {env env' : Env} (he : env.Moves f env')
    {base base' source source' : Nat} (hs : f source = source') (site : Site) (means : Jump) :
    (route : Route) → Carries f base base' route.size →
      (route.layout env base source site means).Moves f
        (route.layout env' base' source' site means)
  | .arrive, _ => he.arrival hs site means
  | .leaveLoop rest, h => rest.moves_layout he.outsideLoop hs site means h
  | .release header region outside rest, h => by
    simp only [Route.size] at h
    have hb : f base = base' := h.apply (Nat.le_refl _) (by omega) (by omega)
    have hb' : f (base + 1) = base' + 1 := h.apply (by omega) (by omega) (by omega)
    have hr : Carries f (base + 2) (base' + 2) rest.size :=
      h.part (by omega) (by omega) (by omega)
    have ih := rest.moves_layout he hb' site means hr
    exact .append (.append (.append (.ofNodes (by simp [(he.within region).node, he.carryOn]))
      (.edge hs hb _)) (.edge hb hb' _)) ih
  | .replay final outside body rest, h => by
    simp only [Route.size] at h
    have hc : Carries f base base' body.size := h.part (by omega) (by omega) (by omega)
    have ih := body.moves_layout (he.copy final) (Option.map_none f) hc
    have hx := hc.exitAt
    have hi := body.isSome_exitAt base
    simp only [Route.layout, Plan.entry_layout, Plan.exit_layout, Plan.size_layout]
    refine .append (.append ih (.edge hs hc.entryAt _)) ?_
    -- the jump goes on in both places or in neither
    cases hb : body.exitAt base with
    | none =>
      rw [hb] at hx
      rw [← hx]
      exact .nil
    | some last =>
      rw [hb, Option.map_some] at hx
      rw [hb, Option.isSome_some] at hi
      rw [← hi, if_pos rfl] at h
      rw [← hx]
      have hn : f (base + body.size) = base' + body.size :=
        h.apply (by omega) (by omega) (by omega)
      have hr : Carries f (base + body.size + 1) (base' + body.size + 1) rest.size :=
        h.part (by omega) (by omega) (by omega)
      have ih' := rest.moves_layout he hn site means hr
      exact .append (.append (.ofNodes (by simp [he.carryOn])) (.edge rfl hn _)) ih'
  | .swallow final body, h => by
    have ih := body.moves_layout (he.copy final) (Option.map_none f) h
    simp only [Route.layout, Plan.entry_layout]
    exact .append ih (.edge hs (Carries.entryAt h) _)

end

/-! ## The nodes that a layout mentions -/

theorem Piece.row_ne_nil_of_mem_edges {p : Piece} {e : Edge} (h : e ∈ p.edges) :
    p.row e.source ≠ .nil := by
  intro hnil
  have hl : Edge.Links p.edges e.source e.target := ⟨e, h, rfl, rfl⟩
  rw [links_iff, hnil] at hl
  simp [Row.nil] at hl

theorem Piece.row_ne_nil_of_mem_exits {p : Piece} {x : Exit} (h : x ∈ p.exits) :
    p.row x.node ≠ .nil := by
  intro hnil
  have hc : x.cause ∈ (p.row x.node).leaves := mem_leaves_row.2 h
  simp [hnil, Row.nil] at hc

/-- The node is an end of one of the loops. -/
def LoopEnds.Among (loops : List LoopEnds) (u : Nat) : Prop :=
  ∃ ends ∈ loops, u = ends.head ∨ u = ends.exit

section Keeping

variable {K : Nat → Prop}

open Classical in
/-- The renaming that keeps the nodes of `K` and no other node. -/
noncomputable def keeping (K : Nat → Prop) (u : Nat) : Nat :=
  if K u then u else u + 1

theorem keeping_eq_self_iff {u : Nat} : keeping K u = u ↔ K u := by
  unfold keeping
  split <;> simp_all

theorem carries_keeping {base size : Nat} (h : ∀ u, base ≤ u → u < base + size → K u) :
    Carries (keeping K) base base size := by
  intro u hu hu'
  rw [keeping_eq_self_iff.2 (h u hu hu')]

theorem Env.moves_keeping {env : Env} (h : ∀ u, LoopEnds.Among env.loops u → K u) :
    env.Moves (keeping K) env where
  region := rfl
  flat := rfl
  loops := by
    have hl : ∀ ends ∈ env.loops, ends.rename (keeping K) = ends := by
      intro ends he
      rw [LoopEnds.rename, keeping_eq_self_iff.2 (h _ ⟨ends, he, .inl rfl⟩),
        keeping_eq_self_iff.2 (h _ ⟨ends, he, .inr rfl⟩)]
    rw [List.map_congr_left hl, List.map_id']

/-- A piece that does not change when all nodes but those of `K` are renamed connects nodes of
`K`. -/
theorem Piece.Moves.target_of_keeping {p : Piece} (h : p.Moves (keeping K) p) {e : Edge}
    (he : e ∈ p.edges) : K e.target := by
  have hmap : p.edges.map id = p.edges.map (Edge.rename (keeping K)) := by
    rw [List.map_id]
    exact h.edges
  have := congrArg Edge.target (List.map_inj_left.1 hmap e he)
  exact keeping_eq_self_iff.1 this.symm

end Keeping

/-- The edges of a layout leave its own nodes, and lead to its own nodes and to the ends of loops
around it. -/
theorem Plan.mem_edges_layout {plan : Plan} {env : Env} {base : Nat} {e : Edge}
    (he : e ∈ (plan.layout env base none).piece.edges) :
    (base ≤ e.source ∧ base + plan.size > e.source) ∧
      (base ≤ e.target ∧ base + plan.size > e.target ∨ LoopEnds.Among env.loops e.target) := by
  constructor
  · by_contra hout
    refine Piece.row_ne_nil_of_mem_edges he ?_
    rw [plan.row_layout_outside env base none (by omega)]
    rfl
  · have hm := plan.moves_layout (Env.moves_keeping fun u hu => .inr hu) (Option.map_none _)
      (carries_keeping (K := fun u => base ≤ u ∧ u < base + plan.size ∨
        LoopEnds.Among env.loops u) fun u hu hu' => .inl ⟨hu, hu'⟩)
    exact hm.target_of_keeping he

theorem Plan.mem_exits_layout {plan : Plan} {env : Env} {base : Nat} {x : Exit}
    (hx : x ∈ (plan.layout env base none).piece.exits) :
    base ≤ x.node ∧ base + plan.size > x.node := by
  by_contra hout
  refine Piece.row_ne_nil_of_mem_exits hx ?_
  rw [plan.row_layout_outside env base none (by omega)]
  rfl

end Flowgraph
