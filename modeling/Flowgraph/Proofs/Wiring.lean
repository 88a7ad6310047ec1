import Flowgraph.Proofs.Built
import Flowgraph.Proofs.Scope

/-!
# Where edges lead

Three facts about every node of a drawn plan.  Its edges stay within any set of nodes that holds
the plan's own nodes and the places it was told to go on to; no edge that only exceptions follow
is parallel to one that control follows by itself; and control either goes on from the node or
leaves the function there for good.

## Main definitions

* `Row.Wired` : the three facts about a row.
* `Placed` : what the surroundings of a plan have to keep to.

## Main results

* `Plan.wired_of_drawn` : the nodes of a drawn plan are wired.
* `Plan.DrawnWhole.wired` : so are all nodes of the layout of a function.
-/

namespace Flowgraph

/-- The edges of a row lead to nodes of `scope`, control and exceptions follow different ones, and
control leaves the function for good exactly where it does not go on. -/
structure Row.Wired (scope : Nat → Prop) (row : Row) : Prop where
  out_scope : ∀ t ∈ row.out, scope t.2
  thrown_scope : ∀ t ∈ row.thrown, scope t.2
  apart : ∀ t ∈ row.out, ∀ s ∈ row.thrown, t.2 ≠ s.2
  ends : row.out = [] ↔ ∃ c ∈ row.leaves, c.isFinal = true

theorem Row.Wired.of_shows {scope : Nat → Prop} {d : Piece} {u : Nat} {node : Node} {row : Row}
    (hs : d.Shows u node row) (h : row.Wired scope) : (d.row u).Wired scope :=
  hs.row ▸ h

/-- A row without handlers from which control goes on. -/
theorem Row.Wired.onward {scope : Nat → Prop} {out : List (Label × NodeId)} (hne : out ≠ [])
    (h : ∀ t ∈ out, scope t.2) : (⟨out, [], []⟩ : Row).Wired scope :=
  ⟨h, by simp, by simp, by simp [hne]⟩

/-- The surroundings of a plan with `size` nodes from `base` on: the ends of the loops around it
come before it, the handlers that watch over it come after it, and where it goes on is no
handler. -/
structure Placed (scope : Nat → Prop) (loops : List LoopEnds) (base size : Nat)
    (next handlers : List (Label × NodeId)) : Prop where
  own : ∀ u, base ≤ u → u < base + size → scope u
  loops_lt : ∀ ends ∈ loops, base > ends.head ∧ base > ends.exit
  loops_scope : ∀ ends ∈ loops, scope ends.head ∧ scope ends.exit
  next_scope : ∀ t ∈ next, scope t.2
  le_handlers : ∀ t ∈ handlers, base + size ≤ t.2
  handlers_scope : ∀ t ∈ handlers, scope t.2
  next_ne : ∀ t ∈ next, ∀ s ∈ handlers, t.2 ≠ s.2

namespace Placed

variable {scope : Nat → Prop} {loops : List LoopEnds} {base size base' size' : Nat}
  {next next' handlers : List (Label × NodeId)}

/-- A part of a plan over which nothing watches. -/
theorem part (h : Placed scope loops base size next handlers) (hb : base ≤ base')
    (hs : base' + size' ≤ base + size) (hn : ∀ t ∈ next', scope t.2) :
    Placed scope loops base' size' next' [] where
  own u hu hu' := h.own u (by omega) (by omega)
  loops_lt ends he := by
    have := h.loops_lt ends he
    omega
  loops_scope := h.loops_scope
  next_scope := hn
  le_handlers := by simp
  handlers_scope := by simp
  next_ne := by simp

/-- A part of a plan that goes on to another node of the plan. -/
theorem partTo (h : Placed scope loops base size next handlers) {t : Label × NodeId}
    (hb : base ≤ base') (hs : base' + size' ≤ base + size) (ht : base ≤ t.2)
    (ht' : base + size > t.2) : Placed scope loops base' size' [t] [] :=
  h.part hb hs (by simpa using h.own t.2 ht ht')

/-- The first part of a plan, which goes on to another node of the plan and over which more
handlers watch. -/
theorem guarded (h : Placed scope loops base size next handlers) {t : Label × NodeId}
    {handlers' : List (Label × NodeId)} (hb : base ≤ base') (hs : base' + size' ≤ base + size)
    (ht : base ≤ t.2) (ht' : base + size > t.2)
    (hh : ∀ s ∈ handlers', base' + size' ≤ s.2 ∧ base + size > s.2)
    (hne : ∀ s ∈ handlers', t.2 ≠ s.2) :
    Placed scope loops base' size' [t] (handlers' ++ handlers) where
  own u hu hu' := h.own u (by omega) (by omega)
  loops_lt ends he := by
    have := h.loops_lt ends he
    omega
  loops_scope := h.loops_scope
  next_scope := by simpa using h.own t.2 ht ht'
  le_handlers s hs' := by
    rcases List.mem_append.1 hs' with hs' | hs'
    · exact (hh s hs').1
    · have := h.le_handlers s hs'
      omega
  handlers_scope s hs' := by
    rcases List.mem_append.1 hs' with hs' | hs'
    · have := hh s hs'
      exact h.own s.2 (by omega) this.2
    · exact h.handlers_scope s hs'
  next_ne x hx s hs' := by
    obtain rfl := List.mem_singleton.1 hx
    rcases List.mem_append.1 hs' with hs' | hs'
    · exact hne s hs'
    · -- the handlers around the whole come after it, so `t` is none of them
      have := h.le_handlers s hs'
      exact Nat.ne_of_lt (by omega)

/-- The body of a loop. -/
theorem inLoop (h : Placed scope loops base size next handlers) (hs : 2 + size' ≤ size) :
    Placed scope (⟨base, base + 1⟩ :: loops) (base + 2) size' [(.loopBack, base)] [] where
  own u hu hu' := h.own u (by omega) (by omega)
  loops_lt ends he := by
    rcases List.mem_cons.1 he with rfl | he
    · exact ⟨by simp, by simp⟩
    · have := h.loops_lt ends he
      omega
  loops_scope ends he := by
    rcases List.mem_cons.1 he with rfl | he
    · exact ⟨h.own base (Nat.le_refl _) (by omega), h.own (base + 1) (by omega) (by omega)⟩
    · exact h.loops_scope ends he
  next_scope := by simpa using h.own base (Nat.le_refl _) (by omega)
  le_handlers := by simp
  handlers_scope := by simp
  next_ne := by simp

/-- The place outside the innermost loop. -/
theorem outsideLoop (h : Placed scope loops base size next handlers) :
    Placed scope loops.tail base size next handlers where
  own := h.own
  loops_lt ends he := h.loops_lt ends (List.mem_of_mem_tail he)
  loops_scope ends he := h.loops_scope ends (List.mem_of_mem_tail he)
  next_scope := h.next_scope
  le_handlers := h.le_handlers
  handlers_scope := h.handlers_scope
  next_ne := h.next_ne

/-- A node where a plan both begins and completes. -/
theorem wired_last (h : Placed scope loops base size next handlers) (hne : next ≠ [])
    {leaves : List ExitCause} (hl : ∀ c ∈ leaves, c.isFinal = false) :
    (⟨next, handlers, leaves⟩ : Row).Wired scope where
  out_scope := h.next_scope
  thrown_scope := h.handlers_scope
  apart := h.next_ne
  ends := by
    refine ⟨fun hn => absurd hn hne, fun ⟨c, hc, hf⟩ => ?_⟩
    rw [hl c hc] at hf
    cases hf

/-- Handlers come after the plan, so no node inside it is one of them. -/
theorem inside_ne (h : Placed scope loops base size next handlers) {out : List (Label × NodeId)}
    (ho : ∀ t ∈ out, base ≤ t.2 ∧ base + size > t.2) :
    ∀ t ∈ out, ∀ s ∈ handlers, t.2 ≠ s.2 := by
  intro t ht s hs
  have := ho t ht
  have := h.le_handlers s hs
  exact Nat.ne_of_lt (by omega)

/-- A node where a plan begins and from which control goes on inside the plan. -/
theorem wired_first (h : Placed scope loops base size next handlers)
    {out : List (Label × NodeId)} (hne : out ≠ [])
    (ho : ∀ t ∈ out, base ≤ t.2 ∧ base + size > t.2) :
    (⟨out, handlers, []⟩ : Row).Wired scope where
  out_scope t ht := h.own t.2 (ho t ht).1 (ho t ht).2
  thrown_scope := h.handlers_scope
  apart := h.inside_ne ho
  ends := by simp [hne]

end Placed

theorem Piece.scope_of_links {d : Piece} {scope : Nat → Prop} {u v : Nat}
    (hl : Edge.Links d.edges u v) (h : (d.row u).Wired scope) : scope v := by
  rcases links_iff.1 hl with ⟨t, ht, rfl⟩ | ⟨t, ht, rfl⟩
  · exact h.out_scope t ht
  · exact h.thrown_scope t ht

/-! ## Where parts of a plan are reached -/

theorem Alternatives.target_bounds (rest : Alternatives) (base join : Nat) :
    rest.target base join = join ∨
      base ≤ rest.target base join ∧ rest.target base join < base + rest.size := by
  cases rest with
  | done => exact .inl rfl
  | otherwise body => exact .inr (body.entryAt_bounds base)
  | test header body rest => simp only [target, size]; omega

theorem Annex.target_bounds (annex : Annex) (base otherwise : Nat) :
    annex.target base otherwise = otherwise ∨
      base ≤ annex.target base otherwise ∧ annex.target base otherwise < base + annex.size := by
  cases annex with
  | absent => exact .inl rfl
  | present region body => exact .inr (body.entryAt_bounds base)

theorem Plan.forall_entryAt {P : Nat → Prop} (plan : Plan) {base : Nat}
    (h : Throughout P base plan.size) : P (plan.entryAt base) :=
  h _ (plan.entryAt_bounds base).1 (plan.entryAt_bounds base).2

theorem Alternatives.forall_target {P : Nat → Prop} {rest : Alternatives} {base join : Nat}
    (hj : P join) (h : Throughout P base rest.size) : P (rest.target base join) := by
  rcases rest.target_bounds base join with hv | hv
  · rw [hv]
    exact hj
  · exact h _ hv.1 hv.2

theorem Annex.forall_target {P : Nat → Prop} {annex : Annex} {base otherwise : Nat}
    (ho : P otherwise) (h : Throughout P base annex.size) : P (annex.target base otherwise) := by
  rcases annex.target_bounds base otherwise with hv | hv
  · rw [hv]
    exact ho
  · exact h _ hv.1 hv.2

/-- The body of a `try` goes on to the `else` clause, the `finally` clause or the end of the
statement. -/
theorem Annex.bridge_bounds (orelse final : Annex) (base join : Nat) (label : Label) :
    join = (orelse.bridge base (label, final.target (base + orelse.size) join)).2 ∨
      base ≤ (orelse.bridge base (label, final.target (base + orelse.size) join)).2 ∧
      base + orelse.size + final.size >
        (orelse.bridge base (label, final.target (base + orelse.size) join)).2 := by
  have hf := final.target_bounds (base + orelse.size) join
  have ho := orelse.target_bounds base (final.target (base + orelse.size) join)
  simp only [snd_bridge]
  omega

theorem Handlers.entries_bounds : (handlers : Handlers) → (base index : Nat) →
    ∀ t ∈ handlers.entries base index, base ≤ t.2 ∧ base + handlers.size > t.2
  | .nil, _, _ => by simp [entries]
  | .cons region handler rest, base, index => by
    intro t ht
    have he := handler.entryAt_bounds base
    simp only [size]
    rcases List.mem_cons.1 ht with rfl | ht
    · show base ≤ handler.entryAt base ∧ handler.entryAt base < _
      omega
    · have := rest.entries_bounds (base + handler.size) (index + 1) t ht
      omega

theorem Cases.offered_bounds (flat : Bool) (label : Label) : (cases : Cases) →
    (base join : Nat) → ∀ t ∈ cases.offered flat label base join,
      join = t.2 ∨ base ≤ t.2 ∧ base + cases.size > t.2
  | .nil, _, _ => by simp [offered]
  | .cons patterns catchAll body rest, base, join => by
    have onward : ∀ t ∈ (if catchAll then []
        else rest.offered flat label (base + patterns.length + body.size) join),
        join = t.2 ∨ base ≤ t.2 ∧ base + (cons patterns catchAll body rest).size > t.2 := by
      intro t ht
      split at ht
      · simp at ht
      · have := rest.offered_bounds flat label (base + patterns.length + body.size) join t ht
        simp only [size]
        omega
    intro t ht
    simp only [offered] at ht
    split at ht
    · -- flat: all alternatives of the case, and what the next case offers
      rcases List.mem_append.1 ht with ht | ht
      · obtain ⟨v, hv, rfl⟩ := List.mem_map.1 ht
        rw [List.mem_range'_1] at hv
        simp only [size]
        omega
      · exact onward t ht
    · -- a chain: the first alternative, if there is one
      split at ht
      · exact onward t ht
      · next hp =>
        obtain rfl := List.mem_singleton.1 ht
        have := body.size_pos
        simp only [size]
        omega

/-- The subject of a `match` leads to an alternative or to the end of the statement. -/
theorem Cases.subject_bounds (flat : Bool) (cases : Cases) (base : Nat) :
    ∀ t ∈ cases.offered flat .always (base + 2) (base + 1) ++
        (if cases.exhaustive then [] else [(Label.noMatch, base + 1)]),
      base ≤ t.2 ∧ base + (2 + cases.size) > t.2 := by
  intro t ht
  rcases List.mem_append.1 ht with ht | ht
  · have := cases.offered_bounds flat .always (base + 2) (base + 1) t ht
    omega
  · split at ht
    · simp at ht
    · obtain rfl := List.mem_singleton.1 ht
      exact ⟨Nat.le_succ base, by show base + 1 < _; omega⟩

theorem Cases.offered_ne_nil (flat : Bool) (label : Label) {depth : Nat} : (cases : Cases) →
    cases.Fits depth → (base join : Nat) → cases.offered flat label base join ≠ []
  | .nil, _, _, _ => by simp [offered]
  | .cons patterns catchAll body rest, h, base, join => by
    have ih := rest.offered_ne_nil flat label h.2.2 (base + patterns.length + body.size) join
    have hp : catchAll = true → patterns ≠ [] := h.1
    cases catchAll <;> cases flat <;> cases patterns <;> simp_all [offered]

theorem Route.out_bounds (means : Jump) : (route : Route) → (loops : List LoopEnds) →
    (base : Nat) → ∀ t ∈ route.out loops means base,
      (∃ ends ∈ loops, t.2 = ends.head ∨ t.2 = ends.exit) ∨ base ≤ t.2 ∧ base + route.size > t.2
  | .arrive, [], base => by cases means <;> simp [out]
  | .arrive, ends :: loops, base => by cases means <;> simp [out]
  | .leaveLoop rest, loops, base => by
    intro t ht
    -- loops further out are loops around the jump
    rcases rest.out_bounds means loops.tail base t ht with ⟨ends, he, h⟩ | h
    · exact .inl ⟨ends, List.mem_of_mem_tail he, h⟩
    · exact .inr h
  | .release .., loops, base => by
    intro t ht
    obtain rfl := List.mem_singleton.1 ht
    simp only [size]
    omega
  | .replay _ _ body _, loops, base => by
    intro t ht
    obtain rfl := List.mem_singleton.1 ht
    have := body.entryAt_bounds base
    simp only [size]
    omega
  | .swallow _ body, loops, base => by
    intro t ht
    obtain rfl := List.mem_singleton.1 ht
    exact .inr (body.entryAt_bounds base)

/-- A jump leaves the function for good exactly if it has nowhere to go. -/
theorem Route.out_eq_nil_iff (site : Site) (means : Jump) : (route : Route) →
    (loops : List LoopEnds) → (base : Nat) → route.Fits means loops.length →
      (route.out loops means base = [] ↔ ∃ c ∈ route.leaves site means, c.isFinal = true)
  | .arrive, [], base, h => by
    -- outside all loops only `return` and `raise` fit, and they end the function
    cases means <;> simp [Fits, Jump.staysInLoop] at h <;> simp [out, leaves, ExitCause.isFinal]
  | .arrive, ends :: loops, base, h => by
    cases means <;> simp [out, leaves, ExitCause.isFinal]
  | .leaveLoop rest, loops, base, h =>
    rest.out_eq_nil_iff site means loops.tail base (by simpa using h.2)
  | .release .., loops, base, _ | .replay .., loops, base, _ | .swallow .., loops, base, _ => by
    simp [out, leaves]

/-- Loops begin before a jump and handlers come after its route. -/
theorem Placed.out_ne {scope : Nat → Prop} {loops : List LoopEnds} {base : Nat}
    {next handlers : List (Label × NodeId)} {route : Route} {means : Jump}
    (h : Placed scope loops base (1 + route.size) next handlers) :
    ∀ t ∈ route.out loops means (base + 1), ∀ s ∈ handlers, t.2 ≠ s.2 := by
  intro t ht s hs
  have hle := h.le_handlers s hs
  rcases route.out_bounds means loops (base + 1) t ht with ⟨ends, he, hv | hv⟩ | hv
  · have := h.loops_lt ends he
    exact hv ▸ Nat.ne_of_lt (by omega)
  · have := h.loops_lt ends he
    exact hv ▸ Nat.ne_of_lt (by omega)
  · exact Nat.ne_of_lt (by omega)

/-- The node that a jump starts from. -/
theorem Placed.wired_jump {scope : Nat → Prop} {loops : List LoopEnds} {base : Nat}
    {next handlers : List (Label × NodeId)} {route : Route} {means : Jump}
    (h : Placed scope loops base (1 + route.size) next handlers)
    (hf : route.Fits means loops.length) (site : Site) :
    (⟨route.out loops means (base + 1), handlers, route.leaves site means⟩ : Row).Wired scope where
  out_scope t ht := by
    rcases route.out_bounds means loops (base + 1) t ht with ⟨ends, he, hv | hv⟩ | hv
    · exact hv ▸ (h.loops_scope ends he).1
    · exact hv ▸ (h.loops_scope ends he).2
    · exact h.own t.2 (by omega) (by omega)
  thrown_scope := h.handlers_scope
  apart := h.out_ne
  ends := route.out_eq_nil_iff site means loops (base + 1) hf

/-- The place of the body of a `try`. -/
theorem Placed.attempt_body {scope : Nat → Prop} {loops : List LoopEnds} {base size : Nat}
    {next handlers : List (Label × NodeId)} {handlers' : Handlers} {orelse final : Annex}
    (hp : Placed scope loops base (1 + size + handlers'.size + orelse.size + final.size) next
      handlers) :
    Placed scope loops (base + 1) size
      [orelse.bridge (base + 1 + size + handlers'.size)
        (.always, final.target (base + 1 + size + handlers'.size + orelse.size) base)]
      (handlers'.entries (base + 1 + size) 0 ++ handlers) := by
  have hbt := orelse.bridge_bounds final (base + 1 + size + handlers'.size) base .always
  have hhe := handlers'.entries_bounds (base + 1 + size) 0
  refine hp.guarded (by omega) (by omega) (by omega) (by omega) (fun s hs => ?_) fun s hs => ?_
  · have := hhe s hs
    omega
  · -- the body goes on to the end of the statement, before the handlers, or to a clause after them
    have := hhe s hs
    exact Nat.ne_iff_lt_or_gt.2 (by omega)

/-- All of the `size` nodes from `base` on are wired. -/
abbrev Piece.WiredFrom (d : Piece) (scope : Nat → Prop) (base size : Nat) : Prop :=
  Throughout (fun u => (d.row u).Wired scope) base size

theorem Piece.ShowsAlternatives.wired {d : Piece} {env : Env} {chained : Bool}
    {taken : Label × NodeId} {onward : List (Label × NodeId)} {scope : Nat → Prop}
    (ht : scope taken.2) (ho : ∀ t ∈ onward, scope t.2) : (patterns : List Span) → (base : Nat) →
      d.ShowsAlternatives env chained taken onward base patterns →
      Throughout scope base patterns.length → d.WiredFrom scope base patterns.length
  | [], _, _, _ => .zero
  | [pattern], base, h, _ => .one (.of_shows h (.onward (by simp) (by simpa [ht] using ho)))
  | pattern :: pattern' :: rest, base, h, hs => by
    simp only [List.length_cons] at hs
    have h0 : (d.row base).Wired scope := by
      refine .of_shows h.1 (.onward (by simp) ?_)
      -- in a chain the next alternative is one of the nodes in question
      have := hs (base + 1) (by omega) (by omega)
      cases chained <;> simp [ht, this]
    refine .cons h0 (wired ht ho (pattern' :: rest) (base + 1) h.2 fun u hu hu' => ?_)
    simp only [List.length_cons] at hu'
    exact hs u (by omega) (by omega)

/-! ## Drawn plans are wired -/

mutual

/-- The nodes of a drawn plan are wired. -/
theorem Plan.wired_of_drawn {d : Piece} {scope : Nat → Prop} (env : Env) (base : Nat)
    (next handlers : List (Label × NodeId)) : (plan : Plan) →
      plan.Drawn d env base next handlers → plan.Fits env.loops.length →
      Placed scope env.loops base plan.size next handlers →
      (plan.completes = true → next ≠ []) → d.WiredFrom scope base plan.size
  | .idle, h, _, hp, hn | .block _, h, _, hp, hn =>
    .one (.of_shows h (hp.wired_last (hn rfl) (by simp)))
  | .yield _, h, _, hp, hn =>
    .one (.of_shows h (hp.wired_last (hn rfl) (by simp [ExitCause.isFinal])))
  | .jump before site means route, h, hf, hp, _ => by
    simp only [Plan.size] at hp
    have h0 : (d.row base).Wired scope := .of_shows h.1 (hp.wired_jump hf site)
    have hr := route.wired_of_drawn env (base + 1) site means h.2 hf
      (hp.part (by omega) (by omega) (by simp))
    exact (Throughout.one h0).append hr rfl
  | .raise site route, h, hf, hp, _ => by
    simp only [Plan.size] at hp
    have h0 : (d.row base).Wired scope := .of_shows h.1 (hp.wired_jump hf site)
    have hr := route.wired_of_drawn env (base + 1) site .raising h.2 hf
      (hp.part (by omega) (by omega) (by simp))
    exact (Throughout.one h0).append hr rfl
  | .hold before header region body, h, hf, hp, hn => by
    simp only [Plan.size] at hp
    have hbe := body.entryAt_bounds (base + 1)
    have h0 : (d.row base).Wired scope :=
      .of_shows h.1 (hp.wired_first (by simp) (by simp; omega))
    have hb := body.wired_of_drawn (env.within region) (base + 1) next [] h.2 hf
      (hp.part (by omega) (by omega) hp.next_scope) hn
    exact (Throughout.one h0).append hb rfl
  | .seq first rest, h, hf, hp, hn => by
    simp only [Plan.size] at hp
    have hre := rest.entryAt_bounds (base + first.size)
    -- what watches over a sequence watches over its first part
    have hp' : Placed scope env.loops base first.size
        [(.always, rest.entryAt (base + first.size))] ([] ++ handlers) :=
      hp.guarded (by omega) (by omega) (by omega) (by omega) (by simp) (by simp)
    have hfirst := first.wired_of_drawn env base _ handlers h.1 hf.1 hp' (by simp)
    have hr := rest.wired_of_drawn env (base + first.size) next [] h.2 hf.2
      (hp.part (by omega) (by omega) hp.next_scope) hn
    exact hfirst.append hr rfl
  | .branch test body rest, h, hf, hp, hn => by
    obtain ⟨h0, h1, hb, hr⟩ := h
    simp only [Plan.size] at hp
    have hbe := body.entryAt_bounds (base + 2)
    have hre := rest.target_bounds (base + 2 + body.size) (base + 1)
    -- the test, the join, the body, and the alternatives
    have h0 : (d.row base).Wired scope := .of_shows h0 (hp.wired_first (by simp) (by simp; omega))
    have h1 : (d.row (base + 1)).Wired scope := .of_shows h1 (.onward (hn rfl) hp.next_scope)
    have hb := body.wired_of_drawn env (base + 2) _ [] hb hf.1
      (hp.partTo (by omega) (by omega) (by omega) (by omega)) (by simp)
    have hr := rest.wired_of_drawn env (base + 2 + body.size) (base + 1) hr hf.2
      (hp.partTo (by omega) (by omega) (by omega) (by omega))
    exact ((Throughout.two h0 h1).append hb rfl).append hr (by omega)
  | .loop header body orelse, h, hf, hp, hn => by
    obtain ⟨h0, h1, hb, ho⟩ := h
    simp only [Plan.size] at hp
    have hbe := body.entryAt_bounds (base + 2)
    have hoe := orelse.target_bounds (base + 2 + body.size) (base + 1)
    -- the head, the exit, the body, and the `else` clause
    have h0 : (d.row base).Wired scope := .of_shows h0 (hp.wired_first (by simp) (by simp; omega))
    have h1 : (d.row (base + 1)).Wired scope := .of_shows h1 (.onward (hn rfl) hp.next_scope)
    have hb := body.wired_of_drawn (env.inLoop ⟨base, base + 1⟩) (base + 2) _ [] hb hf.1
      (hp.inLoop (by omega)) (by simp)
    have ho := orelse.wired_of_drawn env (base + 2 + body.size) _ ho hf.2
      (hp.partTo (by omega) (by omega) (by omega) (by omega)) (by simp)
    exact ((Throughout.two h0 h1).append hb rfl).append ho (by omega)
  | .dispatch subject region cases, h, hf, hp, hn => by
    obtain ⟨h0, h1, hc⟩ := h
    simp only [Plan.size] at hp
    -- the subject is handed to the cases, and past them unless one of them accepts it for sure
    have h0 : (d.row base).Wired scope := by
      refine .of_shows h0 (hp.wired_first ?_ (cases.subject_bounds env.flat base))
      simp [cases.offered_ne_nil env.flat .always hf]
    have h1 : (d.row (base + 1)).Wired scope := .of_shows h1 (.onward (hn rfl) hp.next_scope)
    have hc := cases.wired_of_drawn (env.within region) (base + 2) (base + 1) 0 true hc hf
      (hp.partTo (by omega) (by omega) (by omega) (by omega))
    exact (Throughout.two h0 h1).append hc rfl
  | .attempt region body handlers' orelse final, h, hf, hp, hn => by
    obtain ⟨h0, hb, hh, ho, hfin⟩ := h
    simp only [Plan.size] at hp
    have hft := final.target_bounds (base + 1 + body.size + handlers'.size + orelse.size) base
    -- the end of the statement, the body, the handlers, the `else` and the `finally` clause
    have h0 : (d.row base).Wired scope := .of_shows h0 (.onward (hn rfl) hp.next_scope)
    have hb := body.wired_of_drawn (env.within region) (base + 1) _ _ hb hf.1 hp.attempt_body
      (by simp)
    have hh := handlers'.wired_of_drawn env (base + 1 + body.size) _ hh hf.2.1
      (hp.partTo (by omega) (by omega) (by omega) (by omega)) (by simp)
    have ho := orelse.wired_of_drawn env (base + 1 + body.size + handlers'.size) _ ho hf.2.2.1
      (hp.partTo (by omega) (by omega) (by omega) (by omega)) (by simp)
    have hfin := final.wired_of_drawn env (base + 1 + body.size + handlers'.size + orelse.size) _
      hfin hf.2.2.2 (hp.partTo (by omega) (by omega) (by omega) (by omega)) (by simp)
    exact ((((Throughout.one h0).append hb rfl).append hh (by omega)).append ho
      (by omega)).append hfin (by omega)

theorem Alternatives.wired_of_drawn {d : Piece} {scope : Nat → Prop} (env : Env)
    (base join : Nat) : (rest : Alternatives) → rest.Drawn d env base join →
      rest.Fits env.loops.length → Placed scope env.loops base rest.size [(.always, join)] [] →
      d.WiredFrom scope base rest.size
  | .done, _, _, _ => .zero
  | .otherwise body, h, hf, hp => body.wired_of_drawn env base _ [] h hf hp (by simp)
  | .test header body rest, h, hf, hp => by
    obtain ⟨h0, hb, hr⟩ := h
    simp only [Alternatives.size] at hp
    have hbe := body.entryAt_bounds (base + 1)
    have h0 : (d.row base).Wired scope := by
      refine .of_shows h0 (.onward (by simp) fun t ht => ?_)
      rcases List.mem_cons.1 ht with rfl | ht
      · exact hp.own _ (by omega) (by omega)
      · obtain rfl := List.mem_singleton.1 ht
        exact Alternatives.forall_target (hp.next_scope _ (List.mem_singleton_self _))
          fun v hv hv' => hp.own v (by omega) (by omega)
    have hb := body.wired_of_drawn env (base + 1) _ [] hb hf.1
      (hp.part (by omega) (by omega) hp.next_scope) (by simp)
    have hr := rest.wired_of_drawn env (base + 1 + body.size) join hr hf.2
      (hp.part (by omega) (by omega) hp.next_scope)
    exact ((Throughout.one h0).append hb rfl).append hr (by omega)

theorem Cases.wired_of_drawn {d : Piece} {scope : Nat → Prop} (env : Env) (base join index : Nat)
    (reached : Bool) : (cases : Cases) → cases.Drawn d env base join index reached →
      cases.Fits env.loops.length → Placed scope env.loops base cases.size [(.always, join)] [] →
      d.WiredFrom scope base cases.size
  | .nil, _, _, _ => .zero
  | .cons patterns catchAll body rest, h, hf, hp => by
    obtain ⟨ha, hb, hr⟩ := h
    simp only [Cases.size] at hp
    have hbe := body.entryAt_bounds (base + patterns.length)
    have ha : d.WiredFrom scope base patterns.length := by
      refine ha.wired (hp.own _ (by omega) (by omega)) (fun t ht => ?_) patterns base
        fun v hv hv' => hp.own v hv (by omega)
      -- only the last alternative of a chain leads to the next case
      split at ht
      · rcases rest.offered_bounds false .noMatch (base + patterns.length + body.size) join t ht
          with hv | hv
        · simpa [hv] using hp.next_scope
        · exact hp.own t.2 (by omega) (by omega)
      · simp at ht
    have hb := body.wired_of_drawn env (base + patterns.length) _ [] hb hf.2.1
      (hp.part (by omega) (by omega) hp.next_scope) (by simp)
    have hr := rest.wired_of_drawn env (base + patterns.length + body.size) join (index + 1) _ hr
      hf.2.2 (hp.part (by omega) (by omega) hp.next_scope)
    exact (ha.append hb rfl).append hr (by omega)

theorem Handlers.wired_of_drawn {d : Piece} {scope : Nat → Prop} (env : Env) (base : Nat)
    (next : List (Label × NodeId)) : (handlers : Handlers) → handlers.Drawn d env base next →
      handlers.Fits env.loops.length → Placed scope env.loops base handlers.size next [] →
      next ≠ [] → d.WiredFrom scope base handlers.size
  | .nil, _, _, _, _ => .zero
  | .cons region handler rest, h, hf, hp, hn => by
    simp only [Handlers.size] at hp
    have hh := handler.wired_of_drawn (env.within region) base next [] h.1 hf.1
      (hp.part (by omega) (by omega) hp.next_scope) fun _ => hn
    have hr := rest.wired_of_drawn env (base + handler.size) next h.2 hf.2
      (hp.part (by omega) (by omega) hp.next_scope) hn
    exact hh.append hr rfl

theorem Annex.wired_of_drawn {d : Piece} {scope : Nat → Prop} (env : Env) (base : Nat)
    (next : List (Label × NodeId)) : (annex : Annex) → annex.Drawn d env base next →
      annex.Fits env.loops.length → Placed scope env.loops base annex.size next [] →
      next ≠ [] → d.WiredFrom scope base annex.size
  | .absent, _, _, _, _ => .zero
  | .present region body, h, hf, hp, hn =>
    body.wired_of_drawn (env.within region) base next [] h hf hp fun _ => hn

theorem Route.wired_of_drawn {d : Piece} {scope : Nat → Prop} (env : Env) (base : Nat)
    (site : Site) (means : Jump) : (route : Route) → route.Drawn d env base site means →
      route.Fits means env.loops.length → Placed scope env.loops base route.size [] [] →
      d.WiredFrom scope base route.size
  | .arrive, _, _, _ => .zero
  | .leaveLoop rest, h, hf, hp =>
    rest.wired_of_drawn env.outsideLoop base site means h (by simpa [Env.outsideLoop] using hf.2)
      hp.outsideLoop
  | .release header region outside rest, h, hf, hp => by
    obtain ⟨h0, h1, hr⟩ := h
    simp only [Route.size] at hp
    have h0 : (d.row base).Wired scope :=
      .of_shows h0 (.onward (by simp) (by simpa using hp.own (base + 1) (by omega) (by omega)))
    have hp' : Placed scope env.loops (base + 1) (1 + rest.size) [] [] :=
      hp.part (by omega) (by omega) (by simp)
    have h1 : (d.row (base + 1)).Wired scope := .of_shows h1 (hp'.wired_jump hf site)
    have hr := rest.wired_of_drawn env (base + 2) site means hr hf
      (hp.part (by omega) (by omega) (by simp))
    exact (Throughout.two h0 h1).append hr rfl
  | .replay final outside body rest, h, hf, hp => by
    -- a copy that is replayed completes, so the jump stands behind it
    obtain ⟨hc, hfb, hfr⟩ := hf
    obtain ⟨hb, hr⟩ := h
    obtain ⟨h1, hr⟩ := hr hc
    simp only [Route.size, hc, if_true] at hp ⊢
    have hb := body.wired_of_drawn (env.copy final) base _ [] hb hfb
      (hp.partTo (by omega) (by omega) (by omega) (by omega)) (by simp)
    have hp' : Placed scope env.loops (base + body.size) (1 + rest.size) [] [] :=
      hp.part (by omega) (by omega) (by simp)
    have h1 : (d.row (base + body.size)).Wired scope := .of_shows h1 (hp'.wired_jump hfr site)
    have hr := rest.wired_of_drawn env (base + body.size + 1) site means hr hfr
      (hp.part (by omega) (by omega) (by simp))
    exact hb.append ((Throughout.one h1).append hr rfl) rfl
  | .swallow final body, h, hf, hp =>
    body.wired_of_drawn (env.copy final) base [] [] h hf.2 hp (by simp [hf.1])

end

/-- The place of the body in the layout of a function. -/
theorem Plan.DrawnWhole.placed {d : Piece} {flat : Bool} {plan : Plan}
    (h : plan.DrawnWhole d flat) :
    Placed (fun v => 0 < v ∧ v < d.nodes.length) (Env.ofFunction flat).loops 1 plan.size
      [(.always, plan.size + 1)] [] where
  own u hu hu' := by
    rw [h.length_nodes]
    omega
  loops_lt := by simp [Env.ofFunction]
  loops_scope := by simp [Env.ofFunction]
  next_scope := by simp [h.length_nodes]
  le_handlers := by simp
  handlers_scope := by simp
  next_ne := by simp

/-- All nodes of the layout of a function are wired, and no edge leads to the entry. -/
theorem Plan.DrawnWhole.wired {d : Piece} {flat : Bool} {plan : Plan}
    (h : plan.DrawnWhole d flat) (hf : plan.Fits 0) {u : Nat} (hu : u < d.nodes.length) :
    (d.row u).Wired fun v => 0 < v ∧ v < d.nodes.length := by
  have he := plan.entryAt_bounds 1
  have hl := h.length_nodes
  rcases Nat.eq_zero_or_pos u with rfl | hpos
  · exact .of_shows h.entry (.onward (by simp) (by simp; omega))
  rcases Nat.lt_or_ge u (1 + plan.size) with hlt | hge
  · exact plan.wired_of_drawn _ 1 _ _ h.body hf h.placed (by simp) u hpos hlt
  · obtain rfl : u = plan.size + 1 := by omega
    exact .of_shows h.exit ⟨by simp, by simp, by simp, by simp [ExitCause.isFinal]⟩

/-- Edges lead from nodes to nodes, and none of them to the entry. -/
theorem Plan.DrawnWhole.links_bounds {d : Piece} {flat : Bool} {plan : Plan}
    (h : plan.DrawnWhole d flat) (hf : plan.Fits 0) {u v : Nat} (hl : Edge.Links d.edges u v) :
    u < d.nodes.length ∧ 0 < v ∧ v < d.nodes.length := by
  have hu : u < d.nodes.length := h.lt_length_of_row_ne fun hnil => by
    rw [Piece.links_iff, hnil] at hl
    simp [Row.nil] at hl
  exact ⟨hu, Piece.scope_of_links hl (h.wired hf hu)⟩

theorem Plan.DrawnWhole.lt_length_of_reaches {d : Piece} {flat : Bool} {plan : Plan}
    (h : plan.DrawnWhole d flat) (hf : plan.Fits 0) {u : Nat} (hr : Edge.Reaches d.edges 0 u) :
    u < d.nodes.length := by
  cases hr with
  | refl =>
    rw [h.length_nodes]
    omega
  | tail _ hl => exact (h.links_bounds hf hl).2.2

end Flowgraph
