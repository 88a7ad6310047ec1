import Flowgraph.Proofs.Wiring

/-!
# Where parts of a plan are entered

Every part of a plan is entered at its beginning only.  To see that for one part of a statement, one
has to know where the edges out of the other parts lead: to their own nodes, to where they go on,
and out of the statement.  None of that is inside the part, except for its beginning.

The cases of a `match` and the handlers of a `try` are taken together: they are entered at their
alternatives, and at the beginnings of the handlers.

## Main definitions

* `Piece.Leads` : where the edges out of a range of nodes lead.
* `Piece.EnteredBy`, `Piece.EnteredAt` : the nodes, or the node, at which a range of nodes is
  entered.

## Main results

* `Piece.EnteredBy.exists_links` : a walk into a range of nodes comes in where the range is entered.
* `Plan.enteredAt_branch`, `Plan.enteredAt_loop`, `Plan.enteredAt_attempt` and the like : if a
  statement is entered at its beginning only, so are its parts.
-/

namespace Flowgraph

namespace Piece

/-- The edges out of the `size` nodes from `base` on lead to these nodes, to `join`, or out of the
nodes from `lo` up to `hi`. -/
def Leads (d : Piece) (base size join lo hi : Nat) : Prop :=
  ∀ u v : Nat, Edge.Links d.edges u v → base ≤ u → u < base + size →
    (base ≤ v ∧ v < base + size) ∨ v = join ∨ v < lo ∨ hi ≤ v

/-- From elsewhere, edges lead to the `size` nodes from `base` on only at `entries`. -/
def EnteredBy (d : Piece) (base size : Nat) (entries : Nat → Prop) : Prop :=
  ∀ u v : Nat, Edge.Links d.edges u v → base ≤ v → v < base + size →
    (base ≤ u ∧ u < base + size) ∨ entries v

/-- From elsewhere, edges lead to the `size` nodes from `base` on only at `entry`. -/
abbrev EnteredAt (d : Piece) (base size entry : Nat) : Prop :=
  d.EnteredBy base size (· = entry)

variable {d : Piece}

/-- A walk into the nodes from elsewhere comes in by an edge to one of the entries. -/
theorem EnteredBy.exists_links {base size u v : Nat} {entries : Nat → Prop}
    (h : d.EnteredBy base size entries) (hr : Edge.Reaches d.edges u v)
    (hu : ¬ (base ≤ u ∧ u < base + size)) (hv : base ≤ v ∧ v < base + size) :
    ∃ p w : Nat, Edge.Reaches d.edges u p ∧ ¬ (base ≤ p ∧ p < base + size) ∧
      Edge.Links d.edges p w ∧ entries w := by
  -- by induction on the walk: the last step comes from inside, or it is the one
  induction hr with
  | refl => exact absurd hv hu
  | @tail p v hr hl ih =>
    by_cases hp : base ≤ p ∧ p < base + size
    · exact ih hp
    · exact ⟨p, v, hr, hp, hl, (h p v hl hv.1 hv.2).resolve_left hp⟩

theorem leads_of_wired {base size join lo hi : Nat}
    (h : d.WiredFrom (fun v => (base ≤ v ∧ v < base + size) ∨ v = join ∨ v < lo ∨ hi ≤ v)
      base size) : d.Leads base size join lo hi :=
  fun u _ hl hu hu' => scope_of_links hl (h u hu hu')

theorem Shows.leads {u : Nat} {node : Node} {row : Row} {outer : Nat → Prop}
    (hs : d.Shows u node row) (ho : ∀ t ∈ row.out, outer t.2) (ht : ∀ t ∈ row.thrown, outer t.2) :
    ∀ w v : Nat, Edge.Links d.edges w v → w = u → outer v := by
  rintro w v hl rfl
  rw [links_iff, hs.row] at hl
  rcases hl with ⟨t, hm, rfl⟩ | ⟨t, hm, rfl⟩
  · exact ho t hm
  · exact ht t hm

end Piece

/-- The same place with another set of nodes. -/
theorem Placed.rescope {scope scope' : Nat → Prop} {loops : List LoopEnds} {base size : Nat}
    {next handlers : List (Label × NodeId)} (h : Placed scope loops base size next handlers)
    (ho : ∀ u, base ≤ u → u < base + size → scope' u)
    (hl : ∀ ends ∈ loops, scope' ends.head ∧ scope' ends.exit) (hn : ∀ t ∈ next, scope' t.2)
    (hh : ∀ t ∈ handlers, scope' t.2) : Placed scope' loops base size next handlers where
  own := ho
  loops_lt := h.loops_lt
  loops_scope := hl
  next_scope := hn
  le_handlers := h.le_handlers
  handlers_scope := hh
  next_ne := h.next_ne

/-- A plan leads to its own nodes, to where it goes on, and out of the plan it is a part of. -/
theorem Placed.leading {scope : Nat → Prop} {loops : List LoopEnds} {base size join lo hi : Nat}
    {next handlers : List (Label × NodeId)} (h : Placed scope loops base size next handlers)
    (hn : ∀ t ∈ next, join = t.2 ∨ lo > t.2 ∨ hi ≤ t.2) (hh : ∀ t ∈ handlers, hi ≤ t.2)
    (hl : ∀ ends ∈ loops, lo > ends.head ∧ lo > ends.exit) :
    Placed (fun v => (base ≤ v ∧ v < base + size) ∨ v = join ∨ v < lo ∨ hi ≤ v) loops base size
      next handlers :=
  h.rescope (fun _ hu hu' => .inl ⟨hu, hu'⟩)
    (fun ends he => ⟨.inr (.inr (.inl (hl ends he).1)), .inr (.inr (.inl (hl ends he).2))⟩)
    (fun t ht => .inr ((hn t ht).imp_left Eq.symm)) fun t ht => .inr (.inr (.inr (hh t ht)))

section Leads

variable {d : Piece} {scope : Nat → Prop} {env : Env} {base join lo hi : Nat}
  {next handlers : List (Label × NodeId)} {t : Label × NodeId}

theorem Plan.leads_of_drawn {plan : Plan} (hd : plan.Drawn d env base next handlers)
    (hf : plan.Fits env.loops.length) (hp : Placed scope env.loops base plan.size next handlers)
    (hc : plan.completes = true → next ≠ [])
    (hn : ∀ t ∈ next, join = t.2 ∨ lo > t.2 ∨ hi ≤ t.2) (hh : ∀ t ∈ handlers, hi ≤ t.2)
    (hl : ∀ ends ∈ env.loops, lo > ends.head ∧ lo > ends.exit) :
    d.Leads base plan.size join lo hi :=
  Piece.leads_of_wired
    (plan.wired_of_drawn env base next handlers hd hf (hp.leading hn hh hl) hc)

/-- A plan over which nothing watches leads to the node where it goes on. -/
theorem Plan.leads_to {plan : Plan} (hd : plan.Drawn d env base [t] [])
    (hf : plan.Fits env.loops.length) (hp : Placed scope env.loops base plan.size [t] [])
    (hl : ∀ ends ∈ env.loops, lo > ends.head ∧ lo > ends.exit) :
    d.Leads base plan.size t.2 lo hi :=
  leads_of_drawn hd hf hp (by simp) (by simp) (by simp) hl

theorem Alternatives.leads_to {rest : Alternatives} (hd : rest.Drawn d env base join)
    (hf : rest.Fits env.loops.length)
    (hp : Placed scope env.loops base rest.size [(.always, join)] [])
    (hl : ∀ ends ∈ env.loops, lo > ends.head ∧ lo > ends.exit) :
    d.Leads base rest.size join lo hi :=
  Piece.leads_of_wired
    (rest.wired_of_drawn env base join hd hf (hp.leading (by simp) (by simp) hl))

theorem Cases.leads_to {cases : Cases} {index : Nat} {reached : Bool}
    (hd : cases.Drawn d env base join index reached) (hf : cases.Fits env.loops.length)
    (hp : Placed scope env.loops base cases.size [(.always, join)] [])
    (hl : ∀ ends ∈ env.loops, lo > ends.head ∧ lo > ends.exit) :
    d.Leads base cases.size join lo hi :=
  Piece.leads_of_wired
    (cases.wired_of_drawn env base join index reached hd hf (hp.leading (by simp) (by simp) hl))

theorem Handlers.leads_of_drawn {list : Handlers} (hd : list.Drawn d env base next)
    (hf : list.Fits env.loops.length) (hp : Placed scope env.loops base list.size next [])
    (hc : next ≠ []) (hn : ∀ t ∈ next, join = t.2 ∨ lo > t.2 ∨ hi ≤ t.2)
    (hl : ∀ ends ∈ env.loops, lo > ends.head ∧ lo > ends.exit) :
    d.Leads base list.size join lo hi :=
  Piece.leads_of_wired (list.wired_of_drawn env base next hd hf (hp.leading hn (by simp) hl) hc)

theorem Annex.leads_to {annex : Annex} (hd : annex.Drawn d env base [t])
    (hf : annex.Fits env.loops.length) (hp : Placed scope env.loops base annex.size [t] [])
    (hl : ∀ ends ∈ env.loops, lo > ends.head ∧ lo > ends.exit) :
    d.Leads base annex.size t.2 lo hi :=
  Piece.leads_of_wired
    (annex.wired_of_drawn env base [t] hd hf (hp.leading (by simp) (by simp) hl) (by simp))

end Leads

/-- Where the nodes that a jump makes on its way out begin. -/
def Route.entryAt (base : Nat) : Route → Nat
  | .arrive | .release .. => base
  | .leaveLoop rest => rest.entryAt base
  | .replay _ _ body _ | .swallow _ body => body.entryAt base

theorem Route.le_entryAt (base : Nat) : (route : Route) → base ≤ route.entryAt base
  | .arrive | .release .. => Nat.le_refl base
  | .leaveLoop rest => rest.le_entryAt base
  | .replay _ _ body _ | .swallow _ body => (body.entryAt_bounds base).1

/-- A jump leads to a loop around it, or to the first of the nodes it makes. -/
theorem Route.out_targets (means : Jump) : (route : Route) → (loops : List LoopEnds) →
    (base : Nat) → ∀ t ∈ route.out loops means base,
      (∃ ends ∈ loops, t.2 = ends.head ∨ t.2 = ends.exit) ∨ route.entryAt base = t.2
  | .arrive, [], base => by cases means <;> simp [out]
  | .arrive, ends :: loops, base => by cases means <;> simp [out]
  | .leaveLoop rest, loops, base => by
    intro t ht
    rcases rest.out_targets means loops.tail base t ht with ⟨ends, he, h⟩ | h
    · exact .inl ⟨ends, List.mem_of_mem_tail he, h⟩
    · exact .inr h
  | .release .., loops, base | .replay .., loops, base | .swallow .., loops, base => by
    intro t ht
    obtain rfl := List.mem_singleton.1 ht
    exact .inr rfl

/-- The node `v` is an alternative of one of the cases. -/
def Cases.IsAlternative (base v : Nat) : Cases → Prop
  | .nil => False
  | .cons patterns _ body rest =>
    (base ≤ v ∧ v < base + patterns.length) ∨
      rest.IsAlternative (base + patterns.length + body.size) v

theorem Cases.IsAlternative.bounds {v : Nat} : {cases : Cases} → {base : Nat} →
    cases.IsAlternative base v → base ≤ v ∧ v < base + cases.size
  | .cons patterns _ body rest, base, h => by
    simp only [size]
    rcases h with h | h
    · omega
    · have := h.bounds
      omega

/-- What leads to the cases leads to alternatives. -/
theorem Cases.offered_isAlternative (flat : Bool) (label : Label) : (cases : Cases) →
    (base join : Nat) → ∀ t ∈ cases.offered flat label base join,
      join = t.2 ∨ cases.IsAlternative base t.2
  | .nil, _, _ => by simp [offered]
  | .cons patterns catchAll body rest, base, join => by
    have onward : ∀ t ∈ (if catchAll then []
        else rest.offered flat label (base + patterns.length + body.size) join),
        join = t.2 ∨ (cons patterns catchAll body rest).IsAlternative base t.2 := by
      intro t ht
      split at ht
      · simp at ht
      · exact (rest.offered_isAlternative flat label _ join t ht).imp_right .inr
    intro t ht
    simp only [offered] at ht
    split at ht
    · -- flat: all alternatives of the case, and what the next case offers
      rcases List.mem_append.1 ht with ht | ht
      · obtain ⟨v, hv, rfl⟩ := List.mem_map.1 ht
        rw [List.mem_range'_1] at hv
        exact .inr (.inl hv)
      · exact onward t ht
    · split at ht
      · exact onward t ht
      · next hp =>
        obtain rfl := List.mem_singleton.1 ht
        have : 0 < patterns.length := by
          cases patterns <;> simp at hp ⊢
        exact .inr (.inl ⟨Nat.le_refl _, by show base < _; omega⟩)

/-- One of the handlers begins at the node `v`. -/
def Handlers.IsEntry (base v : Nat) : Handlers → Prop
  | .nil => False
  | .cons _ handler rest => v = handler.entryAt base ∨ rest.IsEntry (base + handler.size) v

theorem Handlers.IsEntry.bounds {v : Nat} : {handlers : Handlers} → {base : Nat} →
    handlers.IsEntry base v → base ≤ v ∧ v < base + handlers.size
  | .cons _ handler rest, base, h => by
    have hh := handler.entryAt_bounds base
    simp only [size]
    rcases h with h | h
    · omega
    · have := h.bounds
      omega

theorem Handlers.entries_isEntry : (handlers : Handlers) → (base index : Nat) →
    ∀ t ∈ handlers.entries base index, handlers.IsEntry base t.2
  | .nil, _, _ => by simp [entries]
  | .cons _ handler rest, base, index => by
    intro t ht
    rcases List.mem_cons.1 ht with rfl | ht
    · exact .inl rfl
    · exact .inr (rest.entries_isEntry (base + handler.size) (index + 1) t ht)

/-- An alternative leads into the body of its case, or on to what is tried next. -/
theorem Piece.ShowsAlternatives.row_cases {d : Piece} {env : Env} {chained : Bool}
    {taken : Label × NodeId} {onward : List (Label × NodeId)} : (patterns : List Span) →
      (base : Nat) → d.ShowsAlternatives env chained taken onward base patterns →
      ∀ u, base ≤ u → u < base + patterns.length → (d.row u).thrown = [] ∧
        ∀ t ∈ (d.row u).out, t = taken ∨ t ∈ onward ∨
          t.1 = .noMatch ∧ base ≤ t.2 ∧ base + patterns.length > t.2
  | [], _, _, u, hu, hu' => by
    simp only [List.length_nil] at hu'
    omega
  | [pattern], base, h, u, hu, hu' => by
    obtain rfl : base = u := by
      simp only [List.length_singleton] at hu'
      omega
    rw [h.row]
    refine ⟨rfl, fun t ht => ?_⟩
    rcases List.mem_cons.1 ht with rfl | ht
    · exact .inl rfl
    · exact .inr (.inl ht)
  | pattern :: pattern' :: rest, base, h, u, hu, hu' => by
    have ih := row_cases (pattern' :: rest) (base + 1) h.2
    simp only [List.length_cons] at hu' ih ⊢
    rcases Nat.eq_or_lt_of_le hu with rfl | hu
    · rw [h.1.row]
      refine ⟨rfl, fun t ht => ?_⟩
      rcases List.mem_cons.1 ht with rfl | ht
      · exact .inl rfl
      -- chained alternatives lead to the next one when they do not match
      · split at ht
        · obtain rfl := List.mem_singleton.1 ht
          exact .inr (.inr ⟨rfl, Nat.le_succ base, by show base + 1 < _; omega⟩)
        · simp at ht
    · obtain ⟨hth, hout⟩ := ih u hu (by omega)
      refine ⟨hth, fun t ht => ?_⟩
      rcases hout t ht with h | h | h
      · exact .inl h
      · exact .inr (.inl h)
      · exact .inr (.inr ⟨h.1, by omega, by omega⟩)

/-- A jump leads to the first of the nodes it makes on its way out, or to a loop. -/
theorem Piece.Shows.leads_jump {d : Piece} {loops : List LoopEnds} {u lo hi : Nat}
    {handlers : List (Label × NodeId)} {route : Route} {means : Jump} {node : Node}
    {leaves : List ExitCause}
    (hs : d.Shows u node ⟨route.out loops means (u + 1), handlers, leaves⟩)
    (hl : ∀ ends ∈ loops, lo > ends.head ∧ lo > ends.exit) (hh : ∀ t ∈ handlers, hi ≤ t.2) :
    ∀ w v : Nat, Edge.Links d.edges w v → w = u → v = route.entryAt (u + 1) ∨ v < lo ∨ hi ≤ v := by
  refine hs.leads (fun t ht => ?_) fun t ht => .inr (.inr (hh t ht))
  rcases route.out_targets means loops (u + 1) t ht with ⟨ends, he, hv | hv⟩ | hv
  · exact .inr (.inl (hv ▸ (hl ends he).1))
  · exact .inr (.inl (hv ▸ (hl ends he).2))
  · exact .inl hv.symm

/-- The nodes that a jump makes on its way out are entered from where the jump starts. -/
theorem Placed.enteredAt_route {d : Piece} {scope : Nat → Prop} {loops : List LoopEnds}
    {base : Nat} {next handlers : List (Label × NodeId)} {route : Route} {means : Jump}
    (hp : Placed scope loops base (1 + route.size) next handlers)
    (he : d.EnteredAt base (1 + route.size) base) {node : Node} {leaves : List ExitCause}
    (hs : d.Shows base node ⟨route.out loops means (base + 1), handlers, leaves⟩) :
    d.EnteredAt (base + 1) route.size (route.entryAt (base + 1)) := by
  have l0 := hs.leads_jump hp.loops_lt hp.le_handlers
  intro w v hwv hv hv'
  have := he w v hwv
  have := l0 w v hwv
  omega

/-- The body of a `try` leads also to the handlers that watch over it. -/
theorem Plan.leads_watched {d : Piece} {scope : Nat → Prop} {env : Env}
    {base base' join lo hi : Nat} {t : Label × NodeId} {watching : Handlers}
    {handlers : List (Label × NodeId)} (plan : Plan)
    (hd : plan.Drawn d env base [t] (watching.entries base' 0 ++ handlers))
    (hf : plan.Fits env.loops.length)
    (hp : Placed scope env.loops base plan.size [t] (watching.entries base' 0 ++ handlers))
    (ht : t.2 = join) (hl : ∀ ends ∈ env.loops, lo > ends.head ∧ lo > ends.exit)
    (hh : ∀ t ∈ handlers, hi ≤ t.2) :
    ∀ w v : Nat, Edge.Links d.edges w v → base ≤ w → w < base + plan.size →
      (base ≤ v ∧ v < base + plan.size) ∨ v = join ∨ v < lo ∨ hi ≤ v ∨
        watching.IsEntry base' v := by
  -- the nodes it may lead to hold the handlers' entries as well
  have hp' : Placed (fun v => (base ≤ v ∧ v < base + plan.size) ∨ v = join ∨ v < lo ∨ hi ≤ v ∨
      watching.IsEntry base' v) env.loops base plan.size [t]
      (watching.entries base' 0 ++ handlers) := by
    refine hp.rescope (fun v hv hv' => .inl ⟨hv, hv'⟩)
      (fun ends he => ⟨.inr (.inr (.inl (hl ends he).1)), .inr (.inr (.inl (hl ends he).2))⟩)
      (fun s hs => ?_) fun s hs => ?_
    · obtain rfl := List.mem_singleton.1 hs
      exact .inr (.inl ht)
    · rcases List.mem_append.1 hs with hs | hs
      · exact .inr (.inr (.inr (.inr (watching.entries_isEntry base' 0 s hs))))
      · exact .inr (.inr (.inr (.inl (hh s hs))))
  exact fun w v hwv hw hw' =>
    Piece.scope_of_links hwv (plan.wired_of_drawn env base _ _ hd hf hp' (by simp) w hw hw')

/-! ## The parts of a statement -/

section Parts

variable {d : Piece} {scope : Nat → Prop} {env : Env} {base : Nat}
  {next handlers : List (Label × NodeId)}

theorem Plan.enteredAt_hold {before : List Stmt} {header : Stmt} {region : RegionId} {body : Plan}
    (h : (Plan.hold before header region body).Drawn d env base next handlers)
    (hp : Placed scope env.loops base (1 + body.size) next handlers)
    (he : d.EnteredAt base (1 + body.size) base) :
    d.EnteredAt (base + 1) body.size (body.entryAt (base + 1)) := by
  have l0 : ∀ w v : Nat, Edge.Links d.edges w v → w = base →
      v = body.entryAt (base + 1) ∨ base + (1 + body.size) ≤ v :=
    h.1.leads (by simp) fun t ht => .inr (hp.le_handlers t ht)
  intro w v hwv hv hv'
  have := he w v hwv
  have := l0 w v hwv
  omega

theorem Plan.enteredAt_seq {first rest : Plan}
    (h : (Plan.seq first rest).Drawn d env base next handlers)
    (hf : (Plan.seq first rest).Fits env.loops.length)
    (hp : Placed scope env.loops base (first.size + rest.size) next handlers)
    (hn : rest.completes = true → next ≠ [])
    (ho : ∀ t ∈ next, base > t.2 ∨ base + (first.size + rest.size) ≤ t.2)
    (he : d.EnteredAt base (first.size + rest.size) (first.entryAt base)) :
    d.EnteredAt base first.size (first.entryAt base) ∧
    d.EnteredAt (base + first.size) rest.size (rest.entryAt (base + first.size)) := by
  have hfe := first.entryAt_bounds base
  have hre := rest.entryAt_bounds (base + first.size)
  have hpf : Placed scope env.loops base first.size
      [(.always, rest.entryAt (base + first.size))] ([] ++ handlers) :=
    hp.guarded (by omega) (by omega) (by omega) (by omega) (by simp) (by simp)
  have hpr : Placed scope env.loops (base + first.size) rest.size next [] :=
    hp.part (by omega) (by omega) hp.next_scope
  -- each part leads to itself, to where it goes on, and out of the whole
  have lf : d.Leads base first.size (rest.entryAt (base + first.size)) base
      (base + (first.size + rest.size)) :=
    Plan.leads_of_drawn h.1 hf.1 hpf (by simp) (by simp) hp.le_handlers hp.loops_lt
  have lr : d.Leads (base + first.size) rest.size (base + (first.size + rest.size)) base
      (base + (first.size + rest.size)) :=
    Plan.leads_of_drawn h.2 hf.2 hpr hn (fun t ht => .inr (ho t ht)) (by simp) hp.loops_lt
  constructor
  all_goals
    intro w v hwv hv hv'
    have := he w v hwv
    have := lf w v hwv
    have := lr w v hwv
    omega

theorem Plan.enteredAt_branch {test : Span} {body : Plan} {rest : Alternatives}
    (h : (Plan.branch test body rest).Drawn d env base next handlers)
    (hf : (Plan.branch test body rest).Fits env.loops.length)
    (hp : Placed scope env.loops base (2 + body.size + rest.size) next handlers)
    (ho : ∀ t ∈ next, base > t.2 ∨ base + (2 + body.size + rest.size) ≤ t.2)
    (he : d.EnteredAt base (2 + body.size + rest.size) base) :
    d.EnteredAt (base + 2) body.size (body.entryAt (base + 2)) ∧
    d.EnteredAt (base + 2 + body.size) rest.size
      (rest.target (base + 2 + body.size) (base + 1)) := by
  obtain ⟨h0, h1, hb, hr⟩ := h
  have hbe := body.entryAt_bounds (base + 2)
  have hre := rest.target_bounds (base + 2 + body.size) (base + 1)
  have l0 : ∀ w v : Nat, Edge.Links d.edges w v → w = base → v = body.entryAt (base + 2) ∨
      v = rest.target (base + 2 + body.size) (base + 1) ∨
      base + (2 + body.size + rest.size) ≤ v :=
    h0.leads (by simp) fun t ht => .inr (.inr (hp.le_handlers t ht))
  have l1 : ∀ w v : Nat, Edge.Links d.edges w v → w = base + 1 →
      base > v ∨ base + (2 + body.size + rest.size) ≤ v :=
    h1.leads ho (by simp)
  have lb : d.Leads (base + 2) body.size (base + 1) base (base + (2 + body.size + rest.size)) :=
    Plan.leads_to hb hf.1 (hp.partTo (by omega) (by omega) (by omega) (by omega)) hp.loops_lt
  have lr : d.Leads (base + 2 + body.size) rest.size (base + 1) base
      (base + (2 + body.size + rest.size)) :=
    Alternatives.leads_to hr hf.2 (hp.partTo (by omega) (by omega) (by omega) (by omega))
      hp.loops_lt
  -- every edge starts outside the statement, at one of its two nodes, or in one of its parts
  constructor
  all_goals
    intro w v hwv hv hv'
    have := he w v hwv
    have := l0 w v hwv
    have := l1 w v hwv
    have := lb w v hwv
    have := lr w v hwv
    omega

theorem Plan.enteredAt_loop {header : Span} {body : Plan} {orelse : Annex}
    (h : (Plan.loop header body orelse).Drawn d env base next handlers)
    (hf : (Plan.loop header body orelse).Fits env.loops.length)
    (hp : Placed scope env.loops base (2 + body.size + orelse.size) next handlers)
    (ho : ∀ t ∈ next, base > t.2 ∨ base + (2 + body.size + orelse.size) ≤ t.2)
    (he : d.EnteredAt base (2 + body.size + orelse.size) base) :
    d.EnteredAt (base + 2) body.size (body.entryAt (base + 2)) ∧
    d.EnteredAt (base + 2 + body.size) orelse.size
      (orelse.target (base + 2 + body.size) (base + 1)) := by
  obtain ⟨h0, h1, hb, hor⟩ := h
  have hbe := body.entryAt_bounds (base + 2)
  have hoe := orelse.target_bounds (base + 2 + body.size) (base + 1)
  have hpb : Placed scope (⟨base, base + 1⟩ :: env.loops) (base + 2) body.size
      [(.loopBack, base)] [] := hp.inLoop (by omega)
  have l0 : ∀ w v : Nat, Edge.Links d.edges w v → w = base → v = body.entryAt (base + 2) ∨
      v = orelse.target (base + 2 + body.size) (base + 1) ∨
      base + (2 + body.size + orelse.size) ≤ v :=
    h0.leads (by simp) fun t ht => .inr (.inr (hp.le_handlers t ht))
  have l1 : ∀ w v : Nat, Edge.Links d.edges w v → w = base + 1 →
      base > v ∨ base + (2 + body.size + orelse.size) ≤ v :=
    h1.leads ho (by simp)
  -- the body also leads to the two ends of the loop, which come before it
  have lb : d.Leads (base + 2) body.size base (base + 2)
      (base + (2 + body.size + orelse.size)) :=
    Plan.leads_to hb hf.1 hpb hpb.loops_lt
  have lo : d.Leads (base + 2 + body.size) orelse.size (base + 1) base
      (base + (2 + body.size + orelse.size)) :=
    Annex.leads_to hor hf.2 (hp.partTo (by omega) (by omega) (by omega) (by omega)) hp.loops_lt
  constructor
  all_goals
    intro w v hwv hv hv'
    have := he w v hwv
    have := l0 w v hwv
    have := l1 w v hwv
    have := lb w v hwv
    have := lo w v hwv
    omega

theorem Plan.enteredBy_dispatch {subject : Span} {region : RegionId} {cases : Cases}
    (h : (Plan.dispatch subject region cases).Drawn d env base next handlers)
    (hp : Placed scope env.loops base (2 + cases.size) next handlers)
    (ho : ∀ t ∈ next, base > t.2 ∨ base + (2 + cases.size) ≤ t.2)
    (he : d.EnteredAt base (2 + cases.size) base) :
    d.EnteredBy (base + 2) cases.size (cases.IsAlternative (base + 2)) := by
  obtain ⟨h0, h1, -⟩ := h
  have l0 : ∀ w v : Nat, Edge.Links d.edges w v → w = base →
      v = base + 1 ∨ cases.IsAlternative (base + 2) v ∨ base + (2 + cases.size) ≤ v := by
    refine h0.leads (fun t ht => ?_) fun t ht => .inr (.inr (hp.le_handlers t ht))
    rcases List.mem_append.1 ht with ht | ht
    · rcases cases.offered_isAlternative env.flat .always (base + 2) (base + 1) t ht with hv | hv
      · exact .inl hv.symm
      · exact .inr (.inl hv)
    · split at ht
      · simp at ht
      · obtain rfl := List.mem_singleton.1 ht
        exact .inl rfl
  have l1 : ∀ w v : Nat, Edge.Links d.edges w v → w = base + 1 →
      base > v ∨ base + (2 + cases.size) ≤ v :=
    h1.leads ho (by simp)
  intro w v hwv hv hv'
  by_cases hw : base + 2 ≤ w ∧ w < base + 2 + cases.size
  · exact .inl hw
  · -- what leads to the cases from elsewhere comes from the subject
    have hwhole := he w v hwv
    have hjoin := l1 w v hwv
    obtain rfl : w = base := by omega
    rcases l0 w v hwv rfl with hv | hv | hv
    · omega
    · exact .inr hv
    · omega

theorem Plan.enteredAt_attempt {region : RegionId} {body : Plan} {handlers' : Handlers}
    {orelse final : Annex}
    (h : (Plan.attempt region body handlers' orelse final).Drawn d env base next handlers)
    (hf : (Plan.attempt region body handlers' orelse final).Fits env.loops.length)
    (hp : Placed scope env.loops base
      (1 + body.size + handlers'.size + orelse.size + final.size) next handlers)
    (ho : ∀ t ∈ next, base > t.2 ∨
      base + (1 + body.size + handlers'.size + orelse.size + final.size) ≤ t.2)
    (he : d.EnteredAt base (1 + body.size + handlers'.size + orelse.size + final.size)
      (body.entryAt (base + 1))) :
    d.EnteredAt (base + 1) body.size (body.entryAt (base + 1)) ∧
    d.EnteredBy (base + 1 + body.size) handlers'.size
      (handlers'.IsEntry (base + 1 + body.size)) ∧
    d.EnteredAt (base + 1 + body.size + handlers'.size) orelse.size
      (orelse.target (base + 1 + body.size + handlers'.size)
        (final.target (base + 1 + body.size + handlers'.size + orelse.size) base)) ∧
    d.EnteredAt (base + 1 + body.size + handlers'.size + orelse.size) final.size
      (final.target (base + 1 + body.size + handlers'.size + orelse.size) base) := by
  have hpb := hp.attempt_body
  obtain ⟨h0, hb, hh, hor, hfin⟩ := h
  have hbe := body.entryAt_bounds (base + 1)
  have hft := final.target_bounds (base + 1 + body.size + handlers'.size + orelse.size) base
  have hot := orelse.target_bounds (base + 1 + body.size + handlers'.size)
    (final.target (base + 1 + body.size + handlers'.size + orelse.size) base)
  have l0 : ∀ w v : Nat, Edge.Links d.edges w v → w = base →
      base > v ∨ base + (1 + body.size + handlers'.size + orelse.size + final.size) ≤ v :=
    h0.leads ho (by simp)
  have lb := body.leads_watched hb hf.1 hpb
    (orelse.snd_bridge _ (.always, _)) hp.loops_lt hp.le_handlers
  have lh : d.Leads (base + 1 + body.size) handlers'.size
      (final.target (base + 1 + body.size + handlers'.size + orelse.size) base) base
      (base + (1 + body.size + handlers'.size + orelse.size + final.size)) :=
    Handlers.leads_of_drawn hh hf.2.1 (hp.partTo (by omega) (by omega) (by omega) (by omega))
      (by simp) (by simp) hp.loops_lt
  have lo : d.Leads (base + 1 + body.size + handlers'.size) orelse.size
      (final.target (base + 1 + body.size + handlers'.size + orelse.size) base) base
      (base + (1 + body.size + handlers'.size + orelse.size + final.size)) :=
    Annex.leads_to hor hf.2.2.1 (hp.partTo (by omega) (by omega) (by omega) (by omega)) hp.loops_lt
  have lf : d.Leads (base + 1 + body.size + handlers'.size + orelse.size) final.size base base
      (base + (1 + body.size + handlers'.size + orelse.size + final.size)) :=
    Annex.leads_to hfin hf.2.2.2 (hp.partTo (by omega) (by omega) (by omega) (by omega)) hp.loops_lt
  -- apart from the handlers, a part of the statement is entered where another one goes on
  have other : ∀ w v : Nat, Edge.Links d.edges w v →
      ¬ handlers'.IsEntry (base + 1 + body.size) v → base + 1 ≤ w → w < base + 1 + body.size →
      (base + 1 ≤ v ∧ v < base + 1 + body.size) ∨
      v = orelse.target (base + 1 + body.size + handlers'.size)
        (final.target (base + 1 + body.size + handlers'.size + orelse.size) base) ∨
      v < base ∨ base + (1 + body.size + handlers'.size + orelse.size + final.size) ≤ v := by
    intro w v hwv hentry hw hw'
    rcases lb w v hwv hw hw' with hv | hv | hv | hv | hv
    · exact .inl hv
    · exact .inr (.inl hv)
    · exact .inr (.inr (.inl hv))
    · exact .inr (.inr (.inr hv))
    · exact absurd hv hentry
  have apart : ∀ v, handlers'.IsEntry (base + 1 + body.size) v →
      base + 1 + body.size ≤ v ∧ v < base + 1 + body.size + handlers'.size :=
    fun v hv => hv.bounds
  -- the body, the handlers, the `else` clause and the `finally` clause
  refine ⟨fun w v hwv hv hv' => ?_, fun w v hwv hv hv' => ?_, fun w v hwv hv hv' => ?_,
    fun w v hwv hv hv' => ?_⟩
  · have := he w v hwv
    have := l0 w v hwv
    have := lh w v hwv
    have := lo w v hwv
    have := lf w v hwv
    omega
  · by_cases hentry : handlers'.IsEntry (base + 1 + body.size) v
    · exact .inr hentry
    · refine .inl ?_
      have := he w v hwv
      have := l0 w v hwv
      have := other w v hwv hentry
      have := lo w v hwv
      have := lf w v hwv
      omega
  · have := he w v hwv
    have := l0 w v hwv
    have := other w v hwv fun h => by
      have := apart v h
      omega
    have := lh w v hwv
    have := lf w v hwv
    omega
  · have := he w v hwv
    have := l0 w v hwv
    have := other w v hwv fun h => by
      have := apart v h
      omega
    have := lh w v hwv
    have := lo w v hwv
    omega

theorem Alternatives.enteredAt_test {header : Span} {body : Plan} {rest : Alternatives} {join : Nat}
    (h : (Alternatives.test header body rest).Drawn d env base join)
    (hf : (Alternatives.test header body rest).Fits env.loops.length)
    (hp : Placed scope env.loops base (1 + body.size + rest.size) [(.always, join)] [])
    (hj : base > join ∨ base + (1 + body.size + rest.size) ≤ join)
    (he : d.EnteredAt base (1 + body.size + rest.size) base) :
    d.EnteredAt (base + 1) body.size (body.entryAt (base + 1)) ∧
    d.EnteredAt (base + 1 + body.size) rest.size (rest.target (base + 1 + body.size) join) := by
  obtain ⟨h0, hb, hr⟩ := h
  have hbe := body.entryAt_bounds (base + 1)
  have hre := rest.target_bounds (base + 1 + body.size) join
  have l0 : ∀ w v : Nat, Edge.Links d.edges w v → w = base → v = body.entryAt (base + 1) ∨
      v = rest.target (base + 1 + body.size) join :=
    h0.leads (by simp) (by simp)
  have lb : d.Leads (base + 1) body.size join base (base + (1 + body.size + rest.size)) :=
    Plan.leads_to hb hf.1 (hp.part (by omega) (by omega) hp.next_scope) hp.loops_lt
  have lr : d.Leads (base + 1 + body.size) rest.size join base
      (base + (1 + body.size + rest.size)) :=
    Alternatives.leads_to hr hf.2 (hp.part (by omega) (by omega) hp.next_scope) hp.loops_lt
  -- whatever leads into a part from elsewhere is the test or comes from outside
  constructor
  all_goals
    intro w v hwv hv hv'
    have := he w v hwv
    have := l0 w v hwv
    have := lb w v hwv
    have := lr w v hwv
    omega

/-- An alternative leads into the body of its case, or to what is tried next: another alternative,
or the end of the `match`. -/
theorem Cases.links_alternative {patterns : List Span} {catchAll : Bool} {body : Plan}
    {rest : Cases} {join index : Nat} {reached : Bool}
    (h : (Cases.cons patterns catchAll body rest).Drawn d env base join index reached) {w v : Nat}
    (hwv : Edge.Links d.edges w v) (hw : base ≤ w) (hw' : w < base + patterns.length) :
    v = body.entryAt (base + patterns.length) ∨ v = join ∨
      rest.IsAlternative (base + patterns.length + body.size) v ∨
      (base ≤ v ∧ v < base + patterns.length) := by
  obtain ⟨hth, hout⟩ := h.1.row_cases patterns base w hw hw'
  rw [Piece.links_iff, hth] at hwv
  obtain ⟨t, ht, rfl⟩ : ∃ t ∈ (d.row w).out, t.2 = v := by simpa using hwv
  rcases hout t ht with rfl | ht | ⟨-, hv⟩
  · exact .inl rfl
  -- the next case is tried only from a case that may fail
  · split at ht
    · rcases rest.offered_isAlternative false .noMatch _ _ t ht with hv | hv
      · exact .inr (.inl hv.symm)
      · exact .inr (.inr (.inl hv))
    · simp at ht
  · exact .inr (.inr (.inr hv))

theorem Cases.enteredAt_cons {patterns : List Span} {catchAll : Bool} {body : Plan}
    {rest : Cases} {join index : Nat} {reached : Bool}
    (h : (Cases.cons patterns catchAll body rest).Drawn d env base join index reached)
    (hf : (Cases.cons patterns catchAll body rest).Fits env.loops.length)
    (hp : Placed scope env.loops base (patterns.length + body.size + rest.size)
      [(.always, join)] [])
    (hj : base > join ∨ base + (patterns.length + body.size + rest.size) ≤ join)
    (he : d.EnteredBy base (patterns.length + body.size + rest.size)
      ((Cases.cons patterns catchAll body rest).IsAlternative base)) :
    d.EnteredAt (base + patterns.length) body.size (body.entryAt (base + patterns.length)) ∧
    d.EnteredBy (base + patterns.length + body.size) rest.size
      (rest.IsAlternative (base + patterns.length + body.size)) := by
  have la := fun w v hwv => Cases.links_alternative h (w := w) (v := v) hwv
  obtain ⟨-, hb, hr⟩ := h
  have hbe := body.entryAt_bounds (base + patterns.length)
  have lb : d.Leads (base + patterns.length) body.size join base
      (base + (patterns.length + body.size + rest.size)) :=
    Plan.leads_to hb hf.2.1 (hp.part (by omega) (by omega) hp.next_scope) hp.loops_lt
  have lr : d.Leads (base + patterns.length + body.size) rest.size join base
      (base + (patterns.length + body.size + rest.size)) :=
    Cases.leads_to hr hf.2.2 (hp.part (by omega) (by omega) hp.next_scope) hp.loops_lt
  constructor
  · intro w v hwv hv hv'
    -- the nodes of this body are no alternatives of the cases after it
    have hrest : ¬ rest.IsAlternative (base + patterns.length + body.size) v := fun h => by
      have := h.bounds
      omega
    have := he w v hwv
    have := la w v hwv
    have := lr w v hwv
    simp only [Cases.IsAlternative, hrest, or_false, false_or] at *
    omega
  · intro w v hwv hv hv'
    by_cases hrest : rest.IsAlternative (base + patterns.length + body.size) v
    · exact .inr hrest
    · refine .inl ?_
      have := he w v hwv
      have := la w v hwv
      have := lb w v hwv
      simp only [Cases.IsAlternative, hrest, or_false, false_or] at *
      omega

theorem Handlers.enteredAt_cons {region : RegionId} {handler : Plan} {rest : Handlers}
    (h : (Handlers.cons region handler rest).Drawn d env base next)
    (hf : (Handlers.cons region handler rest).Fits env.loops.length)
    (hp : Placed scope env.loops base (handler.size + rest.size) next []) (hn : next ≠ [])
    (ho : ∀ t ∈ next, base > t.2 ∨ base + (handler.size + rest.size) ≤ t.2)
    (he : d.EnteredBy base (handler.size + rest.size)
      ((Handlers.cons region handler rest).IsEntry base)) :
    d.EnteredAt base handler.size (handler.entryAt base) ∧
    d.EnteredBy (base + handler.size) rest.size (rest.IsEntry (base + handler.size)) := by
  have hhe := handler.entryAt_bounds base
  have lh : d.Leads base handler.size (base + (handler.size + rest.size)) base
      (base + (handler.size + rest.size)) :=
    Plan.leads_of_drawn h.1 hf.1 (hp.part (by omega) (by omega) hp.next_scope) (fun _ => hn)
      (fun t ht => .inr (ho t ht)) (by simp) hp.loops_lt
  have lr : d.Leads (base + handler.size) rest.size (base + (handler.size + rest.size)) base
      (base + (handler.size + rest.size)) :=
    Handlers.leads_of_drawn h.2 hf.2 (hp.part (by omega) (by omega) hp.next_scope) hn
      (fun t ht => .inr (ho t ht)) hp.loops_lt
  constructor
  · intro w v hwv hv hv'
    -- no handler after this one begins in it
    have hrest : ¬ rest.IsEntry (base + handler.size) v := fun h => by
      have := h.bounds
      omega
    have := he w v hwv
    have := lr w v hwv
    simp only [Handlers.IsEntry, hrest, or_false] at *
    omega
  · intro w v hwv hv hv'
    by_cases hrest : rest.IsEntry (base + handler.size) v
    · exact .inr hrest
    · refine .inl ?_
      have := he w v hwv
      have := lh w v hwv
      simp only [Handlers.IsEntry, hrest, or_false] at *
      omega

theorem Route.enteredAt_replay {final outside : RegionId} {body : Plan} {rest : Route}
    {site : Site} {means : Jump} (hc : body.completes = true)
    (h : (Route.replay final outside body rest).Drawn d env base site means)
    (hf : (Route.replay final outside body rest).Fits means env.loops.length)
    (hp : Placed scope env.loops base (body.size + (1 + rest.size)) [] [])
    (he : d.EnteredAt base (body.size + (1 + rest.size)) (body.entryAt base)) :
    d.EnteredAt base body.size (body.entryAt base) ∧
    d.EnteredAt (base + body.size) (1 + rest.size) (base + body.size) := by
  obtain ⟨-, hfb, hfr⟩ := hf
  obtain ⟨hb, hr⟩ := h
  obtain ⟨h1, hr⟩ := hr hc
  have hbe := body.entryAt_bounds base
  have hre := rest.le_entryAt (base + body.size + 1)
  have hpr : Placed scope env.loops (base + body.size + 1) rest.size [] [] :=
    hp.part (by omega) (by omega) (by simp)
  have lb : d.Leads base body.size (base + body.size) base
      (base + (body.size + (1 + rest.size))) :=
    Plan.leads_to hb hfb (hp.partTo (by omega) (by omega) (by omega) (by omega)) hp.loops_lt
  have l1 : ∀ w v : Nat, Edge.Links d.edges w v → w = base + body.size →
      v = rest.entryAt (base + body.size + 1) ∨ v < base ∨
      base + (body.size + (1 + rest.size)) ≤ v :=
    h1.leads_jump hp.loops_lt (by simp)
  have lr : d.Leads (base + body.size + 1) rest.size (base + (body.size + (1 + rest.size))) base
      (base + (body.size + (1 + rest.size))) :=
    Piece.leads_of_wired (rest.wired_of_drawn env (base + body.size + 1) site means hr hfr
      (hpr.leading (by simp) (by simp) hp.loops_lt))
  -- the copy, the jump behind it, and what the jump makes on its way
  constructor
  all_goals
    intro w v hwv hv hv'
    have := he w v hwv
    have := lb w v hwv
    have := l1 w v hwv
    have := lr w v hwv
    omega

end Parts

end Flowgraph
