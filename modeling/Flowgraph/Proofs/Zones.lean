import Flowgraph.Proofs.Nesting

/-!
# Inside and outside a `try`

With respect to one `try` statement that has a `finally` clause, every part of a plan stands outside
the statement or inside it, that is in its body, a handler or the `else` clause.  A part outside
lies in no region of the body or the handlers.  A part inside lies in regions of the statement, and
its jumps run the `finally` clause before they leave it; behind that copy of the clause a jump is
outside.

The statement may stand inside a `finally` clause itself, and then its plan is part of the copies of
that clause.  So the two sides are a property of plans, defined by recursion on them, and not of
positions in the text.

## Main definitions

* `Zone` : the regions of a `try` statement.
* `Side` : outside or inside the statement.
* `Plan.Zoned` : the parts of a plan keep to their sides.

## Main results

* `zoned_planBody` : the parts of the plan of a body keep to their sides.
* `Plan.zoned_ofBody` : the plan of a function stands outside each of its `try` statements.
-/

namespace Flowgraph

/-- The regions of a `try` statement: those of the body and the handlers, those of the statement as
a whole, and those of the `finally` clause. -/
structure Zone where
  /-- The region lies in the body or in a handler. -/
  start : RegionId → Prop
  /-- The region lies in the statement. -/
  whole : RegionId → Prop
  /-- The region lies in the `finally` clause. -/
  final : RegionId → Prop

/-- The two sides of a `try` statement. -/
inductive Side where
  /-- Not in the clauses that its `finally` clause watches over. -/
  | outside
  /-- In one of these clauses, and there in the given number of loops. -/
  | inside (loops : Nat)
deriving DecidableEq

namespace Side

theorem inside_ne_outside (loops : Nat) : inside loops ≠ outside := by
  intro h
  cases h

/-- The side of the body of a loop. -/
def inLoop : Side → Side
  | outside => outside
  | inside loops => inside (loops + 1)

/-- The side on which a loop stands, given that of its body.  Inside the statement there has to be
a loop to leave. -/
def outsideLoop? : Side → Option Side
  | outside => some outside
  | inside 0 => none
  | inside (loops + 1) => some (inside loops)

@[simp] theorem outsideLoop?_inLoop (side : Side) : side.inLoop.outsideLoop? = some side := by
  cases side <;> rfl

@[simp] theorem inLoop_eq_outside {side : Side} : side.inLoop = .outside ↔ side = .outside := by
  cases side <;> simp [inLoop]

theorem outsideLoop?_eq_outside {side : Side} (h : side.outsideLoop? = some .outside) :
    side = .outside := by
  cases side with
  | outside => rfl
  | inside loops => cases loops <;> cases h

/-- The number of loops on this side that are part of the statement. -/
def loops : Side → Nat
  | outside => 0
  | inside loops => loops

/-- Jumps of this kind may arrive on this side: inside the statement only at a loop there. -/
def Arrives (means : Jump) : Side → Prop
  | outside => True
  | inside loops => means.staysInLoop = true ∧ 0 < loops

end Side

/-- Nodes on the side may lie in the region. -/
def Zone.Admits (z : Zone) : Side → RegionId → Prop
  | .outside, r => ¬ z.start r
  | .inside _, r => z.whole r

theorem Zone.Admits.whole {z : Zone} {side : Side} {r : RegionId} (h : z.Admits side r)
    (hs : side ≠ .outside) : z.whole r := by
  cases side with
  | outside => exact absurd rfl hs
  | inside loops => exact h

/-- The region of the node where a plan begins, if the plan stands in the region `r`. -/
def Plan.entryRegion (r : RegionId) : Plan → RegionId
  | .seq first _ => first.entryRegion r
  | .attempt region body _ _ _ => body.entryRegion region
  | _ => r

mutual

/-- The parts of a plan on the given side of the statement keep to their sides. -/
def Plan.Zoned (z : Zone) (side : Side) : Plan → Prop
  | .idle | .block _ | .yield _ => True
  | .jump _ _ means route => route.Zoned z means side
  | .raise _ route => route.Zoned z .raising side
  | .hold _ _ region body => z.Admits side region ∧ body.Zoned z side
  | .seq first rest => first.Zoned z side ∧ rest.Zoned z side
  | .branch _ body rest => body.Zoned z side ∧ rest.Zoned z side
  | .loop _ body orelse => body.Zoned z side.inLoop ∧ orelse.Zoned z side
  | .dispatch _ region cases => z.Admits side region ∧ cases.Zoned z side
  | .attempt region body handlers orelse final =>
    (z.Admits side region ∧ body.Zoned z side ∧ handlers.Zoned z side ∧ orelse.Zoned z side ∧
      final.Zoned z side) ∨
    -- the statement itself
    side = .outside ∧ z.whole region ∧ body.Zoned z (.inside 0) ∧ handlers.Zoned z (.inside 0) ∧
      orelse.Zoned z (.inside 0) ∧ final.Closes z

/-- The same for what follows a failed test of an `if`. -/
def Alternatives.Zoned (z : Zone) (side : Side) : Alternatives → Prop
  | .done => True
  | .otherwise body => body.Zoned z side
  | .test _ body rest => body.Zoned z side ∧ rest.Zoned z side

/-- The same for the cases of a `match`. -/
def Cases.Zoned (z : Zone) (side : Side) : Cases → Prop
  | .nil => True
  | .cons _ _ body rest => body.Zoned z side ∧ rest.Zoned z side

/-- The same for the handlers of a `try`. -/
def Handlers.Zoned (z : Zone) (side : Side) : Handlers → Prop
  | .nil => True
  | .cons region handler rest => z.Admits side region ∧ handler.Zoned z side ∧ rest.Zoned z side

/-- The same for a clause that may be missing. -/
def Annex.Zoned (z : Zone) (side : Side) : Annex → Prop
  | .absent => True
  | .present region body => z.Admits side region ∧ body.Zoned z side

/-- The clause is the `finally` clause of the statement. -/
def Annex.Closes (z : Zone) : Annex → Prop
  | .absent => False
  | .present region body =>
    ¬ z.start region ∧ z.final (body.entryRegion region) ∧ body.Zoned z .outside

/-- The same for a jump on its way out.  From the inside it runs the `finally` clause of the
statement and goes on outside. -/
def Route.Zoned (z : Zone) (means : Jump) (side : Side) : Route → Prop
  | .arrive => side.Arrives means
  | .leaveLoop rest => ∃ side', side.outsideLoop? = some side' ∧ rest.Zoned z means side'
  | .release _ region outside rest =>
    z.Admits side region ∧ z.Admits side outside ∧ rest.Zoned z means side
  | .replay final outside body rest =>
    (z.Admits side final ∧ z.Admits side outside ∧ body.Zoned z side ∧ rest.Zoned z means side) ∨
    side = .inside 0 ∧ ¬ z.start final ∧ z.final (body.entryRegion final) ∧ ¬ z.start outside ∧
      body.Zoned z .outside ∧ rest.Zoned z means .outside
  | .swallow final body =>
    (z.Admits side final ∧ body.Zoned z side) ∨
    side = .inside 0 ∧ ¬ z.start final ∧ z.final (body.entryRegion final) ∧ body.Zoned z .outside

end

/-- The constructs around a statement keep to the sides on which they stand. -/
def AroundZoned (z : Zone) : Side → List Enclosure → Prop
  | .outside, [] => True
  | .inside _, [] => False
  | side, .loop :: outer => ∃ side', side.outsideLoop? = some side' ∧ AroundZoned z side' outer
  | side, .resource _ region outside :: outer =>
    z.Admits side region ∧ z.Admits side outside ∧ AroundZoned z side outer
  | side, .final outside final body :: outer =>
    (z.Admits side final ∧ z.Admits side outside ∧
      (∀ plan, body = .ok plan → plan.Zoned z side) ∧ AroundZoned z side outer) ∨
    side = .inside 0 ∧ ¬ z.start final ∧ ¬ z.start outside ∧
      (∀ plan, body = .ok plan → z.final (plan.entryRegion final) ∧ plan.Zoned z .outside) ∧
      AroundZoned z .outside outer

section Planning

variable {z : Zone} {side : Side}

/-- A jump keeps to the sides on which the constructs around it stand. -/
theorem Route.zoned_through {site : Site} {means : Jump} : {around : List Enclosure} →
    {side : Side} → {route : Route} → Route.through site means around = .ok route →
      AroundZoned z side around → route.Zoned z means side
  | [], .outside, route, h, _ => by
    obtain ⟨-, rfl⟩ := through_nil_eq_ok.1 h
    exact trivial
  | [], .inside _, _, _, ha => ha.elim
  | .loop :: outer, side, route, h, ha => by
    rw [AroundZoned] at ha
    obtain ⟨side', hs, ha⟩ := ha
    rcases through_loop_eq_ok.1 h with ⟨hm, rfl⟩ | ⟨-, rest, hr, rfl⟩
    · -- the jump is meant for this loop
      match side, hs with
      | .outside, _ => exact trivial
      | .inside (loops + 1), _ => exact ⟨hm, Nat.succ_pos _⟩
    · exact ⟨side', hs, zoned_through hr ha⟩
  | .resource header region outside :: outer, side, route, h, ha => by
    obtain ⟨rest, hr, rfl⟩ := through_resource_eq_ok.1 h
    rw [AroundZoned] at ha
    exact ⟨ha.1, ha.2.1, zoned_through hr ha.2.2⟩
  | .final outside final body :: outer, side, route, h, ha => by
    rw [AroundZoned] at ha
    obtain ⟨plan, rfl, ⟨-, rest, hr, rfl⟩ | ⟨-, rfl⟩⟩ := through_final_eq_ok.1 h
    · rcases ha with ⟨hf, ho, hp, ha⟩ | ⟨rfl, hf, ho, hp, ha⟩
      · exact .inl ⟨hf, ho, hp plan rfl, zoned_through hr ha⟩
      · exact .inr ⟨rfl, hf, (hp plan rfl).1, ho, (hp plan rfl).2, zoned_through hr ha⟩
    · rcases ha with ⟨hf, -, hp, -⟩ | ⟨rfl, hf, -, hp, -⟩
      · exact .inl ⟨hf, hp plan rfl⟩
      · exact .inr ⟨rfl, hf, hp plan rfl⟩

theorem Plan.seqClosed_zoned : SeqClosed (·.Zoned z side) where
  block _ _ := ⟨fun _ => ⟨trivial, trivial⟩, fun _ => trivial⟩
  jump _ _ _ _ _ _ h := h
  hold _ _ _ _ _ _ h := h
  seq _ _ := Iff.rfl

theorem Annex.zoned_optionalClause {region : Except Failure RegionId} {body : List Stmt}
    {plan : Except Failure (Option Plan)} {annex : Annex}
    (h : optionalClause region body plan = .ok annex)
    (hplan : body ≠ [] → ∀ r q, region = .ok r → plan = .ok q →
      z.Admits side r ∧ (Plan.orIdle q).Zoned z side) : annex.Zoned z side := by
  rcases optionalClause_eq_ok.1 h with ⟨-, rfl⟩ | ⟨hb, r, q, hr, hq, rfl⟩
  · trivial
  · exact hplan hb r q hr hq

end Planning

/-! ## Where a plan begins -/

section EntryRegion

variable {r : RegionId}

theorem Plan.entryRegion_precededBy (s : Stmt) : (plan : Plan) →
    (plan.precededBy s).entryRegion r = r
  | .block _ | .jump .. | .hold .. => rfl
  | .seq first _ => first.entryRegion_precededBy s
  | .idle | .yield _ | .raise .. | .branch .. | .loop .. | .dispatch .. | .attempt .. => rfl

/-- A sequence begins in its own region or where one of its parts begins. -/
theorem Plan.entryRegion_andThen (first rest : Plan) :
    (first.andThen rest).entryRegion r = first.entryRegion r ∨
      (first.andThen rest).entryRegion r = rest.entryRegion r := by
  cases first with
  | block stmts =>
    cases stmts with
    | nil => exact .inr rfl
    | cons s stmts => exact .inl (entryRegion_precededBy s _)
  | _ => exact .inl rfl

theorem Plan.entryRegion_merge {P : RegionId → Prop} {first rest : Option Plan}
    (hf : P ((orIdle first).entryRegion r)) (hr : P ((orIdle rest).entryRegion r)) :
    P ((orIdle (Option.merge andThen first rest)).entryRegion r) := by
  refine orIdle_merge (P := fun plan => P (plan.entryRegion r)) (fun p q hp hq => ?_) hf hr
  rcases p.entryRegion_andThen q with he | he
  · rw [he]
    exact hp
  · rw [he]
    exact hq

end EntryRegion

theorem Context.number_of_region {cx : Context} {site : Site} {part : Part} {r : RegionId}
    (h : cx.region site part = .ok r) : cx.regions.number (some (site.id, part)) = some r := by
  rw [Context.region, RegionTree.require] at h
  split at h
  · next r' hr =>
    cases h
    exact hr
  · cases h

/-- The parent of the region of a part is the region of the part it stands in. -/
theorem RegionTree.Nests.parent?_of_mem {t : RegionTree}
    {links : List ((StmtId × Part) × Option (StmtId × Part))} (h : t.Nests links)
    {k : StmtId × Part} {outer : Option (StmtId × Part)} {r q : RegionId} (hk : (k, outer) ∈ links)
    (hr : t.number (some k) = some r) (hq : t.number outer = some q) : t.parent? r = some q := by
  obtain ⟨r', q', hr', hq', hp⟩ := h.linked _ hk
  rw [hr, Option.some.injEq] at hr'
  rw [hq, Option.some.injEq] at hq'
  rw [hr', hq', hp]

mutual

/-- The plan of a statement begins in the region of the statement or deeper. -/
theorem Stmt.isWithin_entryRegion_plan (cx : Context)
    {links : List ((StmtId × Part) × Option (StmtId × Part))} {outer : Option (StmtId × Part)}
    {r : RegionId} (hn : cx.regions.Nests links) (ho : cx.regions.number outer = some r) :
    (s : Stmt) → (p : Option Plan) → s.plan cx = .ok p → s.nesting outer ⊆ links →
      ∀ x, cx.regions.isWithin r x → cx.regions.isWithin ((Plan.orIdle p).entryRegion r) x
  | .simple _, p, h, _, x, hx | .pass _, p, h, _, x, hx | .yield _, p, h, _, x, hx => by
    simp only [Stmt.plan, Except.ok.injEq] at h
    subst h
    exact hx
  | .marker .., p, h, _, x, hx => by
    simp only [Stmt.plan, Except.ok.injEq] at h
    subst h
    split <;> exact hx
  | .jump site means, p, h, _, x, hx => by
    obtain ⟨route, -, rfl⟩ := Stmt.plan_jump_eq_ok h
    rw [Plan.orIdle]
    split <;> exact hx
  | .branch .., p, h, _, x, hx => by
    obtain ⟨q, rest, -, -, -, -, rfl⟩ := Stmt.plan_branch_eq_ok h
    exact hx
  | .loop .., p, h, _, x, hx => by
    obtain ⟨q, annex, -, -, -, rfl⟩ := Stmt.plan_loop_eq_ok h
    exact hx
  | .attempt site body handlers orelse final, p, h, hl, x, hx => by
    obtain ⟨whole, inner, region, q, handlers', annex, annex', -, hw, hi, hr, -, hq, -, -, -,
      rfl⟩ := Stmt.plan_attempt_eq_ok h
    have hw := Context.number_of_region hw
    have hr := Context.number_of_region hr
    -- the body stands in the statement, which stands in the region `r`
    have hx : cx.regions.isWithin region x := by
      rw [hn.isWithin_iff (hn.parent?_of_mem (hl (by simp [Stmt.nesting])) hr hw),
        hn.isWithin_iff (hn.parent?_of_mem (hl (by simp [Stmt.nesting])) hw ho)]
      exact .inr (.inr hx)
    have hl : bodyNesting (some (site.id, .body)) body ⊆ links :=
      fun y hy => hl (by simp [Stmt.nesting, hy])
    have hinner : inner.regions = cx.regions := by
      rcases Context.enterFinal_eq_ok.1 hi with ⟨-, rfl⟩ | ⟨-, f, -, rfl⟩ <;> rfl
    rw [← hinner] at hn hr hx ⊢
    exact isWithin_entryRegion_planBody inner hn hr body q hq hl x hx
  | .hold .., p, h, _, x, hx => by
    obtain ⟨region, q, -, -, -, rfl⟩ := Stmt.plan_hold_eq_ok h
    exact hx
  | .dispatch .., p, h, _, x, hx => by
    obtain ⟨region, cases', -, -, -, rfl⟩ := Stmt.plan_dispatch_eq_ok h
    exact hx
  | .unsupported _, _, h, _, _, _ => by simp [Stmt.plan] at h

/-- The plan of a body begins in the region of the body or deeper. -/
theorem isWithin_entryRegion_planBody (cx : Context)
    {links : List ((StmtId × Part) × Option (StmtId × Part))} {outer : Option (StmtId × Part)}
    {r : RegionId} (hn : cx.regions.Nests links) (ho : cx.regions.number outer = some r) :
    (body : List Stmt) → (p : Option Plan) → planBody cx body = .ok p →
      bodyNesting outer body ⊆ links →
      ∀ x, cx.regions.isWithin r x → cx.regions.isWithin ((Plan.orIdle p).entryRegion r) x
  | [], p, h, _, x, hx => by
    simp only [planBody, Except.ok.injEq] at h
    subst h
    exact hx
  | s :: rest, p, h, hl, x, hx => by
    obtain ⟨first, after, hs, hr, rfl⟩ := planBody_cons_eq_ok.1 h
    rw [bodyNesting, List.append_subset] at hl
    exact Plan.entryRegion_merge (P := fun r' => cx.regions.isWithin r' x)
      (s.isWithin_entryRegion_plan cx hn ho first hs hl.1 x hx)
      (isWithin_entryRegion_planBody cx hn ho rest after hr hl.2 x hx)

end

/-! ## The zone of a statement -/

/-- The parts with a region of their own that the `finally` clause of a `try` watches over. -/
def Part.isWatched : Part → Bool
  | .body | .handler _ => true
  | .whole | .final | .orelse => false

/-- The regions of the `try` numbered `owner`. -/
def RegionTree.zone (t : RegionTree) (owner : StmtId) : Zone where
  start r := ∃ part b, part.isWatched = true ∧ t.find? owner part = some b ∧ t.isWithin r b
  whole r := ∃ w, t.find? owner .whole = some w ∧ t.isWithin r w
  final r := ∃ f, t.find? owner .final = some f ∧ t.isWithin r f

/-- Planning has come to statements in the part `outer`, whose region is `r`, on the given side of
the `try` numbered `owner`. -/
structure Stands (owner : StmtId) (links : List ((StmtId × Part) × Option (StmtId × Part)))
    (cx : Context) (outer : Option (StmtId × Part)) (r : RegionId) (side : Side) : Prop where
  nests : cx.regions.Nests links
  number : cx.regions.number outer = some r
  admits : (cx.regions.zone owner).Admits side r
  around : AroundZoned (cx.regions.zone owner) side cx.around

namespace Stands

variable {owner : StmtId} {links : List ((StmtId × Part) × Option (StmtId × Part))} {cx : Context}
  {outer : Option (StmtId × Part)} {r : RegionId} {side : Side}

/-- A part of a statement stands on the side of the statement, unless the `finally` clause of the
statement watches over the part. -/
theorem part (h : Stands owner links cx outer r side) {site : Site} {part : Part} {r' : RegionId}
    (hk : ((site.id, part), outer) ∈ links) (hr : cx.region site part = .ok r')
    (hside : side = .outside → site.id = owner → part.isWatched = false) :
    Stands owner links cx (some (site.id, part)) r' side := by
  have hr := Context.number_of_region hr
  have hiff := fun x => h.nests.isWithin_iff (x := x) (h.nests.parent?_of_mem hk hr h.number)
  refine ⟨h.nests, hr, ?_, h.around⟩
  cases side with
  | outside =>
    rintro ⟨part', b, hw, hb, hin⟩
    rcases (hiff b).1 hin with rfl | hin
    · -- the region belongs to one part only
      obtain ⟨hid, rfl⟩ := Prod.mk.inj (h.nests.injective _ (owner, part') _ hr hb)
      simp [hside rfl hid] at hw
    · exact h.admits ⟨part', b, hw, hb, hin⟩
  | inside loops =>
    obtain ⟨w, hw, hin⟩ := h.admits
    exact ⟨w, hw, (hiff w).2 (.inr hin)⟩

theorem enterLoop (h : Stands owner links cx outer r side) :
    Stands owner links (cx.enter .loop) outer r side.inLoop := by
  refine ⟨h.nests, h.number, ?_, ?_⟩
  · have ha := h.admits
    cases side <;> exact ha
  · rw [Context.around_enter, AroundZoned]
    exact ⟨side, side.outsideLoop?_inLoop, h.around⟩

/-- Inside a `with` statement. -/
theorem enterResource (h : Stands owner links cx outer r side) {site : Site} {region : RegionId}
    (hk : ((site.id, .whole), outer) ∈ links) (hr : cx.region site .whole = .ok region)
    (header : Span) :
    Stands owner links (cx.enter (cx.resource header region)) (some (site.id, .whole)) region
      side := by
  have hin := h.part hk hr fun _ _ => rfl
  have hp := h.nests.parent?_of_mem hk hin.number h.number
  refine ⟨h.nests, hin.number, hin.admits, ?_⟩
  rw [Context.around_enter, Context.resource, hp, AroundZoned]
  exact ⟨hin.admits, h.admits, h.around⟩

/-- The clauses that the `finally` clause of a `try` watches over stand on the side of the
statement, or inside it if it is the one numbered `owner`. -/
theorem enterFinal (h : Stands owner links cx outer r side) {site : Site} {final : List Stmt}
    {plan : Except Failure (Option Plan)} {inner : Context}
    (hi : cx.enterFinal site r final plan = .ok inner)
    (hw : cx.regions.number (some (site.id, .whole)) = some r) (hne : site.id = owner → final ≠ [])
    (hfinal : final ≠ [] → ∀ f, cx.region site .final = .ok f →
      (cx.regions.zone owner).Admits side f)
    (hplan : final ≠ [] → ∀ f, cx.region site .final = .ok f → ∀ q, plan = .ok q →
      (Plan.orIdle q).Zoned (cx.regions.zone owner) side ∧
        (site.id = owner → (cx.regions.zone owner).final ((Plan.orIdle q).entryRegion f))) :
    inner.regions = cx.regions ∧ ∃ side', Stands owner links inner outer r side' ∧
      ((side' = side ∧ (side = .outside → site.id ≠ owner)) ∨
        site.id = owner ∧ side = .outside ∧ side' = .inside 0) := by
  rcases Context.enterFinal_eq_ok.1 hi with ⟨he, rfl⟩ | ⟨hf, f, hr, rfl⟩
  · exact ⟨rfl, side, h, .inl ⟨rfl, fun _ hid => hne hid he⟩⟩
  refine ⟨rfl, ?_⟩
  have hplan : ∀ p, plan.map Plan.orIdle = .ok p → p.Zoned (cx.regions.zone owner) side ∧
      (site.id = owner → (cx.regions.zone owner).final (p.entryRegion f)) := by
    intro p hp
    obtain ⟨q, hq, rfl⟩ := map_eq_ok.1 hp
    exact hplan hf f hr q hq
  -- entering the `finally` clause changes sides only at the statement in question, from outside
  by_cases hown : site.id = owner ∧ side = .outside
  · obtain ⟨rfl, rfl⟩ := hown
    refine ⟨.inside 0, ⟨h.nests, h.number, ⟨r, hw, h.nests.isWithin_self r⟩, ?_⟩,
      .inr ⟨rfl, rfl, rfl⟩⟩
    rw [Context.around_enter, AroundZoned]
    exact .inr ⟨rfl, hfinal hf f hr, h.admits, fun p hp => ⟨(hplan p hp).2 rfl, (hplan p hp).1⟩,
      h.around⟩
  · refine ⟨side, ⟨h.nests, h.number, h.admits, ?_⟩,
      .inl ⟨rfl, fun ho hid => hown ⟨hid, ho⟩⟩⟩
    rw [Context.around_enter, AroundZoned]
    exact .inl ⟨hfinal hf f hr, h.admits, fun p hp => (hplan p hp).1, h.around⟩

end Stands

/-- The `try` numbered `owner` has a `finally` clause, if it is among the statements. -/
def Closed (owner : StmtId) (stmts : List Stmt) : Prop :=
  ∀ site body handlers orelse final, .attempt site body handlers orelse final ∈ stmts →
    site.id = owner → final ≠ []

theorem Closed.mono {owner : StmtId} {stmts stmts' : List Stmt} (h : Closed owner stmts)
    (hs : stmts' ⊆ stmts) : Closed owner stmts' :=
  fun site body handlers orelse final hm => h site body handlers orelse final (hs hm)

section Zoned

variable {owner : StmtId} {links : List ((StmtId × Part) × Option (StmtId × Part))}

mutual

/-- The parts of the plan of a statement keep to their sides. -/
theorem Stmt.zoned_plan (cx : Context) {outer : Option (StmtId × Part)} {r : RegionId} {side : Side}
    (hs : Stands owner links cx outer r side) : (s : Stmt) → (p : Option Plan) →
      s.plan cx = .ok p → s.nesting outer ⊆ links → Closed owner s.statements →
      (Plan.orIdle p).Zoned (cx.regions.zone owner) side
  | .simple _, p, h, _, _ | .pass _, p, h, _, _ | .yield _, p, h, _, _ => by
    simp only [Stmt.plan, Except.ok.injEq] at h
    subst h
    trivial
  | .marker .., p, h, _, _ => by
    simp only [Stmt.plan, Except.ok.injEq] at h
    subst h
    split <;> trivial
  | .jump site means, p, h, _, _ => by
    obtain ⟨route, hr, rfl⟩ := Stmt.plan_jump_eq_ok h
    have hr := Route.zoned_through hr hs.around
    rw [Plan.orIdle]
    split
    · next hm =>
      subst hm
      exact hr
    · exact hr
  | .branch site _ body clauses, p, h, hl, hc => by
    obtain ⟨q, rest, -, -, hq, hr, rfl⟩ := Stmt.plan_branch_eq_ok h
    rw [Stmt.nesting, List.append_subset] at hl
    rw [Stmt.statements] at hc
    exact ⟨zoned_planBody cx hs body q hq hl.1 (hc.mono fun x hx => by simp [hx]),
      zoned_planAlternatives cx hs site clauses rest hr hl.2 (hc.mono fun x hx => by simp [hx])⟩
  | .loop site head body orelse, p, h, hl, hc => by
    obtain ⟨q, annex, -, hq, ha, rfl⟩ := Stmt.plan_loop_eq_ok h
    rw [Stmt.nesting, List.append_subset, List.append_subset] at hl
    rw [Stmt.statements] at hc
    refine ⟨zoned_planBody (cx.enter .loop) hs.enterLoop body q hq hl.1.1
      (hc.mono fun x hx => by simp [hx]), annex.zoned_optionalClause ha fun hne r' q' hr' hq' => ?_⟩
    have ho := hs.part (hl.1.2 (by simp [hne])) hr' fun _ _ => rfl
    exact ⟨ho.admits, zoned_planBody cx ho orelse q' hq' hl.2 (hc.mono fun x hx => by simp [hx])⟩
  | .attempt site body handlers orelse final, p, h, hl, hc => by
    obtain ⟨whole, inner, region, q, handlers', annex, annex', -, hw, hi, hr, -, hq, hh, ha, ha',
      rfl⟩ := Stmt.plan_attempt_eq_ok h
    rw [Stmt.nesting] at hl
    rw [Stmt.statements] at hc
    have hwhole := hs.part (hl (by simp)) hw fun _ _ => rfl
    -- the `finally` clause stands where the statement stands, and begins in its own region
    have hstands := fun (hne : final ≠ []) f (hf : cx.region site .final = .ok f) =>
      hwhole.part (hl (by simp [hne])) hf fun _ _ => rfl
    have hplan : final ≠ [] → ∀ f, cx.region site .final = .ok f → ∀ q',
        planBody cx final = .ok q' → (Plan.orIdle q').Zoned (cx.regions.zone owner) side ∧
          (site.id = owner → (cx.regions.zone owner).final ((Plan.orIdle q').entryRegion f)) := by
      intro hne f hf q' hq'
      have hnumber := (hstands hne f hf).number
      exact ⟨zoned_planBody cx (hstands hne f hf) final q' hq' (fun x hx => hl (by simp [hx]))
        (hc.mono fun x hx => by simp [hx]), fun hid => ⟨f, hid ▸ hnumber,
          isWithin_entryRegion_planBody cx hs.nests hnumber final q' hq'
            (fun x hx => hl (by simp [hx])) f (hs.nests.isWithin_self f)⟩⟩
    obtain ⟨hregions, side', hin, hside⟩ := hwhole.enterFinal hi hwhole.number
      (hc site body handlers orelse final (by simp)) (fun hne f hf => (hstands hne f hf).admits)
      hplan
    -- the clauses under it all stand on one side
    have hwatched : side' = .outside → site.id ≠ owner := by
      rintro rfl
      rcases hside with ⟨ho, hid⟩ | ⟨-, -, ho⟩
      · exact hid ho.symm
      · cases ho
    rw [Context.region, ← hregions] at hr
    have hregion := hin.part (hl (by simp)) hr fun ho hid => absurd hid (hwatched ho)
    have hbody := zoned_planBody inner hregion body q hq (fun x hx => hl (by simp [hx]))
      (hc.mono fun x hx => by simp [hx])
    have hhandlers := zoned_planHandlers inner site hin hwatched 0 handlers handlers' hh
      (fun x hx => hl (by simp [hx])) (hc.mono fun x hx => by simp [hx])
    have horelse := annex.zoned_optionalClause ha fun _ r' q' hr' hq' =>
      ⟨Except.ok.inj hr' ▸ hin.admits, zoned_planBody inner hin orelse q' hq'
        (fun x hx => hl (by simp [hx])) (hc.mono fun x hx => by simp [hx])⟩
    rw [hregions] at hbody hhandlers horelse
    have hadmits := hregions ▸ hregion.admits
    rcases hside with ⟨rfl, -⟩ | ⟨hid, rfl, rfl⟩
    · exact .inl ⟨hadmits, hbody, hhandlers, horelse, annex'.zoned_optionalClause ha'
        fun hne f q' hf hq' => ⟨(hstands hne f hf).admits, (hplan hne f hf q' hq').1⟩⟩
    · refine .inr ⟨rfl, hadmits, hbody, hhandlers, horelse, ?_⟩
      rcases optionalClause_eq_ok.1 ha' with ⟨he, -⟩ | ⟨hne, f, q', hf, hq', rfl⟩
      · exact absurd he (hc site body handlers orelse final (by simp) hid)
      · exact ⟨(hstands hne f hf).admits, (hplan hne f hf q' hq').2 hid, (hplan hne f hf q' hq').1⟩
  | .hold site isAsync header body, p, h, hl, hc => by
    obtain ⟨region, q, hr, -, hq, rfl⟩ := Stmt.plan_hold_eq_ok h
    rw [Stmt.nesting, List.append_subset] at hl
    rw [Stmt.statements] at hc
    have hin := hs.enterResource (hl.1 (by simp)) hr header
    exact ⟨hin.admits, zoned_planBody _ hin body q hq hl.2 (hc.mono fun x hx => by simp [hx])⟩
  | .dispatch site _ cases, p, h, hl, hc => by
    obtain ⟨region, cases', -, hr, hp, rfl⟩ := Stmt.plan_dispatch_eq_ok h
    rw [Stmt.nesting, List.append_subset] at hl
    rw [Stmt.statements] at hc
    have hin := hs.part (hl.1 (by simp)) hr fun _ _ => rfl
    exact ⟨hin.admits, zoned_planCases cx hin site cases cases' hp hl.2
      (hc.mono fun x hx => by simp [hx])⟩
  | .unsupported _, _, h, _, _ => by simp [Stmt.plan] at h

/-- The parts of the plan of a body keep to their sides. -/
theorem zoned_planBody (cx : Context) {outer : Option (StmtId × Part)} {r : RegionId} {side : Side}
    (hs : Stands owner links cx outer r side) : (body : List Stmt) → (p : Option Plan) →
      planBody cx body = .ok p → bodyNesting outer body ⊆ links →
      Closed owner (bodyStatements body) → (Plan.orIdle p).Zoned (cx.regions.zone owner) side
  | [], p, h, _, _ => by
    simp only [planBody, Except.ok.injEq] at h
    subst h
    trivial
  | s :: rest, p, h, hl, hc => by
    obtain ⟨first, after, hp, hr, rfl⟩ := planBody_cons_eq_ok.1 h
    rw [bodyNesting, List.append_subset] at hl
    rw [bodyStatements] at hc
    exact Plan.seqClosed_zoned.merge
      (s.zoned_plan cx hs first hp hl.1 (hc.mono (List.subset_append_left _ _)))
      (zoned_planBody cx hs rest after hr hl.2 (hc.mono (List.subset_append_right _ _)))

theorem zoned_planAlternatives (cx : Context) {outer : Option (StmtId × Part)} {r : RegionId}
    {side : Side} (hs : Stands owner links cx outer r side) (site : Site) :
    (clauses : List BranchClause) → (rest : Alternatives) →
      planAlternatives cx site clauses = .ok rest → clauseNesting outer clauses ⊆ links →
      Closed owner (clauseStatements clauses) → rest.Zoned (cx.regions.zone owner) side
  | [], rest, h, _, _ => by
    simp only [planAlternatives, Except.ok.injEq] at h
    subst h
    trivial
  | ⟨_, none, body⟩ :: _, rest, h, hl, hc => by
    obtain ⟨q, -, hq, rfl⟩ := planAlternatives_else_eq_ok h
    rw [clauseNesting, List.append_subset] at hl
    rw [clauseStatements] at hc
    exact zoned_planBody cx hs body q hq hl.1 (hc.mono (List.subset_append_left _ _))
  | ⟨_, some _, body⟩ :: clauses, rest, h, hl, hc => by
    obtain ⟨q, rest', -, hq, hr, rfl⟩ := planAlternatives_test_eq_ok h
    rw [clauseNesting, List.append_subset] at hl
    rw [clauseStatements] at hc
    exact ⟨zoned_planBody cx hs body q hq hl.1 (hc.mono (List.subset_append_left _ _)),
      zoned_planAlternatives cx hs site clauses rest' hr hl.2
        (hc.mono (List.subset_append_right _ _))⟩

theorem zoned_planHandlers (cx : Context) {whole : RegionId} {side : Side} (site : Site)
    (hs : Stands owner links cx (some (site.id, .whole)) whole side)
    (hside : side = .outside → site.id ≠ owner) (index : Nat) :
    (handlers : List Handler) → (handlers' : Handlers) →
      planHandlers cx site index handlers = .ok handlers' →
      handlerNesting site.id index handlers ⊆ links → Closed owner (clauseStatements handlers) →
      handlers'.Zoned (cx.regions.zone owner) side
  | [], handlers', h, _, _ => by
    simp only [planHandlers, Except.ok.injEq] at h
    subst h
    trivial
  | ⟨_, _, body⟩ :: rest, handlers', h, hl, hc => by
    obtain ⟨region, q, rest', hr, -, hq, hr', rfl⟩ := planHandlers_cons_eq_ok h
    rw [handlerNesting, List.append_subset, List.append_subset] at hl
    rw [clauseStatements] at hc
    -- the handlers of the statement in question stand inside it, those of others on its side
    have hin := hs.part (hl.1.1 (by simp)) hr fun ho hid => absurd hid (hside ho)
    exact ⟨hin.admits, zoned_planBody cx hin body q hq hl.1.2
      (hc.mono (List.subset_append_left _ _)), zoned_planHandlers cx site hs hside (index + 1) rest
        rest' hr' hl.2 (hc.mono (List.subset_append_right _ _))⟩

theorem zoned_planCases (cx : Context) {outer : Option (StmtId × Part)} {r : RegionId}
    {side : Side} (hs : Stands owner links cx outer r side) (site : Site) :
    (cases : List MatchCase) → (cases' : Cases) → planCases cx site cases = .ok cases' →
      caseNesting outer cases ⊆ links → Closed owner (caseStatements cases) →
      cases'.Zoned (cx.regions.zone owner) side
  | [], cases', h, _, _ => by
    simp only [planCases, Except.ok.injEq] at h
    subst h
    trivial
  | ⟨_, head, body⟩ :: rest, cases', h, hl, hc => by
    obtain ⟨q, rest', -, hq, hr, rfl⟩ := planCases_cons_eq_ok h
    rw [caseNesting, List.append_subset] at hl
    rw [caseStatements] at hc
    exact ⟨zoned_planBody cx hs body q hq hl.1 (hc.mono (List.subset_append_left _ _)),
      zoned_planCases cx hs site rest rest' hr hl.2 (hc.mono (List.subset_append_right _ _))⟩

end

end Zoned

/-- The plan of a function stands outside each of its `try` statements that have a `finally`
clause. -/
theorem Plan.zoned_ofBody {options : Options} {body : List Stmt} {plan : Plan} {owner : StmtId}
    (h : Plan.ofBody options (RegionTree.ofBody body) body = .ok plan)
    (hid : ((bodyStatements body).map Stmt.id).Nodup) (hc : Closed owner (bodyStatements body)) :
    plan.Zoned ((RegionTree.ofBody body).zone owner) .outside ∧
      ((RegionTree.ofBody body).zone owner).Admits .outside RegionTree.root := by
  have hn := RegionTree.nests_ofBody hid
  -- no region of a part lies around the function
  have hroot : ((RegionTree.ofBody body).zone owner).Admits .outside RegionTree.root := by
    rintro ⟨part, b, -, hb, hin⟩
    exact hn.not_isWithin_root (hn.tagged (owner, part) b hb).2 hin
  rw [Plan.ofBody] at h
  split at h
  · cases h
  · obtain ⟨p, hp, rfl⟩ := map_eq_ok.1 h
    have hs : Stands owner (bodyNesting none body) ⟨RegionTree.ofBody body, options.markers, []⟩
        none RegionTree.root .outside :=
      ⟨hn, rfl, hroot, by simp [AroundZoned]⟩
    exact ⟨zoned_planBody _ hs body p hp (List.Subset.refl _) hc, hroot⟩

end Flowgraph
