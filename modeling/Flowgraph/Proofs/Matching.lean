import Flowgraph.Proofs.Roles

/-!
# The nodes of a `match`

The subject of a `match` leads to alternatives, and an alternative leads into the body of its case.
In a chain an alternative that is not taken leads on to the next one that control comes to, and the
last one to the end of the statement.  A case that accepts every subject ends the chain: control
comes neither to the cases after it nor past the statement.

## Main definitions

* `nextAfter` : what comes right after an entry of a list.
* `MatchNodes` : the nodes of a drawn `match`.
* `MatchNodes.reached`, `MatchNodes.path` : the alternatives that control comes to, in order, and
  where it goes when none of them is taken.
* `Piece.DrawsMatch` : a `match` is drawn with the given nodes.

## Main results

* `Piece.DrawsMatch.out_subject`, `Piece.DrawsMatch.row_alternative` : the edges out of the subject
  and out of an alternative.
-/

namespace Flowgraph

/-! ## Lists of nodes -/

/-- What comes right after `u` in a list, if anything does. -/
def nextAfter (u : Nat) : List Nat → List Nat
  | [] => []
  | v :: rest => if v = u then rest.take 1 else nextAfter u rest

theorem nextAfter_cons_of_ne {u v : Nat} (h : v ≠ u) (rest : List Nat) :
    nextAfter u (v :: rest) = nextAfter u rest :=
  if_neg h

theorem nextAfter_append_of_notMem {u : Nat} {l : List Nat} (h : u ∉ l) (l' : List Nat) :
    nextAfter u (l ++ l') = nextAfter u l' := by
  induction l with
  | nil => rfl
  | cons v l ih =>
    rw [List.mem_cons, not_or] at h
    rw [List.cons_append, nextAfter_cons_of_ne (Ne.symm h.1), ih h.2]

/-- At most one entry comes right after another. -/
theorem nextAfter_cases (u : Nat) (l : List Nat) :
    nextAfter u l = [] ∨ ∃ v ∈ l, nextAfter u l = [v] := by
  induction l with
  | nil => exact .inl rfl
  | cons w l ih =>
    rw [nextAfter]
    split
    · cases l with
      | nil => exact .inl rfl
      | cons v l => exact .inr ⟨v, by simp, rfl⟩
    · rcases ih with ih | ⟨v, hv, ih⟩
      · exact .inl ih
      · exact .inr ⟨v, List.mem_cons_of_mem _ hv, ih⟩

/-- The two edges lead to the same node. -/
def sameTarget (s t : Label × NodeId) : Bool :=
  s.2 == t.2

@[simp] theorem sameTarget_eq_false {s t : Label × NodeId} :
    sameTarget s t = false ↔ s.2 ≠ t.2 := by
  simp [sameTarget]

/-! ## The alternatives of a plan -/

namespace Cases

/-- Where the bodies of the cases begin. -/
def bodiesAt (base : Nat) : Cases → List Nat
  | .nil => []
  | .cons patterns _ body rest =>
    body.entryAt (base + patterns.length) :: rest.bodiesAt (base + patterns.length + body.size)

/-- The alternatives that control comes to, in order. -/
def reachedAt (base : Nat) : Cases → List Nat
  | .nil => []
  | .cons patterns catchAll body rest =>
    List.range' base patterns.length ++
      if catchAll then [] else rest.reachedAt (base + patterns.length + body.size)

/-- Where control goes if no alternative is taken. -/
def unmatched (join : Nat) (cases : Cases) : List Nat :=
  if cases.exhaustive then [] else [join]

theorem unmatched_cons (join : Nat) (patterns : List Span) (catchAll : Bool) (body : Plan)
    (rest : Cases) : (cons patterns catchAll body rest).unmatched join =
      if catchAll then [] else rest.unmatched join := by
  cases catchAll <;> rfl

/-- The alternatives that control comes to, and where it goes then. -/
def path (base join : Nat) (cases : Cases) : List Nat :=
  cases.reachedAt base ++ cases.unmatched join

theorem path_cons (base join : Nat) (patterns : List Span) (catchAll : Bool) (body : Plan)
    (rest : Cases) : (cons patterns catchAll body rest).path base join =
      List.range' base patterns.length ++
        if catchAll then [] else rest.path (base + patterns.length + body.size) join := by
  rw [path, reachedAt, unmatched_cons, List.append_assoc]
  cases catchAll <;> rfl

theorem reachedAt_bounds : (cases : Cases) → (base : Nat) →
    ∀ v ∈ cases.reachedAt base, base ≤ v ∧ v < base + cases.size
  | .nil, _ => by simp [reachedAt]
  | .cons patterns catchAll body rest, base => by
    intro v hv
    simp only [size]
    rcases List.mem_append.1 hv with hv | hv
    · rw [List.mem_range'_1] at hv
      omega
    · split at hv
      · simp at hv
      · have := rest.reachedAt_bounds (base + patterns.length + body.size) v hv
        omega

theorem pairwise_reachedAt : (cases : Cases) → (base : Nat) →
    (cases.reachedAt base).Pairwise (· < ·)
  | .nil, _ => .nil
  | .cons patterns catchAll body rest, base => by
    refine List.pairwise_append.2 ⟨List.pairwise_lt_range', ?_, fun v hv w hw => ?_⟩
    · split
      · exact .nil
      · exact rest.pairwise_reachedAt _
    · rw [List.mem_range'_1] at hv
      split at hw
      · simp at hw
      · have := rest.reachedAt_bounds (base + patterns.length + body.size) w hw
        omega

theorem bodiesAt_bounds : (cases : Cases) → (base : Nat) →
    ∀ v ∈ cases.bodiesAt base, base ≤ v ∧ v < base + cases.size
  | .nil, _ => by simp [bodiesAt]
  | .cons patterns catchAll body rest, base => by
    intro v hv
    have hb := body.entryAt_bounds (base + patterns.length)
    simp only [size]
    rcases List.mem_cons.1 hv with rfl | hv
    · omega
    · have := rest.bodiesAt_bounds (base + patterns.length + body.size) v hv
      omega

/-- No body begins at an alternative. -/
theorem ne_of_mem_bodiesAt : (cases : Cases) → (base : Nat) →
    ∀ v ∈ cases.bodiesAt base, ∀ w ∈ cases.reachedAt base, v ≠ w
  | .nil, _ => by simp [bodiesAt]
  | .cons patterns catchAll body rest, base => by
    intro v hv w hw
    have hb := body.entryAt_bounds (base + patterns.length)
    have hrb := rest.bodiesAt_bounds (base + patterns.length + body.size) v
    have hrr := rest.reachedAt_bounds (base + patterns.length + body.size) w
    have ih := rest.ne_of_mem_bodiesAt (base + patterns.length + body.size) v
    rw [bodiesAt, List.mem_cons] at hv
    rw [reachedAt, List.mem_append, List.mem_range'_1] at hw
    -- alternatives, body and further cases stand one after the other
    rcases hv with rfl | hv
    · rcases hw with hw | hw
      · omega
      · split at hw
        · simp at hw
        · have := hrr hw
          omega
    · rcases hw with hw | hw
      · have := hrb hv
        omega
      · split at hw
        · simp at hw
        · exact ih hv w hw

/-- A flat subject leads to all the alternatives that control comes to. -/
theorem offered_flat (label : Label) : (cases : Cases) → (base join : Nat) →
    cases.offered true label base join =
      (cases.reachedAt base).map ((label, ·)) ++ (cases.unmatched join).map ((.noMatch, ·))
  | .nil, _, _ => rfl
  | .cons patterns catchAll body rest, base, join => by
    rw [offered, reachedAt, unmatched_cons]
    cases catchAll with
    | true => simp
    | false => simp [rest.offered_flat label]

/-- A chain leads to the first of the alternatives that control comes to. -/
theorem offered_chain (label : Label) : (cases : Cases) → (base join : Nat) →
    cases.offered false label base join =
      if cases.reachedAt base = [] then (cases.unmatched join).map ((.noMatch, ·))
      else ((cases.reachedAt base).take 1).map ((label, ·))
  | .nil, _, _ => rfl
  | .cons [] catchAll body rest, base, join => by
    rw [offered, reachedAt, unmatched_cons]
    cases catchAll with
    | true => simp
    | false => simp [rest.offered_chain label]
  | .cons (pattern :: patterns) catchAll body rest, base, join => by
    simp [offered, reachedAt, List.range'_succ]

/-- From an alternative a chain leads to the next entry of the path. -/
theorem offered_noMatch (cases : Cases) (base join : Nat) :
    cases.offered false .noMatch base join =
      ((cases.path base join).take 1).map ((.noMatch, ·)) := by
  rw [offered_chain, path]
  cases cases.reachedAt base with
  | nil =>
    rw [if_pos rfl, List.nil_append, unmatched]
    split <;> rfl
  | cons v reached => rfl

/-- The alternatives that control comes to, and the end of the statement before them, are different
nodes. -/
theorem pairwise_sameTarget {cases : Cases} {base join : Nat} {reached : List Nat}
    (hs : reached.Sublist (cases.reachedAt base)) (hj : join < base) :
    (reached.map ((Label.always, ·)) ++ (cases.unmatched join).map ((Label.noMatch, ·)) :
      List (Label × NodeId)).Pairwise fun s t => sameTarget s t = false := by
  refine List.pairwise_append.2 ⟨List.pairwise_map.2 ?_, List.pairwise_map.2 ?_, ?_⟩
  · refine ((cases.pairwise_reachedAt base).sublist hs).imp fun h => ?_
    exact sameTarget_eq_false.2 (Nat.ne_of_lt h)
  · rw [unmatched]
    split
    · exact .nil
    · exact List.pairwise_singleton _ _
  · simp only [List.mem_map]
    rintro _ ⟨v, hv, rfl⟩ _ ⟨w, hw, rfl⟩
    have hv := cases.reachedAt_bounds base v (hs.subset hv)
    -- where no case matches, the way on leads to the join, which comes before the cases
    have hw : w = join := by
      rw [unmatched] at hw
      split at hw
      · simp at hw
      · exact List.mem_singleton.1 hw
    exact sameTarget_eq_false.2 (Nat.ne_of_gt (by omega))

/-- A second edge past the statement is dropped. -/
theorem keepFirst_append_unmatched {cases : Cases} {base join : Nat} {reached : List Nat}
    (hs : reached.Sublist (cases.reachedAt base)) (hj : join < base) :
    keepFirst sameTarget (reached.map ((Label.always, ·)) ++
        (cases.unmatched join).map ((Label.noMatch, ·)) ++
          (cases.unmatched join).map ((Label.noMatch, ·))) =
      reached.map ((Label.always, ·)) ++ (cases.unmatched join).map ((Label.noMatch, ·)) := by
  have hself := keepFirst_eq_self sameTarget (pairwise_sameTarget hs hj)
  by_cases he : cases.exhaustive = true
  · rw [unmatched, if_pos he] at hself ⊢
    simpa using hself
  · rw [unmatched, if_neg he] at hself ⊢
    rw [List.map_singleton] at hself ⊢
    rw [keepFirst_concat, hself, if_pos (by simp [sameTarget])]

/-- The edges out of the subject, one per target. -/
theorem keepFirst_subject (flat : Bool) (cases : Cases) {base join : Nat} (hj : join < base) :
    keepFirst sameTarget (cases.offered flat .always base join ++
        (if cases.exhaustive then [] else [(.noMatch, join)])) =
      (if flat then cases.reachedAt base else (cases.reachedAt base).take 1).map ((.always, ·)) ++
        (cases.unmatched join).map ((.noMatch, ·)) := by
  have hlast : (if cases.exhaustive then [] else [(Label.noMatch, join)]) =
      (cases.unmatched join).map ((.noMatch, ·)) := by
    rw [unmatched]
    split <;> rfl
  rw [hlast]
  cases flat with
  | true =>
    -- the edge past the statement is asked for twice
    rw [offered_flat, if_pos rfl]
    exact keepFirst_append_unmatched (List.Sublist.refl _) hj
  | false =>
    rw [offered_chain, if_neg Bool.false_ne_true]
    by_cases hr : cases.reachedAt base = []
    · rw [if_pos hr, hr]
      exact keepFirst_append_unmatched (List.nil_sublist (cases.reachedAt base)) hj
    · rw [if_neg hr]
      exact keepFirst_eq_self _ (pairwise_sameTarget (List.take_sublist 1 _) hj)

theorem tried_bounds : (cases : Cases) → (base : Nat) → ∀ us ∈ cases.tried base, ∀ u ∈ us,
    base ≤ u ∧ u < base + cases.size
  | .nil, _ => by simp [tried]
  | .cons patterns catchAll body rest, base => by
    intro us hus u hu
    simp only [size]
    rcases List.mem_cons.1 hus with rfl | hus
    · rw [List.mem_range'_1] at hu
      omega
    · have := rest.tried_bounds (base + patterns.length + body.size) us hus u hu
      omega

end Cases

/-! ## Drawn alternatives -/

section Drawn

variable {d : Piece}

/-- The node `u` of the piece has the given content. -/
def Piece.HasContent (d : Piece) (u : Nat) (content : Content) : Prop :=
  ∃ node, d.nodes[u]? = some node ∧ node.content = content

theorem Piece.HasContent.unique {u : Nat} {content content' : Content}
    (h : d.HasContent u content) (h' : d.HasContent u content') : content = content' := by
  obtain ⟨node, hn, rfl⟩ := h
  obtain ⟨node', hn', rfl⟩ := h'
  rw [hn] at hn'
  cases hn'
  rfl

theorem Piece.Shows.hasContent {u : Nat} {env : Env} {content : Content} {row : Row}
    (h : d.Shows u (env.node content) row) : d.HasContent u content :=
  ⟨_, h.node, rfl⟩

/-- The statements are drawn in the piece, and control enters them at the node `u`. -/
def Piece.Begins (d : Piece) (body : List Stmt) (u : Nat) : Prop :=
  ∃ cx p env base next handlers, planBody cx body = .ok p ∧
    (Plan.orIdle p).Drawn d env base next handlers ∧ u = (Plan.orIdle p).entryAt base

theorem Piece.ShowsAlternatives.hasContent {env : Env} {chained : Bool} {taken : Label × NodeId}
    {onward : List (Label × NodeId)} : (patterns : List Span) → (base : Nat) →
    d.ShowsAlternatives env chained taken onward base patterns →
      List.Forall₂ (fun pattern u => d.HasContent u (.caseTest pattern)) patterns
        (List.range' base patterns.length)
  | [], _, _ => .nil
  | [_], _, h => .cons (Shows.hasContent h) .nil
  | _ :: pattern' :: rest, base, h =>
    .cons h.1.hasContent (hasContent (pattern' :: rest) (base + 1) h.2)

/-- An alternative of a chain leads into the body of its case and to what comes after it. -/
theorem Piece.ShowsAlternatives.row_chain {env : Env} {taken : Label × NodeId} {tail : List Nat} :
    (patterns : List Span) → (base : Nat) →
    d.ShowsAlternatives env true taken ((tail.take 1).map ((.noMatch, ·))) base patterns →
      Throughout (fun u => d.row u = ⟨taken :: (nextAfter u
        (List.range' base patterns.length ++ tail)).map ((.noMatch, ·)), [], []⟩)
        base patterns.length
  | [], _, _ => .zero
  | [_], base, h => by
    refine .one ?_
    rw [h.row]
    simp [nextAfter]
  | _ :: pattern' :: rest, base, h => by
    have ih := row_chain (pattern' :: rest) (base + 1) h.2
    rw [List.length_cons, List.range'_succ]
    refine .cons ?_ fun u hu hu' => ?_
    · rw [h.1.row]
      simp [nextAfter, List.range'_succ]
    -- what comes after a node of the rest does not depend on the first alternative
    · rw [ih u hu hu', List.cons_append, nextAfter_cons_of_ne (Nat.ne_of_lt hu)]

/-- The edges out of the alternatives of drawn cases. -/
theorem Cases.row_alternative {env : Env} {join : Nat} : (cases : Cases) →
    (base index : Nat) → (reached : Bool) → cases.Drawn d env base join index reached →
    ∀ k us, (cases.tried base)[k]? = some us → ∀ u ∈ us,
      ∃ v, (cases.bodiesAt base)[k]? = some v ∧ d.row u = ⟨(.case (index + k), v) ::
        (if !env.flat && reached then
          (nextAfter u (cases.path base join)).map ((.noMatch, ·)) else []), [], []⟩
  | .nil, _, _, _, _ => by simp [tried]
  | .cons patterns catchAll body rest, base, index, reached, h => by
    obtain ⟨ha, -, hr⟩ := h
    intro k us hus u hu
    rw [path_cons]
    cases k with
    | zero =>
      obtain rfl : List.range' base patterns.length = us := by simpa [tried] using hus
      rw [List.mem_range'_1] at hu
      refine ⟨_, rfl, ?_⟩
      cases hc : !env.flat && reached with
      | false =>
        -- no alternative of the case leads on to another one
        simp only [hc, Bool.false_and, Bool.false_eq_true, if_false] at ha
        exact ha.row_eq patterns base u hu.1 hu.2
      | true =>
        simp only [hc, Bool.true_and] at ha
        have hon : (if (!catchAll) = true then
              rest.offered false .noMatch (base + patterns.length + body.size) join else []) =
            ((if catchAll then [] else
              rest.path (base + patterns.length + body.size) join).take 1).map ((.noMatch, ·)) := by
          cases catchAll with
          | true => rfl
          | false => exact rest.offered_noMatch _ join
        rw [hon] at ha
        exact ha.row_chain patterns base u hu.1 hu.2
    | succ k =>
      have hus : (rest.tried (base + patterns.length + body.size))[k]? = some us := by
        simpa [tried] using hus
      obtain ⟨v, hv, hrow⟩ := rest.row_alternative _ (index + 1) _ hr k us hus u hu
      refine ⟨v, by simpa [bodiesAt] using hv, ?_⟩
      have hle := rest.tried_bounds _ us (List.mem_of_getElem? hus) u hu
      rw [hrow, nextAfter_append_of_notMem (by rw [List.mem_range'_1]; omega),
        show index + 1 + k = index + (k + 1) by omega]
      cases catchAll with
      | true => simp [nextAfter]
      | false => simp

end Drawn

/-! ## Statements -/

/-- The alternatives that control comes to, if the cases have the given ones: those up to the first
case that accepts every subject. -/
def reachedAlternatives : List MatchCase → List (List Nat) → List Nat
  | case :: rest, us :: tried =>
    us ++ if case.head.acceptsAll then [] else reachedAlternatives rest tried
  | _, _ => []

theorem reachedAt_planCases {cx : Context} {site : Site} : (cases : List MatchCase) →
    (cases' : Cases) → planCases cx site cases = .ok cases' → ∀ base,
      cases'.reachedAt base = reachedAlternatives cases (cases'.tried base)
  | [], cases', h, base => by
    simp only [planCases, Except.ok.injEq] at h
    subst h
    rfl
  | ⟨_, head, body⟩ :: rest, cases', h, base => by
    obtain ⟨q, rest', -, hq, hr, rfl⟩ := planCases_cons_eq_ok h
    rw [Cases.reachedAt, Cases.tried, reachedAlternatives, reachedAt_planCases rest rest' hr]

/-- The alternatives of drawn cases hold the patterns of the cases, and the bodies are drawn. -/
theorem Cases.draws_planCases {d : Piece} {cx : Context} {site : Site} {env : Env} {join : Nat} :
    (cases : List MatchCase) → (cases' : Cases) → planCases cx site cases = .ok cases' →
    (base index : Nat) → (reached : Bool) → cases'.Drawn d env base join index reached →
      List.Forall₂ (fun case us => List.Forall₂
        (fun pattern u => d.HasContent u (.caseTest pattern.span)) case.head.patterns us)
        cases (cases'.tried base) ∧
      List.Forall₂ (fun case v => d.Begins case.body v) cases (cases'.bodiesAt base)
  | [], cases', h, _, _, _, _ => by
    simp only [planCases, Except.ok.injEq] at h
    subst h
    exact ⟨.nil, .nil⟩
  | ⟨_, head, body⟩ :: rest, cases', h, base, index, reached, hd => by
    obtain ⟨q, rest', -, hq, hr, rfl⟩ := planCases_cons_eq_ok h
    obtain ⟨ha, hb, hd⟩ := hd
    obtain ⟨htried, hbodies⟩ := draws_planCases rest rest' hr _ _ _ hd
    have ha := ha.hasContent _ base
    rw [List.forall₂_map_left_iff] at ha
    exact ⟨.cons ha htried, .cons ⟨cx, q, env, _, _, [], hq, hb, rfl⟩ hbodies⟩

/-! ## Drawn statements -/

/-- The nodes of a drawn `match`. -/
structure MatchNodes where
  /-- The test of the subject. -/
  subject : Nat
  /-- Where the statement ends. -/
  join : Nat
  /-- The alternatives, case by case. -/
  tried : List (List Nat)
  /-- Where the bodies of the cases begin. -/
  bodies : List Nat

namespace MatchNodes

/-- The nodes of a `match` that is laid out from `base` on. -/
def ofCases (base : Nat) (cases : Cases) : MatchNodes :=
  ⟨base, base + 1, cases.tried (base + 2), cases.bodiesAt (base + 2)⟩

/-- The alternatives that control comes to, in order. -/
def reached (m : MatchNodes) (cases : List MatchCase) : List Nat :=
  reachedAlternatives cases m.tried

/-- Where control goes if no alternative is taken: to the end of the statement, unless one of the
cases accepts every subject. -/
def unmatched (m : MatchNodes) (cases : List MatchCase) : List Nat :=
  if cases.any (·.head.acceptsAll) then [] else [m.join]

/-- The alternatives that control comes to, and where it goes then. -/
def path (m : MatchNodes) (cases : List MatchCase) : List Nat :=
  m.reached cases ++ m.unmatched cases

end MatchNodes

/-- A `match` is drawn in the piece with the given nodes. -/
structure Piece.DrawsMatch (d : Piece) (flat : Bool) (site : Site) (subject : Span)
    (cases : List MatchCase) (m : MatchNodes) : Prop where
  drawn : ∃ cx region cases' env base next handlers,
    (Stmt.dispatch site subject cases).plan cx = .ok (some (.dispatch subject region cases')) ∧
    env.flat = flat ∧ (Plan.dispatch subject region cases').Drawn d env base next handlers ∧
    m = .ofCases base cases'
  /-- The subject and the end of the statement are nodes of their own. -/
  subject : d.HasContent m.subject (.test subject)
  join : d.HasContent m.join .join
  /-- Every case has one alternative per pattern. -/
  tried : List.Forall₂ (fun case us =>
    List.Forall₂ (fun pattern u => d.HasContent u (.caseTest pattern.span)) case.head.patterns us)
    cases m.tried
  /-- Every case has its body. -/
  bodies : List.Forall₂ (fun case v => d.Begins case.body v) cases m.bodies

namespace Piece.DrawsMatch

variable {d : Piece} {flat : Bool} {site : Site} {subject : Span} {cases : List MatchCase}
  {m : MatchNodes}

/-- The cases of the plan of a `match`. -/
theorem planCases_eq_ok {cx : Context} {region : RegionId} {cases' : Cases}
    (h : (Stmt.dispatch site subject cases).plan cx =
      .ok (some (.dispatch subject region cases'))) : planCases cx site cases = .ok cases' := by
  obtain ⟨region', cases'', -, -, hc, he⟩ := Stmt.plan_dispatch_eq_ok h
  cases he
  exact hc

theorem of_drawn {cx : Context} {env : Env} {base : Nat} {next handlers : List (Label × NodeId)}
    {region : RegionId} {cases' : Cases}
    (hp : (Stmt.dispatch site subject cases).plan cx =
      .ok (some (.dispatch subject region cases')))
    (hd : (Plan.dispatch subject region cases').Drawn d env base next handlers) :
    d.DrawsMatch env.flat site subject cases (.ofCases base cases') := by
  obtain ⟨htried, hbodies⟩ :=
    Cases.draws_planCases cases cases' (planCases_eq_ok hp) (base + 2) 0 true hd.2.2
  exact ⟨⟨cx, region, cases', env, base, next, handlers, hp, rfl, hd, rfl⟩, hd.1.hasContent,
    hd.2.1.hasContent, htried, hbodies⟩

/-- The subject leads to the alternatives, or to the first of them, and past the statement if no
case accepts every subject. -/
theorem out_subject (h : d.DrawsMatch flat site subject cases m) :
    keepFirst sameTarget (d.row m.subject).out =
      (if flat then m.reached cases else (m.reached cases).take 1).map ((.always, ·)) ++
        (m.unmatched cases).map ((.noMatch, ·)) := by
  obtain ⟨cx, region, cases', env, base, next, handlers, hp, rfl, hd, rfl⟩ := h.drawn
  have hc := planCases_eq_ok hp
  rw [MatchNodes.ofCases, hd.1.row, Cases.keepFirst_subject env.flat cases' (Nat.lt_succ_self _),
    Cases.unmatched, exhaustive_planCases hc, reachedAt_planCases cases cases' hc]
  rfl

/-- An alternative leads into the body of its case, and in a chain to what comes after it. -/
theorem row_alternative (h : d.DrawsMatch flat site subject cases m) {k u : Nat} {us : List Nat}
    (hus : m.tried[k]? = some us) (hu : u ∈ us) :
    ∃ v, m.bodies[k]? = some v ∧ d.row u = ⟨(.case k, v) ::
      (if flat then [] else (nextAfter u (m.path cases)).map ((.noMatch, ·))), [], []⟩ := by
  obtain ⟨cx, region, cases', env, base, next, handlers, hp, rfl, hd, rfl⟩ := h.drawn
  have hc := planCases_eq_ok hp
  obtain ⟨v, hv, hrow⟩ := cases'.row_alternative (base + 2) 0 true hd.2.2 k us hus u hu
  refine ⟨v, hv, ?_⟩
  have hflat : (env.within region).flat = env.flat := rfl
  rw [hrow, hflat, Nat.zero_add, Cases.path, Cases.unmatched, exhaustive_planCases hc,
    reachedAt_planCases cases cases' hc]
  cases env.flat <;> rfl

/-- No body begins where an alternative leads on to. -/
theorem ne_of_mem_path (h : d.DrawsMatch flat site subject cases m) {v w : Nat}
    (hv : v ∈ m.bodies) (hw : w ∈ m.path cases) : v ≠ w := by
  obtain ⟨cx, region, cases', env, base, next, handlers, hp, -, -, rfl⟩ := h.drawn
  have hc := planCases_eq_ok hp
  rcases List.mem_append.1 hw with hw | hw
  · rw [MatchNodes.reached, MatchNodes.ofCases, ← reachedAt_planCases cases cases' hc] at hw
    exact cases'.ne_of_mem_bodiesAt (base + 2) v hv w hw
  · -- the statement ends before its bodies
    have hb := cases'.bodiesAt_bounds (base + 2) v hv
    have hw : w = base + 1 := by
      rw [MatchNodes.unmatched] at hw
      split at hw
      · simp at hw
      · exact List.mem_singleton.1 hw
    omega

end Piece.DrawsMatch

end Flowgraph
