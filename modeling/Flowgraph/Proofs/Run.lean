import Flowgraph.Proofs.Outcome

/-!
# Runs of a body

A run of a body is what can be observed when it is executed without exceptions and every test may
go either way: the events in their order, and how the body ends.  The runs of compound statements
are made from the runs of their parts.

The reading that collects event sequences, applied to a body, yields its runs, each followed by what
its ending leads to.

## Main definitions

* `Behaviour` : runs, and the ways to put them together.
* `Stmt.runs`, `bodyRuns` : the runs of statements.
* `traces` : the reading that collects event sequences.

## Main results

* `mem_bodyOutcomes_of_runs` : a run of a body ends in one of its outcomes.
* `bodyFlow_traces` : reading a body collects its runs.
-/

namespace Flowgraph

/-! ## Runs -/

/-- Runs: the events of a run in their order, and how it ends. -/
abbrev Behaviour := List Event → Outcome → Prop

/-- A jump that was held up is carried out again. -/
def Outcome.again : Outcome → List Event
  | .normal => []
  | .jump site means => [.stmt (.jump site means)]

/-- A jump out of a `with` releases the resource and is carried out again. -/
def Outcome.releasing (header : Span) : Outcome → List Event
  | .normal => []
  | .jump site means => [.release header, .stmt (.jump site means)]

/-- The tests of alternatives that were not taken: only in a chain are they seen. -/
def rejected (flat : Bool) (patterns : List Pattern) : List Event :=
  if flat then [] else patterns.map fun pattern => .caseTest pattern.span

namespace Behaviour

/-- These events and this ending, and no other run. -/
def only (events : List Event) (ending : Outcome) : Behaviour :=
  fun t o => t = events ∧ o = ending

/-- The event happens, and then a run of `b`. -/
def after (e : Event) (b : Behaviour) : Behaviour :=
  fun t o => ∃ t', t = e :: t' ∧ b t' o

/-- Either behaviour. -/
def either (a b : Behaviour) : Behaviour :=
  fun t o => a t o ∨ b t o

/-- One behaviour and then another, which a jump out of the first prevents. -/
inductive Seq (first rest : Behaviour) : Behaviour
  | goesOn {t t' : List Event} {o : Outcome} (h : first t .normal) (h' : rest t' o) :
    Seq first rest (t ++ t') o
  | stops {t : List Event} {site : Site} {means : Jump} (h : first t (.jump site means)) :
    Seq first rest t (.jump site means)

/-- A loop: the test is made before each round, and when it fails the `else` clause runs. -/
inductive Loop (test : Event) (body orelse : Behaviour) : Behaviour
  | exhausted {t : List Event} {o : Outcome} (h : orelse t o) : Loop test body orelse (test :: t) o
  | goesRound {t t' : List Event} {o : Outcome} (h : body t .normal)
    (h' : Loop test body orelse t' o) : Loop test body orelse (test :: (t ++ t')) o
  | continues {t t' : List Event} {o : Outcome} {site : Site} (h : body t (.jump site .continuing))
    (h' : Loop test body orelse t' o) : Loop test body orelse (test :: (t ++ t')) o
  | breaks {t : List Event} {site : Site} (h : body t (.jump site .breaking)) :
    Loop test body orelse (test :: t) .normal
  | leaves {t : List Event} {site : Site} {means : Jump} (h : body t (.jump site means))
    (hm : means.staysInLoop = false) : Loop test body orelse (test :: t) (.jump site means)

/-- A behaviour that a `finally` clause watches over: the clause runs however the behaviour ends,
and a jump out of the clause takes the place of that ending. -/
inductive Finally (inner final : Behaviour) : Behaviour
  | resumes {t t' : List Event} {o : Outcome} (h : inner t o) (h' : final t' .normal) :
    Finally inner final (t ++ t' ++ o.again) o
  | replaced {t t' : List Event} {o : Outcome} {site : Site} {means : Jump} (h : inner t o)
    (h' : final t' (.jump site means)) : Finally inner final (t ++ t') (.jump site means)

/-- The body of a `with`, whose resource a jump releases on its way out. -/
inductive Holding (header : Span) (body : Behaviour) : Behaviour
  | ends {t : List Event} {o : Outcome} (h : body t o) :
    Holding header body (t ++ o.releasing header) o

/-- A case of a `match`: one of its alternatives is taken, or none of them and the next case is
tried. -/
inductive Case (flat : Bool) (head : CaseHead) (body rest : Behaviour) : Behaviour
  | taken {before after : List Pattern} {pattern : Pattern} {t : List Event} {o : Outcome}
    (hp : head.patterns = before ++ pattern :: after) (h : body t o) :
    Case flat head body rest (rejected flat before ++ .caseTest pattern.span :: t) o
  | passed {t : List Event} {o : Outcome} (ha : head.acceptsAll = false) (h : rest t o) :
    Case flat head body rest (rejected flat head.patterns ++ t) o

end Behaviour

open Behaviour

mutual

/-- The runs of a statement. -/
def Stmt.runs (markers flat : Bool) : Stmt → Behaviour
  | .simple site => only [.stmt (.simple site)] .normal
  | .pass site => only [.stmt (.pass site)] .normal
  | .marker site name => only [.stmt (.marker site name)] .normal
  | .yield site => only [.stmt (.yield site)] .normal
  | .jump site means => only [.stmt (.jump site means)] (.jump site means)
  | .branch _ test body clauses =>
    after (.test test) (either (bodyRuns markers flat body) (clauseRuns markers flat clauses))
  | .loop _ head body orelse =>
    Loop (.test head.span) (bodyRuns markers flat body) (bodyRuns markers flat orelse)
  | .attempt _ body _ orelse final =>
    let inner := Seq (bodyRuns markers flat body) (bodyRuns markers flat orelse)
    if final.isEmpty then inner else Finally inner (bodyRuns markers flat final)
  | .hold site isAsync header body =>
    after (.stmt (.hold site isAsync header body)) (Holding header (bodyRuns markers flat body))
  | .dispatch _ subject cases =>
    -- if no case accepts every subject, the statement may be over before any is tried
    after (.test subject) (either (caseRuns markers flat cases)
      fun t o => cases.any (·.head.acceptsAll) = false ∧ only [] .normal t o)
  | .unsupported _ => only [] .normal

/-- The runs of a sequence of statements; markers may be ignored. -/
def bodyRuns (markers flat : Bool) : List Stmt → Behaviour
  | [] => only [] .normal
  | s :: rest =>
    if s.kept markers then Seq (s.runs markers flat) (bodyRuns markers flat rest)
    else bodyRuns markers flat rest

/-- The runs of the clauses of an `if`. -/
def clauseRuns (markers flat : Bool) : List (Clause (Option Span) Stmt) → Behaviour
  | [] => only [] .normal
  | ⟨_, none, body⟩ :: _ => bodyRuns markers flat body
  | ⟨_, some test, body⟩ :: rest =>
    after (.test test) (either (bodyRuns markers flat body) (clauseRuns markers flat rest))

/-- The runs of the cases of a `match`. -/
def caseRuns (markers flat : Bool) : List (Clause CaseHead Stmt) → Behaviour
  | [] => only [] .normal
  | ⟨_, head, body⟩ :: rest =>
    Case flat head (bodyRuns markers flat body) (caseRuns markers flat rest)

end

/-! ## Runs end as bodies do -/

mutual

/-- A run of a statement ends in one of its outcomes. -/
theorem Stmt.mem_outcomes_of_runs {markers flat : Bool} : (s : Stmt) → {t : List Event} →
    {o : Outcome} → s.runs markers flat t o → o ∈ s.outcomes
  | .simple _, _, _, h | .pass _, _, _, h | .marker .., _, _, h | .yield _, _, _, h
  | .jump .., _, _, h | .unsupported _, _, _, h => by
    simpa [Stmt.outcomes] using h.2
  | .branch _ _ body clauses, _, _, ⟨_, _, h⟩ => by
    rcases h with h | h
    · exact List.mem_append_left _ (mem_bodyOutcomes_of_runs body h)
    · exact List.mem_append_right _ (mem_clauseOutcomes_of_runs clauses h)
  | .loop _ head body orelse, _, _, h => by
    rw [Stmt.runs] at h
    -- by induction on the rounds: only the last one says how the loop ends
    induction h with
    | exhausted h => exact List.mem_append_right _ (mem_bodyOutcomes_of_runs orelse h)
    | goesRound _ _ ih => exact ih
    | continues _ _ ih => exact ih
    | breaks h =>
      exact List.mem_append_left _ (List.mem_flatMap.2
        ⟨_, mem_bodyOutcomes_of_runs body h, by simp [Outcome.leavingLoop]⟩)
    | leaves h hm =>
      next means =>
      refine List.mem_append_left _ (List.mem_flatMap.2 ⟨_, mem_bodyOutcomes_of_runs body h, ?_⟩)
      cases means <;> simp_all [Outcome.leavingLoop, Jump.staysInLoop]
  | .attempt _ body handlers orelse final, t, o, h => by
    -- no run takes a handler, so its outcomes are not needed
    have inner : ∀ {t o}, Seq (bodyRuns markers flat body) (bodyRuns markers flat orelse) t o →
        o ∈ thenOutcomes (bodyOutcomes body) (bodyOutcomes orelse) ++ handlerOutcomes handlers := by
      intro t o h
      refine List.mem_append_left _ (mem_thenOutcomes.2 ?_)
      cases h with
      | goesOn h h' =>
        exact .inl ⟨mem_bodyOutcomes_of_runs body h, mem_bodyOutcomes_of_runs orelse h'⟩
      | stops h => exact .inr ⟨mem_bodyOutcomes_of_runs body h, by simp⟩
    rw [Stmt.runs] at h
    refine List.mem_flatMap.2 ?_
    split at h
    next hn =>
      obtain rfl := List.isEmpty_iff.1 hn
      exact ⟨o, inner h, by simp [bodyOutcomes, mem_thenOutcomes]⟩
    next =>
      cases h with
      | resumes h h' =>
        exact ⟨o, inner h, mem_thenOutcomes.2
          (.inl ⟨mem_bodyOutcomes_of_runs final h', by simp⟩)⟩
      | replaced h h' =>
        exact ⟨_, inner h, mem_thenOutcomes.2
          (.inr ⟨mem_bodyOutcomes_of_runs final h', by simp⟩)⟩
  | .hold _ _ _ body, _, _, ⟨_, _, .ends h⟩ => mem_bodyOutcomes_of_runs body h
  | .dispatch _ _ cases, _, _, ⟨_, _, h⟩ => by
    rcases h with h | ⟨ha, -, rfl⟩
    · exact mem_caseOutcomes_of_runs cases h
    · exact normal_mem_caseOutcomes ha

/-- A run of a body ends in one of its outcomes. -/
theorem mem_bodyOutcomes_of_runs {markers flat : Bool} : (body : List Stmt) → {t : List Event} →
    {o : Outcome} → bodyRuns markers flat body t o → o ∈ bodyOutcomes body
  | [], _, _, h => by simpa [bodyOutcomes] using h.2
  | s :: rest, t, o, h => by
    rw [bodyRuns] at h
    refine mem_thenOutcomes.2 ?_
    split at h
    next hk =>
      cases h with
      | goesOn h h' => exact .inl ⟨s.mem_outcomes_of_runs h, mem_bodyOutcomes_of_runs rest h'⟩
      | stops h => exact .inr ⟨s.mem_outcomes_of_runs h, by simp⟩
    next hk =>
      -- only a marker is left out, and it completes
      refine .inl ⟨?_, mem_bodyOutcomes_of_runs rest h⟩
      cases s <;> simp [Stmt.kept, Stmt.outcomes] at hk ⊢

theorem mem_clauseOutcomes_of_runs {markers flat : Bool} : (clauses : List BranchClause) →
    {t : List Event} → {o : Outcome} → clauseRuns markers flat clauses t o →
      o ∈ clauseOutcomes clauses
  | [], _, _, h => by simpa [clauseOutcomes] using h.2
  | ⟨_, none, body⟩ :: _, _, _, h => mem_bodyOutcomes_of_runs body h
  | ⟨_, some _, body⟩ :: rest, _, _, ⟨_, _, h⟩ => by
    rcases h with h | h
    · exact List.mem_append_left _ (mem_bodyOutcomes_of_runs body h)
    · exact List.mem_append_right _ (mem_clauseOutcomes_of_runs rest h)

theorem mem_caseOutcomes_of_runs {markers flat : Bool} : (cases : List MatchCase) →
    {t : List Event} → {o : Outcome} → caseRuns markers flat cases t o → o ∈ caseOutcomes cases
  | [], _, _, h => by simpa [caseOutcomes] using h.2
  | ⟨_, head, body⟩ :: rest, t, o, h => by
    rw [caseOutcomes]
    cases h with
    | taken hp h => simp [hp, mem_bodyOutcomes_of_runs body h]
    | passed ha h => simp [ha, mem_caseOutcomes_of_runs rest h]

end

/-! ## Reading a body collects its runs -/

/-- The reading that collects event sequences.  Exceptions and suspensions are left out. -/
def traces : Reading (Set (List Event)) where
  see e := Set.image (e :: ·)
  leave c := {t | c.isFinal = true ∧ t = []}
  heed _ := ⊥
  see_mono _ _ _ h := Set.image_mono h
  heed_bot := rfl
  heed_sup _ _ := (sup_idem _).symm
  see_heed _ _ _ := by simp

@[simp] theorem see_traces (e : Event) (X : Set (List Event)) :
    traces.see e X = (e :: ·) '' X := rfl

@[simp] theorem heed_traces (X : Set (List Event)) : traces.heed X = ⊥ := rfl

theorem seeAll_traces (events : List Event) (X : Set (List Event)) :
    traces.seeAll events X = (events ++ ·) '' X := by
  induction events with
  | nil => simp
  | cons e events ih => simp [ih, Set.image_image]

namespace Behaviour

/-- The runs of a behaviour, each followed by what its ending leads to. -/
def follow (b : Behaviour) (κ : Outcome → Set (List Event)) : Set (List Event) :=
  {t | ∃ t₁ o, b t₁ o ∧ ∃ t₂ ∈ κ o, t₁ ++ t₂ = t}

variable {b c : Behaviour} {κ : Outcome → Set (List Event)}

theorem append_mem_follow {t t' : List Event} {o : Outcome} (h : b t o) (h' : t' ∈ κ o) :
    t ++ t' ∈ b.follow κ :=
  ⟨t, o, h, t', h', rfl⟩

theorem follow_mono {κ' : Outcome → Set (List Event)} (h : κ ≤ κ') : b.follow κ ≤ b.follow κ' := by
  rintro _ ⟨t, o, hb, t', ht', rfl⟩
  exact append_mem_follow hb (h o ht')

theorem follow_only (events : List Event) (o : Outcome) :
    (only events o).follow κ = (events ++ ·) '' κ o := by
  ext t
  constructor
  · rintro ⟨_, _, ⟨rfl, rfl⟩, t', ht', rfl⟩
    exact ⟨t', ht', rfl⟩
  · rintro ⟨t', ht', rfl⟩
    exact ⟨events, o, ⟨rfl, rfl⟩, t', ht', rfl⟩

theorem follow_after (e : Event) : (after e b).follow κ = traces.see e (b.follow κ) := by
  ext t
  constructor
  · rintro ⟨_, o, ⟨t, rfl, h⟩, t', ht', rfl⟩
    exact ⟨t ++ t', append_mem_follow h ht', rfl⟩
  · rintro ⟨_, ⟨t, o, h, t', ht', rfl⟩, rfl⟩
    exact ⟨e :: t, o, ⟨t, rfl, h⟩, t', ht', rfl⟩

theorem follow_either : (either b c).follow κ = b.follow κ ⊔ c.follow κ := by
  ext t
  constructor
  · rintro ⟨t, o, h | h, t', ht', rfl⟩
    · exact .inl (append_mem_follow h ht')
    · exact .inr (append_mem_follow h ht')
  · rintro (⟨t, o, h, t', ht', rfl⟩ | ⟨t, o, h, t', ht', rfl⟩)
    · exact append_mem_follow (.inl h) ht'
    · exact append_mem_follow (.inr h) ht'

theorem follow_seq : (Seq b c).follow κ = b.follow (continueWith (c.follow κ) κ) := by
  ext t
  constructor
  · rintro ⟨_, o, h, t', ht', rfl⟩
    cases h with
    | goesOn h h' =>
      rw [List.append_assoc]
      exact append_mem_follow h (append_mem_follow h' ht')
    -- a jump out of the first part does not come to the second one
    | stops h => exact append_mem_follow h ht'
  · rintro ⟨t, o, h, t', ht', rfl⟩
    cases o with
    | normal =>
      obtain ⟨t', o, h', t'', ht'', rfl⟩ := ht'
      rw [← List.append_assoc]
      exact append_mem_follow (.goesOn h h') ht''
    | jump site means => exact append_mem_follow (.stops h) ht'

theorem loopBody_mono {V : Type} [CompleteLattice V] (κ : Outcome → V) :
    Monotone fun x => loopBody x κ := by
  rintro x y h (- | ⟨site, - | - | - | -⟩)
  · exact h
  · exact le_rfl
  · exact le_rfl
  · exact le_rfl
  · exact h

/-- The runs of a loop are the least solution of one round and what follows it. -/
theorem follow_loop (test : Event) : (Loop test b c).follow κ =
    least fun X => traces.see test (b.follow (loopBody X κ) ⊔ c.follow κ) := by
  have hmono : Monotone fun X => traces.see test (b.follow (loopBody X κ) ⊔ c.follow κ) :=
    fun X Y h => traces.see_mono test (sup_le_sup_right (follow_mono (loopBody_mono κ h)) _)
  refine le_antisymm ?_ (least_le ?_)
  · -- a run of the loop is in every solution, by induction on its rounds
    rintro _ ⟨t, o, h, t', ht', rfl⟩
    induction h with
    | exhausted h =>
      rw [← map_least hmono]
      exact ⟨_, .inr (append_mem_follow h ht'), rfl⟩
    | goesRound h _ ih =>
      rw [← map_least hmono, List.cons_append, List.append_assoc]
      exact ⟨_, .inl (append_mem_follow h (ih ht')), rfl⟩
    | continues h _ ih =>
      rw [← map_least hmono, List.cons_append, List.append_assoc]
      exact ⟨_, .inl (append_mem_follow h (ih ht')), rfl⟩
    | breaks h =>
      rw [← map_least hmono]
      exact ⟨_, .inl (append_mem_follow h ht'), rfl⟩
    | @leaves _ _ means h hm =>
      rw [← map_least hmono]
      refine ⟨_, .inl (append_mem_follow h ?_), rfl⟩
      cases means <;> first | exact ht' | simp [Jump.staysInLoop] at hm
  · -- the runs are a solution: a round in front of a run is a run
    rintro _ ⟨_, ⟨t, o, h, t', ht', rfl⟩ | ⟨t, o, h, t', ht', rfl⟩, rfl⟩
    · have round : ∀ t' ∈ (Loop test b c).follow κ, (∀ t'' o, Loop test b c t'' o →
          Loop test b c (test :: (t ++ t'')) o) → test :: (t ++ t') ∈ (Loop test b c).follow κ := by
        rintro _ ⟨t', o, h', t'', ht'', rfl⟩ hround
        rw [← List.append_assoc, ← List.cons_append]
        exact append_mem_follow (hround t' o h') ht''
      -- the ways in which a round ends, in the order of the kinds of jump
      rcases o with - | ⟨site, - | - | - | -⟩
      · exact round t' ht' fun _ _ h' => .goesRound h h'
      · exact append_mem_follow (Loop.leaves h rfl) ht'
      · exact append_mem_follow (Loop.leaves h rfl) ht'
      · exact append_mem_follow (Loop.breaks h) ht'
      · exact round t' ht' fun _ _ h' => .continues h h'
    · exact append_mem_follow (Loop.exhausted h) ht'

theorem mem_resumed_traces {o : Outcome} {t : List Event} :
    t ∈ traces.resumed κ o ↔ ∃ t' ∈ κ o, o.again ++ t' = t := by
  cases o <;> simp [Reading.resumed, Outcome.again]

theorem follow_finally : (Finally b c).follow κ =
    b.follow fun o => c.follow (continueWith (traces.resumed κ o) κ) := by
  ext t
  constructor
  · rintro ⟨_, o, h, t', ht', rfl⟩
    cases h with
    -- the clause completes, and the outcome goes on; or it makes an outcome of its own
    | resumes h h' =>
      rw [List.append_assoc, List.append_assoc]
      exact append_mem_follow h (append_mem_follow h' (mem_resumed_traces.2 ⟨t', ht', rfl⟩))
    | replaced h h' =>
      rw [List.append_assoc]
      exact append_mem_follow h (append_mem_follow h' ht')
  · rintro ⟨t, o, h, _, ⟨t', o', h', t'', ht'', rfl⟩, rfl⟩
    cases o' with
    | normal =>
      obtain ⟨t'', hκ, rfl⟩ := mem_resumed_traces.1 ht''
      rw [← List.append_assoc, ← List.append_assoc]
      exact append_mem_follow (.resumes h h') hκ
    | jump site means =>
      rw [← List.append_assoc]
      exact append_mem_follow (.replaced h h') ht''

theorem mem_released_traces {header : Span} {o : Outcome} {t : List Event} :
    t ∈ traces.released header κ o ↔ ∃ t' ∈ κ o, o.releasing header ++ t' = t := by
  cases o <;> simp [Reading.released, Reading.resumed, Outcome.releasing]

theorem follow_holding (header : Span) :
    (Holding header b).follow κ = b.follow (traces.released header κ) := by
  ext t
  constructor
  · rintro ⟨_, o, ⟨h⟩, t', ht', rfl⟩
    rw [List.append_assoc]
    exact append_mem_follow h (mem_released_traces.2 ⟨t', ht', rfl⟩)
  · rintro ⟨t, o, h, _, ht', rfl⟩
    obtain ⟨t', hκ, rfl⟩ := mem_released_traces.1 ht'
    rw [← List.append_assoc]
    exact append_mem_follow (.ends h) hκ

/-- A member of a list is its head, or a member of its tail. -/
theorem exists_split_cons {α : Type} {P : List α → α → Prop} {a : α} {l : List α} :
    (∃ before x after, a :: l = before ++ x :: after ∧ P before x) ↔
      P [] a ∨ ∃ before x after, l = before ++ x :: after ∧ P (a :: before) x := by
  constructor
  · rintro ⟨_ | ⟨a, before⟩, x, after, h, hP⟩
    · cases h
      exact .inl hP
    · cases h
      exact .inr ⟨before, x, after, rfl, hP⟩
  · rintro (h | ⟨before, x, after, rfl, h⟩)
    · exact ⟨[], a, l, rfl, h⟩
    · exact ⟨a :: before, x, after, rfl, h⟩

/-- The event sequences of a case: some alternative is tried last and taken, or all of them are
tried and what follows them is `Y`. -/
theorem mem_foldr_traces (flat : Bool) (X Y : Set (List Event)) (patterns : List Pattern)
    {t : List Event} :
    t ∈ patterns.foldr
        (fun pattern Z =>
          if flat then traces.see (.caseTest pattern.span) X ⊔ Z
          else traces.see (.caseTest pattern.span) (X ⊔ Z)) Y ↔
      (∃ before pattern after, patterns = before ++ pattern :: after ∧
        ∃ t' ∈ X, rejected flat before ++ .caseTest pattern.span :: t' = t) ∨
      ∃ t' ∈ Y, rejected flat patterns ++ t' = t := by
  -- by induction on the alternatives, which the fold meets from the first one on
  induction patterns generalizing t with
  | nil => simp [rejected]
  | cons pattern patterns ih =>
    rw [List.foldr_cons, exists_split_cons]
    cases flat with
    -- flat: the alternatives before the one that is taken leave no trace
    | true =>
      rw [if_pos rfl]
      constructor
      · rintro (⟨t', ht', rfl⟩ | ht)
        · exact .inl (.inl ⟨t', ht', rfl⟩)
        · exact (ih.1 ht).imp_left .inr
      · rintro ((⟨t', ht', rfl⟩ | h) | h)
        · exact .inl ⟨t', ht', rfl⟩
        · exact .inr (ih.2 (.inl h))
        · exact .inr (ih.2 (.inr h))
    -- a chain: a rejected alternative has been tested first
    | false =>
      rw [if_neg Bool.false_ne_true]
      constructor
      · rintro ⟨t, ht | ht, rfl⟩
        · exact .inl (.inl ⟨t, ht, rfl⟩)
        · rcases ih.1 ht with ⟨before, x, after, hp, t', ht', rfl⟩ | ⟨t', ht', rfl⟩
          · exact .inl (.inr ⟨before, x, after, hp, t', ht', rfl⟩)
          · exact .inr ⟨t', ht', rfl⟩
      · rintro ((⟨t', ht', rfl⟩ | ⟨before, x, after, hp, t', ht', rfl⟩) | ⟨t', ht', rfl⟩)
        · exact ⟨t', .inl ht', rfl⟩
        · exact ⟨_, .inr (ih.2 (.inl ⟨before, x, after, hp, t', ht', rfl⟩)), rfl⟩
        · exact ⟨_, .inr (ih.2 (.inr ⟨t', ht', rfl⟩)), rfl⟩

theorem follow_case (flat : Bool) (head : CaseHead) : (Case flat head b c).follow κ =
    head.patterns.foldr
      (fun pattern Z =>
        if flat then traces.see (.caseTest pattern.span) (b.follow κ) ⊔ Z
        else traces.see (.caseTest pattern.span) (b.follow κ ⊔ Z))
      (if head.acceptsAll then ⊥ else c.follow κ) := by
  ext t
  rw [mem_foldr_traces]
  constructor
  · rintro ⟨_, o, h, t', ht', rfl⟩
    cases h with
    | taken hp h =>
      exact .inl ⟨_, _, _, hp, _, append_mem_follow h ht', by simp⟩
    | passed ha h =>
      exact .inr ⟨_, by simpa [ha] using append_mem_follow h ht', by simp⟩
  · rintro (⟨before, pattern, rest, hp, _, ⟨t, o, h, t', ht', rfl⟩, rfl⟩ | ⟨_, ht, rfl⟩)
    · rw [← List.cons_append, ← List.append_assoc]
      exact append_mem_follow (.taken hp h) ht'
    · -- the alternatives are all rejected, so the case does not accept every subject
      split at ht
      · exact ht.elim
      · next ha =>
        obtain ⟨t, o, h, t', ht', rfl⟩ := ht
        rw [← List.append_assoc]
        exact append_mem_follow (.passed (by simpa using ha) h) ht'

end Behaviour

/-- What the outcomes of the clauses of a `try` lead to, once the `finally` clause has run. -/
theorem follow_afterFinal {markers flat : Bool} (b : Behaviour) (κ : Outcome → Set (List Event))
    {final : List Stmt}
    (hfinal : ∀ κ, bodyFlow traces markers flat κ ⊥ final =
      (bodyRuns markers flat final).follow κ) :
    b.follow (afterFinal traces markers flat κ final) =
      follow (if final.isEmpty then b else Finally b (bodyRuns markers flat final)) κ := by
  have hafter : afterFinal traces markers flat κ final = fun o =>
      if final.isEmpty then κ o
      else (bodyRuns markers flat final).follow (continueWith (traces.resumed κ o) κ) := by
    funext o
    rw [afterFinal, hfinal]
  rw [hafter]
  split
  · rfl
  · exact follow_finally.symm

mutual

/-- Reading a statement collects its runs. -/
theorem Stmt.flow_traces (markers flat : Bool) (κ : Outcome → Set (List Event))
    (caught : Set (List Event)) : (s : Stmt) →
      s.flow traces markers flat κ caught = (s.runs markers flat).follow κ
  | .simple site | .pass site | .marker site name | .jump site means => by
    simp [Stmt.flow, Stmt.runs, follow_only]
  | .yield site => by
    -- a suspension is not an ending, so no path stops at it
    have hleave : traces.leave (.suspends site) = ∅ := by
      simp [traces, ExitCause.isFinal]
    simp [Stmt.flow, Stmt.runs, follow_only, hleave]
  | .unsupported site => by
    simp [Stmt.flow, Stmt.runs, follow_only]
  | .branch site test body clauses => by
    rw [Stmt.flow, bodyFlow_traces markers flat κ ⊥ body, clausesFlow_traces markers flat κ clauses,
      Stmt.runs, follow_after, follow_either, heed_traces, sup_bot_eq]
  | .loop site head body orelse => by
    have hb := fun X => bodyFlow_traces markers flat (loopBody X κ) ⊥ body
    have ho := bodyFlow_traces markers flat κ ⊥ orelse
    simp only [Stmt.flow, hb, ho, Stmt.runs, follow_loop, heed_traces, sup_bot_eq]
  | .attempt site body handlers orelse final => by
    have hf := fun κ => bodyFlow_traces markers flat κ ⊥ final
    -- stated for `afterFinal`, of which the continuation in `Stmt.flow` is the unfolding
    refine (bodyFlow_traces markers flat (continueWith (bodyFlow traces markers flat
      (afterFinal traces markers flat κ final) ⊥ orelse) (afterFinal traces markers flat κ final))
      _ body).trans ?_
    rw [bodyFlow_traces markers flat _ ⊥ orelse, ← follow_seq, follow_afterFinal _ κ hf, Stmt.runs]
  | .hold site isAsync header body => by
    rw [Stmt.flow, bodyFlow_traces markers flat _ ⊥ body, Stmt.runs, follow_after, follow_holding,
      heed_traces, sup_bot_eq]
  | .dispatch site subject cases => by
    rw [Stmt.flow, casesFlow_traces markers flat κ cases, Stmt.runs, follow_after, follow_either,
      heed_traces, sup_bot_eq]
    -- what remains is the run that takes no case
    congr 2
    cases ha : cases.any (·.head.acceptsAll) with
    | true => simp [follow]
    | false => simpa using (follow_only [] .normal).symm

/-- Reading a body collects its runs. -/
theorem bodyFlow_traces (markers flat : Bool) (κ : Outcome → Set (List Event))
    (caught : Set (List Event)) : (body : List Stmt) →
      bodyFlow traces markers flat κ caught body = (bodyRuns markers flat body).follow κ
  | [] => by simp [bodyFlow, bodyRuns, follow_only]
  | s :: rest => by
    rw [bodyFlow, bodyRuns]
    split
    · rw [s.flow_traces markers flat _ caught, bodyFlow_traces markers flat κ ⊥ rest, follow_seq]
    · exact bodyFlow_traces markers flat κ caught rest

theorem clausesFlow_traces (markers flat : Bool) (κ : Outcome → Set (List Event)) :
    (clauses : List BranchClause) →
      clausesFlow traces markers flat κ clauses = (clauseRuns markers flat clauses).follow κ
  | [] => by simp [clausesFlow, clauseRuns, follow_only]
  | ⟨_, none, body⟩ :: _ => bodyFlow_traces markers flat κ ⊥ body
  | ⟨_, some test, body⟩ :: rest => by
    rw [clausesFlow, bodyFlow_traces markers flat κ ⊥ body, clausesFlow_traces markers flat κ rest,
      clauseRuns, follow_after, follow_either]

theorem casesFlow_traces (markers flat : Bool) (κ : Outcome → Set (List Event)) :
    (cases : List MatchCase) →
      casesFlow traces markers flat κ cases = (caseRuns markers flat cases).follow κ
  | [] => by simp [casesFlow, caseRuns, follow_only]
  | ⟨_, head, body⟩ :: rest => by
    rw [casesFlow, bodyFlow_traces markers flat κ ⊥ body, casesFlow_traces markers flat κ rest,
      caseRuns, follow_case]

end

end Flowgraph
