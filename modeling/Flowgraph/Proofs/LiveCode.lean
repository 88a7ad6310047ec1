import Flowgraph.Proofs.Built
import Flowgraph.Proofs.Outcome

/-!
# Exits and live code

The exits that the graph of a body reports are the ways in which the body can end, together with
its suspensions, and what happens at the nodes that control can reach is the part of the body that
can run.

The reading that asks whether something can still be met connects the two.  At the entry of a graph
it tells whether some node that control can reach has a given event or a given exit; on a body it
tells whether the event is live, or the exit an outcome.

## Main definitions

* `meets` : the reading that asks whether something can still be met.

## Main results

* `bodyFlow_meets` : what can still be met when a body runs.
* `Piece.least_meets` : what can still be met from a node of a graph.
* `Graph.exits_and_live_code` : the exits and the live code of a graph are those of its body.
-/

namespace Flowgraph

/-! ## What can still be met -/

/-- The reading that asks whether an event of `T` or an exit of `C` can still be met. -/
def meets (T : Event → Prop) (C : ExitCause → Prop) : Reading Prop where
  see e x := T e ∨ x
  leave := C
  heed x := x
  see_mono _ _ _ h := Or.imp_right h
  heed_bot := rfl
  heed_sup _ _ := rfl
  see_heed _ _ _ := propext or_assoc.symm

section Meets

variable {T : Event → Prop} {C : ExitCause → Prop}

@[simp] theorem see_meets (e : Event) (x : Prop) : (meets T C).see e x = (T e ∨ x) := rfl

@[simp] theorem leave_meets (c : ExitCause) : (meets T C).leave c = C c := rfl

@[simp] theorem heed_meets (x : Prop) : (meets T C).heed x = x := rfl

/-- An event of `T`, or one with an exit of `C`, is on the list. -/
def Meets (T : Event → Prop) (C : ExitCause → Prop) (events : List Event) : Prop :=
  ∃ e ∈ events, T e ∨ ∃ c ∈ e.exit?, C c

@[simp] theorem meets_nil : ¬ Meets T C [] := by
  simp [Meets]

@[simp] theorem meets_append {l l' : List Event} :
    Meets T C (l ++ l') ↔ Meets T C l ∨ Meets T C l' := by
  simp [Meets, or_and_right, exists_or]

theorem meets_cons {e : Event} {l : List Event} :
    Meets T C (e :: l) ↔ (T e ∨ ∃ c ∈ e.exit?, C c) ∨ Meets T C l := by
  simp [Meets]

theorem meets_ite {p : Prop} [Decidable p] {l : List Event} :
    Meets T C (if p then l else []) ↔ p ∧ Meets T C l := by
  by_cases hp : p <;> simp [hp]

/-- Some outcome of the list has a continuation. -/
def Ends (κ : Outcome → Prop) (outcomes : List Outcome) : Prop :=
  ∃ o ∈ outcomes, κ o

variable {κ : Outcome → Prop} {os os' : List Outcome}

@[simp] theorem ends_append : Ends κ (os ++ os') ↔ Ends κ os ∨ Ends κ os' := by
  simp [Ends, or_and_right, exists_or]

@[simp] theorem ends_singleton {o : Outcome} : Ends κ [o] ↔ κ o := by
  simp [Ends]

@[simp] theorem ends_nil : ¬ Ends κ [] := by
  simp [Ends]

theorem ends_thenOutcomes :
    Ends κ (thenOutcomes os os') ↔ Ends (continueWith (Ends κ os') κ) os := by
  constructor
  · rintro ⟨o, ho, hκ⟩
    rcases mem_thenOutcomes.1 ho with ⟨hn, ho⟩ | ⟨ho, hne⟩
    · exact ⟨.normal, hn, o, ho, hκ⟩
    · cases o with
      | normal => exact absurd rfl hne
      | jump site means => exact ⟨_, ho, hκ⟩
  · rintro ⟨_ | ⟨site, means⟩, ho, hκ⟩
    · obtain ⟨o, ho', hκ⟩ := hκ
      exact ⟨o, mem_thenOutcomes.2 (.inl ⟨ho, ho'⟩), hκ⟩
    · exact ⟨_, mem_thenOutcomes.2 (.inr ⟨ho, by simp⟩), hκ⟩

/-- What is met before an ending is met if that ending is possible. -/
theorem ends_continueWith_or {P Q : Prop} :
    Ends (continueWith (P ∨ Q) κ) os ↔ .normal ∈ os ∧ P ∨ Ends (continueWith Q κ) os := by
  constructor
  · rintro ⟨_ | ⟨site, means⟩, ho, hκ⟩
    · rcases hκ with hP | hQ
      · exact .inl ⟨ho, hP⟩
      · exact .inr ⟨.normal, ho, hQ⟩
    · exact .inr ⟨_, ho, hκ⟩
  · rintro (⟨ho, hP⟩ | ⟨_ | ⟨site, means⟩, ho, hκ⟩)
    · exact ⟨.normal, ho, .inl hP⟩
    · exact ⟨.normal, ho, .inr hκ⟩
    · exact ⟨_, ho, hκ⟩

theorem ends_loopBody {x : Prop} (h : Ends (loopBody x κ) os) :
    x ∨ Ends κ (os.flatMap (·.leavingLoop)) := by
  obtain ⟨o, ho, h⟩ := h
  -- completing and `continue` go round again, `break` completes the loop, the rest leaves it
  rcases o with - | ⟨site, _ | _ | _ | _⟩
  · exact .inl h
  · exact .inr ⟨_, List.mem_flatMap.2 ⟨_, ho, by simp [Outcome.leavingLoop]⟩, h⟩
  · exact .inr ⟨_, List.mem_flatMap.2 ⟨_, ho, by simp [Outcome.leavingLoop]⟩, h⟩
  · exact .inr ⟨.normal, List.mem_flatMap.2 ⟨_, ho, by simp [Outcome.leavingLoop]⟩, h⟩
  · exact .inl h

theorem ends_leavingLoop (x : Prop) (h : Ends κ (os.flatMap (·.leavingLoop))) :
    Ends (loopBody x κ) os := by
  obtain ⟨o, ho, h⟩ := h
  obtain ⟨o', ho', ho⟩ := List.mem_flatMap.1 ho
  refine ⟨o', ho', ?_⟩
  rcases o' with - | ⟨site, _ | _ | _ | _⟩ <;> simp [Outcome.leavingLoop] at ho <;> subst ho <;>
    exact h

theorem least_prop {F : Prop → Prop} {A : Prop} (h : F A → A) (h' : ∀ y, A → F y) :
    least F ↔ A :=
  ⟨least_le (show F A ≤ A from h),
    le_least fun y (hy : F y ≤ y) => show A ≤ y from fun ha => hy (h' y ha)⟩

/-- What an outcome of the clauses of a `try` meets on its way through the `finally` clause: apart
from what the clause itself does, only the jump that is taken up again. -/
theorem of_afterFinal {markers flat : Bool} {final : List Stmt}
    (hfinal : ∀ κ : Outcome → Prop, bodyFlow (meets T C) markers flat κ False final ↔
      Meets T C (bodyLive markers final) ∨ Ends κ (bodyOutcomes final)) {o : Outcome}
    (h : afterFinal (meets T C) markers flat κ final o) :
    Meets T C (bodyLive markers final) ∨ Ends κ (thenOutcomes (bodyOutcomes final) [o]) ∨
      ∃ site means, o = .jump site means ∧ T (.stmt (.jump site means)) := by
  rw [afterFinal] at h
  rw [ends_thenOutcomes, ends_singleton]
  split at h
  next hn =>
    obtain rfl := List.isEmpty_iff.1 hn
    exact .inr (.inl (by simpa [bodyOutcomes] using h))
  next hn =>
    have h := (hfinal _).1 h
    rcases h with h | h
    · exact .inl h
    · cases o with
      | normal => exact .inr (.inl h)
      | jump site means =>
        rw [Reading.resumed, see_meets, ends_continueWith_or] at h
        -- the jump is carried out once more behind the clause
        rcases h with ⟨-, h⟩ | h
        · exact .inr (.inr ⟨site, means, rfl, h⟩)
        · exact .inr (.inl h)

theorem afterFinal_of {markers flat : Bool} {final : List Stmt}
    (hfinal : ∀ κ : Outcome → Prop, bodyFlow (meets T C) markers flat κ False final ↔
      Meets T C (bodyLive markers final) ∨ Ends κ (bodyOutcomes final)) {o : Outcome}
    (h : Meets T C (bodyLive markers final) ∨ Ends κ (thenOutcomes (bodyOutcomes final) [o])) :
    afterFinal (meets T C) markers flat κ final o := by
  rw [ends_thenOutcomes, ends_singleton] at h
  rw [afterFinal]
  split
  next hn =>
    -- without a clause, the outcome leads where it led before
    obtain rfl := List.isEmpty_iff.1 hn
    simpa [bodyOutcomes, bodyLive] using h
  next hn =>
    refine (hfinal _).2 (h.imp_right fun h => ?_)
    cases o with
    | normal => exact h
    | jump site means =>
      rw [Reading.resumed, see_meets, ends_continueWith_or]
      exact .inr h

/-- What the outcomes of a `try` meet on their way through its `finally` clause, where `L` is what
is met before. -/
theorem ends_afterFinal {markers flat : Bool} {final : List Stmt}
    (hfinal : ∀ κ : Outcome → Prop, bodyFlow (meets T C) markers flat κ False final ↔
      Meets T C (bodyLive markers final) ∨ Ends κ (bodyOutcomes final))
    (inner : List Outcome) {L : Prop} (hne : inner ≠ [])
    (hL : ∀ site means, .jump site means ∈ inner → T (.stmt (.jump site means)) → L) :
    L ∨ Ends (afterFinal (meets T C) markers flat κ final) inner ↔
      L ∨ Meets T C (bodyLive markers final) ∨
        Ends κ (inner.flatMap fun o => thenOutcomes (bodyOutcomes final) [o]) := by
  constructor
  · rintro (h | ⟨o, ho, h⟩)
    · exact .inl h
    · rcases of_afterFinal hfinal h with h | ⟨o', ho', h⟩ | ⟨site, means, rfl, ht⟩
      · exact .inr (.inl h)
      · exact .inr (.inr ⟨o', List.mem_flatMap.2 ⟨o, ho, ho'⟩, h⟩)
      · exact .inl (hL site means ho ht)
  · rintro (h | h | ⟨o', ho', h⟩)
    · exact .inl h
    · -- whatever the clause meets is met after any outcome, and there is one
      obtain ⟨o, ho⟩ := List.exists_mem_of_ne_nil inner hne
      exact .inr ⟨o, ho, afterFinal_of hfinal (.inl h)⟩
    · obtain ⟨o, ho, ho'⟩ := List.mem_flatMap.1 ho'
      exact .inr ⟨o, ho, afterFinal_of hfinal (.inr ⟨o', ho', h⟩)⟩

/-- What the outcomes of the body of a `with` meet on their way out, where `L` is what is met
before. -/
theorem ends_released (header : Span) {L : Prop}
    (hL : ∀ site means, .jump site means ∈ os → T (.stmt (.jump site means)) → L) :
    L ∨ Ends ((meets T C).released header κ) os ↔
      L ∨ (os.any (· ≠ .normal) = true ∧ T (.release header)) ∨ Ends κ os := by
  constructor
  · rintro (h | ⟨_ | ⟨site, means⟩, ho, h⟩)
    · exact .inl h
    · exact .inr (.inr ⟨_, ho, h⟩)
    · rcases h with h | h | h
      · exact .inr (.inl ⟨List.any_eq_true.2 ⟨_, ho, by simp⟩, h⟩)
      -- the jump that carries on has been met before the resource is released
      · exact .inl (hL site means ho h)
      · exact .inr (.inr ⟨_, ho, h⟩)
  · rintro (h | ⟨ha, h⟩ | ⟨_ | ⟨site, means⟩, ho, h⟩)
    · exact .inl h
    · obtain ⟨o, ho, hne⟩ := List.any_eq_true.1 ha
      cases o with
      | normal => simp at hne
      | jump site means => exact .inr ⟨_, ho, .inl h⟩
    · exact .inr ⟨_, ho, h⟩
    · exact .inr ⟨_, ho, .inr (.inr h)⟩

/-- The alternatives of a case meet their tests, and the body of the case if there is one. -/
theorem foldr_meets (flat : Bool) (b r : Prop) (patterns : List Pattern) :
    patterns.foldr
        (fun pattern x =>
          if flat then (meets T C).see (.caseTest pattern.span) b ⊔ x
          else (meets T C).see (.caseTest pattern.span) (b ⊔ x)) r ↔
      Meets T C (patterns.map fun pattern => .caseTest pattern.span) ∨
        (patterns.isEmpty = false ∧ b) ∨ r := by
  induction patterns with
  | nil => simp
  | cons pattern patterns ih =>
    rw [List.foldr_cons, List.map_cons, meets_cons]
    cases flat with
    | true =>
      change (T _ ∨ b) ∨ _ ↔ _
      rw [ih]
      simp [Event.exit?]
      grind
    | false =>
      change T _ ∨ b ∨ _ ↔ _
      rw [ih]
      simp [Event.exit?]
      grind

mutual

/-- What can still be met when a statement runs. -/
theorem Stmt.flow_meets (markers flat : Bool) (κ : Outcome → Prop) (caught : Prop) : (s : Stmt) →
    (s.flow (meets T C) markers flat κ caught ↔
      Meets T C (s.live markers) ∨ Ends κ s.outcomes ∨ caught)
  | .simple site | .pass site | .marker site name => by
    simp [Stmt.flow, Stmt.live, Stmt.outcomes, meets_cons, Event.exit?, or_assoc]
  | .yield site => by
    simp [Stmt.flow, Stmt.live, Stmt.outcomes, meets_cons, Event.exit?]
    grind
  | .unsupported site => by
    simp [Stmt.flow, Stmt.live, Stmt.outcomes]
  | .jump site means => by
    simp [Stmt.flow, Stmt.live, Stmt.outcomes, meets_cons, Event.exit?, or_assoc]
  | .branch site test body clauses => by
    have hb := bodyFlow_meets markers flat κ False body
    have hc := clausesFlow_meets markers flat κ clauses
    simp [Stmt.flow, Stmt.live, Stmt.outcomes, meets_cons, Event.exit?, hb, hc]
    grind
  | .loop site head body orelse => by
    have hb := fun x => bodyFlow_meets markers flat (loopBody x κ) False body
    have ho := bodyFlow_meets markers flat κ False orelse
    simp only [Stmt.flow, Stmt.live, Stmt.outcomes, meets_cons, meets_append, ends_append,
      Event.exit?, see_meets, heed_meets, Prop.bot_eq_false, sup_Prop_eq, hb, ho]
    refine least_prop (fun h => ?_) fun y h => ?_
    · -- going round again meets nothing that the first round has not met
      rcases h with (h | (h | h | h) | h) | h
      · grind
      · grind
      · rcases ends_loopBody h with h | h
        · exact h
        · grind
      · exact h.elim
      · grind
      · grind
    · -- and what the first round meets is met, whatever the rest is worth
      have hleaving : Ends κ ((bodyOutcomes body).flatMap (·.leavingLoop)) →
          Ends (loopBody y κ) (bodyOutcomes body) := ends_leavingLoop y
      grind
  | .attempt site body handlers orelse final => by
    have hf := fun κ => (bodyFlow_meets markers flat κ False final).trans (by rw [or_false])
    have ho := bodyFlow_meets markers flat
      (afterFinal (meets T C) markers flat κ final) False orelse
    have hb := bodyFlow_meets markers flat (continueWith (bodyFlow (meets T C) markers flat
        (afterFinal (meets T C) markers flat κ final) False orelse)
        (afterFinal (meets T C) markers flat κ final)) (handlersFlow (meets T C) markers flat
        (afterFinal (meets T C) markers flat κ final) handlers ∨ caught) body
    have hh := handlersFlow_meets markers flat
      (afterFinal (meets T C) markers flat κ final) handlers
    -- what the body, the `else` clause and the handlers meet, and then what their outcomes meet
    -- behind them
    refine hb.trans ?_
    rw [ho, hh, or_false, ends_continueWith_or, ← ends_thenOutcomes]
    have hend := ends_afterFinal (κ := κ) hf
      (thenOutcomes (bodyOutcomes body) (bodyOutcomes orelse) ++ handlerOutcomes handlers)
      (L := Meets T C (bodyLive markers body ++
        (if .normal ∈ bodyOutcomes body then bodyLive markers orelse else []) ++
        handlerLive markers handlers))
      (by simp [thenOutcomes_ne_nil (bodyOutcomes_ne_nil body) (bodyOutcomes_ne_nil orelse)])
      fun site means h ht => ⟨_, ?_, .inl ht⟩
    · simp only [Stmt.outcomes, Stmt.live, meets_append, ends_append, meets_ite] at hend ⊢
      grind
    · -- a jump that the clause takes up again has been met where it stands
      rcases List.mem_append.1 h with h | h
      · rcases mem_thenOutcomes.1 h with ⟨hn, h⟩ | ⟨h, -⟩
        · simp [hn, jump_mem_bodyLive markers orelse h]
        · simp [jump_mem_bodyLive markers body h]
      · simp [jump_mem_handlerLive markers handlers h]
  | .hold site isAsync header body => by
    have hb := bodyFlow_meets markers flat ((meets T C).released header κ) False body
    have hend : Meets T C (bodyLive markers body) ∨
        Ends ((meets T C).released header κ) (bodyOutcomes body) ↔
        Meets T C (bodyLive markers body) ∨
          ((bodyOutcomes body).any (· ≠ .normal) = true ∧ T (.release header)) ∨
          Ends κ (bodyOutcomes body) :=
      ends_released header fun site means h ht =>
        ⟨_, jump_mem_bodyLive markers body h, .inl ht⟩
    simp only [Stmt.flow, Stmt.live, Stmt.outcomes, meets_cons, meets_append, meets_ite, meets_nil,
      Event.exit?, see_meets, heed_meets, Prop.bot_eq_false, sup_Prop_eq, hb, Option.not_mem_none,
      false_and, exists_false, or_false]
    grind
  | .dispatch site subject cases => by
    have hc := casesFlow_meets markers flat κ cases
    simp only [Stmt.flow, Stmt.live, Stmt.outcomes, meets_cons, Event.exit?, see_meets, heed_meets,
      sup_Prop_eq, hc]
    split
    · simp [or_assoc]
    · next ha =>
      -- completing without a case is among the outcomes of the cases already
      have hn : κ .normal → Ends κ (caseOutcomes cases) := fun h =>
        ⟨_, normal_mem_caseOutcomes (by simpa using ha), h⟩
      simp
      grind

theorem bodyFlow_meets (markers flat : Bool) (κ : Outcome → Prop) (caught : Prop) :
    (body : List Stmt) →
    (bodyFlow (meets T C) markers flat κ caught body ↔
      Meets T C (bodyLive markers body) ∨ Ends κ (bodyOutcomes body) ∨ caught)
  | [] => by simp [bodyFlow, bodyLive, bodyOutcomes]
  | s :: rest => by
    have hr := bodyFlow_meets markers flat κ False rest
    have hr' := bodyFlow_meets markers flat κ caught rest
    rw [bodyFlow, bodyLive, bodyOutcomes, ends_thenOutcomes]
    cases hk : s.kept markers with
    | true =>
      have hs := s.flow_meets markers flat
        (continueWith (bodyFlow (meets T C) markers flat κ False rest) κ) caught
      rw [if_pos rfl, if_pos rfl, Prop.bot_eq_false, hs, hr, or_false, ends_continueWith_or,
        meets_append]
      by_cases hn : .normal ∈ s.outcomes <;> simp [hn]
      grind
    | false =>
      -- only markers are left out, and they complete
      have ho : s.outcomes = [.normal] := by
        cases s with
        | marker => rfl
        | _ => simp [Stmt.kept] at hk
      simp [ho, hr', continueWith]

theorem clausesFlow_meets (markers flat : Bool) (κ : Outcome → Prop) :
    (clauses : List BranchClause) →
    (clausesFlow (meets T C) markers flat κ clauses ↔
      Meets T C (clauseLive markers clauses) ∨ Ends κ (clauseOutcomes clauses))
  | [] => by simp [clausesFlow, clauseLive, clauseOutcomes]
  | ⟨_, none, body⟩ :: _ => by
    simp [clausesFlow, clauseLive, clauseOutcomes, bodyFlow_meets markers flat κ False body]
  | ⟨_, some test, body⟩ :: rest => by
    have hb := bodyFlow_meets markers flat κ False body
    have hr := clausesFlow_meets markers flat κ rest
    simp [clausesFlow, clauseLive, clauseOutcomes, meets_cons, Event.exit?, hb, hr]
    grind

theorem handlersFlow_meets (markers flat : Bool) (κ : Outcome → Prop) :
    (handlers : List Handler) →
    (handlersFlow (meets T C) markers flat κ handlers ↔
      Meets T C (handlerLive markers handlers) ∨ Ends κ (handlerOutcomes handlers))
  | [] => by simp [handlersFlow, handlerLive, handlerOutcomes]
  | ⟨_, _, body⟩ :: rest => by
    have hb := bodyFlow_meets markers flat κ False body
    have hr := handlersFlow_meets markers flat κ rest
    simp [handlersFlow, handlerLive, handlerOutcomes, hb, hr]
    grind

theorem casesFlow_meets (markers flat : Bool) (κ : Outcome → Prop) :
    (cases : List MatchCase) →
    (casesFlow (meets T C) markers flat κ cases ↔
      Meets T C (caseLive markers cases) ∨ Ends κ (caseOutcomes cases))
  | [] => by simp [casesFlow, caseLive, caseOutcomes]
  | ⟨_, head, body⟩ :: rest => by
    have hb := bodyFlow_meets markers flat κ False body
    have hr := casesFlow_meets markers flat κ rest
    simp only [casesFlow, caseLive, caseOutcomes, foldr_meets, Prop.bot_eq_false, hb]
    cases head.acceptsAll <;> cases head.patterns.isEmpty <;> simp [hr]
    all_goals grind

end

/-! ## What can be met from a node of a graph -/

theorem seeAll_meets (events : List Event) (x : Prop) :
    (meets T C).seeAll events x ↔ (∃ e ∈ events, T e) ∨ x := by
  induction events with
  | nil => simp
  | cons e events ih => simp [ih, or_assoc]

/-- An event of `T` or an exit of `C` is at the node `u`. -/
def Piece.MeetsAt (T : Event → Prop) (C : ExitCause → Prop) (d : Piece) (u : Nat) : Prop :=
  (∃ n, d.nodes[u]? = some n ∧ ∃ e ∈ n.content.events, T e) ∨ ∃ c ∈ (d.row u).leaves, C c

theorem Piece.value_meets {d : Piece} (hd : ∀ u, d.row u ≠ .nil → u < d.nodes.length)
    (W : Nat → Prop) (u : Nat) :
    d.value (meets T C) W u ↔ d.MeetsAt T C u ∨ ∃ v, Edge.Links d.edges u v ∧ W v := by
  have hrow : (d.row u).value (meets T C) W ↔
      (∃ c ∈ (d.row u).leaves, C c) ∨ ∃ v, Edge.Links d.edges u v ∧ W v := by
    simp only [Row.value, Piece.links_iff, sup_Prop_eq, iSup_Prop_eq, heed_meets, leave_meets]
    grind
  rw [Piece.value]
  split
  next n hn => rw [seeAll_meets, hrow, ← or_assoc, MeetsAt, hn]; simp
  next hn => simp [MeetsAt, hn, Piece.row_eq_nil hd hn, Row.nil, Piece.links_iff]

/-- Something can still be met from a node if it is at a node that a walk leads to. -/
theorem Piece.least_meets {d : Piece} (hd : ∀ u, d.row u ≠ .nil → u < d.nodes.length) (u : Nat) :
    least (d.value (meets T C)) u ↔ ∃ v, Edge.Reaches d.edges u v ∧ d.MeetsAt T C v := by
  constructor
  · have hle : least (d.value (meets T C)) ≤
        fun u => ∃ v, Edge.Reaches d.edges u v ∧ d.MeetsAt T C v := by
      refine least_le fun u h => ?_
      rcases (value_meets hd _ u).1 h with h | ⟨v, hl, w, hw, h⟩
      · exact ⟨u, .refl, h⟩
      · exact ⟨w, .head hl hw, h⟩
    exact hle u
  · rintro ⟨v, hv, h⟩
    -- backwards along the walk, by unfolding the least value once at each node
    induction hv using Relation.ReflTransGen.head_induction_on with
    | refl =>
      rw [← map_least (d.value_mono _)]
      exact (value_meets hd _ v).2 (.inl h)
    | head hl _ ih =>
      rw [← map_least (d.value_mono _)]
      exact (value_meets hd _ _).2 (.inr ⟨_, hl, ih⟩)

end Meets

/-- What control can reach in the graph of a body is what can be met when the body runs. -/
theorem reaches_meetsAt_iff {options : Options} {regions : RegionTree} {body : List Stmt}
    {plan : Plan} (h : Plan.ofBody options regions body = .ok plan) (flat : Bool)
    (T : Event → Prop) (C : ExitCause → Prop) :
    (∃ u, Edge.Reaches (Piece.ofPlan flat plan).1.edges 0 u ∧
        (Piece.ofPlan flat plan).1.MeetsAt T C u) ↔
      Meets T C (bodyLive options.markers body) ∨
        ∃ o ∈ bodyOutcomes body, ∃ c ∈ o.exit?, C c := by
  -- what follows the body is the end of the function, or the exit of the jump out of it
  have hend : (meets T C).ending = fun o => ∃ c ∈ o.exit?, C c := by
    funext o
    rcases o with - | ⟨site, _ | _ | _ | _⟩ <;> simp [Reading.ending, Outcome.exit?]
  rw [← Piece.least_meets fun u => (Piece.drawnWhole_ofPlan flat plan).lt_length_of_row_ne,
    least_zero_ofPlan _ h, Prop.bot_eq_false, bodyFlow_meets,
    or_false, hend]
  rfl

section Reached

variable {options : Options} {regions : RegionTree} {body : List Stmt} {plan : Plan}

/-- What happens at the nodes that control can reach. -/
theorem reaches_event_iff (h : Plan.ofBody options regions body = .ok plan) (flat : Bool)
    (e : Event) :
    (∃ u n, Edge.Reaches (Piece.ofPlan flat plan).1.edges 0 u ∧
        (Piece.ofPlan flat plan).1.nodes[u]? = some n ∧ e ∈ n.content.events) ↔
      e ∈ bodyLive options.markers body := by
  have hm := reaches_meetsAt_iff h flat (· = e) fun _ => False
  simp only [Piece.MeetsAt, Meets, and_false, exists_false, or_false, exists_eq_right] at hm
  rw [← hm]
  simp only [exists_and_left]

/-- The exits at the nodes that control can reach. -/
theorem reaches_exit_iff (h : Plan.ofBody options regions body = .ok plan) (flat : Bool)
    (c : ExitCause) :
    (∃ u, Edge.Reaches (Piece.ofPlan flat plan).1.edges 0 u ∧
        c ∈ ((Piece.ofPlan flat plan).1.row u).leaves) ↔
      c ∈ exitCauses options.markers body := by
  have hm := reaches_meetsAt_iff h flat (fun _ => False) (· = c)
  simp only [Piece.MeetsAt, Meets, and_false, exists_false, false_or, exists_eq_right,
    Option.mem_def] at hm
  rw [hm, exitCauses, List.mem_append, List.mem_filterMap, List.mem_filterMap, or_comm]

end Reached

/-- The exits that the graph of a body reports are those of the body, each statement once; what
happens at the nodes that control can reach is what can happen when the body runs; and no `break`
or `continue` is left over. -/
theorem Graph.exits_and_live_code {options : Options} {body : List Stmt} {g : Graph}
    (h : Graph.ofBody options body = .ok g) :
    (∀ e, (∃ u n, g.isLive u ∧ g.nodes[u]? = some n ∧ e ∈ n.content.events) ↔
      e ∈ bodyLive options.markers body) ∧
    (∀ x ∈ g.exits, g.isLive x.node ∧ x.cause ∈ exitCauses options.markers body) ∧
    (∀ c ∈ exitCauses options.markers body, ∃ x ∈ g.exits, x.cause.sameExit c) ∧
    (g.exits.Pairwise fun x y => x.cause.sameExit y.cause = false) ∧
    ∀ site means, .jump site means ∈ bodyOutcomes body → means.staysInLoop = false := by
  obtain ⟨plan, hp, hg, -⟩ := Graph.ofPiece_ofBody h
  refine ⟨fun e => ?_, fun x hx => ?_, fun c hc => ?_, hg.pairwise_exits,
    fun site means ho => staysInLoop_of_mem_bodyOutcomes hp ho⟩
  · -- regions are the only difference between the nodes of the graph and those drawn
    rw [← reaches_event_iff hp options.flatDispatch e]
    simp only [hg.isLive_iff, hg.getElem?_nodes, Option.map_eq_some_iff]
    constructor
    · rintro ⟨u, n, ⟨-, hr⟩, ⟨m, hm, rfl⟩, he⟩
      exact ⟨u, m, hr, hm, he⟩
    · rintro ⟨u, m, hr, hm, he⟩
      exact ⟨u, _, ⟨(List.getElem?_eq_some_iff.1 hm).1, hr⟩, ⟨m, hm, rfl⟩, he⟩
  · obtain ⟨hc, hr⟩ := hg.mem_exits hx
    -- an exit needs a node that it leaves
    have hne : (Piece.ofPlan options.flatDispatch plan).1.row x.node ≠ .nil := by
      intro hnil
      simp [hnil, Row.nil] at hc
    exact ⟨hg.isLive_iff.2 ⟨(Piece.drawnWhole_ofPlan _ plan).lt_length_of_row_ne hne, hr⟩,
      (reaches_exit_iff hp _ _).1 ⟨_, hr, hc⟩⟩
  · obtain ⟨u, hr, hc⟩ := (reaches_exit_iff hp options.flatDispatch c).2 hc
    exact hg.exists_mem_exits hr hc

/-- A loop that returns from a `try` through its `finally` clause, breaks in a handler, and raises
in its `else` clause; a suspension follows it. -/
def returnThroughFinal : List Stmt :=
  let site (id : Nat) : Site := ⟨id, ⟨id, id + 1⟩⟩
  [.loop (site 1) (.condition ⟨1, 2⟩)
      [.attempt (site 2) [.jump (site 3) .returning] [⟨⟨4, 5⟩, none, [.jump (site 4) .breaking]⟩] []
        [.simple (site 5)]]
      [.jump (site 6) .raising],
    .yield (site 7)]

theorem exits_and_live_code_returnThroughFinal : ∃ g, Graph.ofBody {} returnThroughFinal = .ok g ∧
    g.exits.length = 4 ∧
    ∀ x ∈ g.exits, g.isLive x.node ∧ x.cause ∈ exitCauses true returnThroughFinal := by
  have h : ∃ g, Graph.ofBody {} returnThroughFinal = .ok g ∧ g.exits.length = 4 := ⟨_, rfl, rfl⟩
  obtain ⟨g, hg, hl⟩ := h
  exact ⟨g, hg, hl, (Graph.exits_and_live_code hg).2.1⟩

end Flowgraph
