import Flowgraph.Proofs.Balance
import Flowgraph.Proofs.Tagging
import Flowgraph.Proofs.Wiring

/-!
# The construction never contradicts itself

A body either is rejected or has a graph.  The defects that the construction guards against do not
arise: every part whose region is asked for has one, every scope that a jump asks for is on the
stack, no scope is left there at the end, control is nowhere trapped, and no edge leads back to the
entry.

## Main definitions

* `NoDefect` : a computation that fails only by rejecting the body.

## Main results

* `noDefect_planBody` : planning has no defect where the parts of the body are tagged.
* `Graph.ofLayout_eq_ok` : the layout of a fitting plan has a graph.
* `Graph.rejected_or_built` : a body is rejected, or it has a graph without defects.
-/

namespace Flowgraph

/-! ## Planning -/

/-- The computation fails only by rejecting the body. -/
def NoDefect {α : Type} (x : Except Failure α) : Prop :=
  ∀ defect, x ≠ .error (.defective defect)

namespace NoDefect

variable {α β : Type}

theorem ok (a : α) : NoDefect (.ok a) := by
  simp [NoDefect]

theorem rejected (rejection : Rejection) :
    NoDefect (.error (.rejected rejection) : Except _ α) := by
  simp [NoDefect]

theorem bind {x : Except Failure α} {f : α → Except Failure β} (hx : NoDefect x)
    (hf : ∀ a, x = .ok a → NoDefect (f a)) : NoDefect (x >>= f) := by
  cases x with
  | error failure =>
    cases failure with
    | rejected rejection => exact rejected rejection
    | defective defect => exact absurd rfl (hx defect)
  | ok a => exact hf a rfl

theorem map {x : Except Failure α} (hx : NoDefect x) (f : α → β) : NoDefect (x.map f) := by
  cases x with
  | error failure =>
    cases failure with
    | rejected rejection => exact rejected rejection
    | defective defect => exact absurd rfl (hx defect)
  | ok a => exact ok (f a)

theorem rejectIf (r : Option Rejection) : NoDefect (rejectIf r) := by
  cases r with
  | none => exact ok ()
  | some rejection => exact rejected rejection

theorem nonemptyBody {plan : Except Failure (Option Plan)} (h : NoDefect plan) (site : Site)
    (body : List Stmt) : NoDefect (nonemptyBody site body plan) := by
  rw [Flowgraph.nonemptyBody]
  split
  · exact rejected _
  · exact h.map _

/-- A clause that may be left out has a region and a plan where it is not left out. -/
theorem optionalClause {region : Except Failure RegionId} {body : List Stmt}
    {plan : Except Failure (Option Plan)} (hr : body ≠ [] → NoDefect region) (hp : NoDefect plan) :
    NoDefect (optionalClause region body plan) := by
  cases body with
  | nil => exact ok _
  | cons s rest => exact (hr (by simp)).bind fun r _ => hp.bind fun p _ => ok _

theorem region {cx : Context} {site : Site} {part : Part}
    (h : cx.regions.Tags [(site.id, part)]) : NoDefect (cx.region site part) := by
  obtain ⟨r, hr, -⟩ := h (site.id, part) (by simp)
  rw [Context.region, RegionTree.require, hr]
  exact ok r

end NoDefect

/-- The `finally` clauses around a statement were planned without defects. -/
def FinalsSound (around : List Enclosure) : Prop :=
  ∀ outside final body, .final outside final body ∈ around → NoDefect body

theorem FinalsSound.enter {around : List Enclosure} (h : FinalsSound around) {e : Enclosure}
    (he : ∀ outside final body, e ≠ .final outside final body) : FinalsSound (e :: around) := by
  intro outside final body hm
  rcases List.mem_cons.1 hm with hm | hm
  · exact absurd hm.symm (he outside final body)
  · exact h outside final body hm

theorem Route.noDefect_through (site : Site) (means : Jump) : (around : List Enclosure) →
    FinalsSound around → NoDefect (Route.through site means around)
  | [], _ => by
    rw [through]
    split
    · exact .rejected _
    · exact .ok _
  | e :: outer, h => by
    have ih := noDefect_through site means outer fun outside final body hm =>
      h outside final body (List.mem_cons_of_mem _ hm)
    cases e with
    | loop =>
      rw [through]
      split
      · exact .ok _
      · exact ih.bind fun rest _ => .ok _
    | resource => exact ih.bind fun rest _ => .ok _
    | final outside final body =>
      -- the clause was planned before, and its plan decides whether the route goes on
      refine (h outside final body (by simp)).bind fun plan _ => ?_
      split
      · exact ih.bind fun rest _ => .ok _
      · exact .ok _

/-- Entering the clauses that a `finally` clause watches over keeps the regions, and adds at most
the clause. -/
theorem Context.noDefect_enterFinal {cx : Context} {site : Site} {final : List Stmt}
    {plan : Except Failure (Option Plan)} (whole : RegionId)
    (hr : final ≠ [] → NoDefect (cx.region site .final)) (hp : NoDefect plan)
    (hf : FinalsSound cx.around) :
    NoDefect (cx.enterFinal site whole final plan) ∧
      ∀ inner, cx.enterFinal site whole final plan = .ok inner →
        inner.regions = cx.regions ∧ FinalsSound inner.around := by
  constructor
  · cases final with
    | nil => exact .ok _
    | cons s rest => exact (hr (by simp)).bind fun r _ => .ok _
  · intro inner h
    rcases enterFinal_eq_ok.1 h with ⟨-, rfl⟩ | ⟨-, r, -, rfl⟩
    · exact ⟨rfl, hf⟩
    · refine ⟨rfl, fun outside final' body hm => ?_⟩
      -- the clause that was entered, or one that was around before
      rcases List.mem_cons.1 hm with hm | hm
      · cases hm
        exact hp.map _
      · exact hf outside final' body hm

open RegionTree

mutual

/-- Planning a statement has no defect where its parts are tagged. -/
theorem Stmt.noDefect_plan (cx : Context) (hf : FinalsSound cx.around) : (s : Stmt) →
    cx.regions.Tags s.parts → NoDefect (s.plan cx)
  | .simple _, _ | .pass _, _ | .marker .., _ | .yield _, _ => .ok _
  | .unsupported _, _ => .rejected _
  | .jump site means, _ => by
    have ht := Route.noDefect_through site means cx.around hf
    cases means <;> exact ht.bind fun route _ => .ok _
  | .branch site _ body clauses, h => by
    obtain ⟨hb, hc⟩ := tags_append.1 h
    exact (NoDefect.rejectIf _).bind fun _ _ =>
      ((noDefect_planBody cx hf body hb).nonemptyBody _ _).bind fun _ _ =>
        (noDefect_planAlternatives cx hf site clauses hc).bind fun _ _ => .ok _
  | .loop site _ body orelse, h => by
    obtain ⟨h, ho⟩ := tags_append.1 h
    obtain ⟨hb, hr⟩ := tags_append.1 h
    have hregion : orelse ≠ [] → NoDefect (cx.region site .orelse) := fun hne =>
      .region (by simpa [hne] using hr)
    exact ((noDefect_planBody (cx.enter .loop) (hf.enter (by simp)) body hb).nonemptyBody _ _).bind
      fun _ _ => (NoDefect.optionalClause hregion (noDefect_planBody cx hf orelse ho)).bind
        fun _ _ => .ok _
  | .attempt site body handlers orelse final, h => by
    simp only [Stmt.parts, tags_append] at h
    -- the tags of the statement, its body, the handlers, the `else` and the `finally` clause
    obtain ⟨⟨⟨⟨⟨⟨hw, hbr⟩, hb⟩, hh⟩, ho⟩, hfr⟩, hfin⟩ := h
    have hregion : final ≠ [] → NoDefect (cx.region site .final) := fun hne =>
      .region (by simpa [hne] using hfr)
    have hplan := noDefect_planBody cx hf final hfin
    refine (NoDefect.rejectIf _).bind fun _ _ => (NoDefect.region hw).bind fun whole _ => ?_
    obtain ⟨henter, hinner⟩ := Context.noDefect_enterFinal whole hregion hplan hf
    -- the inner context has the same regions, so the tags are there as well
    refine henter.bind fun inner hi => ?_
    obtain ⟨hreg, hf'⟩ := hinner inner hi
    rw [← hreg] at hb hh ho
    exact (NoDefect.region hbr).bind fun _ _ =>
      ((noDefect_planBody inner hf' body hb).nonemptyBody _ _).bind fun _ _ =>
        (noDefect_planHandlers inner hf' site 0 handlers hh).bind fun _ _ =>
          (NoDefect.optionalClause (fun _ => .ok _) (noDefect_planBody inner hf' orelse ho)).bind
            fun _ _ => (NoDefect.optionalClause hregion hplan).bind fun _ _ => .ok _
  | .hold site _ header body, h => by
    obtain ⟨hw, hb⟩ := tags_append.1 h
    exact (NoDefect.region hw).bind fun region _ =>
      ((noDefect_planBody (cx.enter (cx.resource header region))
        (hf.enter (by simp [Context.resource])) body hb).nonemptyBody _ _).bind fun _ _ => .ok _
  | .dispatch site _ cases, h => by
    obtain ⟨hw, hc⟩ := tags_append.1 h
    exact (NoDefect.rejectIf _).bind fun _ _ => (NoDefect.region hw).bind fun _ _ =>
      (noDefect_planCases cx hf site cases hc).bind fun _ _ => .ok _

/-- Planning a body has no defect where its parts are tagged. -/
theorem noDefect_planBody (cx : Context) (hf : FinalsSound cx.around) : (body : List Stmt) →
    cx.regions.Tags (bodyParts body) → NoDefect (planBody cx body)
  | [], _ => .ok _
  | s :: rest, h => by
    obtain ⟨hs, hr⟩ := tags_append.1 h
    exact (s.noDefect_plan cx hf hs).bind fun _ _ =>
      (noDefect_planBody cx hf rest hr).bind fun _ _ => .ok _

theorem noDefect_planAlternatives (cx : Context) (hf : FinalsSound cx.around) (site : Site) :
    (clauses : List BranchClause) → cx.regions.Tags (clauseParts clauses) →
      NoDefect (planAlternatives cx site clauses)
  | [], _ => .ok _
  | ⟨_, none, body⟩ :: _, h => by
    obtain ⟨hb, -⟩ := tags_append.1 h
    exact ((noDefect_planBody cx hf body hb).nonemptyBody _ _).bind fun _ _ => .ok _
  | ⟨_, some _, body⟩ :: rest, h => by
    obtain ⟨hb, hr⟩ := tags_append.1 h
    exact ((noDefect_planBody cx hf body hb).nonemptyBody _ _).bind fun _ _ =>
      (noDefect_planAlternatives cx hf site rest hr).bind fun _ _ => .ok _

theorem noDefect_planHandlers (cx : Context) (hf : FinalsSound cx.around) (site : Site)
    (index : Nat) : (handlers : List Handler) →
      cx.regions.Tags (handlerParts site.id index handlers) →
      NoDefect (planHandlers cx site index handlers)
  | [], _ => .ok _
  | ⟨_, _, body⟩ :: rest, h => by
    obtain ⟨h, hr⟩ := tags_append.1 h
    obtain ⟨hw, hb⟩ := tags_append.1 h
    exact (NoDefect.region hw).bind fun _ _ =>
      ((noDefect_planBody cx hf body hb).nonemptyBody _ _).bind fun _ _ =>
        (noDefect_planHandlers cx hf site (index + 1) rest hr).bind fun _ _ => .ok _

theorem noDefect_planCases (cx : Context) (hf : FinalsSound cx.around) (site : Site) :
    (cases : List MatchCase) → cx.regions.Tags (caseParts cases) →
      NoDefect (planCases cx site cases)
  | [], _ => .ok _
  | ⟨_, head, body⟩ :: rest, h => by
    obtain ⟨hb, hr⟩ := tags_append.1 h
    exact ((noDefect_planBody cx hf body hb).nonemptyBody _ _).bind fun _ _ =>
      (noDefect_planCases cx hf site rest hr).bind fun _ _ => .ok _

end

/-- A function body is rejected or has a plan. -/
theorem Plan.noDefect_ofBody (options : Options) (body : List Stmt) :
    NoDefect (Plan.ofBody options (RegionTree.ofBody body) body) := by
  rw [Plan.ofBody]
  split
  · exact .rejected _
  · exact (noDefect_planBody _ (by simp [FinalsSound]) body (RegionTree.tags_ofBody body)).map _

/-! ## Laying out a plan -/

section Layout

variable {d : Piece} {flat : Bool} {plan : Plan}

/-- Control goes on from every node, or leaves the function there for good. -/
theorem Plan.DrawnWhole.followed_or_final (h : plan.DrawnWhole d flat) (hf : plan.Fits 0) {u : Nat}
    (hu : u < d.nodes.length) :
    (∃ e ∈ Edge.firstPerPair d.edges, e.source = u ∧ e.label.isException = false) ∨
      ∃ x ∈ d.exits, x.node = u ∧ x.cause.isFinal = true := by
  have hw := h.wired hf hu
  by_cases hnil : (d.row u).out = []
  · obtain ⟨c, hc, hfinal⟩ := hw.ends.1 hnil
    exact .inr ⟨⟨u, c⟩, Piece.mem_leaves_row.1 hc, rfl, hfinal⟩
  · -- of parallel edges the first is kept, and it has the kind of the others
    obtain ⟨t, ht⟩ := List.exists_mem_of_ne_nil _ hnil
    obtain ⟨e, he, hs, -, hl⟩ := (Piece.exists_followed_iff hw.apart).2 ⟨t, ht, rfl⟩
    exact .inl ⟨e, he, hs, hl⟩

end Layout

/-- The layout of a fitting plan has a graph. -/
theorem Graph.ofLayout_eq_ok (regions : RegionTree) (flat : Bool) {plan : Plan}
    (hf : plan.Fits 0) :
    ∃ g, ofLayout regions (Piece.ofPlan flat plan).1 (Piece.ofPlan flat plan).2 = .ok g := by
  have hd := Piece.drawnWhole_ofPlan flat plan
  generalize (Piece.ofPlan flat plan).1 = d at hd ⊢
  -- the check for trapped nodes runs over the nodes that the search finds
  have htrapped : trapped? (Edge.firstPerPair d.edges) d.exits
      (Edge.inReach (Edge.firstPerPair d.edges) 0) = none := by
    refine List.find?_eq_none.2 fun u hu => ?_
    rw [Edge.mem_inReach, Edge.Reaches, Edge.links_firstPerPair] at hu
    rcases hd.followed_or_final hf (hd.lt_length_of_reaches hf hu) with
      ⟨e, he, hs, hl⟩ | ⟨x, hx, hs, hc⟩
    · have : (Edge.firstPerPair d.edges).any
          (fun e => e.source == u && !e.label.isException) = true :=
        List.any_eq_true.2 ⟨e, he, by simp [hs, hl]⟩
      simp [this]
    · have : d.exits.any (fun e => e.node == u && e.cause.isFinal) = true :=
        List.any_eq_true.2 ⟨x, hx, by simp [hs, hc]⟩
      simp [this]
  have hentry : (Edge.firstPerPair d.edges).any (·.target == 0) = false := by
    refine List.any_eq_false.2 fun e he => ?_
    have hl : Edge.Links d.edges e.source e.target :=
      Edge.links_firstPerPair d.edges ▸ ⟨e, he, rfl, rfl⟩
    have := (hd.links_bounds hf hl).2.1
    simpa using Nat.ne_of_gt this
  rw [ofLayout, htrapped]
  simp [hentry]

/-- Building a graph rejects a body for a cause or succeeds. -/
theorem Graph.noDefect_ofBody (options : Options) (body : List Stmt) :
    NoDefect (ofBody options body) := by
  rw [ofBody]
  refine (Plan.noDefect_ofBody options body).bind fun plan hp => ?_
  obtain ⟨g, hg⟩ := ofLayout_eq_ok (RegionTree.ofBody body) options.flatDispatch
    (Plan.fits_ofBody hp)
  show NoDefect (ofLayout (RegionTree.ofBody body) (Piece.ofPlan options.flatDispatch plan).1
    (Piece.ofPlan options.flatDispatch plan).2)
  rw [hg]
  exact .ok g

/-- A body is rejected, or it has a graph, which can be built with a stack of scopes.  The parts of
every body have regions of the tree.  If the body has a graph, the stack is empty when the function
is built; where control can reach, it goes on or leaves the function for good; and no edge leads to
the entry. -/
theorem Graph.rejected_or_built (options : Options) (body : List Stmt) :
    (∀ part ∈ bodyParts body, ∃ r, (RegionTree.ofBody body).find? part.1 part.2 = some r ∧
      r < (RegionTree.ofBody body).size) ∧
    Graph.assemble options body = Graph.ofBody options body ∧
    ((∃ rejection, Graph.ofBody options body = .error (.rejected rejection)) ∨
      ∃ exit s g,
        Building.function body (.start options (RegionTree.ofBody body)) = .ok exit s ∧
        s.scopes = [] ∧ Graph.ofBody options body = .ok g ∧
        (∀ u, g.isLive u → (∃ e ∈ g.edges, e.source = u ∧ e.label.isException = false) ∨
          ∃ x ∈ s.made.exits, x.node = u ∧ x.cause.isFinal = true) ∧
        ∀ e ∈ g.edges, e.target ≠ g.entry) := by
  refine ⟨RegionTree.tags_ofBody body, assemble_eq_ofBody options body, ?_⟩
  have hnd := Plan.noDefect_ofBody options body
  cases hp : Plan.ofBody options (RegionTree.ofBody body) body with
  | error failure =>
    cases failure with
    -- planning has no defect, so a failure rejects the body
    | defective defect => exact absurd hp (hnd defect)
    | rejected rejection =>
      refine .inl ⟨rejection, ?_⟩
      rw [ofBody, hp]
      rfl
  | ok plan =>
    have hf := Plan.fits_ofBody hp
    -- a body that has a plan passes both checks of the layout
    obtain ⟨g, hg⟩ := ofLayout_eq_ok (RegionTree.ofBody body) options.flatDispatch hf
    have hok : ofBody options body = .ok g := by
      rw [ofBody, hp]
      exact hg
    have hrun := construct_conforms options body
    rw [hp, conforms_ok] at hrun
    refine .inr ⟨_, _, g, (Building.tracks_function options body).of_ok hrun, rfl, hok, ?_⟩
    obtain ⟨plan', hp', hof, -⟩ := ofPiece_ofBody hok
    cases hp.symm.trans hp'
    have hd := Piece.drawnWhole_ofPlan options.flatDispatch plan
    refine ⟨fun u hu => ?_, fun e he => ?_⟩
    · rw [hof.edges]
      exact hd.followed_or_final hf (hof.isLive_iff.1 hu).1
    · have hl : Edge.Links (Piece.ofPlan options.flatDispatch plan).1.edges e.source e.target :=
        hof.links ▸ ⟨e, he, rfl, rfl⟩
      rw [hof.entry]
      exact Nat.ne_of_gt (hd.links_bounds hf hl).2.1

end Flowgraph
