import Flowgraph.Proofs.Faults
import Flowgraph.Proofs.Totality

/-!
# The bodies that have a graph

A body has a graph exactly if it is not empty, no statement in it is at fault, and every `break` and
`continue` stands in a loop or is swallowed on its way out.  Where a statement stands does not
matter: code that control never reaches is checked like any other.

A jump is swallowed by a `finally` clause that ends in a jump of its own.  So a `break` outside all
loops is rejected by itself and accepted under such a clause.

## Main definitions

* `WellFormed` : the body is not empty, and none of its statements is at fault.
* `looseJumps` : the `break` and `continue` statements outside the bodies of all loops.
* `unswallowedJumps` : those of them that no `finally` clause swallows.

## Main results

* `Graph.exists_ofBody_iff` : the bodies that have a graph.
* `Graph.built_iff_wellFormed` : without loose jumps, the well-formed bodies have a graph.
* `Graph.rejected_iff_unswallowed` : a body is rejected for its form or for an unswallowed jump.
-/

namespace Flowgraph

/-- The body is not empty, and none of the statements in it is at fault. -/
def WellFormed (body : List Stmt) : Prop :=
  body ≠ [] ∧ ∀ s ∈ bodyStatements body, s.faults = []

instance (body : List Stmt) : Decidable (WellFormed body) :=
  inferInstanceAs (Decidable (_ ∧ _))

/-- The `break` and `continue` statements outside the bodies of all loops.  The `else` clause of a
loop is not part of its body. -/
def looseJumps (body : List Stmt) : List (Site × Jump) :=
  bodyStrays (fun _ => false) body

/-- The `break` and `continue` statements outside the bodies of all loops that meet no `finally`
clause which ends in a jump. -/
def unswallowedJumps (markers : Bool) (body : List Stmt) : List (Site × Jump) :=
  bodyStrays (bodyEndsInJump markers) body

/-! ## Loose and unswallowed jumps -/

section

variable (swallows : List Stmt → Bool)

mutual

theorem Stmt.strays_sublist : (s : Stmt) →
    List.Sublist (s.strays swallows) (s.strays fun _ => false)
  | .simple _ | .pass _ | .marker .. | .yield _ | .unsupported _ | .jump .. => .refl _
  | .branch _ _ body clauses => (bodyStrays_sublist body).append (clauseStrays_sublist clauses)
  | .loop _ _ _ orelse => bodyStrays_sublist orelse
  | .attempt _ body handlers orelse final => by
    have hinner := ((bodyStrays_sublist body).append (clauseStrays_sublist handlers)).append
      (bodyStrays_sublist orelse)
    refine List.Sublist.append ?_ (bodyStrays_sublist final)
    split
    · exact List.nil_sublist _
    · exact hinner
  | .hold _ _ _ body => bodyStrays_sublist body
  | .dispatch _ _ cases => caseStrays_sublist cases

theorem bodyStrays_sublist : (body : List Stmt) →
    List.Sublist (bodyStrays swallows body) (bodyStrays (fun _ => false) body)
  | [] => .refl _
  | s :: rest => s.strays_sublist.append (bodyStrays_sublist rest)

theorem clauseStrays_sublist : (clauses : List (Clause (Option Span) Stmt)) →
    List.Sublist (clauseStrays swallows clauses) (clauseStrays (fun _ => false) clauses)
  | [] => .refl _
  | ⟨_, _, body⟩ :: rest => (bodyStrays_sublist body).append (clauseStrays_sublist rest)

theorem caseStrays_sublist : (cases : List MatchCase) →
    List.Sublist (caseStrays swallows cases) (caseStrays (fun _ => false) cases)
  | [] => .refl _
  | ⟨_, _, body⟩ :: rest => (bodyStrays_sublist body).append (caseStrays_sublist rest)

end

end

theorem unswallowedJumps_sublist (markers : Bool) (body : List Stmt) :
    List.Sublist (unswallowedJumps markers body) (looseJumps body) :=
  bodyStrays_sublist (bodyEndsInJump markers) body

/-! ## Reasons for rejecting a function body -/

/-- The ways in which a function body is rejected: it is empty, a statement in it is at fault, or an
unswallowed jump finds no loop. -/
inductive IsReason (markers : Bool) (body : List Stmt) : Rejection → Prop where
  | empty (h : body = []) : IsReason markers body ⟨.emptyBody, none, ⟨0, 0⟩⟩
  | fault {s : Stmt} (hs : s ∈ bodyStatements body) {r : Rejection} (hr : r ∈ s.faults) :
    IsReason markers body r
  | jump {site : Site} {means : Jump} (h : (site, means) ∈ unswallowedJumps markers body) :
    IsReason markers body (.ofSite (.outsideLoop means) site)

/-- A rejection for a fault names the statement at fault. -/
theorem Stmt.stmt_of_mem_faults {s : Stmt} {r : Rejection} (h : r ∈ s.faults) :
    r.stmt = some s.id := by
  rcases List.mem_append.1 h with h | h
  · cases s with
    | branch =>
      obtain ⟨c, -, rfl⟩ := List.mem_map.1 h
      rfl
    | attempt =>
      simp only [clauseFaults, List.mem_append, List.mem_ite_nil_right, List.mem_singleton] at h
      rcases h with (⟨-, rfl⟩ | ⟨-, rfl⟩) | h
      · rfl
      · rfl
      · obtain ⟨c, -, rfl⟩ := List.mem_map.1 h
        rfl
    | dispatch =>
      simp only [clauseFaults, List.mem_ite_nil_right, List.mem_singleton] at h
      obtain ⟨-, rfl⟩ := h
      rfl
    | unsupported =>
      obtain rfl := List.mem_singleton.1 h
      rfl
    | _ => simp [clauseFaults] at h
  · obtain ⟨body, -, rfl⟩ := List.mem_map.1 h
    rfl

namespace Plan

variable {options : Options} {regions : RegionTree} {body : List Stmt}

theorem rejectsBy_ofBody :
    RejectsBy (IsReason options.markers body) (ofBody options regions body) := by
  cases body with
  | nil => exact .rejected (.empty rfl)
  | cons s rest =>
    refine (rejectsBy_planBody _ _ ⟨fun s hs r hr => .fault hs hr, fun site means hm => ?_⟩).map _
    -- with nothing around it, a jump that has to stay in a loop finds none
    rw [Route.through]
    split
    next hstays => exact .rejected (.jump (hm hstays))
    next => exact .ok _

theorem wellFormed_of_ofBody {plan : Plan} (h : ofBody options regions body = .ok plan) :
    WellFormed body ∧ unswallowedJumps options.markers body = [] := by
  cases body with
  | nil => simp [ofBody] at h
  | cons s rest =>
    obtain ⟨p, hp, -⟩ := map_eq_ok.1 h
    have hc := cleared_of_planBody _ _ hp
    refine ⟨⟨List.cons_ne_nil _ _, hc.faults⟩, List.eq_nil_iff_forall_not_mem.2 fun j hj => ?_⟩
    obtain ⟨hm, route, ht⟩ := hc.routed j hj
    simp [Route.through, hm] at ht

end Plan

theorem not_isReason {markers : Bool} {body : List Stmt} {r : Rejection} (hw : WellFormed body)
    (hj : unswallowedJumps markers body = []) : ¬ IsReason markers body r := by
  rintro (he | ⟨hs, hr⟩ | hm)
  · exact hw.1 he
  · rw [hw.2 _ hs] at hr
    cases hr
  · rw [hj] at hm
    cases hm

/-! ## Bodies with a graph -/

namespace Graph

variable {options : Options} {body : List Stmt}

/-- A body that has a plan has a graph. -/
theorem exists_of_plan {plan : Plan}
    (h : Plan.ofBody options (RegionTree.ofBody body) body = .ok plan) :
    ∃ g, ofBody options body = .ok g := by
  obtain ⟨g, hg⟩ :=
    ofLayout_eq_ok (RegionTree.ofBody body) options.flatDispatch (Plan.fits_ofBody h)
  exact ⟨g, by rw [ofBody, h]; exact hg⟩

/-- A body that has no graph is rejected for a reason. -/
theorem isReason_of_error {failure : Failure} (h : ofBody options body = .error failure) :
    ∃ r, failure = .rejected r ∧ IsReason options.markers body r := by
  cases hp : Plan.ofBody options (RegionTree.ofBody body) body with
  -- a planned body has a graph, so it is planning that failed
  | ok plan =>
    obtain ⟨g, hg⟩ := exists_of_plan hp
    rw [hg] at h
    cases h
  | error failure' =>
    obtain rfl : failure' = failure := by
      rw [ofBody, hp] at h
      cases h
      rfl
    cases failure' with
    | defective defect => exact absurd hp (Plan.noDefect_ofBody options body defect)
    | rejected r => exact ⟨r, rfl, Plan.rejectsBy_ofBody r hp⟩

/-- The bodies that have a graph. -/
theorem exists_ofBody_iff : (∃ g, ofBody options body = .ok g) ↔
    WellFormed body ∧ unswallowedJumps options.markers body = [] := by
  constructor
  · rintro ⟨g, hg⟩
    obtain ⟨plan, hp, -, -⟩ := ofPiece_ofBody hg
    exact Plan.wellFormed_of_ofBody hp
  · rintro ⟨hw, hj⟩
    cases hg : ofBody options body with
    | ok g => exact ⟨g, rfl⟩
    | error failure =>
      obtain ⟨r, -, hr⟩ := isReason_of_error hg
      exact absurd hr (not_isReason hw hj)

/-- A body in which every `break` and `continue` stands in the body of a loop has a graph exactly if
it is well formed.  Otherwise it is rejected because it is empty, or because of a fault of one of
its statements; the rejection names that statement. -/
theorem built_iff_wellFormed (options : Options) {body : List Stmt} (h : looseJumps body = []) :
    ((∃ g, ofBody options body = .ok g) ↔ WellFormed body) ∧
    ∀ failure, ofBody options body = .error failure → ∃ r, failure = .rejected r ∧
      (body = [] ∧ r = ⟨.emptyBody, none, ⟨0, 0⟩⟩ ∨
        ∃ s ∈ bodyStatements body, r ∈ s.faults ∧ r.stmt = some s.id) := by
  -- where no jump is loose, there is none to be swallowed
  have hj : unswallowedJumps options.markers body = [] :=
    List.sublist_nil.1 (h ▸ unswallowedJumps_sublist options.markers body)
  constructor
  · rw [exists_ofBody_iff, and_iff_left hj]
  · intro failure hf
    obtain ⟨r, rfl, hr⟩ := isReason_of_error hf
    refine ⟨r, rfl, ?_⟩
    rcases hr with he | ⟨hs, hr⟩ | hm
    · exact .inl ⟨he, rfl⟩
    · exact .inr ⟨_, hs, hr, Stmt.stmt_of_mem_faults hr⟩
    · rw [hj] at hm
      cases hm

end Graph

/-- A `with` without a body, in a loop that control never reaches. -/
def emptyBodyInDeadCode : List Stmt :=
  [.jump ⟨1, ⟨0, 6⟩⟩ .returning,
    .loop ⟨2, ⟨7, 30⟩⟩ (.condition ⟨13, 14⟩)
      [.jump ⟨3, ⟨16, 21⟩⟩ .breaking, .hold ⟨4, ⟨22, 30⟩⟩ false ⟨27, 28⟩ []] []]

theorem built_iff_wellFormed_emptyBodyInDeadCode : looseJumps emptyBodyInDeadCode = [] ∧
    ((∃ g, Graph.ofBody {} emptyBodyInDeadCode = .ok g) ↔ WellFormed emptyBodyInDeadCode) ∧
    Graph.ofBody {} emptyBodyInDeadCode = .error (.rejected ⟨.emptyBody, some 4, ⟨22, 30⟩⟩) ∧
    ∃ s ∈ bodyStatements emptyBodyInDeadCode,
      ⟨.emptyBody, some 4, ⟨22, 30⟩⟩ ∈ s.faults ∧ s.id = 4 := by
  have hloose : looseJumps emptyBodyInDeadCode = [] := rfl
  have herror : Graph.ofBody {} emptyBodyInDeadCode =
      .error (.rejected ⟨.emptyBody, some 4, ⟨22, 30⟩⟩) := rfl
  obtain ⟨hiff, hreason⟩ := Graph.built_iff_wellFormed {} hloose
  obtain ⟨r, hr, ⟨hnil, -⟩ | ⟨s, hs, hfault, hid⟩⟩ := hreason _ herror
  · exact absurd hnil (List.cons_ne_nil _ _)
  · cases hr
    exact ⟨hloose, hiff, herror, s, hs, hfault, (Option.some.inj hid).symm⟩

/-- A body is rejected exactly if it is not well formed or some `break` or `continue` outside the
bodies of all loops is not swallowed.  A well-formed body is rejected for such a jump. -/
theorem Graph.rejected_iff_unswallowed (options : Options) (body : List Stmt) :
    ((∃ r, Graph.ofBody options body = .error (.rejected r)) ↔
      ¬ WellFormed body ∨ unswallowedJumps options.markers body ≠ []) ∧
    List.Sublist (unswallowedJumps options.markers body) (looseJumps body) ∧
    (WellFormed body → ∀ r, Graph.ofBody options body = .error (.rejected r) →
      ∃ j ∈ unswallowedJumps options.markers body, r = .ofSite (.outsideLoop j.2) j.1) := by
  refine ⟨?_, unswallowedJumps_sublist _ body, fun hw r hr => ?_⟩
  · rw [← not_and_or, ← Graph.exists_ofBody_iff, not_exists]
    constructor
    · rintro ⟨r, hr⟩ g hg
      rw [hr] at hg
      cases hg
    · intro hno
      cases hg : Graph.ofBody options body with
      | ok g => exact absurd hg (hno g)
      | error failure =>
        obtain ⟨r, rfl, -⟩ := Graph.isReason_of_error hg
        exact ⟨r, rfl⟩
  · obtain ⟨_, h, hreason⟩ := Graph.isReason_of_error hr
    cases h
    -- of the three reasons a well-formed body leaves only the jump
    rcases hreason with he | ⟨hs, hr⟩ | hm
    · exact absurd he hw.1
    · rw [hw.2 _ hs] at hr
      cases hr
    · exact ⟨_, hm, rfl⟩

/-- A `continue` in the `else` clause of the only loop. -/
def continueInLoopElse : List Stmt :=
  [.loop ⟨1, ⟨0, 30⟩⟩ (.condition ⟨6, 7⟩) [.pass ⟨2, ⟨9, 13⟩⟩] [.jump ⟨3, ⟨20, 28⟩⟩ .continuing]]

theorem rejected_iff_unswallowed_continueInLoopElse : WellFormed continueInLoopElse ∧
    ∃ r, Graph.ofBody {} continueInLoopElse = .error (.rejected r) ∧
      ∃ j ∈ looseJumps continueInLoopElse, r = .ofSite (.outsideLoop j.2) j.1 := by
  have hw : WellFormed continueInLoopElse := by decide
  obtain ⟨hiff, hsub, hjump⟩ := Graph.rejected_iff_unswallowed {} continueInLoopElse
  obtain ⟨r, hr⟩ := hiff.2 (.inr (by decide))
  obtain ⟨j, hj, hrj⟩ := hjump hw r hr
  exact ⟨hw, r, hr, j, hsub.subset hj, hrj⟩

/-- A `break` outside all loops, under a `finally` clause that returns. -/
def breakUnderFinalReturn : List Stmt :=
  [.attempt ⟨0, ⟨0, 30⟩⟩ [.jump ⟨1, ⟨5, 10⟩⟩ .breaking] [] [] [.jump ⟨2, ⟨20, 26⟩⟩ .returning]]

/-- A `break` that no loop encloses does not by itself keep a body from having a graph. -/
theorem exists_ofBody_breakUnderFinalReturn :
    looseJumps breakUnderFinalReturn = [(⟨1, ⟨5, 10⟩⟩, .breaking)] ∧
      ∃ g, Graph.ofBody {} breakUnderFinalReturn = .ok g :=
  ⟨rfl, _, rfl⟩

end Flowgraph
