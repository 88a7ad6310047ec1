import Flowgraph.Proofs.Faults
import Flowgraph.Proofs.Outlook

/-!
# Overlooking markers

A view that sees statements only, and no markers, is compared on a body with its markers and on the
same body without them.  A marker changes the graph in one way that such a view can notice.  The
exceptions of a `try` body leave its first node; if a marker stands in front of a statement that has
a node of its own, they leave the marker's block instead of that node.  A test at which no statement
runs, and to which control does not come back, makes no difference: it is viewed like the block
before it.

So nothing is gained by keeping the markers.  Nothing is lost either if the view does not care
whether an exception is raised before or after the events at a node, or if no `try` with handlers
has a body that begins in this way.

Both directions are one induction on the statements, about two bodies viewed up to a remainder `e`
that comes out of a view as it went in.  The remainder takes up the exceptions that leave a block of
markers in one graph and the node after it in the other.

## Main definitions

* `View.Overlooks` : the view sees statements only, and no markers.
* `View.Indifferent` : it does not matter when an exception is raised.
* `opensHeld` : a statement runs at the first node of the body, or control comes back to the node.
* `opensMarked` : the body begins with markers in front of a statement with a node of its own.
* `Stmt.watchesMarker` : a `try` with handlers whose body begins in this way.

## Main results

* `heed_le_bodyView` : the exceptions that a body is watched over for are in view.
* `bodyView_eq_block` : a body with such a test at its first node is viewed like the block before.
* `bodyView_le` : a body with or without its markers, compared.
* `bodyView_markers_le`, `le_bodyView_markers` : the two directions.
-/

set_option linter.unusedSectionVars false

namespace Flowgraph

/-- The event is a statement, and not a marker. -/
def Event.isSeen : Event → Bool
  | .stmt s => s.marker?.isNone
  | _ => false

/-- The statements that are not markers. -/
def unmarked (stmts : List Stmt) : List Stmt :=
  stmts.filter (·.marker?.isNone)

@[simp] theorem unmarked_nil : unmarked [] = [] := rfl

@[simp] theorem unmarked_append (stmts stmts' : List Stmt) :
    unmarked (stmts ++ stmts') = unmarked stmts ++ unmarked stmts' :=
  List.filter_append ..

mutual

/-- A statement runs at the first node of the statement, or control comes back to that node.  It is
not so where the first node is the test of an `if` or the subject of a `match`. -/
def Stmt.isHeld : Stmt → Bool
  | .branch .. | .dispatch .. | .unsupported _ => false
  | .attempt _ body _ _ _ => opensHeld body
  | _ => true

/-- The first statement of the body that is not a marker begins in this way. -/
def opensHeld : List Stmt → Bool
  | [] => false
  | s :: rest => if s.marker?.isSome then opensHeld rest else s.isHeld

end

/-- The statement begins with a node of its own, at which it or a statement inside it runs, or to
which it comes back. -/
def Stmt.isApart : Stmt → Bool
  | yield _ | jump _ .raising | loop .. => true
  | attempt _ body _ _ _ => opensHeld body
  | _ => false

/-- The first statement of the body that is not a marker has a node of its own. -/
def startsApart : List Stmt → Bool
  | [] => false
  | s :: rest => if s.marker?.isSome then startsApart rest else s.isApart

mutual

/-- The statement is a `try` whose first node follows a block of markers in its body. -/
def Stmt.beginsMarked : Stmt → Bool
  | .attempt _ body _ _ _ => opensMarked body
  | _ => false

/-- The body begins with markers in front of a statement that has a node of its own, or with a `try`
whose body begins in this way. -/
def opensMarked : List Stmt → Bool
  | [] => false
  | s :: rest => if s.marker?.isSome then startsApart rest else s.beginsMarked

end

/-- The statement is a `try` with handlers, and the exceptions of its body leave a block of markers
in place of the node after it. -/
def Stmt.watchesMarker : Stmt → Bool
  | attempt _ body handlers _ _ => !handlers.isEmpty && opensMarked body
  | _ => false

/-- Behind nothing but markers, a statement with a node of its own is what the body begins with. -/
theorem opensMarked_append {before : List Stmt} (hne : before ≠ []) (hb : unmarked before = [])
    {s : Stmt} (hs : s.isApart = true) (rest : List Stmt) :
    opensMarked (before ++ s :: rest) = true := by
  have hm : ∀ r ∈ before, r.marker?.isSome = true := by
    intro r hr
    have := List.filter_eq_nil_iff.1 hb r hr
    simpa [Option.isSome_iff_ne_none] using this
  -- markers are passed over until the statement comes
  have hstart : ∀ before : List Stmt, (∀ r ∈ before, r.marker?.isSome = true) →
      startsApart (before ++ s :: rest) = true := by
    intro before hm
    induction before with
    | nil =>
      cases s with
      | marker => cases hs
      | _ => simpa [startsApart, Stmt.marker?] using hs
    | cons r before ih =>
      rw [List.cons_append, startsApart, if_pos (hm r List.mem_cons_self)]
      exact ih fun r' hr' => hm r' (List.mem_cons_of_mem r hr')
  cases before with
  | nil => exact absurd rfl hne
  | cons r before =>
    rw [List.cons_append, opensMarked, if_pos (hm r List.mem_cons_self)]
    exact hstart before fun r' hr' => hm r' (List.mem_cons_of_mem r hr')

variable {V : Type} [CompleteLattice V]

theorem least_le_sup {F G : V → V} {e : V} (hG : Monotone G) (h : ∀ x, F (x ⊔ e) ≤ G x ⊔ e) :
    least F ≤ least G ⊔ e :=
  least_le ((h _).trans_eq (by rw [map_least hG]))

namespace View

/-- The view sees statements only, and no markers; what follows a node is in view from there, and
handlers are looked at one by one. -/
structure Overlooks (A : View V) : Prop where
  see_filter : ∀ events x, A.see (events.filter Event.isSeen) x = A.see events x
  le_see : ∀ events x, x ≤ A.see events x
  heed_sup : ∀ x y, A.heed (x ⊔ y) = A.heed x ⊔ A.heed y

/-- What is added to a value comes out of the view as it went in. -/
structure Carries (A : View V) (e : V) : Prop where
  see : ∀ events x, A.see events (x ⊔ e) ≤ A.see events x ⊔ e
  heed : A.heed e ≤ e

/-- It does not matter whether an exception is raised before or after the events at a node. -/
def Indifferent (A : View V) : Prop :=
  ∀ x, A.Carries (A.heed x)

section Carries

variable {A : View V} {e e' : V}

theorem carries_bot : A.Carries ⊥ :=
  ⟨fun events x => by simp, by simp⟩

theorem Carries.sup (h : A.Carries e) (h' : A.Carries e') (hA : A.Overlooks) :
    A.Carries (e ⊔ e') where
  see events x := by
    rw [← sup_assoc]
    exact (h'.see events _).trans
      ((sup_le_sup_right (h.see events x) e').trans_eq (sup_assoc _ _ _))
  heed := by
    rw [hA.heed_sup]
    exact sup_le_sup h.heed h'.heed

end Carries

namespace Overlooks

variable {A : View V} (hA : A.Overlooks)

include hA

theorem see_eq_of_not_isSeen {event : Event} (h : event.isSeen = false) (x : V) :
    A.see [event] x = x := by
  rw [← hA.see_filter, List.filter_cons_of_neg (by simp [h]), List.filter_nil, A.see_nil]

@[simp] theorem see_test (header : Span) (x : V) : A.see [.test header] x = x :=
  hA.see_eq_of_not_isSeen rfl x

theorem block_eq (stmts : List Stmt) (next caught : V) :
    A.block stmts next caught = A.see ((unmarked stmts).map .stmt) (next ⊔ A.heed caught) := by
  rw [block, ← hA.see_filter, List.filter_map]
  rfl

theorem heed_le_block (stmts : List Stmt) (next caught : V) :
    A.heed caught ≤ A.block stmts next caught :=
  le_sup_right.trans (hA.le_see _ _)

theorem heed_le_apart (before : List Stmt) {next : V → V} {caught : V}
    (h : A.heed caught ≤ next caught) : A.heed caught ≤ A.apart before next caught := by
  cases before with
  | nil => exact h
  | cons s before => exact hA.heed_le_block _ _ _

end Overlooks

end View

section Heed

variable {A : View V} (hA : A.Overlooks) (markers flat : Bool)

include hA

mutual

/-- The exceptions that a statement is watched over for are in view from it. -/
theorem Stmt.heed_le_view (κ : Outcome → V) (before : List Stmt) (caught : V) : (s : Stmt) →
    A.heed caught ≤ s.view A markers flat κ before caught
  | .simple _ | .pass _ | .marker .. | .hold .. | .unsupported _ => hA.heed_le_block _ _ _
  | .yield _ => hA.heed_le_apart before (hA.heed_le_block _ _ _)
  | .jump site means => by
    rw [Stmt.view]
    split
    · exact hA.heed_le_apart before (hA.heed_le_block _ _ _)
    · exact hA.heed_le_block _ _ _
  | .branch .. | .dispatch .. => by
    rw [Stmt.view]
    exact hA.heed_le_apart before (le_sup_right.trans (hA.le_see _ _))
  | .loop .. => by
    rw [Stmt.view]
    exact hA.heed_le_apart before
      (le_least fun _ hy => (le_sup_right.trans (hA.le_see _ _)).trans hy)
  | .attempt _ body handlers orelse final => by
    -- the handlers of the statement are heeded along with those around it
    rw [Stmt.view]
    exact hA.heed_le_apart before
      ((A.heed_mono le_sup_right).trans (heed_le_bodyView _ [] _ body))

/-- The exceptions that a body is watched over for are in view from it. -/
theorem heed_le_bodyView (κ : Outcome → V) (before : List Stmt) (caught : V) :
    (body : List Stmt) → A.heed caught ≤ bodyView A markers flat κ before caught body
  | [] => hA.heed_le_block _ _ _
  | s :: rest => by
    rw [bodyView]
    split
    · exact heed_le_bodyView κ _ caught rest
    · exact s.heed_le_view _ before caught

end

end Heed

/-! ## Where no statement runs at the first node -/

theorem unmarked_keep (s : Stmt) (markers : Bool) (before : List Stmt) :
    unmarked (if s.kept markers then before ++ [s] else before) =
      unmarked before ++ unmarked [s] := by
  cases hk : s.kept markers with
  | true => simp
  | false =>
    cases s with
    | marker => simp [unmarked, Stmt.marker?]
    | _ => cases hk

section Held

variable {A : View V} (hA : A.Overlooks) (markers flat : Bool)

include hA

/-- A block of markers is viewed as what follows it. -/
theorem View.Overlooks.block_block {stmts : List Stmt} (hs : unmarked stmts = [])
    (before : List Stmt) (next caught : V) :
    A.block before (A.block stmts next ⊥) caught = A.block before next caught := by
  rw [hA.block_eq stmts, hs, List.map_nil, A.see_nil, A.heed_bot, sup_bot_eq]

mutual

/-- If no statement runs at the first node of a statement, the node is viewed as if it belonged to
the block before it, and the exceptions of the block may as well leave it. -/
theorem Stmt.view_eq_block (κ : Outcome → V) (before : List Stmt) (caught : V) : (s : Stmt) →
    s.isHeld = false → s.view A markers flat κ before caught =
      A.block before (s.view A markers flat κ [] ⊥) caught
  | .branch .., _ | .dispatch .., _ => by
    simp only [Stmt.view, hA.see_test, View.apart_eq_block]
    rw [hA.block_block rfl]
  | .unsupported _, _ => by
    rw [Stmt.view, Stmt.view, hA.block_block rfl]
  | .attempt _ body handlers orelse final, h => by
    -- what watches over the statement is added to the handlers, and comes out again
    have hnext : ∀ κ caught caught', bodyView A markers flat κ [] (caught ⊔ caught') body =
        bodyView A markers flat κ [] ⊥ body ⊔ A.heed caught ⊔ A.heed caught' := by
      intro κ caught caught'
      rw [bodyView_eq_block κ [] (caught ⊔ caught') body h, hA.block_eq, hA.heed_sup, unmarked_nil,
        List.map_nil, A.see_nil, sup_assoc]
    rw [Stmt.view_attempt, Stmt.view_attempt]
    simp only [hnext, View.apart_eq_block]
    rw [hA.block_block rfl]

theorem bodyView_eq_block (κ : Outcome → V) (before : List Stmt) (caught : V) :
    (body : List Stmt) → opensHeld body = false →
      bodyView A markers flat κ before caught body =
        A.block before (bodyView A markers flat κ [] ⊥ body) caught
  | [], _ => by
    rw [bodyView, bodyView, hA.block_block rfl]
  | s :: rest, h => by
    rw [bodyView, bodyView]
    cases hstraight : s.isStraight with
    | false =>
      simp only [Bool.false_eq_true, if_false]
      refine s.view_eq_block _ before caught ?_
      cases s with
      | simple | pass | marker => cases hstraight
      | _ => exact h
    | true =>
      -- only a marker joins the block
      have hmarker : unmarked [s] = [] ∧ opensHeld rest = false := by
        cases s with
        | marker => exact ⟨rfl, h⟩
        | simple | pass => cases h
        | _ => cases hstraight
      obtain ⟨hs, hrest⟩ := hmarker
      have hkeep := fun before => unmarked_keep s markers before
      simp only [if_true]
      rw [bodyView_eq_block κ _ caught rest hrest,
        bodyView_eq_block κ (if s.kept markers then [] ++ [s] else []) ⊥ rest hrest,
        hA.block_block (by rw [hkeep, hs]; rfl), hA.block_eq, hA.block_eq, hkeep, hs,
        List.append_nil]

end

end Held

namespace View

/-- The exceptions of no `try` among the statements leave a block of markers in place of the node
after it, or else there are no markers, or it does not matter when an exception is raised. -/
def Steady (A : View V) (markers : Bool) (stmts : List Stmt) : Prop :=
  markers = true → A.Indifferent ∨ ∀ s ∈ stmts, s.watchesMarker = false

/-- The exceptions of the block `before` may as well leave the node after it: up to `e` there are
none, or the node belongs to the block, or there are no markers in the block, or it does not matter
when an exception is raised. -/
structure Allows (A : View V) (markers : Bool) (e : V) (before : List Stmt) (caught : V)
    (body : List Stmt) : Prop where
  unmarked : markers = false → unmarked before = before
  opens : markers = true →
    A.Indifferent ∨ A.heed caught ≤ e ∨ opensMarked (before ++ body) = false

variable {A : View V} {markers : Bool} {e caught : V} {before : List Stmt}

theorem Steady.mono {stmts stmts' : List Stmt} (h : A.Steady markers stmts)
    (hsub : stmts' ⊆ stmts) : A.Steady markers stmts' :=
  fun hm => (h hm).imp_right fun h s hs => h s (hsub hs)

/-- Where no exception is watched for, everything is allowed. -/
theorem allows_nil (body : List Stmt) : A.Allows markers e [] ⊥ body :=
  ⟨fun _ => rfl, fun _ => .inr (.inl (by simp))⟩

/-- A straight-line statement joins the block. -/
theorem Allows.straight {s : Stmt} {rest : List Stmt}
    (h : A.Allows markers e before caught (s :: rest)) :
    A.Allows markers e (if s.kept markers then before ++ [s] else before) caught rest where
  unmarked hm := by
    subst hm
    cases s with
    | marker => simpa [Stmt.kept] using h.unmarked rfl
    | _ => simpa [Stmt.kept, Flowgraph.unmarked, Stmt.marker?] using h.unmarked rfl
  opens hm := by
    subst hm
    have hk : s.kept true = true := by cases s <;> rfl
    simpa [hk] using h.opens rfl

/-- A block of markers in front of a statement with a node of its own. -/
theorem Allows.apart {s : Stmt} {rest : List Stmt}
    (h : A.Allows markers e before caught (s :: rest)) (hs : s.isApart = true)
    (hb : Flowgraph.unmarked before = []) (hne : before ≠ []) :
    A.Indifferent ∨ A.heed caught ≤ e := by
  cases hm : markers with
  | false => exact absurd (h.unmarked hm ▸ hb) hne
  | true =>
    rcases h.opens hm with hI | hle | hopens
    · exact .inl hI
    · exact .inr hle
    · rw [opensMarked_append hne hb hs rest] at hopens
      cases hopens

/-- What watches over a `try` watches over its body, along with its handlers if it has any. -/
theorem Allows.attempt {site : Site} {body orelse final rest : List Stmt}
    {handlers : List Handler}
    (h : A.Allows markers e [] caught (.attempt site body handlers orelse final :: rest))
    (hs : A.Steady markers (Stmt.attempt site body handlers orelse final).statements) (flat : Bool)
    (κ : Outcome → V) :
    A.Allows markers e [] (handlersView A markers flat κ handlers ⊔ caught) body where
  unmarked _ := rfl
  opens hm := by
    -- handlers of its own watch over the body; without any, those further out do
    cases handlers with
    | cons handler handlers =>
      refine (hs hm).imp_right fun hsteady => .inr ?_
      simpa [Stmt.watchesMarker] using hsteady _ (List.mem_cons_self ..)
    | nil =>
      rw [handlersView, bot_sup_eq]
      simpa [opensMarked, Stmt.marker?, Stmt.beginsMarked] using h.opens hm

end View

/-! ## With and without markers -/

section Comparison

variable {A : View V} {e : V} {κ κ' : Outcome → V} {before before' : List Stmt}
  {caught caught' : V}

namespace View

/-- Blocks with the same statements, apart from markers, are viewed alike. -/
theorem Overlooks.block_le (hA : A.Overlooks) (he : A.Carries e)
    (hb : unmarked before = unmarked before') {next next' : V} (hn : next ≤ next' ⊔ e)
    (hc : A.heed caught ≤ A.heed caught' ⊔ e) :
    A.block before next caught ≤ A.block before' next' caught' ⊔ e := by
  rw [hA.block_eq, hA.block_eq, hb]
  refine (A.see_mono _ ?_).trans (he.see _ _)
  calc next ⊔ A.heed caught ≤ (next' ⊔ e) ⊔ (A.heed caught' ⊔ e) := sup_le_sup hn hc
    _ = next' ⊔ A.heed caught' ⊔ e := by rw [sup_sup_sup_comm, sup_idem]

/-- What begins a new node after a block is viewed alike, if the exceptions of the block may as well
leave that node. -/
theorem Overlooks.apart_le (hA : A.Overlooks) (he : A.Carries e)
    (hb : unmarked before = unmarked before') (hc : A.heed caught ≤ A.heed caught' ⊔ e)
    {markers : Bool} {s : Stmt} {rest : List Stmt}
    (ha : A.Allows markers e before' caught' (s :: rest)) (hs : s.isApart = true)
    {next next' : V → V} (hheed : A.heed caught' ≤ next' caught')
    (hn : ∀ e' c c', A.Carries e' → e ≤ e' → A.heed c ≤ A.heed c' ⊔ e' →
      A.Allows markers e' [] c' (s :: rest) → next c ≤ next' c' ⊔ e') :
    A.apart before next caught ≤ A.apart before' next' caught' ⊔ e := by
  cases before with
  | nil =>
    cases before' with
    | nil => exact hn e caught caught' he le_rfl hc ha
    | cons s' before' =>
      -- a block of markers: its exceptions are taken into the remainder
      have hapart := ha.apart hs hb.symm (List.cons_ne_nil _ _)
      rw [apart_nil, apart_cons, hA.block_eq, ← hb, unmarked_nil, List.map_nil, A.see_nil]
      rcases hapart with hI | hle
      · rw [sup_assoc]
        exact hn _ caught ⊥ ((hI caught').sup he hA) le_sup_right (by simpa using hc) (allows_nil _)
      · refine (hn e caught ⊥ he le_rfl ?_ (allows_nil _)).trans (sup_le_sup_right le_sup_left e)
        simpa using hc.trans (sup_le hle le_rfl)
  | cons r before =>
    have hbot : A.heed ⊥ ≤ A.heed ⊥ ⊔ e := le_sup_left
    cases before' with
    | nil =>
      -- the exceptions of a block of markers, which the other node has too
      rw [apart_nil, apart_cons, hA.block_eq, hb, unmarked_nil, List.map_nil, A.see_nil]
      refine sup_le (hn e ⊥ caught' he le_rfl ?_ ha) (hc.trans (sup_le_sup_right hheed e))
      simp
    | cons r' before' => exact hA.block_le he hb (hn e ⊥ ⊥ he le_rfl hbot (allows_nil _)) hc

end View

/-! ### Continuations -/

theorem sup_le_sup_sup {x x' y y' : V} (hx : x ≤ x' ⊔ e) (hy : y ≤ y' ⊔ e) :
    x ⊔ y ≤ x' ⊔ y' ⊔ e :=
  sup_le (hx.trans (sup_le_sup_right le_sup_left e)) (hy.trans (sup_le_sup_right le_sup_right e))

theorem continueWith_le {x x' : V} (hx : x ≤ x' ⊔ e) (hκ : ∀ o, κ o ≤ κ' o ⊔ e) (o : Outcome) :
    continueWith x κ o ≤ continueWith x' κ' o ⊔ e := by
  cases o with
  | normal => exact hx
  | jump site means => exact hκ _

theorem loopBody_le {x x' : V} (hx : x ≤ x' ⊔ e) (hκ : ∀ o, κ o ≤ κ' o ⊔ e) (o : Outcome) :
    loopBody x κ o ≤ loopBody x' κ' o ⊔ e := by
  rcases o with - | ⟨site, - | - | - | -⟩
  · exact hx
  · exact hκ _
  · exact hκ _
  · exact hκ _
  · exact hx

namespace View.Carries

variable (he : A.Carries e)

include he

theorem see_le {x x' : V} (events : List Event) (h : x ≤ x' ⊔ e) :
    A.see events x ≤ A.see events x' ⊔ e :=
  (A.see_mono _ h).trans (he.see _ _)

theorem resumed_le (hκ : ∀ o, κ o ≤ κ' o ⊔ e) (o : Outcome) :
    A.resumed κ o ≤ A.resumed κ' o ⊔ e := by
  cases o with
  | normal => exact hκ _
  | jump site means => exact he.see_le _ (hκ _)

theorem released_le (header : Span) (hκ : ∀ o, κ o ≤ κ' o ⊔ e) (o : Outcome) :
    A.released header κ o ≤ A.released header κ' o ⊔ e := by
  cases o with
  | normal => exact hκ _
  | jump site means => exact he.see_le _ (he.resumed_le hκ _)

end View.Carries

variable (hA : A.Overlooks) (flat : Bool)

include hA

mutual

/-- A statement other than a straight-line one, with or without the markers in it, compared. -/
theorem Stmt.view_le (markers markers' : Bool) {e : V} (he : A.Carries e) {κ κ' : Outcome → V}
    (hκ : ∀ o, κ o ≤ κ' o ⊔ e) {before before' : List Stmt}
    (hb : unmarked before = unmarked before') {caught caught' : V}
    (hc : A.heed caught ≤ A.heed caught' ⊔ e) (rest : List Stmt) : (s : Stmt) →
      s.isStraight = false → A.Allows markers' e before' caught' (s :: rest) →
      A.Steady markers' s.statements →
      s.view A markers flat κ before caught ≤ s.view A markers' flat κ' before' caught' ⊔ e
  | .yield site, _, ha, _ => by
    refine hA.apart_le he hb hc ha rfl (hA.heed_le_block _ _ _) fun e' c c' he' hle hc _ => ?_
    have hnext := (hκ .normal).trans (sup_le_sup_left hle _)
    exact hA.block_le he' rfl (sup_le_sup_sup hnext le_sup_left) hc
  | .jump site means, _, ha, _ => by
    rw [Stmt.view, Stmt.view]
    split
    next hm =>
      subst hm
      refine hA.apart_le he hb hc ha rfl (hA.heed_le_block _ _ _) fun e' c c' he' hle hc _ => ?_
      exact hA.block_le he' rfl ((hκ _).trans (sup_le_sup_left hle _)) hc
    next hm => exact hA.block_le he (by simp [hb]) (hκ _) hc
  | .branch site test body clauses, _, _, hs => by
    have hbody := bodyView_le markers markers' he hκ rfl le_sup_left body (View.allows_nil body)
      (hs.mono fun r hr => by simp [Stmt.statements, hr])
    have hrest := clausesView_le markers markers' he hκ clauses
      (hs.mono fun r hr => by simp [Stmt.statements, hr])
    simp only [Stmt.view, hA.see_test, View.apart_eq_block]
    exact hA.block_le he hb (sup_le_sup_sup hbody hrest) hc
  | .loop site head body orelse, _, ha, hs => by
    simp only [Stmt.view, hA.see_test]
    refine hA.apart_le he hb hc ha rfl (le_least fun _ hy => le_sup_right.trans hy)
      fun e' c c' he' hle hc _ => ?_
    have hκ' := fun o => (hκ o).trans (sup_le_sup_left hle _)
    have hsb : A.Steady markers' (bodyStatements body) := hs.mono (by simp [Stmt.statements])
    have horelse := bodyView_le markers markers' he' hκ' rfl le_sup_left orelse
      (View.allows_nil orelse) (hs.mono fun r hr => by simp [Stmt.statements, hr])
    have hround := fun x => bodyView_le markers markers' he' (loopBody_le (x := x ⊔ e') le_rfl hκ')
      rfl le_sup_left body (View.allows_nil body) hsb
    refine least_le_sup (fun x y hxy => ?_) fun x => sup_le_sup_sup
      (sup_le_sup_sup (hround x) horelse) hc
    -- a round is viewed monotonically, which is the same comparison without a remainder
    have hmono := bodyView_le markers' markers' View.carries_bot
      (loopBody_le (κ := κ') (hxy.trans le_sup_left) fun _ => le_sup_left) rfl le_sup_left body
      (View.allows_nil body) hsb
    rw [sup_bot_eq] at hmono
    exact sup_le_sup_right (sup_le_sup_right hmono _) _
  | .attempt site body handlers orelse final, _, ha, hs => by
    have hnext : ∀ e' c c', A.Carries e' → e ≤ e' → A.heed c ≤ A.heed c' ⊔ e' →
        A.Allows markers' e' [] c' (.attempt site body handlers orelse final :: rest) →
        (Stmt.attempt site body handlers orelse final).view A markers flat κ [] c ≤
          (Stmt.attempt site body handlers orelse final).view A markers' flat κ' [] c' ⊔ e' := by
      intro e' c c' he' hle hc ha
      have hκ' := fun o => (hκ o).trans (sup_le_sup_left hle _)
      -- from the end of the statement backwards
      have hafter : ∀ o, A.afterFinal markers flat κ final o ≤
          A.afterFinal markers' flat κ' final o ⊔ e' := by
        intro o
        rw [View.afterFinal, View.afterFinal]
        split
        · exact hκ' o
        · exact bodyView_le markers markers' he' (continueWith_le (he'.resumed_le hκ' o) hκ') rfl
            le_sup_left final (View.allows_nil final)
            (hs.mono fun r hr => by simp [Stmt.statements, hr])
      have horelse := bodyView_le markers markers' he' hafter rfl le_sup_left orelse
        (View.allows_nil orelse) (hs.mono fun r hr => by simp [Stmt.statements, hr])
      have hhandlers := handlersView_le markers markers' he' hafter handlers
        (hs.mono fun r hr => by simp [Stmt.statements, hr])
      rw [Stmt.view_attempt, Stmt.view_attempt]
      refine bodyView_le markers markers' he' (continueWith_le horelse hafter) rfl ?_ body
        (ha.attempt hs flat _) (hs.mono fun r hr => by simp [Stmt.statements, hr])
      rw [hA.heed_sup, hA.heed_sup]
      refine sup_le_sup_sup ((A.heed_mono hhandlers).trans ?_) hc
      rw [hA.heed_sup]
      exact sup_le_sup_left he'.heed _
    cases hheld : opensHeld body with
    | true =>
      exact hA.apart_le he hb hc ha hheld
        ((A.heed_mono le_sup_right).trans (heed_le_bodyView hA _ _ _ [] _ body)) hnext
    | false =>
      have hblock := fun markers κ before caught => Stmt.view_eq_block hA markers flat κ before
        caught (.attempt site body handlers orelse final) hheld
      rw [hblock markers κ before caught, hblock markers' κ' before' caught']
      exact hA.block_le he hb (hnext e ⊥ ⊥ he le_rfl le_sup_left (View.allows_nil _)) hc
  | .hold site isAsync header body, _, _, hs => by
    have hbody := bodyView_le markers markers' he (he.released_le header hκ) rfl le_sup_left body
      (View.allows_nil body) (hs.mono fun r hr => by simp [Stmt.statements, hr])
    exact hA.block_le he (by simp [hb]) hbody hc
  | .dispatch site subject cases, _, _, hs => by
    have hcases := casesView_le markers markers' he hκ cases
      (hs.mono fun r hr => by simp [Stmt.statements, hr])
    simp only [Stmt.view, hA.see_test, View.apart_eq_block]
    refine hA.block_le he hb (sup_le_sup_sup hcases ?_) hc
    split
    · exact bot_le
    · exact hκ _
  | .unsupported site, _, _, _ => hA.block_le he hb (hκ _) hc
termination_by structural s => s

/-- A body, with or without its markers, compared. -/
theorem bodyView_le (markers markers' : Bool) {e : V} (he : A.Carries e) {κ κ' : Outcome → V}
    (hκ : ∀ o, κ o ≤ κ' o ⊔ e) {before before' : List Stmt}
    (hb : unmarked before = unmarked before') {caught caught' : V}
    (hc : A.heed caught ≤ A.heed caught' ⊔ e) : (body : List Stmt) →
      A.Allows markers' e before' caught' body → A.Steady markers' (bodyStatements body) →
      bodyView A markers flat κ before caught body ≤
        bodyView A markers' flat κ' before' caught' body ⊔ e
  | [], _, _ => hA.block_le he hb (hκ _) hc
  | s :: rest, ha, hs => by
    have hrest : A.Steady markers' (bodyStatements rest) := hs.mono (by simp [bodyStatements])
    rw [bodyView, bodyView]
    -- a straight-line statement joins the block, a marker only if markers are kept
    cases hstraight : s.isStraight with
    | true =>
      simp only [if_true]
      exact bodyView_le markers markers' he hκ (by rw [unmarked_keep, unmarked_keep, hb]) hc rest
        ha.straight hrest
    | false =>
      simp only [Bool.false_eq_true, if_false]
      have hnext := bodyView_le markers markers' he hκ rfl le_sup_left rest (View.allows_nil rest)
        hrest
      exact s.view_le markers markers' he (continueWith_le hnext hκ) hb hc rest hstraight ha
        (hs.mono (by simp [bodyStatements]))
termination_by structural body => body

theorem clausesView_le (markers markers' : Bool) {e : V} (he : A.Carries e)
    {κ κ' : Outcome → V} (hκ : ∀ o, κ o ≤ κ' o ⊔ e) : (clauses : List BranchClause) →
      A.Steady markers' (clauseStatements clauses) →
      clausesView A markers flat κ clauses ≤ clausesView A markers' flat κ' clauses ⊔ e
  | [], _ => hκ _
  | ⟨_, none, body⟩ :: rest, hs =>
    bodyView_le markers markers' he hκ rfl le_sup_left body (View.allows_nil body)
      (hs.mono (by simp [clauseStatements]))
  | ⟨_, some test, body⟩ :: rest, hs => by
    have hbody := bodyView_le markers markers' he hκ rfl le_sup_left body (View.allows_nil body)
      (hs.mono (by simp [clauseStatements]))
    have hrest := clausesView_le markers markers' he hκ rest (hs.mono (by simp [clauseStatements]))
    exact he.see_le _ (sup_le_sup_sup hbody hrest)
termination_by structural clauses => clauses

theorem handlersView_le (markers markers' : Bool) {e : V} (he : A.Carries e)
    {κ κ' : Outcome → V} (hκ : ∀ o, κ o ≤ κ' o ⊔ e) : (handlers : List Handler) →
      A.Steady markers' (clauseStatements handlers) →
      handlersView A markers flat κ handlers ≤ handlersView A markers' flat κ' handlers ⊔ e
  | [], _ => bot_le
  | ⟨_, _, body⟩ :: rest, hs => by
    have hbody := bodyView_le markers markers' he hκ rfl le_sup_left body (View.allows_nil body)
      (hs.mono (by simp [clauseStatements]))
    have hrest := handlersView_le markers markers' he hκ rest (hs.mono (by simp [clauseStatements]))
    exact sup_le_sup_sup hbody hrest
termination_by structural handlers => handlers

theorem casesView_le (markers markers' : Bool) {e : V} (he : A.Carries e)
    {κ κ' : Outcome → V} (hκ : ∀ o, κ o ≤ κ' o ⊔ e) : (cases : List MatchCase) →
      A.Steady markers' (caseStatements cases) →
      casesView A markers flat κ cases ≤ casesView A markers' flat κ' cases ⊔ e
  | [], _ => hκ _
  | ⟨_, head, body⟩ :: rest, hs => by
    have hbody := bodyView_le markers markers' he hκ rfl le_sup_left body (View.allows_nil body)
      (hs.mono (by simp [caseStatements]))
    have hrest := casesView_le markers markers' he hκ rest (hs.mono (by simp [caseStatements]))
    simp only [casesView]
    -- the alternatives are compared from the last one on
    induction head.patterns with
    | nil =>
      simp only [List.foldr_nil]
      split
      · exact bot_le
      · exact hrest
    | cons pattern patterns ih =>
      simp only [List.foldr_cons]
      cases flat with
      | true => exact sup_le_sup_sup (he.see_le _ hbody) ih
      | false => exact he.see_le _ (sup_le_sup_sup hbody ih)
termination_by structural cases => cases

end

/-- Nothing is gained by keeping the markers. -/
theorem bodyView_markers_le (κ : Outcome → V) (body : List Stmt) :
    bodyView A true flat κ [] ⊥ body ≤ bodyView A false flat κ [] ⊥ body := by
  have hle := bodyView_le hA flat true false View.carries_bot (fun o => le_sup_left (a := κ o)) rfl
    le_sup_left body (View.allows_nil body) nofun
  simpa using hle

/-- Nothing is lost by keeping the markers, if it does not matter when an exception is raised, or if
the exceptions of no `try` leave a block of markers in place of the node after it. -/
theorem le_bodyView_markers (κ : Outcome → V) {body : List Stmt}
    (h : A.Indifferent ∨ ∀ s ∈ bodyStatements body, s.watchesMarker = false) :
    bodyView A false flat κ [] ⊥ body ≤ bodyView A true flat κ [] ⊥ body := by
  have hle := bodyView_le hA flat false true View.carries_bot (fun o => le_sup_left (a := κ o)) rfl
    le_sup_left body (View.allows_nil body) fun _ => h
  simpa using hle

end Comparison

end Flowgraph
