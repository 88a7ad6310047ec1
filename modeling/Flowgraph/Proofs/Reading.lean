import Flowgraph.Proofs.View

/-!
# Reading a graph

A reading is a view that takes the events at a node one by one, and for which it does not matter
whether an exception is raised before or after an event.  Then it does not matter either how
straight-line statements are divided into nodes.  Two readings matter: the one that asks whether
something can still be met, and the one that collects the event sequences of the paths that start at
a node.

## Main definitions

* `Reading` : how values are made.
* `Reading.view` : a reading as a view.
* `Piece.value` : the value of a node in terms of the values around it.
-/

namespace Flowgraph

/-- How values are made along a graph, event by event. -/
structure Reading (V : Type) [CompleteLattice V] where
  /-- What an event makes of the value after it. -/
  see : Event → V → V
  /-- The value of an exit. -/
  leave : ExitCause → V
  /-- What is made of the values of the handlers. -/
  heed : V → V
  see_mono : ∀ e, Monotone (see e)
  heed_bot : heed ⊥ = ⊥
  heed_sup : ∀ x y, heed (x ⊔ y) = heed x ⊔ heed y
  /-- It does not matter whether an exception is raised before or after an event. -/
  see_heed : ∀ e x y, see e (x ⊔ heed y) = see e x ⊔ heed y

variable {V : Type} [CompleteLattice V]

namespace Reading

variable (R : Reading V)

attribute [simp] heed_bot heed_sup

theorem heed_mono : Monotone R.heed := fun x y h => by
  rw [← sup_eq_right.2 h, R.heed_sup]
  exact le_sup_left

/-- What several events make of the value after them. -/
def seeAll (events : List Event) (x : V) : V :=
  events.foldr R.see x

@[simp] theorem seeAll_nil (x : V) : R.seeAll [] x = x := rfl

@[simp] theorem seeAll_cons (e : Event) (events : List Event) (x : V) :
    R.seeAll (e :: events) x = R.see e (R.seeAll events x) := rfl

theorem seeAll_append (events events' : List Event) (x : V) :
    R.seeAll (events ++ events') x = R.seeAll events (R.seeAll events' x) :=
  List.foldr_append

theorem seeAll_mono (events : List Event) : Monotone (R.seeAll events) := by
  induction events with
  | nil => exact monotone_id
  | cons e events ih => exact (R.see_mono e).comp ih

theorem seeAll_heed (events : List Event) (x y : V) :
    R.seeAll events (x ⊔ R.heed y) = R.seeAll events x ⊔ R.heed y := by
  induction events with
  | nil => rfl
  | cons e events ih => rw [seeAll_cons, ih, R.see_heed, seeAll_cons]

/-- A reading is a view: the events at a node are seen one after the other. -/
def view : View V where
  see := R.seeAll
  leave := R.leave
  heed := R.heed
  see_nil := R.seeAll_nil
  see_mono := R.seeAll_mono
  heed_bot := R.heed_bot
  heed_mono := R.heed_mono

@[simp] theorem see_view (events : List Event) (x : V) :
    R.view.see events x = R.seeAll events x := rfl

@[simp] theorem leave_view (c : ExitCause) : R.view.leave c = R.leave c := rfl

@[simp] theorem heed_view (x : V) : R.view.heed x = R.heed x := rfl

end Reading

/-- The value of a row, given the values of all nodes. -/
def Row.value (R : Reading V) (W : Nat → V) (row : Row) : V :=
  (⨆ t ∈ row.out, W t.2) ⊔ (⨆ c ∈ row.leaves, R.leave c) ⊔ R.heed (⨆ t ∈ row.thrown, W t.2)

/-- The value of a node, given the values of all nodes. -/
def Piece.value (R : Reading V) (d : Piece) (W : Nat → V) (u : Nat) : V :=
  match d.nodes[u]? with
  | some node => R.seeAll node.content.events ((d.row u).value R W)
  | none => ⊥

theorem Piece.value_eq_viewed (R : Reading V) (d : Piece) : d.value R = d.viewed R.view := rfl

theorem Piece.value_mono (R : Reading V) (d : Piece) : Monotone (d.value R) :=
  d.viewed_mono R.view

end Flowgraph
