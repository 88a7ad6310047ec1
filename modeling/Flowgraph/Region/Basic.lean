import Flowgraph.Span

/-!
# Regions of a function body

Compound statements divide a function body into nested regions.  A region tree lists the
regions, each one after the region that encloses it, and remembers which part of which
statement every region was made for.

## Main definitions

* `RegionKind`, `Region` : a region and what it is made for.
* `Part` : the parts of a statement that have a region of their own.
* `RegionTree` : the regions of a body, numbered by their position.
* `RegionTree.find?` : the region of a part of a statement.
* `RegionTree.ancestry` : a region and the regions around it, innermost first.
* `RegionTree.barrier` : the nearest region across whose border blocks are not merged.
-/

namespace Flowgraph

/-- The number of a region: its position in its tree.  Numbers have no upper bound; in 32 bits there
is room for trees of less than 2 ^ 32 regions.  A statement has at most three regions of its own
and one for each handler, so trees are no larger than the text of their bodies. -/
abbrev RegionId := Nat

/-- What a region is made for. -/
inductive RegionKind where
  /-- The whole function. -/
  | function
  /-- A `try` statement with all its clauses. -/
  | attempt
  /-- The body of a `try`. -/
  | attemptBody
  /-- One handler of a `try`. -/
  | handler
  /-- The `finally` clause of a `try`. -/
  | final
  /-- The body of a `with`. -/
  | hold
  /-- The cases of a `match`. -/
  | dispatch
  /-- The `else` clause of a loop. -/
  | loopElse
deriving DecidableEq, Repr

namespace RegionKind

/-- The word for a kind of region. -/
def label : RegionKind → String
  | function => "function"
  | attempt => "try"
  | attemptBody => "try body"
  | handler => "except"
  | final => "finally"
  | hold => "with"
  | dispatch => "match"
  | loopElse => "loop else"

/-- Blocks on the two sides of such a region's border are not merged.  Entering or leaving
the cases of a `match` or the `else` of a loop changes nothing about how an exception or a
jump proceeds, so those two borders are open. -/
def isBarrier : RegionKind → Bool
  | dispatch | loopElse => false
  | _ => true

end RegionKind

/-- The parts of a statement that have a region of their own. -/
inductive Part where
  /-- The statement as a whole. -/
  | whole
  /-- The body of a `try`. -/
  | body
  /-- A handler of a `try`, by position. -/
  | handler (index : Nat)
  /-- The `finally` clause of a `try`. -/
  | final
  /-- The `else` clause of a loop. -/
  | orelse
deriving DecidableEq, Repr

/-- A region: its number, the region around it, and what it is made for. -/
structure Region where
  /-- The number of the region. -/
  id : RegionId
  /-- The region directly around it; only the function has none. -/
  parent : Option RegionId
  /-- What the region is made for. -/
  kind : RegionKind
deriving DecidableEq, Repr

/-- The regions of a function body. -/
structure RegionTree where
  /-- All regions, the function first and every other one after its parent. -/
  regions : List Region
  /-- The region of each part of a statement, the latest first. -/
  tags : List ((StmtId × Part) × RegionId)
deriving DecidableEq, Repr

namespace RegionTree

/-- The number of the region of the whole function. -/
def root : RegionId := 0

/-- The tree of a function without any compound statement. -/
def single : RegionTree where
  regions := [⟨root, none, .function⟩]
  tags := []

/-- The number of regions. -/
def size (t : RegionTree) : Nat :=
  t.regions.length

/-- There are no regions at all. -/
def isEmpty (t : RegionTree) : Bool :=
  t.regions.isEmpty

/-- The region of a given number. -/
def get? (t : RegionTree) (r : RegionId) : Option Region :=
  t.regions[r]?

/-- The region around a given one. -/
def parent? (t : RegionTree) (r : RegionId) : Option RegionId :=
  (t.get? r).bind (·.parent)

/-- The region of a part of a statement.  Where several statements have one number, the part
tagged last is meant. -/
def find? (t : RegionTree) (stmt : StmtId) (part : Part) : Option RegionId :=
  t.tags.lookup (stmt, part)

/-- Adds a region for a part of a statement; its number is the size of the tree before. -/
def add (t : RegionTree) (kind : RegionKind) (parent : RegionId) (stmt : StmtId) (part : Part) :
    RegionTree where
  regions := t.regions ++ [⟨t.size, some parent, kind⟩]
  tags := ((stmt, part), t.size) :: t.tags

@[simp] theorem size_add (t : RegionTree) (kind : RegionKind) (parent : RegionId) (stmt : StmtId)
    (part : Part) : (t.add kind parent stmt part).size = t.size + 1 := by
  simp [add, size]

@[simp] theorem find?_add_self (t : RegionTree) (kind : RegionKind) (parent : RegionId)
    (stmt : StmtId) (part : Part) : (t.add kind parent stmt part).find? stmt part = some t.size := by
  simp [add, find?]

/-- A region and the regions around it, innermost first, at most as many as `bound`. -/
def ancestryUpTo (t : RegionTree) : Nat → RegionId → List RegionId
  | 0, _ => []
  | bound + 1, r =>
    match t.parent? r with
    | none => [r]
    | some p => r :: ancestryUpTo t bound p

/-- A region and the regions around it, innermost first.  Every parent stands before its
children, so no chain of parents is longer than the tree. -/
def ancestry (t : RegionTree) (r : RegionId) : List RegionId :=
  t.ancestryUpTo t.size r

/-- The region is one across whose border blocks are not merged. -/
def isBarrier (t : RegionTree) (r : RegionId) : Bool :=
  ((t.get? r).map (·.kind.isBarrier)).getD false

/-- The nearest region, going outwards, across whose border blocks are not merged. -/
def barrier (t : RegionTree) (r : RegionId) : RegionId :=
  ((t.ancestry r).find? t.isBarrier).getD root

/-- The first region lies in the second, or is the second. -/
def isWithin (t : RegionTree) (inner outer : RegionId) : Bool :=
  (t.ancestry inner).contains outer

/-- The regions directly inside a given one. -/
def children (t : RegionTree) (r : RegionId) : List RegionId :=
  (t.regions.filter (·.parent == some r)).map (·.id)

/-- The regions that a given one lies in, itself included, in ascending order. -/
def enclosing (t : RegionTree) (r : RegionId) : List RegionId :=
  (t.regions.map (·.id)).filter (t.isWithin r)

end RegionTree

end Flowgraph
