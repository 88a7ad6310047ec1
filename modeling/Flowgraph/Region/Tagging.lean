import Flowgraph.Stmt
import Flowgraph.Region.Basic

/-!
# The regions of a statement tree

One pass over a body in document order adds a region for every `try`, for its body, its
handlers and its `finally`, for every `with`, every `match`, and every loop that has an
`else`.  The pass looks at the shape of the tree only, so it also accepts trees that are
later rejected.

## Main definitions

* `RegionTree.ofBody` : the regions of a function body.
-/

namespace Flowgraph

mutual

/-- Adds the regions of a statement that stands in the region `parent`. -/
def Stmt.addRegions (parent : RegionId) (t : RegionTree) : Stmt → RegionTree
  | .simple _ | .pass _ | .marker _ _ | .yield _ | .jump _ _ | .unsupported _ => t
  | .branch _ _ body clauses => addClauseRegions parent (addBodyRegions parent t body) clauses
  | .loop site _ body orelse =>
    let t := addBodyRegions parent t body
    if orelse.isEmpty then t
    else addBodyRegions t.size (t.add .loopElse parent site.id .orelse) orelse
  | .attempt site body handlers orelse final =>
    let whole := t.size
    let t := t.add .attempt parent site.id .whole
    let t := addBodyRegions t.size (t.add .attemptBody whole site.id .body) body
    let t := addHandlerRegions site.id whole 0 t handlers
    -- the `else` clause stands in the `try` itself and has no region of its own
    let t := addBodyRegions whole t orelse
    if final.isEmpty then t
    else addBodyRegions t.size (t.add .final whole site.id .final) final
  | .hold site _ _ body => addBodyRegions t.size (t.add .hold parent site.id .whole) body
  | .dispatch site _ cases => addCaseRegions t.size (t.add .dispatch parent site.id .whole) cases

/-- Adds the regions of the statements of a body. -/
def addBodyRegions (parent : RegionId) (t : RegionTree) : List Stmt → RegionTree
  | [] => t
  | s :: rest => addBodyRegions parent (s.addRegions parent t) rest

/-- Adds the regions of the clauses of an `if`. -/
def addClauseRegions (parent : RegionId) (t : RegionTree) :
    List (Clause (Option Span) Stmt) → RegionTree
  | [] => t
  | clause :: rest => addClauseRegions parent (addBodyRegions parent t clause.body) rest

/-- Adds the regions of the handlers of the `try` numbered `stmt`, counted from `index`. -/
def addHandlerRegions (stmt : StmtId) (whole : RegionId) (index : Nat) (t : RegionTree) :
    List (Clause (Option Span) Stmt) → RegionTree
  | [] => t
  | handler :: rest =>
    addHandlerRegions stmt whole (index + 1)
      (addBodyRegions t.size (t.add .handler whole stmt (.handler index)) handler.body) rest

/-- Adds the regions of the cases of a `match`, which share one region. -/
def addCaseRegions (parent : RegionId) (t : RegionTree) :
    List (Clause CaseHead Stmt) → RegionTree
  | [] => t
  | case :: rest => addCaseRegions parent (addBodyRegions parent t case.body) rest

end

/-- The regions of a function body. -/
def RegionTree.ofBody (body : List Stmt) : RegionTree :=
  addBodyRegions root single body

end Flowgraph
