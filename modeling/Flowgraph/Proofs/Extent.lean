import Flowgraph.Graph.Layout

/-!
# The extent of a layout

How many nodes the layout of a plan makes, where it begins and where it completes depend on the
plan and on the number of its first node alone: not on the region, not on the loops around it
and not on what comes before it.

## Main definitions

* `Plan.size`, `Route.size`, … : the number of nodes.
* `Plan.entryAt`, `Plan.exitAt` : where a plan laid out from a given node begins and completes.

## Main results

* `Plan.size_layout`, `Plan.entry_layout`, `Plan.exit_layout` : the layout has that extent.
* `Plan.exitAt_bounds` : a plan completes at one of its own nodes.
-/

namespace Flowgraph

mutual

/-- The number of nodes in the layout of a plan. -/
def Plan.size : Plan → Nat
  | .idle | .block _ | .yield _ => 1
  | .jump _ _ _ route | .raise _ route => 1 + route.size
  | .hold _ _ _ body => 1 + body.size
  | .seq first rest => first.size + rest.size
  | .branch _ body rest => 2 + body.size + rest.size
  | .loop _ body orelse => 2 + body.size + orelse.size
  | .dispatch _ _ cases => 2 + cases.size
  | .attempt _ body handlers orelse final =>
    1 + body.size + handlers.size + orelse.size + final.size

/-- The number of nodes for what follows the failed test of an `if`. -/
def Alternatives.size : Alternatives → Nat
  | .done => 0
  | .otherwise body => body.size
  | .test _ body rest => 1 + body.size + rest.size

/-- The number of nodes for the cases of a `match`. -/
def Cases.size : Cases → Nat
  | .nil => 0
  | .cons patterns _ body rest => patterns.length + body.size + rest.size

/-- The number of nodes for the handlers of a `try`. -/
def Handlers.size : Handlers → Nat
  | .nil => 0
  | .cons _ body rest => body.size + rest.size

/-- The number of nodes for a clause that may be missing. -/
def Annex.size : Annex → Nat
  | .absent => 0
  | .present _ body => body.size

/-- The number of nodes that a jump makes on its way out. -/
def Route.size : Route → Nat
  | .arrive => 0
  | .leaveLoop rest => rest.size
  | .release _ _ _ rest => 2 + rest.size
  | .replay _ _ body rest => body.size + if body.completes then 1 + rest.size else 0
  | .swallow _ body => body.size

end

namespace Plan

/-- Where the layout of a plan from the node `base` on begins. -/
def entryAt (base : Nat) : Plan → Nat
  | seq first _ => first.entryAt base
  | attempt _ body _ _ _ => body.entryAt (base + 1)
  | idle | block _ | yield _ | jump .. | raise .. | hold .. | branch .. | loop .. | dispatch .. =>
    base

/-- Where the layout of a plan from the node `base` on completes. -/
def exitAt (base : Nat) : Plan → Option Nat
  | idle | block _ | yield _ | attempt .. => some base
  | jump .. | raise .. => none
  | hold _ _ _ body => body.exitAt (base + 1)
  | seq first rest => rest.exitAt (base + first.size)
  | branch .. | loop .. | dispatch .. => some (base + 1)

theorem size_pos : (plan : Plan) → 0 < plan.size
  | idle | block _ | yield _ => by simp [size]
  | jump .. | raise .. | hold .. | branch .. | loop .. | dispatch .. | attempt .. => by
    simp only [size]; omega
  | seq first rest => by
    have := first.size_pos
    simp only [size]; omega

theorem isSome_exitAt : (plan : Plan) → (base : Nat) →
    (plan.exitAt base).isSome = plan.completes
  | idle, _ | block _, _ | yield _, _ | jump .., _ | raise .., _ | branch .., _ | loop .., _
  | dispatch .., _ | attempt .., _ => rfl
  | hold _ _ _ body, base => body.isSome_exitAt (base + 1)
  | seq first rest, base => rest.isSome_exitAt (base + first.size)

/-- A plan begins at one of its own nodes. -/
theorem entryAt_bounds : (plan : Plan) → (base : Nat) →
    base ≤ plan.entryAt base ∧ plan.entryAt base < base + plan.size
  | idle, _ | block _, _ | yield _, _ => by simp [entryAt, size]
  | jump .., _ | raise .., _ | hold .., _ | branch .., _ | loop .., _ | dispatch .., _ => by
    simp only [entryAt, size]; omega
  | seq first rest, base => by
    have := first.entryAt_bounds base
    simp only [entryAt, size]; omega
  | attempt _ body _ _ _, base => by
    have := body.entryAt_bounds (base + 1)
    simp only [entryAt, size]; omega

/-- A plan completes at one of its own nodes. -/
theorem exitAt_bounds : (plan : Plan) → (base : Nat) → {u : Nat} →
    plan.exitAt base = some u → base ≤ u ∧ u < base + plan.size
  | idle, _, _, h | block _, _, _, h | yield _, _, _, h => by
    simp only [exitAt, Option.some.injEq] at h
    simp only [size]; omega
  -- a jump never completes
  | jump .., _, _, h | raise .., _, _, h => by simp [exitAt] at h
  | branch .., _, _, h | loop .., _, _, h | dispatch .., _, _, h | attempt .., _, _, h => by
    simp only [exitAt, Option.some.injEq] at h
    simp only [size]; omega
  -- where the body of a `with` completes, the statement does
  | hold _ _ _ body, base, u, h => by
    have := body.exitAt_bounds (base + 1) h
    simp only [size]; omega
  | seq first rest, base, u, h => by
    have := rest.exitAt_bounds (base + first.size) h
    simp only [size]; omega

end Plan

/-! ## The layout has the extent of its plan -/

namespace Piece

@[simp] theorem size_nil : nil.size = 0 := rfl

@[simp] theorem size_ofNodes (nodes : List Node) : (ofNodes nodes).size = nodes.length := rfl

@[simp] theorem size_ofEdges (edges : List Edge) : (ofEdges edges).size = 0 := rfl

@[simp] theorem size_ofExit (exit : Exit) : (ofExit exit).size = 0 := rfl

@[simp] theorem size_edge (u v : NodeId) (label : Label) : (edge u v label).size = 0 := rfl

@[simp] theorem size_edgeFrom (source : Option NodeId) (v : NodeId) (label : Label) :
    (edgeFrom source v label).size = 0 := rfl

end Piece

@[simp] theorem size_arrival (env : Env) (source : NodeId) (site : Site) (means : Jump) :
    (arrival env source site means).size = 0 := by
  cases means <;> rfl

@[simp] theorem Plan.entry_layout (env : Env) (base : Nat) (previous : Option NodeId) :
    (plan : Plan) → (plan.layout env base previous).entry = plan.entryAt base
  | .idle | .block _ | .yield _ | .jump .. | .raise .. | .hold .. | .branch .. | .loop ..
  | .dispatch .. => by simp [layout, entryAt]
  | .seq first _ => by simpa [layout, entryAt] using first.entry_layout env base previous
  | .attempt region body _ _ _ => by
    simpa [layout, entryAt] using body.entry_layout (env.within region) (base + 1) none

mutual

/-- The size of a layout and the place where it completes.  The two go together: a sequence
completes after as many nodes as its first part has, and a replay goes on only if it
completes. -/
theorem Plan.size_and_exit_layout (env : Env) (base : Nat) (previous : Option NodeId) :
    (plan : Plan) → (plan.layout env base previous).size = plan.size ∧
      (plan.layout env base previous).exit = plan.exitAt base
  | .idle | .block _ | .yield _ => by simp [Plan.layout, Stretch.size, Plan.size, Plan.exitAt]
  | .jump before site means route => by
    have := route.size_layout env (base + 1) base site means
    simp [Plan.layout, Stretch.size, Plan.size, Plan.exitAt, this]
  | .raise site route => by
    have := route.size_layout env (base + 1) base site .raising
    simp [Plan.layout, Stretch.size, Plan.size, Plan.exitAt, this]
  | .hold before header region body => by
    obtain ⟨hs, he⟩ := body.size_and_exit_layout (env.within region) (base + 1) none
    rw [Stretch.size] at hs
    simp [Plan.layout, Stretch.size, Plan.size, Plan.exitAt, hs, he]
  | .seq first rest => by
    obtain ⟨hs, he⟩ := first.size_and_exit_layout env base previous
    -- the rest is laid out after the first part, from where that completes
    obtain ⟨hs', he'⟩ := rest.size_and_exit_layout env (base + first.size) (first.exitAt base)
    rw [Stretch.size] at hs hs'
    simp [Plan.layout, Stretch.size, Plan.size, Plan.exitAt, hs, he, hs', he']
  | .branch test body rest => by
    obtain ⟨hs, -⟩ := body.size_and_exit_layout env (base + 2) none
    rw [Stretch.size] at hs
    simp [Plan.layout, Stretch.size, Plan.size, Plan.exitAt, hs,
      rest.size_layout env (base + 2 + body.size) base (base + 1)]
  | .loop header body orelse => by
    -- the test and the end of the loop come before its body
    obtain ⟨hs, -⟩ := body.size_and_exit_layout (env.inLoop ⟨base, base + 1⟩) (base + 2) none
    rw [Stretch.size] at hs
    simp [Plan.layout, Stretch.size, Plan.size, Plan.exitAt, hs,
      orelse.size_layoutAfterLoop env (base + 2 + body.size) base (base + 1)]
  | .dispatch subject region cases => by
    simp [Plan.layout, Stretch.size, Plan.size, Plan.exitAt,
      cases.size_layout (env.within region) (base + 2) base (base + 1) 0 (some base)]
  | .attempt region body handlers orelse final => by
    obtain ⟨hs, he⟩ := body.size_and_exit_layout (env.within region) (base + 1) none
    rw [Stretch.size] at hs
    simp [Plan.layout, Stretch.size, Plan.size, Plan.exitAt, hs, he, handlers.size_layout,
      orelse.size_layoutAfterBody, final.size_layoutBefore]

theorem Alternatives.size_layout (env : Env) (base test join : Nat) :
    (rest : Alternatives) → (rest.layout env base test join).size = rest.size
  | .done => by simp [Alternatives.layout, Alternatives.size]
  | .otherwise body => by
    obtain ⟨hs, -⟩ := body.size_and_exit_layout env base none
    rw [Stretch.size] at hs
    simp [Alternatives.layout, Alternatives.size, hs]
  | .test header body rest => by
    obtain ⟨hs, -⟩ := body.size_and_exit_layout env (base + 1) none
    rw [Stretch.size] at hs
    simp [Alternatives.layout, Stretch.size, Alternatives.size, hs,
      rest.size_layout env (base + 1 + body.size) base join]

theorem Cases.size_layout (env : Env) (base subject join index : Nat)
    (previous : Option NodeId) :
    (cases : Cases) → (cases.layout env base subject join index previous).size = cases.size
  | .nil => by cases previous <;> simp [Cases.layout, Cases.size]
  | .cons patterns catchAll body rest => by
    obtain ⟨hs, -⟩ := body.size_and_exit_layout env (base + patterns.length) none
    rw [Stretch.size] at hs
    simp [Cases.layout, Stretch.size, Cases.size, hs, rest.size_layout]

theorem Handlers.size_layout (env : Env) (base body index : Nat) :
    (handlers : Handlers) → (handlers.layout env base body index).1.size = handlers.size
  | .nil => by simp [Handlers.layout, Handlers.size]
  | .cons region handler rest => by
    obtain ⟨hs, -⟩ := handler.size_and_exit_layout (env.within region) base none
    rw [Stretch.size] at hs
    simp [Handlers.layout, Stretch.size, Handlers.size, hs, rest.size_layout]

theorem Annex.size_layoutAfterLoop (env : Env) (base guard after : Nat) :
    (annex : Annex) → (annex.layoutAfterLoop env base guard after).size = annex.size
  | .absent => by simp [Annex.layoutAfterLoop, Annex.size]
  | .present region body => by
    obtain ⟨hs, -⟩ := body.size_and_exit_layout (env.within region) base none
    rw [Stretch.size] at hs
    simp [Annex.layoutAfterLoop, Annex.size, hs]

theorem Annex.size_layoutAfterBody (env : Env) (base : Nat) (completed : Option NodeId) :
    (annex : Annex) → (annex.layoutAfterBody env base completed).1.size = annex.size
  | .absent => by simp [Annex.layoutAfterBody, Annex.size]
  | .present region body => by
    obtain ⟨hs, -⟩ := body.size_and_exit_layout (env.within region) base none
    rw [Stretch.size] at hs
    simp [Annex.layoutAfterBody, Annex.size, hs]

theorem Annex.size_layoutBefore (env : Env) (base join : Nat) :
    (annex : Annex) → (annex.layoutBefore env base join).1.size = annex.size
  | .absent => by simp [Annex.layoutBefore, Annex.size]
  | .present region body => by
    obtain ⟨hs, -⟩ := body.size_and_exit_layout (env.within region) base none
    rw [Stretch.size] at hs
    simp [Annex.layoutBefore, Annex.size, hs]

theorem Route.size_layout (env : Env) (base source : Nat) (site : Site) (means : Jump) :
    (route : Route) → (route.layout env base source site means).size = route.size
  | .arrive => by simp [Route.layout, Route.size]
  | .leaveLoop rest => by
    simpa [Route.layout, Route.size] using rest.size_layout env.outsideLoop base source site means
  | .release header region outside rest => by
    simp [Route.layout, Route.size, rest.size_layout env (base + 2) (base + 1) site means]
  | .replay final outside body rest => by
    obtain ⟨hs, he⟩ := body.size_and_exit_layout (env.copy final) base none
    -- the jump goes on only from where the copied clause completes
    have hc := body.isSome_exitAt base
    rw [Stretch.size] at hs
    cases h : body.exitAt base with
    | none =>
      simp [Route.layout, Route.size, hs, he, h, ← hc]
    | some last =>
      simp [Route.layout, Stretch.size, Route.size, hs, he, h, ← hc, rest.size_layout]
  | .swallow final body => by
    obtain ⟨hs, -⟩ := body.size_and_exit_layout (env.copy final) base none
    rw [Stretch.size] at hs
    simp [Route.layout, Route.size, hs]

end

@[simp] theorem Plan.size_layout (env : Env) (base : Nat) (previous : Option NodeId)
    (plan : Plan) : (plan.layout env base previous).size = plan.size :=
  (plan.size_and_exit_layout env base previous).1

@[simp] theorem Plan.exit_layout (env : Env) (base : Nat) (previous : Option NodeId)
    (plan : Plan) : (plan.layout env base previous).exit = plan.exitAt base :=
  (plan.size_and_exit_layout env base previous).2

end Flowgraph
