import Flowgraph.Proofs.Entering
import Flowgraph.Proofs.WellFormed

/-!
# Chained and flat dispatch

The alternatives of a `match` are laid out in one of two ways.  In a chain each leads on to the
next, as they are tried; in a flat layout the subject leads to all of them.  The two layouts have
the same nodes and the same exits.  They differ in the edges between the subject, the alternatives
and the end of the statement, and walks cannot tell them apart: where a flat layout goes in one
step, a chain goes step by step, and a chain gets from an alternative only to where the flat subject
leads.  Only a walk that begins at an alternative sees a difference.

## Main definitions

* `Piece.Alike` : two pieces have the same nodes and exits.
* `Piece.FlattensAt` : how the edges out of a node differ between a chained and a flat layout.

## Main results

* `Plan.alike_layout` : the two layouts of a plan have the same nodes and exits.
* `Plan.flattensAt_of_drawn` : the edges of the two layouts differ only as described.
* `Piece.reaches_iff_of_flattensAt` : walks from other nodes than alternatives lead to the same
  nodes.
* `Graph.dispatch_agrees` : the graphs of a body under the two ways.
-/

namespace Flowgraph

/-- The same place in a chained or flat layout. -/
def Env.withFlat (env : Env) (flat : Bool) : Env :=
  { env with flat }

/-! ## Nodes and exits -/

/-- The two pieces have the same nodes and the same exits. -/
structure Piece.Alike (p q : Piece) : Prop where
  nodes : p.nodes = q.nodes
  exits : p.exits = q.exits

namespace Piece.Alike

variable {p p' q q' : Piece}

theorem append (h : p.Alike q) (h' : p'.Alike q') : (p ++ p').Alike (q ++ q') where
  nodes := by rw [nodes_append, nodes_append, h.nodes, h'.nodes]
  exits := by rw [exits_append, exits_append, h.exits, h'.exits]

theorem edges (es es' : List Edge) : (ofEdges es).Alike (ofEdges es') :=
  ⟨rfl, rfl⟩

/-- Edges add no nodes and no exits. -/
theorem append_edges (h : p.Alike q) (es es' : List Edge) :
    (p ++ ofEdges es).Alike (q ++ ofEdges es') :=
  h.append (edges es es')

end Piece.Alike

section Alike

variable (flat flat' : Bool)

mutual

/-- The nodes and exits of a layout do not depend on how a `match` is laid out. -/
theorem Plan.alike_layout (env : Env) (base : Nat) (previous : Option NodeId) : (plan : Plan) →
    (plan.layout (env.withFlat flat) base previous).piece.Alike
      (plan.layout (env.withFlat flat') base previous).piece
  | .idle | .block _ | .yield _ => ⟨rfl, rfl⟩
  | .jump before site means route => by
    have hr := route.alike_layout env (base + 1) base site means
    exact .append ⟨rfl, rfl⟩ hr
  | .raise site route => by
    have hr := route.alike_layout env (base + 1) base site .raising
    exact .append ⟨rfl, rfl⟩ hr
  | .hold before header region body => by
    have hb := body.alike_layout (env.within region) (base + 1) none
    exact (Piece.Alike.append ⟨rfl, rfl⟩ hb).append_edges _ _
  | .seq first rest => by
    have hf := first.alike_layout env base previous
    have hr := rest.alike_layout env (base + first.size) (first.exitAt base)
    simp only [Plan.layout, Plan.size_layout, Plan.exit_layout]
    exact hf.append hr
  | .branch test body rest => by
    have hb := body.alike_layout env (base + 2) none
    have hr := rest.alike_layout env (base + 2 + body.size) base (base + 1)
    simp only [Plan.layout, Plan.size_layout, Plan.exit_layout, Plan.entry_layout]
    exact ((((Piece.Alike.append ⟨rfl, rfl⟩ hb).append_edges _ _).append_edges _ _).append
      hr).append_edges _ _
  | .loop header body orelse => by
    have hb := body.alike_layout (env.inLoop ⟨base, base + 1⟩) (base + 2) none
    have ho := orelse.alike_layoutAfterLoop env (base + 2 + body.size) base (base + 1)
    simp only [Plan.layout, Plan.size_layout, Plan.exit_layout, Plan.entry_layout]
    exact ((((Piece.Alike.append ⟨rfl, rfl⟩ hb).append_edges _ _).append_edges _ _).append
      ho).append_edges _ _
  | .dispatch subject region cases => by
    -- `flat` decides between which nodes the edges run, and not which nodes there are
    have hc := cases.alike_layout (env.within region) (base + 2) base (base + 1) 0 (some base)
      (some base)
    exact (Piece.Alike.append ⟨rfl, rfl⟩ hc).append_edges _ _
  | .attempt region body handlers orelse final => by
    have hb := body.alike_layout (env.within region) (base + 1) none
    have hh := handlers.alike_layout env (base + 1 + body.size) (body.entryAt (base + 1)) 0
    have ho := orelse.alike_layoutAfterBody env (base + 1 + body.size + handlers.size)
      (body.exitAt (base + 1))
    have hf := final.alike_layoutBefore env
      (base + 1 + body.size + handlers.size + orelse.size) base
    simp only [Plan.layout, Plan.size_layout, Plan.exit_layout, Plan.entry_layout,
      Handlers.size_layout, Annex.size_layoutAfterBody]
    exact (((((Piece.Alike.append ⟨rfl, rfl⟩ hb).append hh).append ho).append hf).append_edges _
      _).append_edges _ _

theorem Alternatives.alike_layout (env : Env) (base test join : Nat) : (rest : Alternatives) →
    (rest.layout (env.withFlat flat) base test join).Alike
      (rest.layout (env.withFlat flat') base test join)
  | .done => ⟨rfl, rfl⟩
  | .otherwise body => by
    have hb := body.alike_layout env base none
    exact (hb.append_edges _ _).append_edges _ _
  | .test header body rest => by
    have hb := body.alike_layout env (base + 1) none
    have hr := rest.alike_layout env (base + 1 + body.size) base join
    simp only [Alternatives.layout, Plan.size_layout, Plan.exit_layout, Plan.entry_layout]
    exact (((Piece.Alike.append ⟨rfl, rfl⟩ hb).append_edges _ _).append_edges _ _).append hr

theorem Cases.alike_layout (env : Env) (base subject join index : Nat)
    (previous previous' : Option NodeId) : (cases : Cases) →
    (cases.layout (env.withFlat flat) base subject join index previous).Alike
      (cases.layout (env.withFlat flat') base subject join index previous')
  | .nil => by cases previous <;> cases previous' <;> exact ⟨rfl, rfl⟩
  | .cons patterns catchAll body rest => by
    have hb := body.alike_layout env (base + patterns.length) none
    have hr := fun previous previous' =>
      rest.alike_layout env (base + patterns.length + body.size) subject join (index + 1) previous
        previous'
    simp only [Cases.layout, Plan.size_layout, Plan.exit_layout, Plan.entry_layout]
    exact (((Piece.Alike.append ⟨rfl, rfl⟩ hb).append_edges _ _).append_edges _ _).append (hr _ _)

theorem Handlers.alike_layout (env : Env) (base body index : Nat) : (handlers : Handlers) →
    (handlers.layout (env.withFlat flat) base body index).1.Alike
      (handlers.layout (env.withFlat flat') base body index).1
  | .nil => ⟨rfl, rfl⟩
  | .cons region handler rest => by
    have hh := handler.alike_layout (env.within region) base none
    have hr := rest.alike_layout env (base + handler.size) body (index + 1)
    simp only [Handlers.layout, Plan.size_layout, Plan.exit_layout, Plan.entry_layout]
    exact (hh.append_edges _ _).append hr

theorem Annex.alike_layoutAfterLoop (env : Env) (base guard after : Nat) : (annex : Annex) →
    (annex.layoutAfterLoop (env.withFlat flat) base guard after).Alike
      (annex.layoutAfterLoop (env.withFlat flat') base guard after)
  | .absent => ⟨rfl, rfl⟩
  | .present region body => by
    have hb := body.alike_layout (env.within region) base none
    exact (hb.append_edges _ _).append_edges _ _

theorem Annex.alike_layoutAfterBody (env : Env) (base : Nat) (completed : Option NodeId) :
    (annex : Annex) → (annex.layoutAfterBody (env.withFlat flat) base completed).1.Alike
      (annex.layoutAfterBody (env.withFlat flat') base completed).1
  | .absent => ⟨rfl, rfl⟩
  | .present region body => by
    have hb := body.alike_layout (env.within region) base none
    exact hb.append_edges _ _

theorem Annex.alike_layoutBefore (env : Env) (base join : Nat) : (annex : Annex) →
    (annex.layoutBefore (env.withFlat flat) base join).1.Alike
      (annex.layoutBefore (env.withFlat flat') base join).1
  | .absent => ⟨rfl, rfl⟩
  | .present region body => by
    have hb := body.alike_layout (env.within region) base none
    exact hb.append_edges _ _

theorem Route.alike_layout (env : Env) (base source : Nat) (site : Site) (means : Jump) :
    (route : Route) → (route.layout (env.withFlat flat) base source site means).Alike
      (route.layout (env.withFlat flat') base source site means)
  | .arrive => by cases means <;> exact ⟨rfl, rfl⟩
  | .leaveLoop rest => rest.alike_layout env.outsideLoop base source site means
  | .release header region outside rest => by
    have hr := rest.alike_layout env (base + 2) (base + 1) site means
    exact .append ⟨rfl, rfl⟩ hr
  | .replay final outside body rest => by
    have hb := body.alike_layout (env.copy final) base none
    have hr := rest.alike_layout env (base + body.size + 1) (base + body.size) site means
    simp only [Route.layout, Plan.size_layout, Plan.exit_layout, Plan.entry_layout]
    refine (hb.append_edges _ _).append ?_
    -- whether the copy completes does not depend on the layout
    cases body.exitAt base with
    | none => exact ⟨rfl, rfl⟩
    | some last => exact .append ⟨rfl, rfl⟩ hr
  | .swallow final body => by
    have hb := body.alike_layout (env.copy final) base none
    exact hb.append_edges _ _

end

end Alike

/-! ## Alternatives -/

/-- An alternative of a `case` is tried at the node. -/
def Content.isCaseTest : Content → Bool
  | .caseTest _ => true
  | _ => false

/-- An alternative of a `case` is tried at the node `u`. -/
def Piece.IsCaseTest (d : Piece) (u : Nat) : Prop :=
  ∃ n, d.nodes[u]? = some n ∧ n.content.isCaseTest = true

/-- None of the edges leads to an alternative of a `case`. -/
def Piece.Avoids (d : Piece) (edges : List (Label × NodeId)) : Prop :=
  ∀ t ∈ edges, ¬ d.IsCaseTest t.2

/-- The ends of the loops around a part are no alternatives. -/
def Piece.AvoidsLoops (d : Piece) (env : Env) : Prop :=
  ∀ ends ∈ env.loops, ¬ d.IsCaseTest ends.head ∧ ¬ d.IsCaseTest ends.exit

section Avoids

variable {d : Piece} {env : Env} {base : Nat} {next handlers : List (Label × NodeId)}

theorem Piece.Shows.not_isCaseTest {u : Nat} {node : Node} {row : Row} (hs : d.Shows u node row)
    (hn : node.content.isCaseTest = false) : ¬ d.IsCaseTest u := by
  rintro ⟨n, hu, hc⟩
  rw [hs.node] at hu
  cases hu
  rw [hn] at hc
  cases hc

@[simp] theorem Piece.avoids_nil : d.Avoids [] := by
  simp [Avoids]

theorem Piece.avoids_singleton {t : Label × NodeId} (h : ¬ d.IsCaseTest t.2) : d.Avoids [t] :=
  List.forall_mem_singleton.2 h

theorem Piece.avoids_pair {t t' : Label × NodeId} (h : ¬ d.IsCaseTest t.2)
    (h' : ¬ d.IsCaseTest t'.2) : d.Avoids [t, t'] :=
  List.forall_mem_cons.2 ⟨h, avoids_singleton h'⟩

/-- No plan begins with an alternative: a `match` begins with its subject. -/
theorem Plan.not_isCaseTest_entryAt : (plan : Plan) → {env : Env} → {base : Nat} →
    {next handlers : List (Label × NodeId)} → plan.Drawn d env base next handlers →
      ¬ d.IsCaseTest (plan.entryAt base)
  | .idle, _, _, _, _, h | .block _, _, _, _, _, h | .yield _, _, _, _, _, h =>
    h.not_isCaseTest rfl
  | .jump .., _, _, _, _, h | .raise .., _, _, _, _, h | .hold .., _, _, _, _, h
  | .branch .., _, _, _, _, h | .loop .., _, _, _, _, h | .dispatch .., _, _, _, _, h =>
    h.1.not_isCaseTest rfl
  | .seq first _, _, _, _, _, h => first.not_isCaseTest_entryAt h.1
  | .attempt _ body _ _ _, _, _, _, _, h => body.not_isCaseTest_entryAt h.2.1

theorem Env.isCaseTest_carryOn (env : Env) (region : RegionId) (site : Site) (means : Jump) :
    (env.carryOn region site means).content.isCaseTest = false := by
  cases means <;> rfl

theorem Alternatives.not_isCaseTest_target {rest : Alternatives} {join : Nat}
    (h : rest.Drawn d env base join) (hj : ¬ d.IsCaseTest join) :
    ¬ d.IsCaseTest (rest.target base join) := by
  cases rest with
  | done => exact hj
  | otherwise body => exact body.not_isCaseTest_entryAt h
  | test header body rest => exact h.1.not_isCaseTest rfl

theorem Annex.not_isCaseTest_target {annex : Annex} {otherwise : Nat}
    (h : annex.Drawn d env base next) (ho : ¬ d.IsCaseTest otherwise) :
    ¬ d.IsCaseTest (annex.target base otherwise) := by
  cases annex with
  | absent => exact ho
  | present region body => exact body.not_isCaseTest_entryAt h

theorem Handlers.avoids_entries : (handlers : Handlers) → (base index : Nat) →
    handlers.Drawn d env base next → d.Avoids (handlers.entries base index)
  | .nil, _, _, _ => Piece.avoids_nil
  | .cons _ handler rest, base, index, h =>
    List.forall_mem_cons.2 ⟨handler.not_isCaseTest_entryAt h.1,
      rest.avoids_entries (base + handler.size) (index + 1) h.2⟩

/-- A jump leads to the ends of a loop or to the beginning of a part. -/
theorem Route.avoids_out {site : Site} {means : Jump} : (route : Route) → (env : Env) →
    route.Drawn d env base site means → d.AvoidsLoops env →
      d.Avoids (route.out env.loops means base)
  | .arrive, env, _, hl => by
    cases hloops : env.loops with
    | nil => cases means <;> exact Piece.avoids_nil
    | cons ends loops =>
      obtain ⟨hhead, hexit⟩ := hl ends (by simp [hloops])
      cases means with
      | breaking => exact Piece.avoids_singleton hexit
      | continuing => exact Piece.avoids_singleton hhead
      | returning | raising => exact Piece.avoids_nil
  | .leaveLoop rest, env, h, hl =>
    rest.avoids_out env.outsideLoop h fun ends he => hl ends (List.mem_of_mem_tail he)
  | .release .., _, h, _ => Piece.avoids_singleton (h.1.not_isCaseTest rfl)
  | .replay _ _ body _, _, h, _ => Piece.avoids_singleton (body.not_isCaseTest_entryAt h.1)
  | .swallow _ body, _, h, _ => Piece.avoids_singleton (body.not_isCaseTest_entryAt h)

end Avoids

/-! ## Rows of the two layouts -/

/-- How the edges out of the node `p` differ between the chained layout `d` and the flat layout
`d'`. -/
structure Piece.FlattensAt (d d' : Piece) (p : Nat) : Prop where
  /-- Where a flat edge leads, a chain gets in some steps. -/
  lifts : ∀ w, Edge.Links d'.edges p w → Edge.Reaches d.edges p w
  /-- An edge out of anything but an alternative is in both layouts. -/
  keeps : ¬ d.IsCaseTest p → ∀ w, Edge.Links d.edges p w → Edge.Links d'.edges p w
  /-- Where the chain leads on from an alternative, the flat layout leads from where it leads to
  the alternative. -/
  covers : ∀ v w, Edge.Links d'.edges p v → d.IsCaseTest v → Edge.Links d.edges v w →
    Edge.Links d'.edges v w ∨ Edge.Links d'.edges p w

section Flattens

variable {d d' : Piece}

/-- A node with the same row in both layouts, none of whose edges leads to an alternative. -/
theorem Piece.Shows.flattensAt {u : Nat} {node node' : Node} {row : Row} (hs : d.Shows u node row)
    (hs' : d'.Shows u node' row) (ho : d.Avoids row.out) (ht : d.Avoids row.thrown) :
    d.FlattensAt d' u := by
  have hlinks : ∀ w, Edge.Links d.edges u w ↔ Edge.Links d'.edges u w := by
    intro w
    rw [links_iff, links_iff, hs.row, hs'.row]
  refine ⟨fun w hw => .single ((hlinks w).2 hw), fun _ w hw => (hlinks w).1 hw, ?_⟩
  intro v w hv hcase
  rw [links_iff, hs'.row] at hv
  rcases hv with ⟨t, hm, rfl⟩ | ⟨t, hm, rfl⟩
  · exact absurd hcase (ho t hm)
  · exact absurd hcase (ht t hm)

/-! ### The alternatives of a case -/

/-- In a flat layout an alternative only leads into the body of its case. -/
theorem Piece.ShowsAlternatives.row_eq {env : Env} {taken : Label × NodeId} :
    (patterns : List Span) → (base : Nat) →
    d.ShowsAlternatives env false taken [] base patterns →
      Throughout (fun u => d.row u = ⟨[taken], [], []⟩) base patterns.length
  | [], _, _ => .zero
  | [_], _, h => .one h.row
  | _ :: pattern' :: rest, base, h => .cons h.1.row (row_eq (pattern' :: rest) (base + 1) h.2)

/-- An alternative leads into the body of its case, in a chain as well. -/
theorem Piece.ShowsAlternatives.taken_mem {env : Env} {chained : Bool} {taken : Label × NodeId}
    {onward : List (Label × NodeId)} : (patterns : List Span) → (base : Nat) →
    d.ShowsAlternatives env chained taken onward base patterns →
      Throughout (fun u => d.IsCaseTest u ∧ taken ∈ (d.row u).out) base patterns.length
  | [], _, _ => .zero
  | [_], _, h => .one ⟨⟨_, h.node, rfl⟩, by rw [h.row]; exact List.mem_cons_self⟩
  | _ :: pattern' :: rest, base, h =>
    .cons ⟨⟨_, h.1.node, rfl⟩, by rw [h.1.row]; exact List.mem_cons_self⟩
      (taken_mem (pattern' :: rest) (base + 1) h.2)

/-- A chain leads from its first alternative through all of them to what follows the case. -/
theorem Piece.ShowsAlternatives.reaches {env : Env} {taken : Label × NodeId}
    {onward : List (Label × NodeId)} : (patterns : List Span) → (base : Nat) → patterns ≠ [] →
    d.ShowsAlternatives env true taken onward base patterns →
      Throughout (Edge.Reaches d.edges base) base patterns.length ∧
        ∀ t ∈ onward, Edge.Reaches d.edges base t.2
  | [], _, hne, _ => absurd rfl hne
  | [_], base, _, h => by
    refine ⟨.one .refl, fun t ht => .single (links_iff.2 (.inl ⟨t, ?_, rfl⟩))⟩
    rw [h.row]
    exact List.mem_cons_of_mem _ ht
  | _ :: pattern' :: rest, base, _, h => by
    obtain ⟨hthrough, honward⟩ := reaches (pattern' :: rest) (base + 1) (List.cons_ne_nil _ _) h.2
    -- the first alternative leads to the second, and from there the chain goes on
    have hl : Edge.Links d.edges base (base + 1) := by
      refine links_iff.2 (.inl ⟨(.noMatch, base + 1), ?_, rfl⟩)
      rw [h.1.row]
      exact List.mem_cons_of_mem _ (List.mem_singleton_self _)
    exact ⟨.cons .refl fun u hu hu' => (hthrough u hu hu').head hl,
      fun t ht => (honward t ht).head hl⟩

/-- In the two layouts an alternative leads into the body of its case, and in the flat one nowhere
else. -/
theorem Piece.ShowsAlternatives.flattensAt {env env' : Env} {chained : Bool}
    {taken : Label × NodeId} {onward : List (Label × NodeId)} {patterns : List Span} {base : Nat}
    (h : d.ShowsAlternatives env chained taken onward base patterns)
    (h' : d'.ShowsAlternatives env' false taken [] base patterns)
    (ht : ¬ d.IsCaseTest taken.2) : Throughout (d.FlattensAt d') base patterns.length := by
  intro u hu hu'
  obtain ⟨hcase, hm⟩ := h.taken_mem patterns base u hu hu'
  -- in the flat layout the only way on from an alternative is into its body
  have hflat : ∀ w, Edge.Links d'.edges u w → w = taken.2 := by
    intro w hw
    rw [links_iff, h'.row_eq patterns base u hu hu'] at hw
    simpa [eq_comm] using hw
  refine ⟨fun w hw => .single (links_iff.2 (.inl ⟨taken, hm, (hflat w hw).symm⟩)),
    fun hn => absurd hcase hn, fun v w hv hv' => ?_⟩
  rw [hflat v hv] at hv'
  exact absurd hv' ht

/-! ### The cases of a `match` -/

namespace Cases

/-- A flat subject leads to the node `v`: to every alternative up to the first case that accepts
every subject, or to the end of the statement. -/
def Offers (base join v : Nat) : Cases → Prop
  | .nil => v = join
  | .cons patterns catchAll body rest =>
    (base ≤ v ∧ v < base + patterns.length) ∨
      catchAll = false ∧ rest.Offers (base + patterns.length + body.size) join v

/-- A chain of the cases begins at the node `v`: at the first alternative of the first case that has
one, or at the end of the statement. -/
def Begins (base join v : Nat) : Cases → Prop
  | .nil => v = join
  | .cons patterns catchAll body rest =>
    if patterns = [] then
      catchAll = false ∧ rest.Begins (base + patterns.length + body.size) join v
    else v = base

theorem exists_mem_offered_flat (label : Label) (join v : Nat) : (cases : Cases) → (base : Nat) →
    ((∃ t ∈ cases.offered true label base join, t.2 = v) ↔ cases.Offers base join v)
  | .nil, _ => by simp [offered, Offers, eq_comm]
  | .cons patterns catchAll body rest, base => by
    have ih := rest.exists_mem_offered_flat label join v (base + patterns.length + body.size)
    rw [Offers, ← ih]
    cases catchAll <;> simp [offered, List.mem_range'_1, or_and_right, exists_or]

theorem exists_mem_offered_chain (label : Label) (join v : Nat) : (cases : Cases) → (base : Nat) →
    ((∃ t ∈ cases.offered false label base join, t.2 = v) ↔ cases.Begins base join v)
  | .nil, _ => by simp [offered, Begins, eq_comm]
  | .cons patterns catchAll body rest, base => by
    have ih := rest.exists_mem_offered_chain label join v (base + patterns.length + body.size)
    rw [Begins, ← ih]
    cases patterns with
    | nil => cases catchAll <;> simp [offered]
    | cons pattern patterns => simp [offered, eq_comm]

/-- Where a chain begins, a flat subject leads. -/
theorem Begins.offers {join v : Nat} : {cases : Cases} → {base : Nat} → cases.Begins base join v →
    cases.Offers base join v
  | .nil, _, h => h
  | .cons patterns catchAll body rest, base, h => by
    rw [Begins] at h
    split at h
    next => exact .inr ⟨h.1, h.2.offers⟩
    next hp =>
      have hpos : 0 < patterns.length := List.length_pos_iff.2 hp
      exact .inl (by omega)

/-- From where a chain begins one comes to where a flat subject leads. -/
theorem reaches_of_offers (env : Env) (join v : Nat) : (cases : Cases) → (base index s : Nat) →
    cases.Drawn d (env.withFlat false) base join index true →
    (∀ w, cases.Begins base join w → Edge.Reaches d.edges s w) → cases.Offers base join v →
      Edge.Reaches d.edges s v
  | .nil, _, _, _, _, hs, hv => hs v hv
  | .cons patterns catchAll body rest, base, index, s, h, hs, hv => by
    obtain ⟨ha, -, hr⟩ := h
    have ih := rest.reaches_of_offers env join v (base + patterns.length + body.size) (index + 1)
    by_cases hp : patterns = []
    · -- a case without alternatives is passed over
      rcases hv with hv | ⟨rfl, hv⟩
      · simp only [hp, List.length_nil] at hv
        omega
      · refine ih s hr (fun w hw => hs w ?_) hv
        rw [Begins, if_pos hp]
        exact ⟨rfl, hw⟩
    · have hbase : Edge.Reaches d.edges s base := hs base (by rw [Begins, if_neg hp])
      obtain ⟨hthrough, honward⟩ := Piece.ShowsAlternatives.reaches patterns base hp ha
      rcases hv with hv | ⟨rfl, hv⟩
      · exact hbase.trans (hthrough v hv.1 hv.2)
      · refine hbase.trans (ih base hr (fun w hw => ?_) hv)
        obtain ⟨t, ht, rfl⟩ := (rest.exists_mem_offered_chain .noMatch _ _ _).2 hw
        exact honward t ht

/-- Where a chain leads on from an alternative, the flat layout leads from the alternative or from
the subject. -/
theorem links_of_offers {env : Env} {join v w : Nat} (hj : ¬ d.IsCaseTest join)
    (hv : d.IsCaseTest v) (hl : Edge.Links d.edges v w) : (cases : Cases) → (base index : Nat) →
    (reached : Bool) → cases.Drawn d (env.withFlat false) base join index reached →
    cases.Drawn d' (env.withFlat true) base join index reached → cases.Offers base join v →
      Edge.Links d'.edges v w ∨ cases.Offers base join w
  | .nil, _, _, _, _, _, ho => by
    rw [Offers] at ho
    exact absurd (ho ▸ hv) hj
  | .cons patterns catchAll body rest, base, index, reached, h, h', ho => by
    obtain ⟨ha, -, hr⟩ := h
    obtain ⟨ha', -, hr'⟩ := h'
    rcases ho with ho | ⟨hc, ho⟩
    · obtain ⟨hthrown, hout⟩ := ha.row_cases patterns base v ho.1 ho.2
      rw [Piece.links_iff, hthrown] at hl
      obtain ⟨t, ht, rfl⟩ := hl.resolve_right (by simp)
      rcases hout t ht with rfl | ht | ⟨-, hw⟩
      · -- the body of the case
        refine .inl (Piece.links_iff.2 (.inl ⟨_, ?_, rfl⟩))
        rw [ha'.row_eq patterns base v ho.1 ho.2]
        exact List.mem_singleton_self _
      · -- the cases after this one
        split at ht
        next hc =>
          simp only [Bool.and_eq_true, Bool.not_eq_true'] at hc
          have hw := (rest.exists_mem_offered_chain .noMatch _ _ _).1 ⟨t, ht, rfl⟩
          exact .inr (.inr ⟨hc.2, hw.offers⟩)
        next => simp at ht
      · exact .inr (.inl hw)
    · rcases links_of_offers hj hv hl rest _ _ _ hr hr' ho with hw | hw
      · exact .inl hw
      · exact .inr (.inr ⟨hc, hw⟩)

end Cases

/-- A flat subject leads to the alternatives that a chained one comes to one by one. -/
theorem Piece.Shows.flattensAt_subject (env : Env) {base : Nat} {node node' : Node} {cases : Cases}
    {handlers rest : List (Label × NodeId)}
    (hs : d.Shows base node
      ⟨cases.offered false .always (base + 2) (base + 1) ++ rest, handlers, []⟩)
    (hs' : d'.Shows base node'
      ⟨cases.offered true .always (base + 2) (base + 1) ++ rest, handlers, []⟩)
    (h : cases.Drawn d (env.withFlat false) (base + 2) (base + 1) 0 true)
    (h' : cases.Drawn d' (env.withFlat true) (base + 2) (base + 1) 0 true)
    (hj : ¬ d.IsCaseTest (base + 1)) (hrest : d.Avoids rest) (hh : d.Avoids handlers) :
    d.FlattensAt d' base := by
  -- the edges that do not lead to the cases are the same
  have hlinks : ∀ w, Edge.Links d.edges base w ↔ cases.Begins (base + 2) (base + 1) w ∨
      (∃ t ∈ rest, t.2 = w) ∨ ∃ t ∈ handlers, t.2 = w := by
    intro w
    rw [links_iff, hs.row, ← cases.exists_mem_offered_chain .always]
    simp only [List.mem_append, or_and_right, exists_or, or_assoc]
  have hlinks' : ∀ w, Edge.Links d'.edges base w ↔ cases.Offers (base + 2) (base + 1) w ∨
      (∃ t ∈ rest, t.2 = w) ∨ ∃ t ∈ handlers, t.2 = w := by
    intro w
    rw [links_iff, hs'.row, ← cases.exists_mem_offered_flat .always]
    simp only [List.mem_append, or_and_right, exists_or, or_assoc]
  refine ⟨fun w hw => ?_, fun _ w hw => ?_, fun v w hv hcase hl => ?_⟩
  · rcases (hlinks' w).1 hw with hw | hw
    · exact cases.reaches_of_offers env (base + 1) w (base + 2) 0 base h
        (fun x hx => .single ((hlinks x).2 (.inl hx))) hw
    · exact .single ((hlinks w).2 (.inr hw))
  · exact (hlinks' w).2 (((hlinks w).1 hw).imp_left Cases.Begins.offers)
  · rcases (hlinks' v).1 hv with hv | ⟨t, ht, rfl⟩ | ⟨t, ht, rfl⟩
    · exact (cases.links_of_offers hj hcase hl (base + 2) 0 true h h' hv).imp_right
        fun hw => (hlinks' w).2 (.inl hw)
    · exact absurd hcase (hrest t ht)
    · exact absurd hcase (hh t ht)

/-! ### Plans -/

mutual

/-- The edges of the two layouts of a plan differ only at the alternatives of a `match` and at its
subject. -/
theorem Plan.flattensAt_of_drawn (env : Env) (base : Nat) (next handlers : List (Label × NodeId)) :
    (plan : Plan) → plan.Drawn d (env.withFlat false) base next handlers →
      plan.Drawn d' (env.withFlat true) base next handlers →
      (plan.completes = true → d.Avoids next) → d.Avoids handlers → d.AvoidsLoops env →
        Throughout (d.FlattensAt d') base plan.size
  | .idle, h, h', hn, hh, _ | .block _, h, h', hn, hh, _ | .yield _, h, h', hn, hh, _ =>
    .one (h.flattensAt h' (hn rfl) hh)
  | .jump before site means route, h, h', _, hh, hl => by
    have hr := route.flattensAt_of_drawn env (base + 1) site means h.2 h'.2 hl
    exact (Throughout.one (h.1.flattensAt h'.1 (route.avoids_out _ h.2 hl) hh)).append hr rfl
  | .raise site route, h, h', _, hh, hl => by
    have hr := route.flattensAt_of_drawn env (base + 1) site .raising h.2 h'.2 hl
    exact (Throughout.one (h.1.flattensAt h'.1 (route.avoids_out _ h.2 hl) hh)).append hr rfl
  | .hold before header region body, h, h', hn, hh, hl => by
    have he := body.not_isCaseTest_entryAt h.2
    have hb := body.flattensAt_of_drawn (env.within region) (base + 1) next [] h.2 h'.2 hn
      Piece.avoids_nil hl
    exact (Throughout.one (h.1.flattensAt h'.1 (Piece.avoids_singleton he) hh)).append hb rfl
  | .seq first rest, h, h', hn, hh, hl => by
    have he := rest.not_isCaseTest_entryAt h.2
    have hf := first.flattensAt_of_drawn env base _ handlers h.1 h'.1
      (fun _ => Piece.avoids_singleton he) hh hl
    have hr := rest.flattensAt_of_drawn env (base + first.size) next [] h.2 h'.2 hn
      Piece.avoids_nil hl
    exact hf.append hr rfl
  | .branch test body rest, h, h', hn, hh, hl => by
    obtain ⟨h0, h1, hb, hr⟩ := h
    obtain ⟨h0', h1', hb', hr'⟩ := h'
    have hj := h1.not_isCaseTest rfl
    have hbe := body.not_isCaseTest_entryAt hb
    have hre := Alternatives.not_isCaseTest_target hr hj
    have hb := body.flattensAt_of_drawn env (base + 2) _ [] hb hb'
      (fun _ => Piece.avoids_singleton hj) Piece.avoids_nil hl
    have hr := rest.flattensAt_of_drawn env (base + 2 + body.size) (base + 1) hr hr' hj hl
    exact ((Throughout.two (h0.flattensAt h0' (Piece.avoids_pair hbe hre) hh)
      (h1.flattensAt h1' (hn rfl) Piece.avoids_nil)).append hb rfl).append hr (by omega)
  | .loop header body orelse, h, h', hn, hh, hl => by
    obtain ⟨h0, h1, hb, ho⟩ := h
    obtain ⟨h0', h1', hb', ho'⟩ := h'
    have hg := h0.not_isCaseTest rfl
    have hj := h1.not_isCaseTest rfl
    have hbe := body.not_isCaseTest_entryAt hb
    have hoe := Annex.not_isCaseTest_target ho hj
    -- in the body, jumps lead to the guard and to the end of the loop
    have hb := body.flattensAt_of_drawn (env.inLoop ⟨base, base + 1⟩) (base + 2) _ [] hb hb'
      (fun _ => Piece.avoids_singleton hg) Piece.avoids_nil
      (List.forall_mem_cons.2 ⟨⟨hg, hj⟩, hl⟩)
    have ho := orelse.flattensAt_of_drawn env (base + 2 + body.size) _ ho ho'
      (Piece.avoids_singleton hj) hl
    exact ((Throughout.two (h0.flattensAt h0' (Piece.avoids_pair hbe hoe) hh)
      (h1.flattensAt h1' (hn rfl) Piece.avoids_nil)).append hb rfl).append ho (by omega)
  | .dispatch subject region cases, h, h', hn, hh, hl => by
    obtain ⟨h0, h1, hc⟩ := h
    obtain ⟨h0', h1', hc'⟩ := h'
    have hj := h1.not_isCaseTest rfl
    have hrest : d.Avoids (if cases.exhaustive then [] else [(.noMatch, base + 1)]) := by
      split
      · exact Piece.avoids_nil
      · exact Piece.avoids_singleton hj
    have hsubject := h0.flattensAt_subject (env.within region) h0' hc hc' hj hrest hh
    have hc := cases.flattensAt_of_drawn (env.within region) (base + 2) (base + 1) 0 true hc hc' hj
      hl
    exact (Throughout.two hsubject (h1.flattensAt h1' (hn rfl) Piece.avoids_nil)).append hc rfl
  | .attempt region body handlers' orelse final, h, h', hn, hh, hl => by
    obtain ⟨h0, hb, hh', ho, hf⟩ := h
    obtain ⟨h0', hb', hh'', ho', hf'⟩ := h'
    have hj := h0.not_isCaseTest rfl
    have hfinish := Annex.not_isCaseTest_target hf hj
    have hbridge : ¬ d.IsCaseTest (orelse.bridge (base + 1 + body.size + handlers'.size) (.always,
        final.target (base + 1 + body.size + handlers'.size + orelse.size) base)).2 := by
      rw [Annex.snd_bridge]
      exact Annex.not_isCaseTest_target ho hfinish
    have hcaught : d.Avoids (handlers'.entries (base + 1 + body.size) 0 ++ handlers) :=
      List.forall_mem_append.2 ⟨handlers'.avoids_entries _ 0 hh', hh⟩
    have hb := body.flattensAt_of_drawn (env.within region) (base + 1) _ _ hb hb'
      (fun _ => Piece.avoids_singleton hbridge) hcaught hl
    have hh := handlers'.flattensAt_of_drawn env (base + 1 + body.size) _ hh' hh''
      (Piece.avoids_singleton hfinish) hl
    have ho := orelse.flattensAt_of_drawn env (base + 1 + body.size + handlers'.size) _ ho ho'
      (Piece.avoids_singleton hfinish) hl
    have hf := final.flattensAt_of_drawn env
      (base + 1 + body.size + handlers'.size + orelse.size) _ hf hf' (Piece.avoids_singleton hj) hl
    have hjoin := h0.flattensAt h0' (hn rfl) Piece.avoids_nil
    exact ((((Throughout.one hjoin).append hb rfl).append hh (by omega)).append ho
      (by omega)).append hf (by omega)

theorem Alternatives.flattensAt_of_drawn (env : Env) (base join : Nat) : (rest : Alternatives) →
    rest.Drawn d (env.withFlat false) base join → rest.Drawn d' (env.withFlat true) base join →
    ¬ d.IsCaseTest join → d.AvoidsLoops env → Throughout (d.FlattensAt d') base rest.size
  | .done, _, _, _, _ => .zero
  | .otherwise body, h, h', hj, hl =>
    body.flattensAt_of_drawn env base _ [] h h' (fun _ => Piece.avoids_singleton hj)
      Piece.avoids_nil hl
  | .test header body rest, h, h', hj, hl => by
    obtain ⟨h0, hb, hr⟩ := h
    obtain ⟨h0', hb', hr'⟩ := h'
    have hbe := body.not_isCaseTest_entryAt hb
    have hre := Alternatives.not_isCaseTest_target hr hj
    have hb := body.flattensAt_of_drawn env (base + 1) _ [] hb hb'
      (fun _ => Piece.avoids_singleton hj) Piece.avoids_nil hl
    have hr := rest.flattensAt_of_drawn env (base + 1 + body.size) join hr hr' hj hl
    exact ((Throughout.one (h0.flattensAt h0' (Piece.avoids_pair hbe hre) Piece.avoids_nil)).append
      hb rfl).append hr (by omega)

theorem Cases.flattensAt_of_drawn (env : Env) (base join index : Nat) (reached : Bool) :
    (cases : Cases) → cases.Drawn d (env.withFlat false) base join index reached →
    cases.Drawn d' (env.withFlat true) base join index reached → ¬ d.IsCaseTest join →
    d.AvoidsLoops env → Throughout (d.FlattensAt d') base cases.size
  | .nil, _, _, _, _ => .zero
  | .cons patterns catchAll body rest, h, h', hj, hl => by
    obtain ⟨ha, hb, hr⟩ := h
    obtain ⟨ha', hb', hr'⟩ := h'
    have ha := ha.flattensAt ha' (body.not_isCaseTest_entryAt hb)
    have hb := body.flattensAt_of_drawn env (base + patterns.length) _ [] hb hb'
      (fun _ => Piece.avoids_singleton hj) Piece.avoids_nil hl
    have hr := rest.flattensAt_of_drawn env (base + patterns.length + body.size) join (index + 1) _
      hr hr' hj hl
    exact (ha.append hb rfl).append hr (by omega)

theorem Handlers.flattensAt_of_drawn (env : Env) (base : Nat) (next : List (Label × NodeId)) :
    (handlers : Handlers) → handlers.Drawn d (env.withFlat false) base next →
    handlers.Drawn d' (env.withFlat true) base next → d.Avoids next → d.AvoidsLoops env →
      Throughout (d.FlattensAt d') base handlers.size
  | .nil, _, _, _, _ => .zero
  | .cons region handler rest, h, h', hn, hl => by
    have hh := handler.flattensAt_of_drawn (env.within region) base next [] h.1 h'.1 (fun _ => hn)
      Piece.avoids_nil hl
    have hr := rest.flattensAt_of_drawn env (base + handler.size) next h.2 h'.2 hn hl
    exact hh.append hr rfl

theorem Annex.flattensAt_of_drawn (env : Env) (base : Nat) (next : List (Label × NodeId)) :
    (annex : Annex) → annex.Drawn d (env.withFlat false) base next →
    annex.Drawn d' (env.withFlat true) base next → d.Avoids next → d.AvoidsLoops env →
      Throughout (d.FlattensAt d') base annex.size
  | .absent, _, _, _, _ => .zero
  | .present region body, h, h', hn, hl =>
    body.flattensAt_of_drawn (env.within region) base next [] h h' (fun _ => hn) Piece.avoids_nil hl

theorem Route.flattensAt_of_drawn (env : Env) (base : Nat) (site : Site) (means : Jump) :
    (route : Route) → route.Drawn d (env.withFlat false) base site means →
    route.Drawn d' (env.withFlat true) base site means → d.AvoidsLoops env →
      Throughout (d.FlattensAt d') base route.size
  | .arrive, _, _, _ => .zero
  | .leaveLoop rest, h, h', hl =>
    rest.flattensAt_of_drawn env.outsideLoop base site means h h' fun ends he =>
      hl ends (List.mem_of_mem_tail he)
  | .release header region outside rest, h, h', hl => by
    obtain ⟨h0, h1, hr⟩ := h
    obtain ⟨h0', h1', hr'⟩ := h'
    have hcarry := h1.not_isCaseTest (Env.isCaseTest_carryOn _ outside site means)
    have hout := rest.avoids_out _ hr hl
    have hr := rest.flattensAt_of_drawn env (base + 2) site means hr hr' hl
    exact (Throughout.two (h0.flattensAt h0' (Piece.avoids_singleton hcarry) Piece.avoids_nil)
      (h1.flattensAt h1' hout Piece.avoids_nil)).append hr rfl
  | .replay final outside body rest, h, h', hl => by
    rw [Route.size]
    cases hc : body.completes with
    -- a copy that does not complete is followed by nothing
    | false =>
      have hb := body.flattensAt_of_drawn (env.copy final) base _ [] h.1 h'.1 (by simp [hc])
        Piece.avoids_nil hl
      exact hb.append .zero rfl
    | true =>
      obtain ⟨h1, hr⟩ := h.2 hc
      obtain ⟨h1', hr'⟩ := h'.2 hc
      have hcarry := h1.not_isCaseTest (Env.isCaseTest_carryOn _ outside site means)
      have hout := rest.avoids_out _ hr hl
      have hb := body.flattensAt_of_drawn (env.copy final) base _ [] h.1 h'.1
        (fun _ => Piece.avoids_singleton hcarry) Piece.avoids_nil hl
      have hr := rest.flattensAt_of_drawn env (base + body.size + 1) site means hr hr' hl
      have hnext := h1.flattensAt h1' hout Piece.avoids_nil
      exact hb.append ((Throughout.one hnext).append hr rfl) rfl
  | .swallow final body, h, h', hl =>
    body.flattensAt_of_drawn (env.copy final) base [] [] h h' (fun _ => Piece.avoids_nil)
      Piece.avoids_nil hl

end

/-- The edges of the two layouts of a function differ only as described. -/
theorem Plan.DrawnWhole.flattensAt {plan : Plan} (h : plan.DrawnWhole d false)
    (h' : plan.DrawnWhole d' true) (p : Nat) : d.FlattensAt d' p := by
  have hexit := h.exit.not_isCaseTest rfl
  have hentry := plan.not_isCaseTest_entryAt h.body
  have hbody := plan.flattensAt_of_drawn (.ofFunction false) 1 _ [] h.body h'.body
    (fun _ => Piece.avoids_singleton hexit) Piece.avoids_nil (by simp [Piece.AvoidsLoops,
      Env.ofFunction])
  have hwhole : Throughout (d.FlattensAt d') 0 (1 + plan.size + 1) :=
    ((Throughout.one (h.entry.flattensAt h'.entry (Piece.avoids_singleton hentry)
      Piece.avoids_nil)).append hbody rfl).append
        (.one (h.exit.flattensAt h'.exit Piece.avoids_nil Piece.avoids_nil)) (by omega)
  rcases Nat.lt_or_ge p (plan.size + 2) with hlt | hge
  · exact hwhole p (Nat.zero_le p) (by omega)
  · -- there is nothing after the exit
    have hnil : ∀ w, ¬ Edge.Links d'.edges p w := by
      intro w hw
      simp [Piece.links_iff, h'.row_eq_nil p hge, Row.nil] at hw
    refine ⟨fun w hw => absurd hw (hnil w), fun _ w hw => ?_, fun v _ hv => absurd hv (hnil v)⟩
    simp [Piece.links_iff, h.row_eq_nil p hge, Row.nil] at hw

/-! ## Walks -/

/-- From anything but an alternative, walks lead to the same nodes in both layouts. -/
theorem Piece.reaches_iff_of_flattensAt (h : ∀ p, d.FlattensAt d' p) {u : Nat}
    (hu : ¬ d.IsCaseTest u) (v : Nat) :
    Edge.Reaches d'.edges u v ↔ Edge.Reaches d.edges u v := by
  constructor
  · intro hr
    induction hr with
    | refl => exact .refl
    | tail _ hl ih => exact ih.trans ((h _).lifts _ hl)
  · intro hr
    induction hr with
    | refl => exact .refl
    | @tail v w _ hl ih =>
      by_cases hv : d.IsCaseTest v
      · -- the flat walk has come to the alternative from somewhere, since it does not begin there
        rcases Relation.ReflTransGen.cases_tail ih with rfl | ⟨p, hp, hpv⟩
        · exact absurd hv hu
        rcases (h p).covers v w hpv hv hl with hvw | hpw
        · exact ih.tail hvw
        · exact hp.tail hpw
      · exact ih.tail ((h v).keeps hv w hl)

end Flattens

/-! ## Graphs -/

theorem Piece.alike_ofPlan (flat flat' : Bool) (plan : Plan) :
    (ofPlan flat plan).1.Alike (ofPlan flat' plan).1 := by
  have hb := plan.alike_layout flat flat' (.ofFunction flat) 1 none
  simp only [ofPlan, Plan.size_layout, Plan.exit_layout, Plan.entry_layout]
  exact ((((Alike.append ⟨rfl, rfl⟩ hb).append_edges _ _).append ⟨rfl, rfl⟩).append_edges _
    _).append ⟨rfl, rfl⟩

/-- A search that finds what walks lead to finds the same over edges with the same walks. -/
theorem Edge.contains_congr {find : List Edge → NodeId → List NodeId}
    (hfind : ∀ edges u v, v ∈ find edges u ↔ Reaches edges u v) {edges edges' : List Edge}
    {u v : NodeId} (h : Reaches edges' u v ↔ Reaches edges u v) :
    (find (firstPerPair edges') u).contains v = (find (firstPerPair edges) u).contains v := by
  rw [Bool.eq_iff_iff, List.contains_iff_mem, List.contains_iff_mem, hfind, hfind, Reaches, Reaches,
    links_firstPerPair, links_firstPerPair]
  exact h

theorem Edge.contains_reachable_congr {edges edges' : List Edge} {u v : NodeId}
    (h : Reaches edges' u v ↔ Reaches edges u v) :
    (reachable (firstPerPair edges') u).contains v =
      (reachable (firstPerPair edges) u).contains v :=
  contains_congr (fun _ _ _ => mem_reachable) h

namespace Graph

variable {g f : Graph} {d d' : Piece}

/-- Graphs of like layouts in which the same nodes are in reach have the same nodes and exits. -/
theorem OfPiece.nodes_and_exits_eq (hg : g.OfPiece d) (hf : f.OfPiece d') (ha : d'.Alike d)
    (hr : ∀ u, Edge.Reaches d'.edges 0 u ↔ Edge.Reaches d.edges 0 u) :
    f.nodes = g.nodes ∧ f.exits = g.exits := by
  have hlive := fun u => Edge.contains_congr (fun _ _ _ => Edge.mem_inReach) (hr u)
  constructor
  · rw [hf.nodes, hg.nodes, ha.nodes]
    simp only [Node.markDead, hlive]
  · rw [hf.exits, hg.exits, ha.exits]
    simp only [hlive]

theorem OfPiece.not_isCaseTest (hg : g.OfPiece d) {u : NodeId}
    (hu : ∀ n, g.nodes[u]? = some n → n.content.isCaseTest = false) : ¬ d.IsCaseTest u := by
  rintro ⟨n, hn, hc⟩
  have hfalse := hu _ (by rw [hg.getElem?_nodes, hn]; rfl)
  rw [show n.content.isCaseTest = false from hfalse] at hc
  cases hc

theorem exit_of_ofBody {options : Options} {body : List Stmt} {plan : Plan}
    (h : ofBody options body = .ok g)
    (hp : Plan.ofBody options (RegionTree.ofBody body) body = .ok plan) :
    g.exit = 1 + plan.size := by
  rw [ofBody, hp] at h
  replace h : ofLayout _ (Piece.ofPlan options.flatDispatch plan).1
    (Piece.ofPlan options.flatDispatch plan).2 = .ok g := h
  rw [ofLayout] at h
  split at h
  · cases h
  · split at h
    · cases h
    · cases h
      exact congrArg _ (plan.size_layout _ 1 none)

/-- Whether the subject of a `match` leads to all alternatives at once or to one after the other
makes no difference to whether a body is rejected and why, and none to the nodes of its graph, to
where the graph begins and ends, or to its exits.  It makes none to walks either, unless they begin
at an alternative. -/
theorem dispatch_agrees (markers : Bool) (body : List Stmt) :
    (∃ r, ofBody { flatDispatch := false, markers } body = .error (.rejected r) ∧
      ofBody { flatDispatch := true, markers } body = .error (.rejected r)) ∨
    ∃ g f, ofBody { flatDispatch := false, markers } body = .ok g ∧
      ofBody { flatDispatch := true, markers } body = .ok f ∧
      f.nodes = g.nodes ∧ f.entry = g.entry ∧ f.exit = g.exit ∧ f.exits = g.exits ∧
      f.regions = g.regions ∧
      ∀ u v, (∀ n, g.nodes[u]? = some n → n.content.isCaseTest = false) →
        f.reaches? u v = g.reaches? u v := by
  cases hp : Plan.ofBody { flatDispatch := false, markers } (RegionTree.ofBody body) body with
  | error failure =>
    cases failure with
    | defective defect => exact absurd hp (Plan.noDefect_ofBody _ body defect)
    | rejected r =>
      -- planning does not look at how a `match` is laid out
      have hp' : Plan.ofBody { flatDispatch := true, markers } (RegionTree.ofBody body) body =
        .error (.rejected r) := hp
      refine .inl ⟨r, ?_, ?_⟩
      · rw [ofBody, hp]
        rfl
      · rw [ofBody, hp']
        rfl
  | ok plan =>
    have hp' : Plan.ofBody { flatDispatch := true, markers } (RegionTree.ofBody body) body =
      .ok plan := hp
    obtain ⟨g, hg⟩ := exists_of_plan hp
    obtain ⟨f, hf⟩ := exists_of_plan hp'
    obtain ⟨_, hpg, hgd, hgr⟩ := ofPiece_ofBody hg
    obtain ⟨_, hpf, hfd, hfr⟩ := ofPiece_ofBody hf
    cases hp.symm.trans hpg
    cases hp'.symm.trans hpf
    have hd := Piece.drawnWhole_ofPlan false plan
    have hflat := hd.flattensAt (Piece.drawnWhole_ofPlan true plan)
    have hentry := hd.entry.not_isCaseTest rfl
    obtain ⟨hnodes, hexits⟩ := hgd.nodes_and_exits_eq hfd (Piece.alike_ofPlan true false plan)
      (Piece.reaches_iff_of_flattensAt hflat hentry)
    refine .inr ⟨g, f, hg, hf, hnodes, ?_, ?_, hexits, ?_, fun u v hu => ?_⟩
    · rw [hfd.entry, hgd.entry]
    · rw [exit_of_ofBody hf hp', exit_of_ofBody hg hp]
    · rw [hfr, hgr]
    · have hr := Piece.reaches_iff_of_flattensAt hflat (hgd.not_isCaseTest hu) v
      rw [reaches?, reaches?, hnodes, hfd.edges, hgd.edges, Edge.contains_reachable_congr hr]

end Graph

/-- A `match` with two cases that may both fail. -/
def twoCases : List Stmt :=
  [.dispatch ⟨1, ⟨0, 40⟩⟩ ⟨6, 7⟩
    [⟨⟨9, 20⟩, ⟨[⟨⟨14, 15⟩, .refutable⟩], none⟩, [.pass ⟨2, ⟨17, 20⟩⟩]⟩,
      ⟨⟨25, 40⟩, ⟨[⟨⟨30, 31⟩, .refutable⟩], none⟩, [.pass ⟨3, ⟨33, 36⟩⟩]⟩]]

-- From the first alternative, only a chain leads to the second one.
example : ∃ g f, Graph.ofBody {} twoCases = .ok g ∧
    Graph.ofBody { flatDispatch := true } twoCases = .ok f ∧
    g.reaches? 3 5 = some true ∧ f.reaches? 3 5 = some false :=
  ⟨_, _, rfl, rfl, rfl, rfl⟩

end Flowgraph
