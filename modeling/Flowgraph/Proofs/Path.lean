import Flowgraph.Proofs.Built
import Flowgraph.Proofs.Run
import Flowgraph.Proofs.Wiring

/-!
# Paths through the graph of a body

The paths through the graph of a body, from its entry to a node where control goes no further, have
the event sequences of the runs of the body.  Both sides are collected by the same reading, once
along the edges of the graph and once on the tree.

## Main definitions

* `Graph.Path` : the event sequences of the paths that start at a node.

## Main results

* `Graph.OfPiece.least_traces` : reading a graph collects its paths.
* `Graph.path_iff_runs` : the paths through the graph of a body are the runs of the body.
-/

namespace Flowgraph

/-- The event sequences of the paths that start at a node, follow no exception and end where control
goes no further. -/
inductive Graph.Path (g : Graph) : NodeId → List Event → Prop
  | stops {u : NodeId} {n : Node} (hn : g.nodes[u]? = some n)
    (h : ∀ e ∈ g.edges, e.source = u → e.label.isException = true) : Path g u n.content.events
  | goesOn {e : Edge} {n : Node} {t : List Event} (hn : g.nodes[e.source]? = some n)
    (he : e ∈ g.edges) (hl : e.label.isException = false) (h : Path g e.target t) :
    Path g e.source (n.content.events ++ t)

theorem Row.mem_value_traces {row : Row} {W : Nat → Set (List Event)} {t : List Event} :
    t ∈ row.value traces W ↔
      (∃ x ∈ row.out, t ∈ W x.2) ∨ (∃ c ∈ row.leaves, c.isFinal = true) ∧ t = [] := by
  rw [Row.value, heed_traces, sup_bot_eq]
  change t ∈ (⋃ x ∈ row.out, W x.2) ∪ (⋃ c ∈ row.leaves, traces.leave c) ↔ _
  simp [traces]
  grind

namespace Graph

section OfPiece

variable {g : Graph} {d : Piece} {scope : Nat → Prop}

/-- A path through a node goes on along an edge, or ends there if control does not go on. -/
theorem OfPiece.mem_value_traces (h : g.OfPiece d)
    (hw : ∀ u, u < d.nodes.length → (d.row u).Wired scope) {W : Nat → Set (List Event)} {u : Nat}
    {t : List Event} :
    t ∈ d.value traces W u ↔ ∃ n, g.nodes[u]? = some n ∧
      ((∀ e ∈ g.edges, e.source = u → e.label.isException = true) ∧ n.content.events = t ∨
        ∃ e ∈ g.edges, e.source = u ∧ e.label.isException = false ∧
          ∃ t' ∈ W e.target, n.content.events ++ t' = t) := by
  rw [Piece.value, h.getElem?_nodes]
  cases hn : d.nodes[u]? with
  | none => simp
  | some n =>
    have hw := hw u (List.getElem?_eq_some_iff.1 hn).1
    have hgo := fun v => h.edges ▸ Piece.exists_followed_iff (v := v) hw.apart
    -- no edge is followed from a row without targets, since the edges of the row are all there are
    have hstop : (d.row u).out = [] ↔
        ∀ e ∈ g.edges, e.source = u → e.label.isException = true := by
      constructor
      · intro hnil e he hs
        by_contra hl
        obtain ⟨x, hx, -⟩ := (hgo e.target).1 ⟨e, he, hs, rfl, by simpa using hl⟩
        simp [hnil] at hx
      · intro hall
        refine List.eq_nil_iff_forall_not_mem.2 fun x hx => ?_
        obtain ⟨e, he, hs, -, hl⟩ := (hgo x.2).2 ⟨x, hx, rfl⟩
        simp [hall e he hs] at hl
    simp only [Option.map_some, Option.some.injEq, seeAll_traces]
    constructor
    · rintro ⟨t', ht', rfl⟩
      refine ⟨_, rfl, ?_⟩
      rcases Row.mem_value_traces.1 ht' with ⟨x, hx, ht'⟩ | ⟨hf, rfl⟩
      · obtain ⟨e, he, hs, hv, hl⟩ := (hgo x.2).2 ⟨x, hx, rfl⟩
        exact .inr ⟨e, he, hs, hl, t', hv ▸ ht', rfl⟩
      · -- a final exit and a target exclude each other in a wired row
        exact .inl ⟨hstop.1 (hw.ends.2 hf), by simp⟩
    · rintro ⟨_, rfl, ⟨hall, rfl⟩ | ⟨e, he, hs, hl, t', ht', rfl⟩⟩
      · exact ⟨[], Row.mem_value_traces.2 (.inr ⟨hw.ends.1 (hstop.2 hall), rfl⟩), by simp⟩
      · obtain ⟨x, hx, hv⟩ := (hgo e.target).1 ⟨e, he, hs, rfl, hl⟩
        exact ⟨t', Row.mem_value_traces.2 (.inl ⟨x, hx, hv ▸ ht'⟩), rfl⟩

/-- Reading a graph collects its paths. -/
theorem OfPiece.least_traces (h : g.OfPiece d)
    (hw : ∀ u, u < d.nodes.length → (d.row u).Wired scope) (u : Nat) :
    least (d.value traces) u = {t | g.Path u t} := by
  refine le_antisymm ?_ ?_
  · have hle : least (d.value traces) ≤ fun u => {t | g.Path u t} := by
      refine least_le fun u t ht => ?_
      obtain ⟨n, hn, ⟨hall, rfl⟩ | ⟨e, he, rfl, hl, t', ht', rfl⟩⟩ := (h.mem_value_traces hw).1 ht
      · exact .stops hn hall
      · exact .goesOn hn he hl ht'
    exact hle u
  · intro t ht
    -- by induction on the path, unfolding the least value once at each of its nodes
    induction ht with
    | stops hn hall =>
      rw [← map_least (d.value_mono _)]
      exact (h.mem_value_traces hw).2 ⟨_, hn, .inl ⟨hall, rfl⟩⟩
    | goesOn hn he hl _ ih =>
      rw [← map_least (d.value_mono _)]
      exact (h.mem_value_traces hw).2 ⟨_, hn, .inr ⟨_, he, rfl, hl, _, ih, rfl⟩⟩

end OfPiece

/-- A run of a function ends with nothing left to do. -/
theorem mem_ending_traces {o : Outcome} {t : List Event} :
    t ∈ traces.ending o ↔ o.exit?.isSome = true ∧ t = [] := by
  rcases o with - | ⟨site, - | - | - | -⟩ <;>
    simp [Reading.ending, traces, Outcome.exit?, ExitCause.isFinal]

/-- The paths through the graph of a body, from its entry to a node where control goes no further,
have the event sequences of the runs of the body. -/
theorem path_iff_runs {options : Options} {body : List Stmt} {g : Graph}
    (h : Graph.ofBody options body = .ok g) (t : List Event) :
    g.Path g.entry t ↔ ∃ o, bodyRuns options.markers options.flatDispatch body t o := by
  obtain ⟨plan, hp, hg, -⟩ := Graph.ofPiece_ofBody h
  have hw : ∀ u, u < (Piece.ofPlan options.flatDispatch plan).1.nodes.length → _ := fun u =>
    (Piece.drawnWhole_ofPlan options.flatDispatch plan).wired (Plan.fits_ofBody hp)
  -- both sides are the least value at the entry
  have hpaths : {t | g.Path 0 t} =
      (bodyRuns options.markers options.flatDispatch body).follow traces.ending := by
    rw [← hg.least_traces hw 0, least_zero_ofPlan traces hp options.flatDispatch, bodyFlow_traces]
  rw [hg.entry, show g.Path 0 t ↔ t ∈ {t | g.Path 0 t} from Iff.rfl, hpaths]
  constructor
  · rintro ⟨t, o, ho, t', ht', rfl⟩
    obtain ⟨-, rfl⟩ := mem_ending_traces.1 ht'
    exact ⟨o, by simpa using ho⟩
  · rintro ⟨o, ho⟩
    refine ⟨t, o, ho, [], mem_ending_traces.2 ⟨?_, rfl⟩, by simp⟩
    have hmem := mem_bodyOutcomes_of_runs body ho
    rcases o with - | ⟨site, - | - | - | -⟩
    · rfl
    · rfl
    · rfl
    · -- `break` and `continue` do not leave the body, so no run ends with one
      cases staysInLoop_of_mem_bodyOutcomes hp hmem
    · cases staysInLoop_of_mem_bodyOutcomes hp hmem

end Graph

/-- A loop that returns from a `try` whose `finally` clause breaks out of the loop instead. -/
def breakInFinal : List Stmt :=
  let site (id : Nat) : Site := ⟨id, ⟨id, id + 1⟩⟩
  [.loop (site 1) (.condition ⟨1, 2⟩)
    [.attempt (site 2) [.jump (site 3) .returning] [] [] [.jump (site 4) .breaking]] []]

theorem path_iff_runs_breakInFinal : ∃ g, Graph.ofBody {} breakInFinal = .ok g ∧
    g.Path g.entry [.test ⟨1, 2⟩, .stmt (.jump ⟨3, ⟨3, 4⟩⟩ .returning),
      .stmt (.jump ⟨4, ⟨4, 5⟩⟩ .breaking)] := by
  have hbody : bodyRuns true false
      [.attempt ⟨2, ⟨2, 3⟩⟩ [.jump ⟨3, ⟨3, 4⟩⟩ .returning] [] [] [.jump ⟨4, ⟨4, 5⟩⟩ .breaking]]
      ([.stmt (.jump ⟨3, ⟨3, 4⟩⟩ .returning)] ++ [.stmt (.jump ⟨4, ⟨4, 5⟩⟩ .breaking)])
      (.jump ⟨4, ⟨4, 5⟩⟩ .breaking) :=
    .stops (.replaced (.stops (.stops ⟨rfl, rfl⟩)) (.stops ⟨rfl, rfl⟩))
  have hrun : bodyRuns true false breakInFinal
      ((.test ⟨1, 2⟩ :: ([.stmt (.jump ⟨3, ⟨3, 4⟩⟩ .returning)] ++
        [.stmt (.jump ⟨4, ⟨4, 5⟩⟩ .breaking)])) ++ []) .normal :=
    .goesOn (.breaks hbody) ⟨rfl, rfl⟩
  have h : ∃ g, Graph.ofBody {} breakInFinal = .ok g := ⟨_, rfl⟩
  obtain ⟨g, hg⟩ := h
  exact ⟨g, hg, (Graph.path_iff_runs hg _).2 ⟨.normal, hrun⟩⟩

end Flowgraph
