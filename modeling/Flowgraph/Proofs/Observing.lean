import Flowgraph.Proofs.Finally
import Flowgraph.Proofs.Overlooking

/-!
# Markers observe

A graph may be built with the markers of the body or without them.  Which statements lead to which
is asked of both graphs by one view, which overlooks the markers.

Markers add no way from one statement to another, and they take none away on which no exception is
raised.  They may take away a way along an exception: where a marker stands in front of a loop at
the beginning of a `try` body, the exceptions of the body no longer leave the test of the loop, and
its rounds no longer lead to the handlers.

## Main definitions

* `leading` : the view that asks whether one statement leads to another.
* `Graph.StmtReaches`, `Graph.StmtProceeds` : one statement leads to another, over any edges or
  without an exception.

## Main results

* `Piece.least_leading` : what the view finds out.
* `Graph.flow_with_markers` : the graphs with and without markers, compared.
* `exception_hangs_off_marker` : an exception may leave a marker in place of a loop.
-/

namespace Flowgraph

/-! ## Which statements lead to which -/

/-- The view that asks whether `s` can still be met at a node that leads to `t`, and whether `t` can
still be met.  From `s` to `t`, exceptions are followed if `thrown` says so. -/
def leading (s t : Stmt) (thrown : Bool) : View (Prop × Prop) where
  see events x :=
    (x.1 ∨ .stmt s ∈ events ∧ (x.2 ∨ .stmt t ∈ events), x.2 ∨ .stmt t ∈ events)
  leave _ := ⊥
  heed x := (x.1, thrown = true ∧ x.2)
  see_nil x := by simp
  see_mono events x y h :=
    ⟨Or.imp h.1 (And.imp_right (Or.imp_left h.2)), Or.imp_left h.2⟩
  heed_bot := Prod.ext rfl (by simp)
  heed_mono x y h := ⟨h.1, And.imp_right h.2⟩

section Leading

variable {s t : Stmt} {thrown : Bool}

@[simp] theorem see_leading (events : List Event) (x : Prop × Prop) :
    (leading s t thrown).see events x =
      (x.1 ∨ .stmt s ∈ events ∧ (x.2 ∨ .stmt t ∈ events), x.2 ∨ .stmt t ∈ events) := rfl

@[simp] theorem leave_leading (c : ExitCause) : (leading s t thrown).leave c = ⊥ := rfl

@[simp] theorem heed_leading (x : Prop × Prop) :
    (leading s t thrown).heed x = (x.1, thrown = true ∧ x.2) := rfl

/-- The view overlooks markers, unless it asks about one. -/
theorem overlooks_leading (hs : s.marker? = none) (ht : t.marker? = none) (thrown : Bool) :
    (leading s t thrown).Overlooks where
  see_filter events x := by simp [List.mem_filter, Event.isSeen, hs, ht]
  le_see events x := ⟨Or.inl, Or.inl⟩
  heed_sup x y := by simp [and_or_left]

/-- If exceptions are not followed from `s` to `t`, it does not matter when they are raised. -/
theorem indifferent_leading : (leading s t false).Indifferent := by
  refine fun x => ⟨fun events y => ?_, by simp⟩
  simp
  grind

/-- The statement runs at the node. -/
def Piece.RunsAt (d : Piece) (s : Stmt) (u : Nat) : Prop :=
  ∃ n, d.nodes[u]? = some n ∧ s ∈ n.stmts

/-- Control goes from one node to the other, by itself or, if `thrown` says so, by an exception. -/
def Piece.GoesOn (d : Piece) (thrown : Bool) (u v : Nat) : Prop :=
  (∃ x ∈ (d.row u).out, x.2 = v) ∨ thrown = true ∧ ∃ x ∈ (d.row u).thrown, x.2 = v

theorem Content.stmt_mem_events {content : Content} :
    .stmt s ∈ content.events ↔ s ∈ content.stmts := by
  cases content <;> simp [events, stmts]

/-- What is in view from a node, in terms of the nodes that control goes to next. -/
theorem Piece.viewed_leading {d : Piece} (hd : ∀ u, d.row u ≠ .nil → u < d.nodes.length)
    (W : Nat → Prop × Prop) (u : Nat) :
    d.viewed (leading s t thrown) W u =
      ((∃ v, Edge.Links d.edges u v ∧ (W v).1) ∨
          d.RunsAt s u ∧ ((∃ v, d.GoesOn thrown u v ∧ (W v).2) ∨ d.RunsAt t u),
        (∃ v, d.GoesOn thrown u v ∧ (W v).2) ∨ d.RunsAt t u) := by
  have hrow : (d.row u).viewed (leading s t thrown) W =
      (∃ v, Edge.Links d.edges u v ∧ (W v).1, ∃ v, d.GoesOn thrown u v ∧ (W v).2) := by
    refine Prod.ext (propext ?_) (propext ?_)
    · simp [Row.viewed, Piece.links_iff, Prod.fst_iSup]
      grind
    · simp [Row.viewed, GoesOn, Prod.snd_iSup]
      grind
  rw [Piece.viewed]
  split
  next n hn =>
    simp [hrow, Content.stmt_mem_events, RunsAt, hn, Node.stmts]
  next hn =>
    -- without a node there are no edges either
    have hnil := Piece.row_eq_nil hd hn
    refine Prod.ext (propext ?_) (propext ?_) <;>
      simp [RunsAt, hn, GoesOn, hnil, Row.nil, Piece.links_iff]

/-- From the node a walk leads to one at which `t` runs. -/
def Piece.LeadsTo (d : Piece) (t : Stmt) (thrown : Bool) (u : Nat) : Prop :=
  ∃ v, Relation.ReflTransGen (d.GoesOn thrown) u v ∧ d.RunsAt t v

/-- What is in view from a node is what walks lead to. -/
theorem Piece.least_leading {d : Piece} (hd : ∀ u, d.row u ≠ .nil → u < d.nodes.length) (u : Nat) :
    least (d.viewed (leading s t thrown)) u =
      (∃ v, Edge.Reaches d.edges u v ∧ d.RunsAt s v ∧ d.LeadsTo t thrown v,
        d.LeadsTo t thrown u) := by
  -- unfolding the least values once at a node
  have hstep := fun u => (congrFun (map_least (d.viewed_mono (leading s t thrown))) u).symm.trans
    (viewed_leading hd _ u)
  have hle : least (d.viewed (leading s t thrown)) ≤ fun u =>
      (∃ v, Edge.Reaches d.edges u v ∧ d.RunsAt s v ∧ d.LeadsTo t thrown v,
        d.LeadsTo t thrown u) := by
    refine least_le fun u => ?_
    have hnext : (∃ v, d.GoesOn thrown u v ∧ d.LeadsTo t thrown v) ∨ d.RunsAt t u →
        d.LeadsTo t thrown u := by
      rintro (⟨v, hv, w, hw, h⟩ | h)
      · exact ⟨w, .head hv hw, h⟩
      · exact ⟨u, .refl, h⟩
    rw [viewed_leading hd]
    refine ⟨?_, hnext⟩
    rintro (⟨v, hv, w, hw, h⟩ | ⟨hs, h⟩)
    · exact ⟨w, .head hv hw, h⟩
    · exact ⟨u, .refl, hs, hnext h⟩
  have hsnd : ∀ u, d.LeadsTo t thrown u → (least (d.viewed (leading s t thrown)) u).2 := by
    rintro u ⟨v, hv, h⟩
    -- backwards along the walk
    induction hv using Relation.ReflTransGen.head_induction_on with
    | refl => rw [hstep]; exact .inr h
    | head hl _ ih => rw [hstep]; exact .inl ⟨_, hl, ih⟩
  refine Prod.ext (propext ⟨(hle u).1, ?_⟩) (propext ⟨(hle u).2, hsnd u⟩)
  rintro ⟨v, hv, hs, h⟩
  induction hv using Relation.ReflTransGen.head_induction_on with
  | refl =>
    have hv := hsnd v h
    rw [hstep] at hv ⊢
    exact .inr ⟨hs, hv⟩
  | head hl _ ih => rw [hstep]; exact .inl ⟨_, hl, ih⟩

end Leading

/-! ## Graphs with and without markers -/

namespace Graph

/-- The statement runs at the node, and control can reach the node. -/
def RunsAt (g : Graph) (s : Stmt) (u : NodeId) : Prop :=
  g.isLive u = true ∧ ∃ n, g.nodes[u]? = some n ∧ s ∈ n.stmts

/-- A node at which one statement runs leads to a node at which another does; control can reach
both. -/
def StmtReaches (g : Graph) (s t : Stmt) : Prop :=
  ∃ u v, g.RunsAt s u ∧ g.RunsAt t v ∧ Edge.Reaches g.edges u v

/-- The same without an exception on the way from the one to the other. -/
def StmtProceeds (g : Graph) (s t : Stmt) : Prop :=
  ∃ u v, g.RunsAt s u ∧ g.RunsAt t v ∧ Relation.ReflTransGen g.Proceeds u v

/-- The nodes that hold a statement with the number. -/
def nodesWith (g : Graph) (id : StmtId) : List NodeId :=
  (List.range g.nodes.length).filter fun u => (g.nodes[u]?).any (·.stmts.any (·.id == id))

theorem RunsAt.mem_nodesWith {g : Graph} {s : Stmt} {u : NodeId} (h : g.RunsAt s u) :
    u ∈ g.nodesWith s.id := by
  obtain ⟨-, n, hn, hs⟩ := h
  refine List.mem_filter.2 ⟨List.mem_range.2 (List.getElem?_eq_some_iff.1 hn).1, ?_⟩
  rw [hn, Option.any_some, List.any_eq_true]
  exact ⟨s, hs, beq_self_eq_true s.id⟩

theorem runsAt_of_stmts {g : Graph} {s : Stmt} {u : NodeId} {stmts : List Stmt}
    (hl : g.isLive u = true) (hn : (g.nodes[u]?).map (·.stmts) = some stmts) (hs : s ∈ stmts) :
    g.RunsAt s u := by
  obtain ⟨n, hu, rfl⟩ := Option.map_eq_some_iff.1 hn
  exact ⟨hl, n, hu, hs⟩

section OfPiece

variable {g : Graph} {d : Piece} {s t : Stmt}

theorem OfPiece.runsAt_iff (h : g.OfPiece d) {u : NodeId} :
    g.RunsAt s u ↔ Edge.Reaches d.edges 0 u ∧ d.RunsAt s u := by
  rw [RunsAt, h.isLive_iff, h.getElem?_nodes]
  constructor
  · rintro ⟨⟨-, hr⟩, n, hn, hs⟩
    obtain ⟨m, hm, rfl⟩ := Option.map_eq_some_iff.1 hn
    exact ⟨hr, m, hm, hs⟩
  · rintro ⟨hr, m, hm, hs⟩
    exact ⟨⟨(List.getElem?_eq_some_iff.1 hm).1, hr⟩, _, Option.map_eq_some_iff.2 ⟨m, hm, rfl⟩, hs⟩

/-- One statement leads to another if the entry has that in view. -/
theorem OfPiece.exists_runsAt_iff (h : g.OfPiece d)
    (hd : ∀ u, d.row u ≠ .nil → u < d.nodes.length) (thrown : Bool) :
    (∃ u v, g.RunsAt s u ∧ g.RunsAt t v ∧ Relation.ReflTransGen (d.GoesOn thrown) u v) ↔
      (least (d.viewed (leading s t thrown)) 0).1 := by
  rw [Piece.least_leading hd]
  constructor
  · rintro ⟨u, v, hu, hv, hr⟩
    exact ⟨u, (h.runsAt_iff.1 hu).1, (h.runsAt_iff.1 hu).2, v, hr, (h.runsAt_iff.1 hv).2⟩
  · rintro ⟨u, hu, hs, v, hr, ht⟩
    have hlinks : ∀ x y, d.GoesOn thrown x y → Edge.Links d.edges x y := fun x y hxy =>
      Piece.links_iff.2 (hxy.imp_right And.right)
    have hv : Edge.Reaches d.edges 0 v := hu.trans (Relation.ReflTransGen.mono hlinks _ _ hr)
    exact ⟨u, v, h.runsAt_iff.2 ⟨hu, hs⟩, h.runsAt_iff.2 ⟨hv, ht⟩, hr⟩

end OfPiece

section OfBody

variable {options : Options} {body : List Stmt} {g : Graph} (s t : Stmt)

theorem stmtReaches_ofBody (h : ofBody options body = .ok g) :
    g.StmtReaches s t ↔ (bodyView (leading s t true) options.markers options.flatDispatch
      (leading s t true).ending [] ⊥ body).1 := by
  obtain ⟨plan, hp, hg, -⟩ := ofPiece_ofBody h
  have hw := Piece.drawnWhole_ofPlan options.flatDispatch plan
  have hd := fun u => hw.lt_length_of_row_ne (u := u)
  have hlinks : Edge.Links g.edges = (Piece.ofPlan options.flatDispatch plan).1.GoesOn true := by
    funext u v
    rw [hg.links, Piece.links_iff, Piece.GoesOn]
    simp
  rw [← least_viewed_ofPlan _ hp, ← hg.exists_runsAt_iff hd, ← hlinks]
  rfl

theorem stmtProceeds_ofBody (h : ofBody options body = .ok g) :
    g.StmtProceeds s t ↔ (bodyView (leading s t false) options.markers options.flatDispatch
      (leading s t false).ending [] ⊥ body).1 := by
  obtain ⟨plan, hp, hg, -⟩ := ofPiece_ofBody h
  have hw := Piece.drawnWhole_ofPlan options.flatDispatch plan
  have hd := fun u => hw.lt_length_of_row_ne (u := u)
  have hproceeds : g.Proceeds = (Piece.ofPlan options.flatDispatch plan).1.GoesOn false := by
    funext u v
    rw [Proceeds, hg.edges, Piece.exists_followed_iff, Piece.GoesOn]
    · simp
    · -- no exception takes the way that control takes by itself
      intro x hx y hy
      have hne : (Piece.ofPlan options.flatDispatch plan).1.row u ≠ .nil := by
        intro hnil
        simp [hnil, Row.nil] at hx
      exact (hw.wired (Plan.fits_ofBody hp) (hd u hne)).apart x hx y hy
  rw [← least_viewed_ofPlan _ hp, ← hg.exists_runsAt_iff hd, StmtProceeds, ← hproceeds]

end OfBody

/-- Keeping the markers of a body never adds a way from one statement to another, and it takes none
away on which no exception is raised.  It takes none away at all unless a `try` with handlers has a
body that begins with markers in front of a `yield`, a `raise`, a loop or a `try`, or with a `try`
whose body begins in this way; a `try` that begins with the test of an `if` or of a `match` does not
count. -/
theorem flow_with_markers {flat : Bool} {body : List Stmt} {g f : Graph}
    (hg : ofBody ⟨flat, true⟩ body = .ok g) (hf : ofBody ⟨flat, false⟩ body = .ok f) {s t : Stmt}
    (hs : s.marker? = none) (ht : t.marker? = none) :
    (g.StmtReaches s t → f.StmtReaches s t) ∧ (g.StmtProceeds s t ↔ f.StmtProceeds s t) ∧
      ((∀ r ∈ bodyStatements body, r.watchesMarker = false) →
        (g.StmtReaches s t ↔ f.StmtReaches s t)) := by
  rw [stmtReaches_ofBody s t hg, stmtReaches_ofBody s t hf, stmtProceeds_ofBody s t hg,
    stmtProceeds_ofBody s t hf]
  have hA := fun thrown => overlooks_leading hs ht thrown
  have hle := fun thrown => bodyView_markers_le (hA thrown) flat (leading s t thrown).ending body
  refine ⟨(hle true).1, ⟨(hle false).1, ?_⟩, fun hopen => ⟨(hle true).1, ?_⟩⟩
  · exact (le_bodyView_markers (hA false) flat _ (.inl indifferent_leading)).1
  · exact (le_bodyView_markers (hA true) flat _ (.inr hopen)).1

end Graph

/-- A `try` with a marker at the beginning of its body, in front of a `try` that begins with a test,
and one at the beginning of its handler, in front of a loop. -/
def markerBeforeTest : List Stmt :=
  let site (id : Nat) : Site := ⟨id, ⟨id, id + 1⟩⟩
  [.simple (site 0),
    .attempt (site 1)
      [.marker (site 2) "start",
        .attempt (site 3) [.branch (site 4) ⟨4, 5⟩ [.simple (site 5)] []] [] [] [.simple (site 6)]]
      [⟨⟨7, 8⟩, none, [.marker (site 8) "caught",
        .loop (site 9) (.condition ⟨9, 10⟩) [.simple (site 10)] []]⟩] [] []]

theorem flow_with_markers_markerBeforeTest :
    ∃ g f, Graph.ofBody ⟨false, true⟩ markerBeforeTest = .ok g ∧
      Graph.ofBody ⟨false, false⟩ markerBeforeTest = .ok f ∧
      (∀ r ∈ bodyStatements markerBeforeTest, r.watchesMarker = false) ∧
      g.StmtReaches (.simple ⟨0, ⟨0, 1⟩⟩) (.simple ⟨10, ⟨10, 11⟩⟩) ∧
      f.StmtReaches (.simple ⟨0, ⟨0, 1⟩⟩) (.simple ⟨10, ⟨10, 11⟩⟩) := by
  have h : ∃ g f, Graph.ofBody ⟨false, true⟩ markerBeforeTest = .ok g ∧
      Graph.ofBody ⟨false, false⟩ markerBeforeTest = .ok f ∧
      (g.isLive 1 = true ∧ (g.nodes[1]?).map (·.stmts) = some [.simple ⟨0, ⟨0, 1⟩⟩]) ∧
      (g.isLive 12 = true ∧ (g.nodes[12]?).map (·.stmts) = some [.simple ⟨10, ⟨10, 11⟩⟩]) ∧
      12 ∈ Edge.reachable g.edges 1 :=
    ⟨_, _, rfl, rfl, ⟨by decide, rfl⟩, ⟨by decide, rfl⟩, by decide⟩
  obtain ⟨g, f, hg, hf, ⟨hl, hn⟩, ⟨hl', hn'⟩, hr⟩ := h
  have hwatch : ∀ r ∈ bodyStatements markerBeforeTest, r.watchesMarker = false := by decide
  have hreach : g.StmtReaches (.simple ⟨0, ⟨0, 1⟩⟩) (.simple ⟨10, ⟨10, 11⟩⟩) :=
    ⟨1, 12, Graph.runsAt_of_stmts hl hn (by simp), Graph.runsAt_of_stmts hl' hn' (by simp),
      Edge.mem_reachable.1 hr⟩
  exact ⟨g, f, hg, hf, hwatch, hreach,
    ((Graph.flow_with_markers hg hf rfl rfl).2.2 hwatch).1 hreach⟩

/-- A `try` whose body is a loop behind a marker. -/
def markerBeforeLoop : List Stmt :=
  let site (id : Nat) : Site := ⟨id, ⟨id, id + 1⟩⟩
  [.attempt (site 0)
    [.marker (site 1) "start", .loop (site 2) (.condition ⟨2, 3⟩) [.simple (site 3)] []]
    [⟨⟨4, 5⟩, none, [.simple (site 4)]⟩] [] []]

/-- Without the marker the exceptions of the body leave the test of the loop, to which every round
comes back; with the marker they leave its block, to which nothing comes back. -/
theorem exception_hangs_off_marker :
    ((bodyStatements markerBeforeLoop).map Stmt.id).Nodup ∧
    ∃ g f, Graph.ofBody ⟨false, true⟩ markerBeforeLoop = .ok g ∧
      Graph.ofBody ⟨false, false⟩ markerBeforeLoop = .ok f ∧
      f.StmtReaches (.simple ⟨3, ⟨3, 4⟩⟩) (.simple ⟨4, ⟨4, 5⟩⟩) ∧
      ¬ g.StmtReaches (.simple ⟨3, ⟨3, 4⟩⟩) (.simple ⟨4, ⟨4, 5⟩⟩) := by
  have hg : ∃ g, Graph.ofBody ⟨false, true⟩ markerBeforeLoop = .ok g ∧
      g.nodesWith 3 = [5] ∧ g.nodesWith 4 = [6] ∧ 6 ∉ Edge.reachable g.edges 5 :=
    ⟨_, rfl, by decide, by decide, by decide⟩
  have hf : ∃ f, Graph.ofBody ⟨false, false⟩ markerBeforeLoop = .ok f ∧
      (f.isLive 4 = true ∧ (f.nodes[4]?).map (·.stmts) = some [.simple ⟨3, ⟨3, 4⟩⟩]) ∧
      (f.isLive 5 = true ∧ (f.nodes[5]?).map (·.stmts) = some [.simple ⟨4, ⟨4, 5⟩⟩]) ∧
      5 ∈ Edge.reachable f.edges 4 :=
    ⟨_, rfl, ⟨by decide, rfl⟩, ⟨by decide, rfl⟩, by decide⟩
  obtain ⟨g, hg, hthree, hfour, hno⟩ := hg
  obtain ⟨f, hf, ⟨hl, hn⟩, ⟨hl', hn'⟩, hr⟩ := hf
  refine ⟨by decide, g, f, hg, hf, ⟨4, 5, Graph.runsAt_of_stmts hl hn (by simp),
    Graph.runsAt_of_stmts hl' hn' (by simp), Edge.mem_reachable.1 hr⟩, ?_⟩
  rintro ⟨u, v, hu, hv, huv⟩
  have hu : u ∈ g.nodesWith 3 := hu.mem_nodesWith
  have hv : v ∈ g.nodesWith 4 := hv.mem_nodesWith
  rw [hthree, List.mem_singleton] at hu
  rw [hfour, List.mem_singleton] at hv
  subst hu hv
  exact hno (Edge.mem_reachable.2 huv)

end Flowgraph
