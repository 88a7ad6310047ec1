import Flowgraph.Proofs.Finally
import Flowgraph.Proofs.Loops

/-!
# A way out from everywhere

Control is trapped nowhere: from every node it can get to a node where it leaves the function for
good, and no exception has to be raised on the way.

From a node without such a way control goes on, and only to nodes that have none either.  So it
could stay among these nodes whatever the guards of loops say, which it can nowhere.

## Main definitions

* `Graph.recordedExits` : the exits that are recorded while a graph is made.

## Main results

* `Graph.OfPiece.exists_way_out` : every node of a layout has a way out.
* `Graph.way_out_of_live_node` : so has every node of a graph that control can reach.
-/

namespace Flowgraph

namespace Graph

/-- The exits that are recorded while the graph of a body is made.  They are recorded at every node
where control leaves, before it is known which nodes control can reach, and each copy of a statement
has a record of its own. -/
def recordedExits (options : Options) (body : List Stmt) : Except Failure (List Exit) := do
  let plan ← Plan.ofBody options (RegionTree.ofBody body) body
  return (Piece.ofPlan options.flatDispatch plan).1.exits

/-- A walk that no exception takes is a walk. -/
theorem reaches_of_proceeds {g : Graph} {u v : NodeId} (h : Relation.ReflTransGen g.Proceeds u v) :
    Edge.Reaches g.edges u v := by
  refine Relation.ReflTransGen.mono ?_ u v h
  rintro a b ⟨e, he, hs, ht, -⟩
  exact ⟨e, he, hs, ht⟩

namespace OfPiece

variable {g : Graph} {d : Piece} {flat : Bool} {plan : Plan} {u : Nat}

/-- Control goes on where the layout says. -/
theorem proceeds_of_mem_out (hg : g.OfPiece d) (hw : plan.DrawnWhole d flat) (hf : plan.Fits 0)
    {t : Label × NodeId} (ht : t ∈ (d.row u).out) : g.Proceeds u t.2 := by
  have hu := (hw.links_bounds hf (Piece.links_iff.2 (.inl ⟨t, ht, rfl⟩))).1
  rw [Proceeds, hg.edges, Piece.exists_followed_iff (hw.wired hf hu).apart]
  exact ⟨t, ht, rfl⟩

/-- From every node control can get to a node where it leaves the function for good. -/
theorem exists_way_out (hg : g.OfPiece d) (hw : plan.DrawnWhole d flat) (hf : plan.Fits 0)
    (hu : u < d.nodes.length) :
    ∃ v, Relation.ReflTransGen g.Proceeds u v ∧ ∃ c ∈ (d.row v).leaves, c.isFinal = true := by
  by_contra hnone
  let Trapped (u : Nat) : Prop := u < d.nodes.length ∧
    ¬ ∃ v, Relation.ReflTransGen g.Proceeds u v ∧ ∃ c ∈ (d.row v).leaves, c.isFinal = true
  -- a way out from the next node would be a way out from this one
  have hnext : ∀ u, Trapped u → ∀ t ∈ (d.row u).out, Trapped t.2 := by
    rintro u ⟨hu, hno⟩ t ht
    refine ⟨((hw.wired hf hu).out_scope t ht).2, ?_⟩
    rintro ⟨v, hv, hleaves⟩
    exact hno ⟨v, .head (hg.proceeds_of_mem_out hw hf ht) hv, hleaves⟩
  refine hw.not_lingers (D := Trapped) (fun u hu => ?_) u ⟨hu, hnone⟩
  have hout : (d.row u).out ≠ [] := fun hnil =>
    hu.2 ⟨u, .refl, (hw.wired hf hu.1).ends.1 hnil⟩
  obtain ⟨t, ht⟩ := List.exists_mem_of_ne_nil _ hout
  have hD := hnext u hu t ht
  exact ⟨t, .inl ht, hD, fun _ v hv => hnext t.2 hD _ hv⟩

/-- The exits of the graph are the records at nodes that control can reach, one per statement. -/
theorem exits_eq (hg : g.OfPiece d) (hw : plan.DrawnWhole d flat) :
    g.exits = Exit.firstPerStatement (d.exits.filter fun x => g.isLive x.node) := by
  rw [hg.exits]
  refine congrArg _ (List.filter_congr fun x hx => ?_)
  have hne : d.row x.node ≠ .nil := by
    intro hnil
    have hc : x.cause ∈ (d.row x.node).leaves := Piece.mem_leaves_row.2 hx
    rw [hnil] at hc
    cases hc
  rw [Bool.eq_iff_iff, hg.isLive_iff, List.contains_iff_mem, Edge.mem_inReach, Edge.Reaches,
    Edge.links_firstPerPair]
  exact ⟨fun hr => ⟨hw.lt_length_of_row_ne hne, hr⟩, And.right⟩

end OfPiece

/-- **Control is never trapped.**  The exits of a graph are, one per statement, the recorded ones at
nodes that control can reach.  From every such node a walk that no exception takes leads to another
one at which it is recorded that control leaves for good, by a `return`, by a `raise` or because the
body is over. -/
theorem way_out_of_live_node {options : Options} {body : List Stmt} {g : Graph}
    (h : ofBody options body = .ok g) :
    ∃ records, recordedExits options body = .ok records ∧
      g.exits = Exit.firstPerStatement (records.filter fun x => g.isLive x.node) ∧
      ∀ u, g.isLive u = true → ∃ x ∈ records, Relation.ReflTransGen g.Proceeds u x.node ∧
        g.isLive x.node = true ∧ x.cause.isFinal = true ∧
        ∃ y ∈ g.exits, y.cause.sameExit x.cause = true := by
  obtain ⟨plan, hp, hg, -⟩ := ofPiece_ofBody h
  have hw := Piece.drawnWhole_ofPlan options.flatDispatch plan
  have hf := Plan.fits_ofBody hp
  refine ⟨_, by rw [recordedExits, hp]; rfl, hg.exits_eq hw, fun u hu => ?_⟩
  obtain ⟨hlt, hreach⟩ := hg.isLive_iff.1 hu
  obtain ⟨v, huv, c, hc, hfinal⟩ := hg.exists_way_out hw hf hlt
  -- what a live node leads to is live
  have hreach : Edge.Reaches (Piece.ofPlan options.flatDispatch plan).1.edges 0 v :=
    hreach.trans (hg.links ▸ reaches_of_proceeds huv)
  exact ⟨⟨v, c⟩, Piece.mem_leaves_row.1 hc, huv,
    hg.isLive_iff.2 ⟨hw.lt_length_of_reaches hf hreach, hreach⟩, hfinal,
    hg.exists_mem_exits hreach hc⟩

/-- A loop around a `try` whose handler tries again for ever.  Whatever happens, the `finally`
clause goes round the outer loop. -/
def tryAgain : List Stmt :=
  let site (id : Nat) : Site := ⟨id, ⟨id, id + 1⟩⟩
  [.loop (site 0) (.condition ⟨0, 1⟩)
    [.attempt (site 1) [.jump (site 2) .returning]
      [⟨⟨3, 4⟩, none, [.loop (site 4) (.condition ⟨4, 5⟩) [.jump (site 5) .continuing] []]⟩] []
      [.jump (site 6) .continuing]]
    []]

/-- From the `continue` in the handler, at the node `8`, control still gets to the end of the
function. -/
theorem tryAgain_way_out : ∃ g records, ofBody {} tryAgain = .ok g ∧
    recordedExits {} tryAgain = .ok records ∧ g.isLive 8 = true ∧
    ∃ x ∈ records, Relation.ReflTransGen g.Proceeds 8 x.node ∧ g.isLive x.node = true ∧
      x.cause.isFinal = true := by
  obtain ⟨g, h, hlive⟩ : ∃ g, ofBody {} tryAgain = .ok g ∧ g.isLive 8 = true := ⟨_, rfl, rfl⟩
  obtain ⟨records, hr, -, hout⟩ := way_out_of_live_node h
  obtain ⟨x, hx, hwalk, hxl, hfinal, -⟩ := hout 8 hlive
  exact ⟨g, records, h, hr, hlive, x, hx, hwalk, hxl, hfinal⟩

end Graph

end Flowgraph
