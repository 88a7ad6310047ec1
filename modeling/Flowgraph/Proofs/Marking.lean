import Flowgraph.Proofs.Blocks
import Flowgraph.Proofs.Contents

/-!
# Asking about markers

Whether one marker can be reached from another is answered at one node for each of the two: the
first one that control can reach.  The answer always exists where both markers are set at such
nodes, and a positive answer is right.

A marker in a `finally` clause is also set at the copies of the clause, each of which goes on
somewhere else, and a name may be used by several markers.  Then a negative answer speaks of the
first node only.  Where a marker is set at one node that control can reach, the answer is right in
both directions.  This is so where a name is used once and no copy carries it, but also where
control reaches one copy of a clause, and neither another copy nor the clause itself.

## Main definitions

* `Graph.MarkReaches` : some node at which a marker is set leads to one at which another is.
* `Graph.MarkedOnce` : a marker is set at one node that control can reach.
* `Graph.SetOnce` : a name is used once, and no copy carries it.

## Main results

* `Graph.SetOnce.markedOnce` : such a marker is set at one node that control can reach.
* `Graph.mark_query_answers` : what the answer means.
* `mark_query_misses_secondCopy` : the answer may depend on which copy is made first.
-/

namespace Flowgraph

namespace Graph

/-- The marker is set at the node, and control can reach the node. -/
def Marks (g : Graph) (name : String) (u : NodeId) : Prop :=
  g.isLive u = true ∧ ∃ n, g.nodes[u]? = some n ∧ name ∈ n.markers

/-- A node at which one marker is set leads to a node at which another is; control can reach
both. -/
def MarkReaches (g : Graph) (a b : String) : Prop :=
  ∃ u v, g.Marks a u ∧ g.Marks b v ∧ Edge.Reaches g.edges u v

/-- The marker is set at no more than one node that control can reach. -/
def MarkedOnce (g : Graph) (name : String) : Prop :=
  ∀ u v, g.Marks name u → g.Marks name v → u = v

/-- One marker of the body has the name, and it stands in no `finally` clause, or else none of the
copies that control can reach carries it. -/
structure SetOnce (body : List Stmt) (g : Graph) (name : String) : Prop where
  count : ((bodyStatements body).filterMap Stmt.marker?).count name = 1
  apart : name ∉ (bodyFinalStatements body).filterMap Stmt.marker? ∨
    ∀ u n, g.Marks name u → g.nodes[u]? = some n → n.duplicate = false

section Query

variable {g : Graph} {a b name : String}

theorem marks_of_markers {u : NodeId} {names : List String} (hl : g.isLive u = true)
    (hm : (g.nodes[u]?).map (·.markers) = some names) (hn : name ∈ names) : g.Marks name u := by
  obtain ⟨n, hu, rfl⟩ := Option.map_eq_some_iff.1 hm
  exact ⟨hl, n, hu, hn⟩

theorem markedOnce_of_live {w : NodeId}
    (h : ∀ u ∈ g.liveNodes, (g.nodes[u]?).any (·.markers.contains name) = true → u = w) :
    g.MarkedOnce name := by
  have hw : ∀ u, g.Marks name u → u = w := by
    rintro u ⟨hl, n, hn, hm⟩
    exact h u (mem_liveNodes.2 hl) (by simpa [hn] using hm)
  intro u v hu hv
  rw [hw u hu, hw v hv]

/-- The node at which a query looks for a marker is one at which it is set. -/
theorem marks_of_markedNode? {u : NodeId} (h : g.markedNode? name = some u) : g.Marks name u := by
  refine ⟨mem_liveNodes.1 (List.mem_of_find?_eq_some h), ?_⟩
  have hm := List.find?_some h
  cases hn : g.nodes[u]? with
  | none => simp [hn] at hm
  | some n => exact ⟨n, rfl, by simpa [hn] using hm⟩

/-- A query finds a node for every marker that is set. -/
theorem exists_markedNode? {u : NodeId} (h : g.Marks name u) :
    ∃ v, g.markedNode? name = some v := by
  obtain ⟨hl, n, hn, hm⟩ := h
  refine Option.isSome_iff_exists.1 (List.find?_isSome.2 ⟨u, mem_liveNodes.2 hl, ?_⟩)
  simpa [hn] using hm

/-- Where both markers are set, the query answers, and it speaks of the two nodes it has found. -/
theorem exists_markReaches? {u v : NodeId} (hu : g.Marks a u) (hv : g.Marks b v) :
    ∃ u v answer, g.Marks a u ∧ g.Marks b v ∧ g.markReaches? a b = some answer ∧
      (answer = true ↔ Edge.Reaches g.edges u v) := by
  obtain ⟨u, hu⟩ := exists_markedNode? hu
  obtain ⟨v, hv⟩ := exists_markedNode? hv
  have hu' := marks_of_markedNode? hu
  obtain ⟨-, n, hn, -⟩ := hu'
  refine ⟨u, v, (Edge.reachable g.edges u).contains v, marks_of_markedNode? hu,
    marks_of_markedNode? hv, ?_, ?_⟩
  · have hlt := (List.getElem?_eq_some_iff.1 hn).1
    simp [markReaches?, hu, hv, reaches?, hlt]
  · rw [List.contains_iff_mem, Edge.mem_reachable]

end Query

section Once

variable {options : Options} {body : List Stmt} {g : Graph} {name : String}

/-- The names of markers at the nodes that belong to no copy are the names of the markers of the
body. -/
theorem count_inLine_le (h : ofBody options body = .ok g) :
    ((Node.inLine g.nodes).filterMap Stmt.marker?).count name ≤
      ((bodyStatements body).filterMap Stmt.marker?).count name := by
  rw [inLine_ofBody h]
  exact (List.filter_sublist.filterMap Stmt.marker?).count_le name

theorem duplicate_of_setOnce (h : ofBody options body = .ok g) (hs : SetOnce body g name)
    {u : NodeId} {n : Node} (hm : g.Marks name u) (hn : g.nodes[u]? = some n) :
    n.duplicate = false := by
  rcases hs.apart with hf | hc
  · -- a copy holds jumps and statements of `finally` clauses
    rw [← Bool.not_eq_true]
    intro hd
    obtain ⟨-, n', hn', hm⟩ := hm
    rw [hn, Option.some.injEq] at hn'
    subst hn'
    obtain ⟨s, hs, hname⟩ := List.mem_filterMap.1 hm
    rcases copies_ofBody h (List.mem_of_getElem? hn) hd hs with ⟨site, means, rfl⟩ | hfinal
    · cases hname
    · exact hf (List.mem_filterMap.2 ⟨s, hfinal, hname⟩)
  · exact hc u n hm hn

end Once

end Graph

/-- Two nodes that belong to no copy and at which one marker is set make two statements in line. -/
theorem Node.two_le_count_inLine {nodes : List Node} {name : String} {u v : Nat} {m n : Node}
    (hlt : u < v) (hu : nodes[u]? = some m) (hv : nodes[v]? = some n) (hm : m.duplicate = false)
    (hn : n.duplicate = false) (hmu : name ∈ m.markers) (hnv : name ∈ n.markers) :
    2 ≤ ((inLine nodes).filterMap Stmt.marker?).count name := by
  -- the first node is among those before the second
  have hsplit : nodes = nodes.take v ++ n :: nodes.drop (v + 1) := by
    obtain ⟨hlt', rfl⟩ := List.getElem?_eq_some_iff.1 hv
    simp
  have hmem : m ∈ nodes.take v := by
    refine List.mem_of_getElem? (i := u) ?_
    rw [List.getElem?_take_of_lt hlt, hu]
  have hfirst : 1 ≤ ((inLine (nodes.take v)).filterMap Stmt.marker?).count name := by
    obtain ⟨s, hs, hname⟩ := List.mem_filterMap.1 hmu
    refine List.count_pos_iff.2 (List.mem_filterMap.2 ⟨s, List.mem_flatMap.2 ⟨m, hmem, ?_⟩, hname⟩)
    simpa [hm] using hs
  have hsecond : 1 ≤ (n.stmts.filterMap Stmt.marker?).count name := List.count_pos_iff.2 hnv
  rw [hsplit, inLine_append, inLine_cons, hn, cond_false, List.filterMap_append,
    List.filterMap_append, List.count_append, List.count_append]
  omega

namespace Graph

variable {options : Options} {body : List Stmt} {g : Graph} {name : String}

/-- A marker whose name is used once, and which no copy carries, is set at one node that control can
reach. -/
theorem SetOnce.markedOnce (hs : SetOnce body g name) (h : ofBody options body = .ok g) :
    g.MarkedOnce name := by
  have key : ∀ u v, g.Marks name u → g.Marks name v → ¬ u < v := by
    intro u v hu hv hlt
    obtain ⟨m, hm, hmu⟩ := hu.2
    obtain ⟨n, hn, hnv⟩ := hv.2
    have htwo := Node.two_le_count_inLine hlt hm hn (duplicate_of_setOnce h hs hu hm)
      (duplicate_of_setOnce h hs hv hn) hmu hnv
    have hle : ((Node.inLine g.nodes).filterMap Stmt.marker?).count name ≤ 1 :=
      hs.count ▸ count_inLine_le h
    omega
  intro u v hu hv
  exact Nat.le_antisymm (Nat.le_of_not_lt (key v u hv hu)) (Nat.le_of_not_lt (key u v hu hv))

/-- Where two markers are set at nodes that control can reach, the query whether one can be reached
from the other has an answer.  If it is positive, some such node for the one leads to some such node
for the other.  The converse holds for markers that are set at one such node, as a marker is whose
name is used once and which no copy carries. -/
theorem mark_query_answers {options : Options} {body : List Stmt} {g : Graph}
    (h : ofBody options body = .ok g) {a b : String} (ha : ∃ u, g.Marks a u)
    (hb : ∃ v, g.Marks b v) :
    ∃ answer, g.markReaches? a b = some answer ∧ (answer = true → g.MarkReaches a b) ∧
      (g.MarkedOnce a → g.MarkedOnce b → (answer = true ↔ g.MarkReaches a b)) ∧
      ∀ name, SetOnce body g name → g.MarkedOnce name := by
  obtain ⟨u, hu⟩ := ha
  obtain ⟨v, hv⟩ := hb
  obtain ⟨u, v, answer, hu, hv, hq, hiff⟩ := exists_markReaches? hu hv
  have hsound : answer = true → g.MarkReaches a b := fun ht => ⟨u, v, hu, hv, hiff.1 ht⟩
  refine ⟨answer, hq, hsound, fun hsa hsb => ⟨hsound, ?_⟩, fun name hs => hs.markedOnce h⟩
  rintro ⟨u', v', hu', hv', hr⟩
  rw [hiff, hsa u u' hu hu', hsb v v' hv hv']
  exact hr

end Graph

/-- A loop that a `break` leaves through a marker in a `finally` clause, and a marker after it.  The
clause itself cannot be reached. -/
def breakThroughFinal : List Stmt :=
  let site (id : Nat) : Site := ⟨id, ⟨id, id + 1⟩⟩
  [.loop (site 0) (.condition ⟨0, 1⟩)
    [.attempt (site 1) [.marker (site 2) "body", .jump (site 3) .breaking] [] []
      [.marker (site 4) "cleanup", .simple (site 5)]] [],
   .simple (site 6), .marker (site 7) "after"]

theorem mark_query_answers_breakThroughFinal :
    ∃ g u v, Graph.ofBody {} breakThroughFinal = .ok g ∧ g.Marks "cleanup" u ∧
      (g.nodes[u]?).map (·.duplicate) = some true ∧ g.Marks "after" v ∧ g.MarkedOnce "cleanup" ∧
      g.MarkedOnce "after" ∧ ∃ answer, g.markReaches? "cleanup" "after" = some answer ∧
        (answer = true ↔ g.MarkReaches "cleanup" "after") := by
  have h : ∃ g, Graph.ofBody {} breakThroughFinal = .ok g ∧
      (g.isLive 5 = true ∧ (g.nodes[5]?).map (·.markers) = some ["cleanup"] ∧
        (g.nodes[5]?).map (·.duplicate) = some true) ∧
      (g.isLive 8 = true ∧ (g.nodes[8]?).map (·.markers) = some ["after"]) ∧
      (∀ u ∈ g.liveNodes, (g.nodes[u]?).any (·.markers.contains "cleanup") = true → u = 5) ∧
      ∀ u ∈ g.liveNodes, (g.nodes[u]?).any (·.markers.contains "after") = true → u = 8 :=
    ⟨_, rfl, by decide, by decide, by decide, by decide⟩
  obtain ⟨g, hg, ⟨hl, hm, hcopy⟩, ⟨hl', hm'⟩, honce, honce'⟩ := h
  have hcleanup : g.Marks "cleanup" 5 := Graph.marks_of_markers hl hm (by simp)
  have hafter : g.Marks "after" 8 := Graph.marks_of_markers hl' hm' (by simp)
  have honce := Graph.markedOnce_of_live honce
  have honce' := Graph.markedOnce_of_live honce'
  obtain ⟨answer, hq, -, hiff, -⟩ := Graph.mark_query_answers hg ⟨5, hcleanup⟩ ⟨8, hafter⟩
  exact ⟨g, 5, 8, hg, hcleanup, hcopy, hafter, honce, honce', answer, hq, hiff honce honce'⟩

/-- A `return` under a `finally` clause with a marker, and a marker after the statement. -/
def markerInFinal : List Stmt :=
  let site (id : Nat) : Site := ⟨id, ⟨id, id + 1⟩⟩
  [.attempt (site 0) [.branch (site 1) ⟨1, 2⟩ [.jump (site 2) .returning] []] [] []
    [.marker (site 3) "cleanup"], .marker (site 4) "after"]

/-- The copy of the clause that the `return` makes comes first, and it leads nowhere else; the
clause itself leads to what follows. -/
theorem mark_query_misses_secondCopy :
    ∃ g, Graph.ofBody {} markerInFinal = .ok g ∧ g.markReaches? "cleanup" "after" = some false ∧
      g.MarkReaches "cleanup" "after" := by
  have h : ∃ g, Graph.ofBody {} markerInFinal = .ok g ∧
      g.markReaches? "cleanup" "after" = some false ∧
      (g.isLive 7 = true ∧ (g.nodes[7]?).map (·.markers) = some ["cleanup"]) ∧
      (g.isLive 8 = true ∧ (g.nodes[8]?).map (·.markers) = some ["after"]) ∧
      8 ∈ Edge.reachable g.edges 7 :=
    ⟨_, rfl, by decide, by decide, by decide, by decide⟩
  obtain ⟨g, hg, hq, ⟨hl, hm⟩, ⟨hl', hm'⟩, hr⟩ := h
  exact ⟨g, hg, hq, 7, 8, Graph.marks_of_markers hl hm (by simp),
    Graph.marks_of_markers hl' hm' (by simp), Edge.mem_reachable.1 hr⟩

end Flowgraph
