import Flowgraph.Proofs.Merging

/-!
# What can be reached

A graph is searched twice, and each time in another order: to the breadth when it is built, so that
the nodes that control cannot reach are marked as dead, and to the depth when it is asked whether
one node leads to another.  Both searches find the ends of the trails of edges from the node where
they begin.  So the marks and the answers agree, and no edge leads from a live node to a dead one.

## Main definitions

* `Edge.Trail` : edges lead, one after the other, from one node to another.

## Main results

* `Edge.reaches_iff_exists_trail` : walks are trails of edges.
* `Graph.exists_reaches?` : what the answer to a question about two nodes means.
* `Graph.searches_agree` : answers, marks and edges agree.
-/

namespace Flowgraph

namespace Edge

variable {edges path : List Edge} {u v : NodeId}

/-- The edges lead, one after the other, from one node to another; no edges lead from a node to
itself. -/
def Trail (u : NodeId) (path : List Edge) (v : NodeId) : Prop :=
  match path with
  | [] => u = v
  | e :: path => e.source = u ∧ Trail e.target path v

theorem Trail.reaches (hpath : path ⊆ edges) (h : Trail u path v) : Reaches edges u v := by
  induction path generalizing u with
  | nil =>
    rw [show u = v from h]
  | cons e path ih =>
    obtain ⟨hmem, hpath⟩ := List.cons_subset.1 hpath
    exact .head ⟨e, hmem, h.1, rfl⟩ (ih hpath h.2)

/-- One node leads to another if and only if some finite sequence of edges does. -/
theorem reaches_iff_exists_trail :
    Reaches edges u v ↔ ∃ path, path ⊆ edges ∧ Trail u path v := by
  constructor
  · intro hwalk
    -- from the end of the walk backwards, since a trail grows at its beginning
    induction hwalk using Relation.ReflTransGen.head_induction_on with
    | refl => exact ⟨[], List.nil_subset _, rfl⟩
    | head hlink _ ih =>
      obtain ⟨e, hmem, hsource, rfl⟩ := hlink
      obtain ⟨path, hpath, htrail⟩ := ih
      exact ⟨e :: path, List.cons_subset.2 ⟨hmem, hpath⟩, hsource, htrail⟩
  · rintro ⟨path, hpath, htrail⟩
    exact htrail.reaches hpath

end Edge

namespace Graph

variable {g : Graph} {u v : NodeId}

/-- A question about two nodes is answered if the first of them is a node of the graph, and the
answer says whether it leads to the other. -/
theorem exists_reaches? (hu : u < g.nodes.length) (v : NodeId) :
    ∃ answer, g.reaches? u v = some answer ∧ (answer = true ↔ Edge.Reaches g.edges u v) := by
  refine ⟨(Edge.reachable g.edges u).contains v, ?_, ?_⟩
  · unfold reaches?
    rw [if_pos hu]
  · rw [List.contains_iff_mem, Edge.mem_reachable]

theorem isLive_iff_exists : g.isLive u = true ↔ ∃ n, g.nodes[u]? = some n ∧ n.dead = false := by
  unfold isLive
  cases g.nodes[u]? with
  | none => simp
  | some n => simp

namespace Rooted

theorem lt_length_entry (hr : g.Rooted) : g.entry < g.nodes.length := by
  apply lt_length_of_isLive
  rw [hr.isLive_iff]

/-- What is marked when the graph is built is what is answered afterwards. -/
theorem reaches?_entry (hr : g.Rooted) (u : NodeId) :
    g.reaches? g.entry u = some (g.isLive u) := by
  obtain ⟨answer, hanswer, hiff⟩ := exists_reaches? hr.lt_length_entry u
  rw [hanswer, Option.some.injEq, Bool.eq_iff_iff, hiff, hr.isLive_iff]

end Rooted

/-- **Both searches follow the edges.**  Whether one node of a graph leads to another is answered,
and the answer is positive if and only if there is a finite sequence of edges from the one to the
other, which may be empty.  A node is dead if and only if the answer is negative for the entry and
that node, so the live nodes are those with a positive one.  An edge out of a live node leads to a
live node. -/
theorem searches_agree {options : Options} {body : List Stmt} {g : Graph}
    (h : ofBody options body = .ok g) :
    (∀ u < g.nodes.length, ∀ v, ∃ answer, g.reaches? u v = some answer ∧
      (answer = true ↔ ∃ path, path ⊆ g.edges ∧ Edge.Trail u path v)) ∧
    (∀ u n, g.nodes[u]? = some n → (n.dead = true ↔ g.reaches? g.entry u = some false)) ∧
    g.liveNodes =
      (List.range g.nodes.length).filter (fun u => g.reaches? g.entry u == some true) ∧
    ∀ e ∈ g.edges, ∀ m, g.nodes[e.source]? = some m → m.dead = false →
      ∃ n, g.nodes[e.target]? = some n ∧ n.dead = false := by
  have hr := rooted_ofBody h
  refine ⟨?_, ?_, ?_, ?_⟩
  · intro u hu v
    obtain ⟨answer, hanswer, hiff⟩ := exists_reaches? hu v
    exact ⟨answer, hanswer, hiff.trans Edge.reaches_iff_exists_trail⟩
  · intro u n hn
    have hlive : g.isLive u = !n.dead := by
      unfold isLive
      rw [hn]
      rfl
    rw [hr.reaches?_entry, hlive]
    cases n.dead <;> simp
  · unfold liveNodes
    apply List.filter_congr
    intro u _
    rw [hr.reaches?_entry]
    cases g.isLive u <;> rfl
  · intro e he m hm hdead
    have hlive : g.isLive e.source = true := isLive_iff_exists.2 ⟨m, hm, hdead⟩
    exact isLive_iff_exists.1 (hr.isLive_of_links hlive ⟨e, he, rfl, rfl⟩)

end Graph

/-- A loop whose body goes round at once; a second loop stands behind, where control never comes. -/
def loopBehindContinue : List Stmt :=
  let site (id : Nat) : Site := ⟨id, ⟨id, id + 1⟩⟩
  [.loop (site 0) (.condition ⟨0, 1⟩)
    [.jump (site 1) .continuing, .loop (site 2) (.condition ⟨2, 3⟩) [.pass (site 3)] []] [],
   .simple (site 4)]

/-- From the dead loop one comes to what follows the other one, but not back again. -/
theorem searches_agree_loopBehindContinue :
    ∃ g, Graph.ofBody {} loopBehindContinue = .ok g ∧ g.liveNodes = [0, 1, 2, 3, 7, 8] ∧
      g.reaches? g.entry 6 = some false ∧
      (g.reaches? 6 7 = some true ∧ ∃ path, path ⊆ g.edges ∧ Edge.Trail 6 path 7) ∧
      g.reaches? 7 6 = some false ∧ ¬ ∃ path, path ⊆ g.edges ∧ Edge.Trail 7 path 6 := by
  have h : ∃ g n, Graph.ofBody {} loopBehindContinue = .ok g ∧
      (g.liveNodes = [0, 1, 2, 3, 7, 8] ∧ g.nodes.length = 9) ∧
      (g.nodes[6]? = some n ∧ n.dead = true) ∧
      g.reaches? 6 7 = some true ∧ g.reaches? 7 6 = some false :=
    ⟨_, _, rfl, by decide, ⟨rfl, rfl⟩, by decide, by decide⟩
  obtain ⟨g, n, hg, ⟨hlive, hlength⟩, ⟨hn, hdead⟩, hthere, hback⟩ := h
  obtain ⟨hanswers, hmarks, -, -⟩ := Graph.searches_agree hg
  have answer_iff : ∀ u v answer, u < 9 → g.reaches? u v = some answer →
      (answer = true ↔ ∃ path, path ⊆ g.edges ∧ Edge.Trail u path v) := by
    intro u v answer hu hanswer
    obtain ⟨answer', hanswer', hiff⟩ := hanswers u (hlength ▸ hu) v
    cases hanswer.symm.trans hanswer'
    exact hiff
  refine ⟨g, hg, hlive, (hmarks 6 n hn).1 hdead, ⟨hthere, ?_⟩, hback, ?_⟩
  · exact (answer_iff 6 7 true (by decide) hthere).1 rfl
  · intro htrail
    cases (answer_iff 7 6 false (by decide) hback).2 htrail

end Flowgraph
