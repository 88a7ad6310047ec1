import Mathlib.Data.List.Nodup
import Mathlib.Data.List.Perm.Subperm
import Flowgraph.Graph.Reach
import Flowgraph.Proofs.Walk

/-!
# Searching a graph

A search has visited some nodes and still has to look at others.  In one step it takes up one of the
latter, in whatever order it likes.  A node that was visited before is dropped.  Any other is
visited, and the targets of its edges have to be looked at next; those that are known already may be
left out.

Whatever the order, the nodes that a search knows can be reached, and the edges out of a visited
node lead to known ones.  Every step has fewer nodes to look at or fewer edges to use than the one
before.  So a search comes to an end, and then it has visited the nodes that walks lead to and no
others.  The search to the depth and the search to the breadth both go on in such steps, and so they
visit the same nodes.

## Main definitions

* `Search` : how far a search has come.
* `Search.Step` : one step of a search.
* `Search.Tracks` : what holds of a search all the time.
* `Search.left` : what a search has left to do.
* `Search.Method` : a way to choose the steps.

## Main results

* `Search.Tracks.mem_visited_iff` : a search that is over has visited what walks lead to.
* `Search.Step.left_lt` : every step leaves less to do.
* `Search.Method.mem_run_iff` : every way to choose the steps finds the nodes that walks lead to.
* `Edge.mem_reachable`, `Edge.mem_inReach` : so do the two searches of a graph.
-/

namespace Flowgraph

/-- How far a search has come. -/
structure Search where
  /-- The nodes that were visited. -/
  visited : List NodeId
  /-- The nodes that are still to be looked at. -/
  pending : List NodeId

namespace Edge

theorem mem_targets {edges : List Edge} {u v : NodeId} : v ∈ targets edges u ↔ Links edges u v := by
  simp [targets, Links, and_assoc]

/-- The edges that a search has not used yet. -/
def unused (edges : List Edge) (visited : List NodeId) : Nat :=
  edges.countP fun e => !visited.contains e.source

/-- Visiting a node uses the edges out of it. -/
theorem unused_cons (edges : List Edge) {visited : List NodeId} {u : NodeId} (h : u ∉ visited) :
    unused edges visited = (targets edges u).length + unused edges (u :: visited) := by
  induction edges with
  | nil => rfl
  | cons e edges ih =>
    simp only [unused, targets, List.length_map] at ih ⊢
    rw [List.countP_cons, List.countP_cons, List.filter_cons, ih]
    -- the edge counts on the left only, if it leaves `u`, or on both sides or on neither
    by_cases he : e.source = u
    · simp [he, h]
      omega
    · by_cases hv : e.source ∈ visited <;> simp [he, hv]
      omega

end Edge

namespace Search

open Edge (Links Reaches targets unused)

/-- The search has visited the node, or will look at it. -/
def Knows (s : Search) (v : NodeId) : Prop :=
  v ∈ s.visited ∨ v ∈ s.pending

/-- One step of a search.  Any of the pending nodes may be taken up, and the nodes that are to be
looked at afterwards may stand in any order. -/
inductive Step (edges : List Edge) : Search → Search → Prop
  /-- A node that was visited before is dropped. -/
  | drop {visited pending rest : List NodeId} {u : NodeId} (hp : pending.Perm (u :: rest))
    (hu : u ∈ visited) : Step edges ⟨visited, pending⟩ ⟨visited, rest⟩
  /-- Another node is visited.  Of what is to be looked at then, only nodes that are known anyway
  may be left out. -/
  | visit {visited pending rest next : List NodeId} {u : NodeId} (hp : pending.Perm (u :: rest))
    (hu : u ∉ visited) (hnext : next.Subperm (rest ++ targets edges u))
    (hall : ∀ v ∈ rest ++ targets edges u, v ∈ u :: visited ∨ v ∈ next) :
    Step edges ⟨visited, pending⟩ ⟨u :: visited, next⟩

/-- What holds of a search all the time, from its first node on. -/
structure Tracks (edges : List Edge) (start : NodeId) (s : Search) : Prop where
  /-- What is known can be reached. -/
  reached : ∀ v, s.Knows v → Reaches edges start v
  /-- The first node is known. -/
  begun : s.Knows start
  /-- An edge out of a visited node leads to a known one. -/
  closed : ∀ u ∈ s.visited, ∀ v, Links edges u v → s.Knows v

/-- What a search has left to do: it looks at every pending node, and once along every edge that it
has not used yet. -/
def left (edges : List Edge) (s : Search) : Nat :=
  s.pending.length + unused edges s.visited

variable {edges : List Edge} {start v : NodeId} {s s' : Search}

/-! ## One step -/

/-- A search does not forget a node. -/
theorem Step.knows (h : Step edges s s') (hv : s.Knows v) : s'.Knows v := by
  cases h with
  -- the node that is dropped was visited before
  | drop hp hu =>
    rcases hv with hv | hv
    · exact .inl hv
    · rcases List.mem_cons.1 (hp.mem_iff.1 hv) with rfl | hv
      · exact .inl hu
      · exact .inr hv
  | visit hp _ _ hall =>
    rcases hv with hv | hv
    · exact .inl (List.mem_cons_of_mem _ hv)
    · rcases List.mem_cons.1 (hp.mem_iff.1 hv) with rfl | hv
      · exact .inl List.mem_cons_self
      · exact hall v (List.mem_append_left _ hv)

/-- What a search comes to know in a step is what an edge out of a pending node leads to. -/
theorem Step.knows_or_links (h : Step edges s s') (hv : s'.Knows v) :
    s.Knows v ∨ ∃ u ∈ s.pending, Links edges u v := by
  cases h with
  | drop hp _ =>
    rcases hv with hv | hv
    · exact .inl (.inl hv)
    · exact .inl (.inr (hp.mem_iff.2 (List.mem_cons_of_mem _ hv)))
  | @visit _ _ _ _ u hp _ hnext _ =>
    have hu := hp.mem_iff.2 (List.mem_cons_self (a := u))
    rcases hv with hv | hv
    · rcases List.mem_cons.1 hv with rfl | hv
      · exact .inl (.inr hu)
      · exact .inl (.inl hv)
    -- what is pending now was pending before, or the node just visited leads to it
    · rcases List.mem_append.1 (hnext.subset hv) with hv | hv
      · exact .inl (.inr (hp.mem_iff.2 (List.mem_cons_of_mem _ hv)))
      · exact .inr ⟨u, hu, Edge.mem_targets.1 hv⟩

/-- The edges out of a node that is visited in a step lead to known nodes. -/
theorem Step.closed (h : Step edges s s') {u : NodeId} (hu : u ∈ s'.visited)
    (hnew : u ∉ s.visited) (hl : Links edges u v) : s'.Knows v := by
  cases h with
  | drop => exact absurd hu hnew
  | visit _ _ _ hall =>
    rcases List.mem_cons.1 hu with rfl | hu
    · exact hall v (List.mem_append_right _ (Edge.mem_targets.2 hl))
    · exact absurd hu hnew

/-- Every step leaves less to do: taking up a node uses the edges out of it. -/
theorem Step.left_lt (h : Step edges s s') : s'.left edges < s.left edges := by
  unfold left
  cases h with
  | drop hp _ =>
    have hlength := hp.length_eq
    simp only [List.length_cons] at hlength ⊢
    omega
  | visit hp hu hnext _ =>
    have hlength := hp.length_eq
    have hle := hnext.length_le
    have huse := Edge.unused_cons edges hu
    simp only [List.length_cons, List.length_append] at hlength hle ⊢
    omega

theorem Tracks.step (ht : Tracks edges start s) (h : Step edges s s') :
    Tracks edges start s' where
  reached v hv := by
    rcases h.knows_or_links hv with hv | ⟨u, hu, hl⟩
    · exact ht.reached v hv
    · exact (ht.reached u (.inr hu)).tail hl
  begun := h.knows ht.begun
  closed u hu v hl := by
    by_cases hold : u ∈ s.visited
    · exact h.knows (ht.closed u hold v hl)
    · exact h.closed hu hold hl

/-! ## A whole search -/

/-- At the beginning a search knows its first node. -/
theorem tracks_start (edges : List Edge) (start : NodeId) : Tracks edges start ⟨[], [start]⟩ where
  reached v hv := by
    rcases hv with hv | hv
    · cases hv
    · rw [List.mem_singleton.1 hv]
  begun := .inr List.mem_cons_self
  closed u hu := by cases hu

theorem left_start (edges : List Edge) (start : NodeId) :
    left edges ⟨[], [start]⟩ = edges.length + 1 := by
  simp [left, unused, Nat.add_comm]

theorem Tracks.steps (ht : Tracks edges start s) (h : Relation.ReflTransGen (Step edges) s s') :
    Tracks edges start s' := by
  induction h with
  | refl => exact ht
  | tail _ hstep ih => exact ih.step hstep

/-- A search that is over has visited the nodes that walks lead to. -/
theorem Tracks.mem_visited_iff (ht : Tracks edges start s) (hover : s.pending = []) :
    v ∈ s.visited ↔ Reaches edges start v := by
  have visited_of_knows : ∀ {w}, s.Knows w → w ∈ s.visited := by
    intro w hw
    rcases hw with hw | hw
    · exact hw
    · rw [hover] at hw
      cases hw
  constructor
  · intro hv
    exact ht.reached v (.inl hv)
  · intro hwalk
    -- every edge of the walk leads from a visited node to a known one, and nothing is pending
    induction hwalk with
    | refl => exact visited_of_knows ht.begun
    | tail _ hl ih => exact visited_of_knows (ht.closed _ ih _ hl)

/-- A way to choose the steps of a search.  As long as there is something to look at, and the search
is as the choice needs it, a step is taken. -/
structure Method (edges : List Edge) (inv : Search → Prop) (run : Nat → Search → List NodeId) :
    Prop where
  ends : ∀ steps s, s.pending = [] → run steps s = s.visited
  goesOn : ∀ steps s, inv s → s.pending ≠ [] →
    ∃ s', Step edges s s' ∧ inv s' ∧ run (steps + 1) s = run steps s'

namespace Method

variable {inv : Search → Prop} {run : Nat → Search → List NodeId}

/-- With enough steps the search comes to its end. -/
theorem exists_end (hm : Method edges inv run) {steps : Nat} (hs : inv s)
    (hsteps : s.left edges ≤ steps) :
    ∃ s', Relation.ReflTransGen (Step edges) s s' ∧ s'.pending = [] ∧
      run steps s = s'.visited := by
  induction steps generalizing s with
  | zero =>
    have hnil : s.pending = [] := by
      apply List.eq_nil_of_length_eq_zero
      unfold left at hsteps
      omega
    exact ⟨s, .refl, hnil, hm.ends 0 s hnil⟩
  | succ steps ih =>
    by_cases hnil : s.pending = []
    · exact ⟨s, .refl, hnil, hm.ends _ s hnil⟩
    -- each step leaves less to do, so the bound holds for the rest
    · obtain ⟨s₁, hstep, hs₁, hrun⟩ := hm.goesOn steps s hs hnil
      have hlt := hstep.left_lt
      obtain ⟨s', hsteps', hover, hvisited⟩ := ih hs₁ (by omega)
      exact ⟨s', .head hstep hsteps', hover, hrun.trans hvisited⟩

/-- Whatever the choice, the search finds the nodes that walks lead to. -/
theorem mem_run_iff (hm : Method edges inv run) (hs : inv ⟨[], [start]⟩) :
    v ∈ run (edges.length + 1) ⟨[], [start]⟩ ↔ Reaches edges start v := by
  obtain ⟨s', hsteps, hover, hvisited⟩ := hm.exists_end hs (Nat.le_of_eq (left_start edges start))
  rw [hvisited]
  exact ((tracks_start edges start).steps hsteps).mem_visited_iff hover

end Method

end Search

/-! ## The two searches of a graph -/

namespace Edge

open Search (Step Method)

/-- To the depth: the nodes that were found last are looked at first. -/
theorem method_search (edges : List Edge) :
    Method edges (fun _ => True) fun steps s => search edges steps s.visited s.pending where
  ends steps s hover := by
    simp only [hover]
    cases steps <;> rfl
  goesOn steps s _ hne := by
    obtain ⟨visited, pending⟩ := s
    obtain ⟨u, rest, rfl⟩ := List.exists_cons_of_ne_nil hne
    by_cases hu : u ∈ visited
    · refine ⟨⟨visited, rest⟩, .drop (.refl _) hu, trivial, ?_⟩
      simp [search, hu]
    -- targets go to the front; the order does not matter for a step
    · refine ⟨⟨u :: visited, targets edges u ++ rest⟩, ?_, trivial, by simp [search, hu]⟩
      refine .visit (.refl _) hu List.perm_append_comm.subperm fun v hv => .inr ?_
      exact List.perm_append_comm.mem_iff.1 hv

/-- The search to the depth finds the nodes that walks lead to. -/
theorem mem_reachable {edges : List Edge} {u v : NodeId} :
    v ∈ reachable edges u ↔ Reaches edges u v :=
  (method_search edges).mem_run_iff trivial

theorem enqueue_sublist (visited queue vs : List NodeId) :
    (enqueue visited queue vs).Sublist (queue ++ vs) := by
  induction vs generalizing queue with
  | nil => simp [enqueue]
  | cons v vs ih =>
    unfold enqueue
    split
    · exact (ih queue).trans ((List.sublist_cons_self v vs).append_left queue)
    · simpa using ih (queue ++ [v])

/-- Nodes that are put into a queue are there afterwards, or were visited. -/
theorem mem_enqueue (visited queue vs : List NodeId) :
    ∀ v ∈ queue ++ vs, v ∈ visited ∨ v ∈ enqueue visited queue vs := by
  induction vs generalizing queue with
  | nil =>
    intro v hv
    exact .inr (by simpa [enqueue] using hv)
  | cons w vs ih =>
    intro v hv
    unfold enqueue
    split
    next hw =>
      -- `w` is left out, since it was visited or is in the queue
      rcases List.mem_append.1 hv with hv | hv
      · exact ih queue v (List.mem_append_left _ hv)
      · rcases List.mem_cons.1 hv with rfl | hv
        · simp only [Bool.or_eq_true, List.contains_iff_mem] at hw
          rcases hw with hw | hw
          · exact .inl hw
          · exact ih queue v (List.mem_append_left _ hw)
        · exact ih queue v (List.mem_append_right _ hv)
    next => exact ih (queue ++ [w]) v (by simpa using hv)

/-- No node is put into a queue twice. -/
theorem nodup_enqueue {visited queue : List NodeId} (vs : List NodeId)
    (h : (visited ++ queue).Nodup) : (visited ++ enqueue visited queue vs).Nodup := by
  induction vs generalizing queue with
  | nil => exact h
  | cons v vs ih =>
    unfold enqueue
    split
    next => exact ih h
    next hv =>
      apply ih
      rw [← List.append_assoc]
      refine List.nodup_append.2 ⟨h, List.nodup_singleton v, fun w hw x hx => ?_⟩
      rintro rfl
      simp only [Bool.or_eq_true, List.contains_iff_mem, not_or] at hv
      rw [List.mem_singleton.1 hx, List.mem_append] at hw
      exact hw.elim hv.1 hv.2

/-- To the breadth: the nodes are looked at in the order in which they were found, and no node is
found twice. -/
theorem method_sweep (edges : List Edge) :
    Method edges (fun s => (s.visited ++ s.pending).Nodup) fun steps s =>
      sweep edges steps s.visited s.pending where
  ends steps s hover := by
    simp only [hover]
    cases steps <;> rfl
  goesOn steps s hs hne := by
    obtain ⟨visited, pending⟩ := s
    obtain ⟨u, queue, rfl⟩ := List.exists_cons_of_ne_nil hne
    have hs : (u :: visited ++ queue).Nodup := List.perm_middle.nodup_iff.1 hs
    -- no node is known twice, so the first one in the queue has not been visited
    have hu : u ∉ visited := by
      intro hu
      exact (List.nodup_cons.1 hs).1 (List.mem_append_left _ hu)
    refine ⟨⟨u :: visited, enqueue (u :: visited) queue (targets edges u)⟩, ?_,
      nodup_enqueue _ hs, rfl⟩
    exact .visit (.refl _) hu (enqueue_sublist _ _ _).subperm (mem_enqueue _ _ _)

/-- The search to the breadth finds the nodes that walks lead to. -/
theorem mem_inReach {edges : List Edge} {u v : NodeId} :
    v ∈ inReach edges u ↔ Reaches edges u v :=
  (method_sweep edges).mem_run_iff (List.nodup_singleton u)

end Edge

end Flowgraph
