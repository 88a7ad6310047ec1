import Mathlib.Data.List.Induction
import Mathlib.Logic.Relation
import Flowgraph.Graph.Edge

/-!
# Reachability over edges

Dropping all but the first of several related entries keeps every entry up to the relation, so the
edges of a graph connect the nodes that were requested to be connected.

## Main definitions

* `keepFirst` : of several related entries, the first.
* `Edge.Links`, `Edge.Reaches` : an edge, or a walk, leads from one node to another.

## Main results

* `Edge.links_firstPerPair` : keeping one edge per pair of nodes changes no connection.
-/

namespace Flowgraph

/-! ## Of several related entries, the first -/

section KeepFirst

variable {α : Type} (r : α → α → Bool)

/-- The entries to which no earlier one is related. -/
def keepFirst (l : List α) : List α :=
  l.foldl (fun kept a => if kept.any (r · a) then kept else kept ++ [a]) []

theorem keepFirst_concat (l : List α) (a : α) :
    keepFirst r (l ++ [a]) =
      if (keepFirst r l).any (r · a) then keepFirst r l else keepFirst r l ++ [a] := by
  simp [keepFirst]

theorem keepFirst_sublist (l : List α) : (keepFirst r l).Sublist l := by
  induction l using List.reverseRecOn with
  | nil => exact .slnil
  | append_singleton l a ih =>
    rw [keepFirst_concat]
    split
    · exact ih.trans (List.sublist_append_left l [a])
    · exact ih.append_right [a]

theorem exists_mem_keepFirst (hr : ∀ a, r a a) {l : List α} {a : α} (h : a ∈ l) :
    ∃ b ∈ keepFirst r l, r b a := by
  induction l using List.reverseRecOn with
  | nil => simp at h
  | append_singleton l c ih =>
    rw [keepFirst_concat]
    rcases List.mem_append.1 h with h | h
    · obtain ⟨b, hb, hr⟩ := ih h
      refine ⟨b, ?_, hr⟩
      split
      · exact hb
      · exact List.mem_append_left _ hb
    · -- the last entry is kept, unless an entry that was kept before stands for it
      obtain rfl := List.mem_singleton.1 h
      split
      next hc => simpa using hc
      next hc => exact ⟨a, by simp, hr a⟩

theorem keepFirst_eq_nil_iff (hr : ∀ a, r a a) {l : List α} : keepFirst r l = [] ↔ l = [] := by
  constructor
  · intro h
    refine List.eq_nil_iff_forall_not_mem.2 fun a ha => ?_
    obtain ⟨b, hb, -⟩ := exists_mem_keepFirst r hr ha
    rw [h] at hb
    cases hb
  · rintro rfl
    rfl

theorem pairwise_keepFirst (l : List α) : (keepFirst r l).Pairwise fun a b => r a b = false := by
  induction l using List.reverseRecOn with
  | nil => exact .nil
  | append_singleton l a ih =>
    rw [keepFirst_concat]
    split
    · exact ih
    · next hc =>
      refine List.pairwise_append.2 ⟨ih, List.pairwise_singleton _ a, fun b hb c hc' => ?_⟩
      obtain rfl := List.mem_singleton.1 hc'
      simpa using fun h => hc (List.any_eq_true.2 ⟨b, hb, h⟩)

/-- Nothing is dropped if no entry is related to a later one. -/
theorem keepFirst_eq_self {l : List α} (h : l.Pairwise fun a b => r a b = false) :
    keepFirst r l = l := by
  induction l using List.reverseRecOn with
  | nil => rfl
  | append_singleton l a ih =>
    obtain ⟨hl, -, ha⟩ := List.pairwise_append.1 h
    rw [keepFirst_concat, ih hl, if_neg]
    simpa using fun b hb => ha b hb a (by simp)

/-- Entries are dropped before a map as after it, if the map keeps the relation. -/
theorem keepFirst_map {β : Type} (r' : β → β → Bool) (g : α → β) {l : List α}
    (h : ∀ a ∈ l, ∀ b ∈ l, r' (g a) (g b) = r a b) :
    keepFirst r' (l.map g) = (keepFirst r l).map g := by
  induction l using List.reverseRecOn with
  | nil => rfl
  | append_singleton l b ih =>
    have ih := ih fun a ha b hb => h a (List.mem_append_left _ ha) b (List.mem_append_left _ hb)
    -- an entry is dropped on both sides or on neither
    have hany : ((keepFirst r l).map g).any (r' · (g b)) = (keepFirst r l).any (r · b) := by
      have hr : ∀ a ∈ keepFirst r l, r' (g a) (g b) = r a b := fun a ha =>
        h a (List.mem_append_left _ ((keepFirst_sublist r l).subset ha)) b (by simp)
      rw [Bool.eq_iff_iff, List.any_map, List.any_eq_true, List.any_eq_true]
      exact exists_congr fun a => and_congr_right fun ha => by rw [Function.comp, hr a ha]
    rw [List.map_append, List.map_cons, List.map_nil, keepFirst_concat, keepFirst_concat, ih, hany,
      apply_ite (List.map g), List.map_append, List.map_cons, List.map_nil]

/-- Entries are dropped before a filter as after it, if the filter keeps related entries
together. -/
theorem keepFirst_filter (P : α → Bool) {l : List α}
    (h : ∀ a ∈ l, ∀ b ∈ l, r a b = true → P a = P b) :
    (keepFirst r l).filter P = keepFirst r (l.filter P) := by
  induction l using List.reverseRecOn with
  | nil => rfl
  | append_singleton l b ih =>
    have ih := ih fun a ha b hb => h a (List.mem_append_left _ ha) b (List.mem_append_left _ hb)
    rw [keepFirst_concat, List.filter_append]
    cases hb : P b with
    | false =>
      -- the last entry is filtered out, whether it was kept or not
      rw [List.filter_cons_of_neg (by simp [hb]), List.filter_nil, List.append_nil, ← ih]
      split
      · rfl
      · rw [List.filter_append, List.filter_cons_of_neg (by simp [hb]), List.filter_nil,
          List.append_nil]
    | true =>
      have hany : ((keepFirst r l).filter P).any (r · b) = (keepFirst r l).any (r · b) := by
        rw [Bool.eq_iff_iff, List.any_eq_true, List.any_eq_true]
        constructor
        · rintro ⟨a, ha, hr⟩
          exact ⟨a, (List.mem_filter.1 ha).1, hr⟩
        · rintro ⟨a, ha, hr⟩
          have hal := List.mem_append_left [b] ((keepFirst_sublist r l).subset ha)
          exact ⟨a, List.mem_filter.2 ⟨ha, (h a hal b (by simp) hr).trans hb⟩, hr⟩
      rw [List.filter_cons_of_pos hb, List.filter_nil, keepFirst_concat, ← ih, hany]
      split
      · rfl
      · rw [List.filter_append, List.filter_cons_of_pos hb, List.filter_nil]

end KeepFirst

namespace Edge

theorem firstPerPair_eq (edges : List Edge) : firstPerPair edges = keepFirst parallel edges := rfl

/-- An edge leads from one node to the other. -/
def Links (edges : List Edge) (u v : NodeId) : Prop :=
  ∃ e ∈ edges, e.source = u ∧ e.target = v

/-- A walk leads from one node to the other. -/
abbrev Reaches (edges : List Edge) : NodeId → NodeId → Prop :=
  Relation.ReflTransGen (Links edges)

@[simp] theorem parallel_iff {e f : Edge} :
    e.parallel f = true ↔ e.source = f.source ∧ e.target = f.target := by
  simp [parallel]

/-- Keeping one edge per pair of nodes changes no connection. -/
theorem links_firstPerPair (edges : List Edge) : Links (firstPerPair edges) = Links edges := by
  funext u v
  rw [firstPerPair_eq]
  refine propext ⟨fun ⟨e, he, hs, ht⟩ => ⟨e, (keepFirst_sublist _ _).subset he, hs, ht⟩, ?_⟩
  rintro ⟨e, he, rfl, rfl⟩
  obtain ⟨f, hf, hp⟩ := exists_mem_keepFirst parallel (by simp) he
  exact ⟨f, hf, parallel_iff.1 hp⟩

end Edge

end Flowgraph
