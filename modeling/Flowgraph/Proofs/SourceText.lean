import Flowgraph.Proofs.Syntax

/-!
# Spans of a source text

A span lies in a text if its ends are in order, not past the end of the text, and between two
characters.  Where one can cut a text is said by a list of offsets, and a span that lies in the text
has a slice.

A syntax tree over a text has nodes whose spans lie in the text, and children that lie inside their
parents.  That is all it takes for every span read off the tree to lie in the text too, also for
those of statements that are given up half-way.

## Main definitions

* `Text.cuts` : the offsets between the characters of a text.
* `Span.InText` : the span lies in the text.
* `SyntaxTree.Over` : the tree is one over the text.
* `SyntaxTree.spansRead` : the spans that are read off a node.

## Main results

* `Span.InText.exists_slice?` : a span in the text has a slice.
* `SyntaxTree.Over.inText_spansRead` : the spans that are read off a tree lie in the text.
-/

namespace Flowgraph

namespace Text

/-- The byte offsets between two characters of a text, its beginning and its end included. -/
def cuts : List Char → List Nat
  | [] => [0]
  | c :: cs => 0 :: (cuts cs).map (c.utf8Size + ·)

/-- To cut behind the first character is to cut the rest. -/
theorem splitAtByte?_cons (c : Char) (n : Nat) (cs : List Char) :
    splitAtByte? (c.utf8Size + n) (c :: cs) =
      (splitAtByte? n cs).map fun (before, after) => (c :: before, after) := by
  obtain ⟨k, hk⟩ := Nat.exists_eq_succ_of_ne_zero (Nat.ne_of_gt c.utf8Size_pos)
  have hadd : c.utf8Size + n = k + n + 1 := by
    rw [hk]
    exact Nat.succ_add k n
  rw [hadd, splitAtByte?, if_pos (hadd ▸ Nat.le_add_right _ _), ← hadd, Nat.add_sub_cancel_left]

theorem exists_splitAtByte? {n : Nat} {cs : List Char} (h : n ∈ cuts cs) :
    ∃ before after, splitAtByte? n cs = some (before, after) := by
  induction cs generalizing n with
  | nil =>
    rw [cuts, List.mem_singleton] at h
    exact ⟨[], [], by rw [h, splitAtByte?]⟩
  | cons c cs ih =>
    rw [cuts, List.mem_cons, List.mem_map] at h
    rcases h with rfl | ⟨k, hk, rfl⟩
    · exact ⟨[], c :: cs, by rw [splitAtByte?]⟩
    · obtain ⟨before, after, hs⟩ := ih hk
      exact ⟨c :: before, after, by rw [splitAtByte?_cons, hs, Option.map_some]⟩

/-- Behind a cut, the later offsets are those of the rest. -/
theorem sub_mem_cuts {m n : Nat} {cs before after : List Char} (hm : m ∈ cuts cs)
    (hs : splitAtByte? m cs = some (before, after)) (hn : n ∈ cuts cs) (hle : m ≤ n) :
    n - m ∈ cuts after := by
  induction cs generalizing m n before with
  | nil =>
    rw [cuts, List.mem_singleton] at hm hn
    subst hm hn
    rw [splitAtByte?] at hs
    cases hs
    exact List.mem_cons_self
  | cons c cs ih =>
    rw [cuts, List.mem_cons, List.mem_map] at hm
    rcases hm with rfl | ⟨k, hk, rfl⟩
    · rw [splitAtByte?] at hs
      cases hs
      exact hn
    · rw [splitAtByte?_cons, Option.map_eq_some_iff] at hs
      obtain ⟨⟨before', after'⟩, hs, heq⟩ := hs
      cases heq
      rw [cuts, List.mem_cons, List.mem_map] at hn
      rcases hn with rfl | ⟨k', hk', rfl⟩
      -- the first cut is behind the character, so the second one is not before it
      · have hpos := c.utf8Size_pos
        omega
      · rw [Nat.add_sub_add_left]
        exact ih hk hs hk' (Nat.le_of_add_le_add_left hle)

end Text

namespace Span

/-- The span lies in the text. -/
structure InText (source : String) (span : Span) : Prop where
  le : span.start ≤ span.stop
  bounded : span.stop ≤ source.utf8ByteSize
  start : span.start ∈ Text.cuts source.toList
  stop : span.stop ∈ Text.cuts source.toList

instance (source : String) : DecidablePred (InText source) := fun span =>
  decidable_of_iff (span.start ≤ span.stop ∧ span.stop ≤ source.utf8ByteSize ∧
      span.start ∈ Text.cuts source.toList ∧ span.stop ∈ Text.cuts source.toList)
    ⟨fun h => ⟨h.1, h.2.1, h.2.2.1, h.2.2.2⟩, fun h => ⟨h.le, h.bounded, h.start, h.stop⟩⟩

namespace InText

variable {source : String} {span other : Span}

/-- A span in the text has a slice. -/
theorem exists_slice? (h : span.InText source) : ∃ text, Text.slice? source span = some text := by
  obtain ⟨before, rest, hs⟩ := Text.exists_splitAtByte? h.start
  obtain ⟨text, after, ht⟩ := Text.exists_splitAtByte? (Text.sub_mem_cuts h.start hs h.stop h.le)
  refine ⟨String.ofList text, ?_⟩
  simp [Text.slice?, h.le, hs, ht]

/-- From the beginning of one span to the end of another. -/
theorem upTo (h : span.InText source) (h' : other.InText source) (hle : span.start ≤ other.stop) :
    (⟨span.start, other.stop⟩ : Span).InText source :=
  ⟨hle, h'.bounded, h.start, h'.stop⟩

theorem hull (h : span.InText source) (h' : other.InText source) :
    (span.hull other).InText source where
  le := Nat.le_trans (Nat.min_le_left _ _) (Nat.le_trans h.le (Nat.le_max_left _ _))
  bounded := Nat.max_le.2 ⟨h.bounded, h'.bounded⟩
  start := by
    rcases Nat.le_total span.start other.start with hle | hle
    · rw [start_hull, Nat.min_eq_left hle]
      exact h.start
    · rw [start_hull, Nat.min_eq_right hle]
      exact h'.start
  stop := by
    rcases Nat.le_total span.stop other.stop with hle | hle
    · rw [stop_hull, Nat.max_eq_right hle]
      exact h'.stop
    · rw [stop_hull, Nat.max_eq_left hle]
      exact h.stop

end InText

end Span

namespace SyntaxTree

/-- The tree is one over the text: the spans of its nodes lie in the text, and children lie inside
their parents. -/
structure Over (source : String) (t : SyntaxTree) : Prop where
  inText : ∀ n ∈ t.nodes, n.span.InText source
  inside : ∀ n ∈ t.nodes, ∀ child ∈ n.children,
    n.span.start ≤ child.span.start ∧ child.span.stop ≤ n.span.stop

/-- The spans that are read off a node: its own, that of the header it begins with, that of the
subject it has, and those of the patterns that it is or has. -/
def spansRead (source : String) (n : SyntaxTree) : List Span :=
  n.span :: headerSpan n.span n.children :: (subjectSpan? n.children).toList ++
    ((patternNode source n).alternatives ++ (casePatterns? source n.children).getD []).map (·.span)

theorem mem_nodes_of_mem_children {n child : SyntaxTree} (h : child ∈ n.children) :
    child ∈ n.nodes :=
  n.nodesAmong_children_subset (mem_nodesAmong_of_mem h)

namespace Over

variable {source : String} {t : SyntaxTree}

/-- A tree over a text can be read, and the spans that are read lie in the text. -/
theorem reading (h : t.Over source) : Reading False (Span.InText source) t.nodes where
  hull _ _ := Span.InText.hull
  readable n hn :=
    { span := h.inText n hn
      start := ⟨Nat.le_refl _, Nat.le_trans (h.inText n hn).le (h.inText n hn).bounded,
        (h.inText n hn).start, (h.inText n hn).start⟩
      header := by
        intro child hc
        have hchild := h.inText child (nodes_subset_nodes hn (mem_nodes_of_mem_children hc))
        exact (h.inText n hn).upTo hchild (Nat.le_trans (h.inside n hn child hc).1 hchild.le)
      ordered := False.elim }

theorem inText_spansRead (h : t.Over source) :
    ∀ n ∈ t.nodes, ∀ span ∈ n.spansRead source, span.InText source := by
  intro n hn
  have hr : Reading False (Span.InText source) n.nodes := h.reading.mono (nodes_subset_nodes hn)
  simp only [spansRead, List.cons_append, List.forall_mem_cons, List.forall_mem_append,
    List.forall_mem_map]
  refine ⟨h.inText n hn, Reading.headerSpan (h.reading.readable n hn), ?_, ?_, ?_⟩
  · intro span hs
    exact hr.below.subjectSpan? (Option.mem_toList.1 hs)
  · exact (spanned_patternNode n hr).alternatives
  · cases hp : SyntaxTree.casePatterns? source n.children with
    | none => simp
    | some patterns => exact hr.below.casePatterns? hp

end Over

end SyntaxTree

end Flowgraph
