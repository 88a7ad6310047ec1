import Flowgraph.Proofs.Irrefutable

/-!
# The alternatives of a pattern

The pattern of a `case` is divided into alternatives by flattening it.  An or-pattern is divided at
its bars.  What stands between two bars is an alternative of its own; if it is a single token, that
token is flattened in turn, so that or-patterns inside or-patterns are divided too.  Anything else
is one alternative.

Flattening keeps the meaning of a pattern and the order of the source text.

## Main definitions

* `SyntaxTree.betweenBars` : the tokens of an or-pattern, divided at the bars.
* `SyntaxTree.Flattens` : the rules by which a pattern is flattened.
* `SyntaxTree.InOrder` : the nodes of a tree stand in the order of the source text.

## Main results

* `SyntaxTree.flattens_iff` : the alternatives of a pattern are those that the rules give.
* `SyntaxTree.alternatives_flattened` : meaning and order are kept.
-/

namespace Flowgraph

namespace SyntaxTree

/-! ## Rules -/

/-- The tokens of a node, divided at the bars; what is empty between two bars is left out. -/
def betweenBars (t : SyntaxTree) : List (List SyntaxTree) :=
  (t.tokens.splitOnP (·.kind == .barToken)).filter (!·.isEmpty)

mutual

/-- The pattern is flattened into the alternatives. -/
inductive Flattens (source : String) : SyntaxTree → List Pattern → Prop
  /-- An or-pattern is divided at its bars. -/
  | either {t : SyntaxTree} {patterns : List Pattern} (hk : t.kind = .unionPattern)
      (h : FlattensEach source t.betweenBars patterns) : Flattens source t patterns
  /-- A pattern that is nothing but an or-pattern. -/
  | holding {t inner : SyntaxTree} {patterns : List Pattern} (hk : t.kind = .casePattern)
      (ht : t.tokens = [inner]) (hi : inner.kind = .unionPattern)
      (h : Flattens source inner patterns) : Flattens source t patterns
  /-- Anything else is an alternative by itself. -/
  | itself {t : SyntaxTree} (hk : t.kind ≠ .unionPattern)
      (hn : t.kind = .casePattern → ∀ inner, t.tokens = [inner] → inner.kind ≠ .unionPattern) :
      Flattens source t [⟨t.span, (patternNode source t).accepts⟩]

/-- What stands between bars is flattened into the alternatives, one part after the other. -/
inductive FlattensEach (source : String) : List (List SyntaxTree) → List Pattern → Prop
  | nil : FlattensEach source [] []
  /-- A single token is flattened. -/
  | single {token : SyntaxTree} {parts : List (List SyntaxTree)} {patterns others : List Pattern}
      (h : Flattens source token patterns) (rest : FlattensEach source parts others) :
      FlattensEach source ([token] :: parts) (patterns ++ others)
  /-- Several tokens are one alternative, from the first to the last, that may fail. -/
  | several {first last : SyntaxTree} {middle : List SyntaxTree} {parts : List (List SyntaxTree)}
      {others : List Pattern} (rest : FlattensEach source parts others) :
      FlattensEach source ((first :: (middle ++ [last])) :: parts)
        (⟨first.span.hull last.span, .refutable⟩ :: others)

end

/-! ## Alternatives follow the rules -/

variable {source : String}

theorem span_patternNode (source : String) (t : SyntaxTree) :
    (patternNode source t).span = t.span := by
  cases t
  rfl

theorem alternatives_patternNode (source : String) (t : SyntaxTree) :
    (patternNode source t).alternatives =
      PatternNode.alternativesOf t.kind t.span (patternNode source t).accepts
        (t.tokens.map (patternNode source)) := by
  rw [accepts_patternNode]
  cases t
  rw [patternNode, tokens, ← patternTokens_eq]
  rfl

/-- Dividing at bars is the same before and after the tokens are read. -/
theorem runs_map_patternNode (source : String) (trees : List SyntaxTree) :
    PatternNode.runs (trees.map (patternNode source)) =
      (trees.splitOnP (·.kind == .barToken)).map (List.map (patternNode source)) := by
  induction trees with
  | nil => simp [PatternNode.runs]
  | cons t rest ih =>
    rw [List.map_cons, List.splitOnP_cons_eq_if_modifyHead]
    by_cases ht : t.kind = .barToken
    · rw [PatternNode.runs_cons_bar (by simpa using ht), ih]
      simp [ht]
    -- there is always a first part, which a token other than a bar joins
    · obtain ⟨first, others, hs⟩ := List.exists_cons_of_ne_nil
        (List.splitOnP_ne_nil (fun t : SyntaxTree => t.kind == .barToken) rest)
      rw [hs, List.map_cons] at ih
      rw [PatternNode.runs_cons_of_ne (by simpa using ht) ih, hs]
      simp [ht]

theorem segments_tokens (source : String) (t : SyntaxTree) :
    PatternNode.segments (t.tokens.map (patternNode source)) =
      t.betweenBars.map (List.map (patternNode source)) := by
  rw [PatternNode.segments, runs_map_patternNode, betweenBars, List.filter_map]
  refine congrArg _ (List.filter_congr fun part _ => ?_)
  simp [Function.comp]

/-- What the tokens between two bars contribute. -/
def partAlternatives (source : String) (part : List SyntaxTree) : List Pattern :=
  PatternNode.segmentAlternatives (part.map (patternNode source))

theorem partAlternatives_several (first last : SyntaxTree) (middle : List SyntaxTree) :
    partAlternatives source (first :: (middle ++ [last])) =
      [⟨first.span.hull last.span, .refutable⟩] := by
  have hlast : ∀ d, ((middle.map (patternNode source)) ++ [patternNode source last]).getLastD d =
      patternNode source last := fun d => by simp [List.getLastD_eq_getLast?]
  rw [partAlternatives, List.map_cons, List.map_append, List.map_singleton]
  rw [PatternNode.segmentAlternatives.eq_3 _ _ (by simp), PatternNode.spanning, hlast,
    span_patternNode, span_patternNode]

theorem alternatives_union {t : SyntaxTree} (hk : t.kind = .unionPattern) :
    (patternNode source t).alternatives = t.betweenBars.flatMap (partAlternatives source) := by
  rw [alternatives_patternNode, hk, PatternNode.alternativesOf, segments_tokens, List.flatMap_map]
  rfl

theorem alternatives_holding {t inner : SyntaxTree} (hk : t.kind = .casePattern)
    (ht : t.tokens = [inner]) (hi : inner.kind = .unionPattern) :
    (patternNode source t).alternatives = (patternNode source inner).alternatives := by
  rw [alternatives_patternNode, hk, ht]
  simp [PatternNode.alternativesOf, hi]

theorem alternatives_itself {t : SyntaxTree} (hk : t.kind ≠ .unionPattern)
    (hn : t.kind = .casePattern → ∀ inner, t.tokens = [inner] → inner.kind ≠ .unionPattern) :
    (patternNode source t).alternatives = [⟨t.span, (patternNode source t).accepts⟩] := by
  rw [alternatives_patternNode, PatternNode.alternativesOf.eq_def]
  split
  · next hu => exact absurd hu hk
  · next hc hm =>
    obtain ⟨inner, ht, rfl⟩ := List.map_eq_singleton_iff.1 hm
    have hi := hn hc inner ht
    simp [hi]
  · rfl

mutual

/-- The rules give the alternatives of the pattern. -/
theorem Flattens.eq_alternatives {t : SyntaxTree} {patterns : List Pattern} :
    Flattens source t patterns → patterns = (patternNode source t).alternatives
  | .either hk h => by rw [alternatives_union hk, h.eq_flatMap]
  | .holding hk ht hi h => by rw [alternatives_holding hk ht hi, h.eq_alternatives]
  | .itself hk hn => (alternatives_itself hk hn).symm

theorem FlattensEach.eq_flatMap {parts : List (List SyntaxTree)} {patterns : List Pattern} :
    FlattensEach source parts patterns → patterns = parts.flatMap (partAlternatives source)
  | .nil => rfl
  | .single h rest => by
    rw [List.flatMap_cons, ← rest.eq_flatMap, h.eq_alternatives]
    rfl
  | .several rest => by
    rw [List.flatMap_cons, ← rest.eq_flatMap, partAlternatives_several]
    rfl

end

/-- Parts are flattened if their tokens are. -/
theorem flattensEach_of_forall : (parts : List (List SyntaxTree)) → (∀ part ∈ parts, part ≠ []) →
    (∀ part ∈ parts, ∀ t ∈ part, Flattens source t (patternNode source t).alternatives) →
      FlattensEach source parts (parts.flatMap (partAlternatives source))
  | [], _, _ => .nil
  | part :: rest, hne, h => by
    obtain ⟨hpart, hne⟩ := List.forall_mem_cons.1 hne
    obtain ⟨htokens, h⟩ := List.forall_mem_cons.1 h
    have ih := flattensEach_of_forall rest hne h
    obtain ⟨first, tokens, rfl⟩ := List.exists_cons_of_ne_nil hpart
    rw [List.flatMap_cons]
    -- a part of one token is flattened further; a longer one is one alternative
    rcases List.eq_nil_or_concat tokens with rfl | ⟨middle, last, rfl⟩
    · exact .single (htokens first List.mem_cons_self) ih
    · rw [List.concat_eq_append, partAlternatives_several]
      exact .several ih

/-- Dividing a list drops the separators and nothing else. -/
theorem flatten_splitOnP_sublist {α : Type} (p : α → Bool) (xs : List α) :
    (xs.splitOnP p).flatten.Sublist xs := by
  induction xs with
  | nil => simp
  | cons x rest ih =>
    rw [List.splitOnP_cons_eq_if_modifyHead]
    split
    · simpa using ih.trans (List.sublist_cons_self x rest)
    · obtain ⟨first, others, hs⟩ := List.exists_cons_of_ne_nil (List.splitOnP_ne_nil p rest)
      rw [hs] at ih ⊢
      simpa using ih

/-- The tokens between bars are tokens of the node, in order. -/
theorem flatten_betweenBars_sublist (t : SyntaxTree) :
    t.betweenBars.flatten.Sublist t.children := by
  rw [betweenBars, List.flatten_filter_not_isEmpty]
  exact (flatten_splitOnP_sublist _ t.tokens).trans List.filter_sublist

theorem ne_nil_of_mem_betweenBars {t : SyntaxTree} {part : List SyntaxTree}
    (h : part ∈ t.betweenBars) : part ≠ [] := by
  simpa using (List.mem_filter.1 h).2

theorem mem_children_of_mem_betweenBars {t token : SyntaxTree} {part : List SyntaxTree}
    (hp : part ∈ t.betweenBars) (ht : token ∈ part) : token ∈ t.children :=
  t.flatten_betweenBars_sublist.subset (List.mem_flatten.2 ⟨part, hp, ht⟩)

/-- A node is flattened by the rules if the nodes below it are. -/
theorem flattens_of_children {t : SyntaxTree}
    (ih : ∀ child ∈ t.children, Flattens source child (patternNode source child).alternatives) :
    Flattens source t (patternNode source t).alternatives := by
  by_cases hk : t.kind = .unionPattern
  · rw [alternatives_union hk]
    exact .either hk (flattensEach_of_forall _ (fun part => ne_nil_of_mem_betweenBars)
      fun part hp token ht => ih token (mem_children_of_mem_betweenBars hp ht))
  -- a pattern around nothing but a pattern with bars is flattened like that one
  · by_cases hn : t.kind = .casePattern → ∀ inner, t.tokens = [inner] →
        inner.kind ≠ .unionPattern
    · rw [alternatives_itself hk hn]
      exact .itself hk hn
    · simp only [not_forall, not_not] at hn
      obtain ⟨hc, inner, ht, hi⟩ := hn
      rw [alternatives_holding hc ht hi]
      exact .holding hc ht hi (ih inner (mem_children_of_mem_tokens (by simp [ht])))

mutual

theorem flattens_alternatives : (t : SyntaxTree) →
    Flattens source t (patternNode source t).alternatives
  | node _ _ _ _ children => flattens_of_children (flattens_alternatives_among children)

theorem flattens_alternatives_among : (trees : List SyntaxTree) → ∀ t ∈ trees,
    Flattens source t (patternNode source t).alternatives
  | [] => by simp
  | t :: rest =>
    List.forall_mem_cons.2 ⟨flattens_alternatives t, flattens_alternatives_among rest⟩

end

/-- The alternatives of a pattern are those that the rules give. -/
theorem flattens_iff {t : SyntaxTree} {patterns : List Pattern} :
    Flattens source t patterns ↔ patterns = (patternNode source t).alternatives := by
  constructor
  · exact Flattens.eq_alternatives
  · rintro rfl
    exact flattens_alternatives t

/-! ## Source order -/

/-- Everything in the first tree ends before anything in the second begins. -/
def Before (a b : SyntaxTree) : Prop :=
  ∀ x ∈ a.nodes, ∀ y ∈ b.nodes, x.span.stop ≤ y.span.start

/-- The nodes of a tree stand in the order of the source text: children come one after the other,
each with all that is below it. -/
def InOrder (t : SyntaxTree) : Prop :=
  ∀ n ∈ t.nodes, n.children.Pairwise Before

instance (a b : SyntaxTree) : Decidable (Before a b) :=
  inferInstanceAs (Decidable (∀ x ∈ a.nodes, ∀ y ∈ b.nodes, x.span.stop ≤ y.span.start))

instance : DecidablePred InOrder := fun t =>
  inferInstanceAs (Decidable (∀ n ∈ t.nodes, n.children.Pairwise Before))

theorem InOrder.child {t child : SyntaxTree} (h : t.InOrder) (hc : child ∈ t.children) :
    child.InOrder := fun n hn =>
  h n (t.nodesAmong_children_subset (nodes_subset_nodesAmong hc hn))

theorem mem_nodesAmong_iff {x : SyntaxTree} {trees : List SyntaxTree} :
    x ∈ nodesAmong trees ↔ ∃ t ∈ trees, x ∈ t.nodes := by
  induction trees with
  | nil => simp [nodesAmong]
  | cons t rest ih => simp [nodesAmong, ih]

theorem nodesAmong_subset {trees trees' : List SyntaxTree} (h : trees ⊆ trees') :
    nodesAmong trees ⊆ nodesAmong trees' := by
  intro x hx
  obtain ⟨t, ht, hx⟩ := mem_nodesAmong_iff.1 hx
  exact mem_nodesAmong_iff.2 ⟨t, h ht, hx⟩

/-- The span covers what lies between two of the nodes. -/
def Covers (nodes : List SyntaxTree) (span : Span) : Prop :=
  ∃ x ∈ nodes, ∃ y ∈ nodes, span = x.span.hull y.span

theorem Covers.mono {nodes nodes' : List SyntaxTree} {span : Span} (h : Covers nodes span)
    (hs : nodes ⊆ nodes') : Covers nodes' span := by
  obtain ⟨x, hx, y, hy, he⟩ := h
  exact ⟨x, hs hx, y, hs hy, he⟩

/-- What covers earlier nodes ends before what covers later ones begins. -/
theorem Covers.stop_le_start {nodes nodes' : List SyntaxTree} {a b : Span} (ha : Covers nodes a)
    (hb : Covers nodes' b) (h : ∀ x ∈ nodes, ∀ y ∈ nodes', x.span.stop ≤ y.span.start) :
    a.stop ≤ b.start := by
  obtain ⟨x, hx, x', hx', rfl⟩ := ha
  obtain ⟨y, hy, y', hy', rfl⟩ := hb
  exact Nat.max_le.2 ⟨Nat.le_min.2 ⟨h x hx y hy, h x hx y' hy'⟩,
    Nat.le_min.2 ⟨h x' hx' y hy, h x' hx' y' hy'⟩⟩

mutual

/-- An alternative covers what lies between two nodes of the pattern. -/
theorem Flattens.covers {t : SyntaxTree} {patterns : List Pattern} :
    Flattens source t patterns → ∀ p ∈ patterns, Covers t.nodes p.span
  | .either _ h, p, hp =>
    (h.covers p hp).mono (List.Subset.trans
      (nodesAmong_subset t.flatten_betweenBars_sublist.subset) t.nodesAmong_children_subset)
  | .holding _ ht _ h, p, hp =>
    (h.covers p hp).mono (List.Subset.trans (nodes_subset_nodesAmong (mem_children_of_mem_tokens
      (ht ▸ List.mem_singleton_self _))) t.nodesAmong_children_subset)
  | .itself _ _, p, hp => by
    rw [List.mem_singleton.1 hp]
    exact ⟨t, t.mem_nodes_self, t, t.mem_nodes_self, by simp [Span.hull]⟩

theorem FlattensEach.covers {parts : List (List SyntaxTree)} {patterns : List Pattern} :
    FlattensEach source parts patterns → ∀ p ∈ patterns, Covers (nodesAmong parts.flatten) p.span
  | .nil, p, hp => by simp at hp
  | .single h rest, p, hp => by
    rcases List.mem_append.1 hp with hp | hp
    · exact (h.covers p hp).mono (nodes_subset_nodesAmong List.mem_cons_self)
    · exact (rest.covers p hp).mono (nodesAmong_subset (List.subset_cons_self _ _))
  | .several rest, p, hp => by
    rcases List.mem_cons.1 hp with rfl | hp
    · exact ⟨_, mem_nodesAmong_of_mem (by simp), _, mem_nodesAmong_of_mem (by simp), rfl⟩
    · exact (rest.covers p hp).mono (nodesAmong_subset (List.subset_append_right _ _))

end

/-- The alternatives of earlier trees end before those of later trees begin. -/
theorem stop_le_start_of_before {xs ys : List SyntaxTree} (h : ∀ t ∈ xs, ∀ t' ∈ ys, Before t t')
    {a b : Span} (ha : Covers (nodesAmong xs) a) (hb : Covers (nodesAmong ys) b) :
    a.stop ≤ b.start := by
  refine ha.stop_le_start hb fun x hx y hy => ?_
  obtain ⟨t, ht, hx⟩ := mem_nodesAmong_iff.1 hx
  obtain ⟨t', ht', hy⟩ := mem_nodesAmong_iff.1 hy
  exact h t ht t' ht' x hx y hy

mutual

/-- In a tree in source order, alternatives come one after the other. -/
theorem Flattens.pairwise {t : SyntaxTree} {patterns : List Pattern} :
    Flattens source t patterns → t.InOrder →
      patterns.Pairwise fun a b => a.span.stop ≤ b.span.start
  | .either _ h, ho =>
    h.pairwise ((ho t t.mem_nodes_self).sublist t.flatten_betweenBars_sublist)
      fun _ ht => ho.child (t.flatten_betweenBars_sublist.subset ht)
  | .holding _ ht _ h, ho =>
    h.pairwise (ho.child (mem_children_of_mem_tokens (ht ▸ List.mem_singleton_self _)))
  | .itself _ _, _ => List.pairwise_singleton _ _

theorem FlattensEach.pairwise {parts : List (List SyntaxTree)} {patterns : List Pattern} :
    FlattensEach source parts patterns → parts.flatten.Pairwise Before →
      (∀ t ∈ parts.flatten, t.InOrder) →
      patterns.Pairwise fun a b => a.span.stop ≤ b.span.start
  | .nil, _, _ => .nil
  | .single h rest, hb, ho => by
    obtain ⟨hfirst, hb⟩ := List.pairwise_cons.1 hb
    obtain ⟨htoken, ho⟩ := List.forall_mem_cons.1 ho
    -- the alternatives of a part lie within its tokens, which come before those of later parts
    refine List.pairwise_append.2 ⟨h.pairwise htoken, rest.pairwise hb ho, fun p hp q hq => ?_⟩
    exact stop_le_start_of_before (List.forall_mem_singleton.2 hfirst)
      ((h.covers p hp).mono (nodes_subset_nodesAmong List.mem_cons_self)) (rest.covers q hq)
  | .several rest, hb, ho => by
    obtain ⟨-, hb, hfirst⟩ := List.pairwise_append.1 hb
    refine List.pairwise_cons.2 ⟨fun q hq => ?_,
      rest.pairwise hb fun t ht => ho t (List.mem_append_right _ ht)⟩
    refine stop_le_start_of_before hfirst ?_ (rest.covers q hq)
    exact ⟨_, mem_nodesAmong_of_mem (by simp), _, mem_nodesAmong_of_mem (by simp), rfl⟩

end

/-! ## Meaning and order -/

/-- **Flattening keeps the meaning and the order of a pattern.**  Some alternative cannot fail
exactly if the pattern as a whole cannot; the alternatives are those that the rules of flattening
give; and if the tree stands in the order of the source text, so do the alternatives. -/
theorem alternatives_flattened (source : String) (t : SyntaxTree) :
    ((∃ p ∈ (patternNode source t).alternatives, p.kind.isIrrefutable = true) ↔
      (patternNode source t).accepts ≠ .refutable) ∧
    (∀ patterns, Flattens source t patterns ↔ patterns = (patternNode source t).alternatives) ∧
    (t.InOrder → (patternNode source t).alternatives.Pairwise fun a b =>
      a.span.stop ≤ b.span.start) := by
  refine ⟨?_, fun patterns => flattens_iff, (flattens_alternatives t).pairwise⟩
  rw [← List.any_eq_true, settled_patternNode source t]
  cases (patternNode source t).accepts <;> simp [PatternKind.isIrrefutable]

/-- The tree of the pattern `-1 | y`. -/
def negativeOrName : SyntaxTree :=
  node .unionPattern true ⟨0, 6⟩ none
    [.node (.other "-") false ⟨0, 1⟩ none [],
      .node (.other "integer") true ⟨1, 2⟩ none [],
      .node .barToken false ⟨3, 4⟩ none [],
      .node .identifier true ⟨5, 6⟩ none []]

theorem alternatives_flattened_negativeOrName :
    negativeOrName.InOrder ∧
      (patternNode "-1 | y" negativeOrName).alternatives =
        [⟨⟨0, 2⟩, .refutable⟩, ⟨⟨5, 6⟩, .capture⟩] ∧
      (patternNode "-1 | y" negativeOrName).alternatives.Pairwise fun a b =>
        a.span.stop ≤ b.span.start :=
  have horder : negativeOrName.InOrder := by decide
  ⟨horder, rfl, (alternatives_flattened "-1 | y" negativeOrName).2.2 horder⟩

end SyntaxTree

end Flowgraph
