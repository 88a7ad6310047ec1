import Flowgraph.Source.Definition

/-!
# The nodes of a syntax tree

What is read off a syntax tree comes from its nodes.  The spans of statements, clauses, tests and
patterns are the spans of nodes, hulls of two of them, or reach from the beginning of a node to the
end of one of its children.  A property of spans that the nodes have and that survives taking hulls
is therefore a property of all spans that are read.

## Main definitions

* `SyntaxTree.nodes` : all nodes of a tree.
* `SyntaxTree.ClausesInOrder` : the clauses of a `try` come in the usual order.
* `SyntaxTree.Readable` : what reading asks of a node.

## Main results

* `SyntaxTree.exists_node_of_mem_functions` : the functions of a tree are read off its nodes.
* `SyntaxTree.Reading.casePatterns?` : the spans of patterns.
-/

namespace Flowgraph

namespace SyntaxTree

/-! ## Nodes -/

mutual

/-- The nodes of a tree, itself included, each before those below it. -/
def nodes : SyntaxTree → List SyntaxTree
  | node kind isNamed span field children =>
    node kind isNamed span field children :: nodesAmong children

/-- The nodes of some trees. -/
def nodesAmong : List SyntaxTree → List SyntaxTree
  | [] => []
  | t :: rest => t.nodes ++ nodesAmong rest

end

theorem nodes_eq (t : SyntaxTree) : t.nodes = t :: nodesAmong t.children := by
  cases t
  rw [nodes, children]

theorem mem_nodes_self (t : SyntaxTree) : t ∈ t.nodes := by
  rw [nodes_eq]
  exact List.mem_cons_self

theorem nodes_subset_nodesAmong {t : SyntaxTree} {trees : List SyntaxTree} (h : t ∈ trees) :
    t.nodes ⊆ nodesAmong trees := by
  induction h with
  | head rest => exact List.subset_append_left _ _
  | tail t _ ih => exact List.subset_append_of_subset_right _ ih

theorem mem_nodesAmong_of_mem {t : SyntaxTree} {trees : List SyntaxTree} (h : t ∈ trees) :
    t ∈ nodesAmong trees :=
  nodes_subset_nodesAmong h t.mem_nodes_self

theorem nodesAmong_children_subset (t : SyntaxTree) : nodesAmong t.children ⊆ t.nodes := by
  rw [nodes_eq]
  exact List.subset_cons_self _ _

mutual

theorem nodes_subset_nodes {n : SyntaxTree} : {t : SyntaxTree} → n ∈ t.nodes → n.nodes ⊆ t.nodes
  | node _ _ _ _ children, h => by
    rw [nodes_eq, List.mem_cons] at h
    rcases h with rfl | h
    · exact List.Subset.refl _
    · exact List.Subset.trans (nodes_subset_of_mem_nodesAmong h) (nodesAmong_children_subset _)

theorem nodes_subset_of_mem_nodesAmong {n : SyntaxTree} : {trees : List SyntaxTree} →
    n ∈ nodesAmong trees → n.nodes ⊆ nodesAmong trees
  | [], h => by simp [nodesAmong] at h
  | t :: rest, h => by
    rw [nodesAmong, List.mem_append] at h
    rcases h with h | h
    · exact List.subset_append_of_subset_left _ (nodes_subset_nodes h)
    · exact List.subset_append_of_subset_right _ (nodes_subset_of_mem_nodesAmong h)

end

/-! ## Functions -/

mutual

theorem exists_node_of_mem_functionsAt {source : String} {d : Definition} (own place : Place) :
    (t : SyntaxTree) → d ∈ functionsAt source own place t →
      ∃ n ∈ t.nodes, ∃ place, function? source place n = some d
  | node kind isNamed span field children, h => by
    rw [functionsAt, List.mem_append] at h
    rcases h with h | h
    · split at h
      · exact ⟨_, mem_nodes_self _, place, Option.mem_toList.1 h⟩
      · simp at h
    · obtain ⟨n, hn, hf⟩ := exists_node_of_mem_functionsAmong _ [] children h
      exact ⟨n, nodesAmong_children_subset _ hn, hf⟩

theorem exists_node_of_mem_functionsAmong {source : String} {d : Definition}
    (decorated : Option Place) (before : List SyntaxTree) : (trees : List SyntaxTree) →
      d ∈ functionsAmong source decorated before trees →
      ∃ n ∈ nodesAmong trees, ∃ place, function? source place n = some d
  | [], h => by simp [functionsAmong] at h
  | t :: rest, h => by
    rw [functionsAmong, List.mem_append] at h
    rcases h with h | h
    · split at h
      · obtain ⟨n, hn, hf⟩ := exists_node_of_mem_functionsAt _ _ t h
        exact ⟨n, List.mem_append_left _ hn, hf⟩
      · simp at h
    · obtain ⟨n, hn, hf⟩ := exists_node_of_mem_functionsAmong decorated (t :: before) rest h
      exact ⟨n, List.mem_append_right _ hn, hf⟩

end

/-- A function of a tree is read off one of its nodes. -/
theorem exists_node_of_mem_functions {source : String} {d : Definition} {t : SyntaxTree}
    (h : d ∈ t.functions source) : ∃ n ∈ t.nodes, ∃ place, function? source place n = some d :=
  exists_node_of_mem_functionsAt _ _ t h

theorem function?_eq_some {source : String} {place : Place} {n : SyntaxTree} {d : Definition}
    (h : function? source place n = some d) : d.span = n.span ∧
      ∃ body, bodyInRole? source .body [] n.children = some body ∧ d.body = (body.run 0).1 := by
  cases n
  simp only [function?, Option.bind_eq_bind, Option.bind_eq_some_iff, Option.pure_def,
    Option.some.injEq] at h
  obtain ⟨_, _, body, hb, rfl⟩ := h
  exact ⟨rfl, body, hb, rfl⟩

/-! ## Clauses of a `try` -/

/-- The place of a clause in a `try`: handlers, then `else`, then `finally`. -/
def clauseRank? (t : SyntaxTree) : Option Nat :=
  if t.isNamed then
    match t.kind with
    | .exceptClause | .exceptGroupClause => some 0
    | .elseClause => some 1
    | .finallyClause => some 2
    | _ => none
  else none

/-- The handlers among some nodes come before the `else` clause and that before the `finally`
clause, and there is at most one of each of the two. -/
def ClausesInOrder (trees : List SyntaxTree) : Prop :=
  (trees.filterMap clauseRank?).Pairwise fun a b => a < b ∨ a = 0 ∧ b = 0

/-! ## Spans -/

/-- What reading asks of a node: `S` holds of its span and of the headers that begin with it, and if
`o` holds, the clauses of a `try` are in order. -/
structure Readable (o : Prop) (S : Span → Prop) (n : SyntaxTree) : Prop where
  span : S n.span
  start : S ⟨n.span.start, n.span.start⟩
  header : ∀ child ∈ n.children, S ⟨n.span.start, child.span.stop⟩
  ordered : o → n.kind = .tryStatement → ClausesInOrder n.children

/-- All nodes can be read, and `S` survives taking hulls. -/
structure Reading (o : Prop) (S : Span → Prop) (nodes : List SyntaxTree) : Prop where
  hull : ∀ a b, S a → S b → S (a.hull b)
  readable : ∀ n ∈ nodes, n.Readable o S

namespace Reading

variable {o : Prop} {S : Span → Prop} {trees : List SyntaxTree}

theorem mono {nodes nodes' : List SyntaxTree} (h : Reading o S nodes) (hn : nodes' ⊆ nodes) :
    Reading o S nodes' :=
  ⟨h.hull, fun n hm => h.readable n (hn hm)⟩

theorem below {t : SyntaxTree} (h : Reading o S t.nodes) : Reading o S (nodesAmong t.children) :=
  h.mono t.nodesAmong_children_subset

theorem first {t : SyntaxTree} (h : Reading o S (nodesAmong (t :: trees))) : Reading o S t.nodes :=
  h.mono (List.subset_append_left _ _)

theorem rest {t : SyntaxTree} (h : Reading o S (nodesAmong (t :: trees))) :
    Reading o S (nodesAmong trees) :=
  h.mono (List.subset_append_right _ _)

theorem span (h : Reading o S (nodesAmong trees)) {t : SyntaxTree} (ht : t ∈ trees) : S t.span :=
  (h.readable t (mem_nodesAmong_of_mem ht)).span

theorem spanInRole? (h : Reading o S (nodesAmong trees)) {role : Field} {span : Span}
    (hs : SyntaxTree.spanInRole? role trees = some span) : S span := by
  obtain ⟨t, ht, rfl⟩ := Option.map_eq_some_iff.1 hs
  exact h.span (List.mem_of_find?_eq_some ht)

theorem handlerType? (h : Reading o S (nodesAmong trees)) :
    ∀ span ∈ SyntaxTree.handlerType? trees, S span := by
  intro span hs
  obtain ⟨t, ht, rfl⟩ := Option.map_eq_some_iff.1 hs
  exact h.span (List.mem_of_find?_eq_some ht)

theorem guard? (h : Reading o S (nodesAmong trees)) :
    ∀ span ∈ SyntaxTree.guard? trees, S span := by
  intro span hs
  obtain ⟨t, ht, rfl⟩ := Option.map_eq_some_iff.1 hs
  exact h.span (List.mem_of_find?_eq_some ht)

theorem headerSpan {n : SyntaxTree} (h : n.Readable o S) :
    S (SyntaxTree.headerSpan n.span n.children) := by
  rw [SyntaxTree.headerSpan]
  split
  · next colon hc => exact h.header colon (List.mem_of_find?_eq_some hc)
  · exact h.start

theorem hull_getLastD {first : SyntaxTree} {rest : List SyntaxTree}
    (h : Reading o S (nodesAmong trees)) (hs : first :: rest ⊆ trees) :
    S (first.span.hull (rest.getLastD first).span) := by
  apply h.hull
  · exact h.span (hs List.mem_cons_self)
  · exact h.span (hs List.getLastD_mem_cons)

theorem subjectSpan? (h : Reading o S (nodesAmong trees)) {span : Span}
    (hs : SyntaxTree.subjectSpan? trees = some span) : S span := by
  rw [SyntaxTree.subjectSpan?] at hs
  split at hs
  · cases hs
  · next first rest hf =>
    cases hs
    apply h.hull_getLastD
    rw [← hf]
    exact List.filter_sublist.subset

end Reading

/-! ## Patterns -/

end SyntaxTree

namespace PatternNode

variable {S : Span → Prop}

/-- `S` holds of the span of a node of a pattern, and of the spans of its alternatives. -/
structure Spanned (S : Span → Prop) (t : PatternNode) : Prop where
  span : S t.span
  alternatives : ∀ pattern ∈ t.alternatives, S pattern.span

theorem mem_of_mem_runs {tokens : List PatternNode} :
    ∀ run ∈ runs tokens, ∀ t ∈ run, t ∈ tokens := by
  induction tokens with
  | nil => simp [runs]
  | cons token rest ih =>
    intro run hr t ht
    rw [runs] at hr
    -- a bar begins a new run; another token joins the first one
    split at hr
    · rcases List.mem_cons.1 hr with rfl | hr
      · simp at ht
      · exact List.mem_cons_of_mem _ (ih run hr t ht)
    · split at hr
      · next first others hf =>
        rw [hf] at ih
        rcases List.mem_cons.1 hr with rfl | hr
        · rcases List.mem_cons.1 ht with rfl | ht
          · exact List.mem_cons_self
          · exact List.mem_cons_of_mem _ (ih first List.mem_cons_self t ht)
        · exact List.mem_cons_of_mem _ (ih run (List.mem_cons_of_mem _ hr) t ht)
      · rw [List.mem_singleton] at hr
        subst hr
        rw [List.mem_singleton] at ht
        exact ht ▸ List.mem_cons_self

/-- An alternative of an or-pattern contributes the alternatives of its only token, or the hull of
its tokens. -/
theorem spanned_segmentAlternatives (hhull : ∀ a b, S a → S b → S (a.hull b))
    {tokens : List PatternNode} (h : ∀ t ∈ tokens, t.Spanned S) :
    ∀ pattern ∈ segmentAlternatives tokens, S pattern.span := by
  intro pattern hp
  rw [segmentAlternatives.eq_def] at hp
  split at hp
  · simp at hp
  · next single => exact (h single List.mem_cons_self).alternatives pattern hp
  · next first rest _ =>
    rw [List.mem_singleton] at hp
    subst hp
    exact hhull _ _ (h first List.mem_cons_self).span (h _ List.getLastD_mem_cons).span

theorem spanned_alternativesOf (hhull : ∀ a b, S a → S b → S (a.hull b)) {kind : Kind} {span : Span}
    {accepts : PatternKind} {tokens : List PatternNode} (hs : S span)
    (h : ∀ t ∈ tokens, t.Spanned S) :
    ∀ pattern ∈ alternativesOf kind span accepts tokens, S pattern.span := by
  -- a pattern with bars has an alternative for each run, and others have one
  rw [alternativesOf.eq_def]
  split
  · intro pattern hp
    obtain ⟨segment, hm, hp⟩ := List.mem_flatMap.1 hp
    have hr := (List.mem_filter.1 hm).1
    exact spanned_segmentAlternatives hhull (fun t ht => h t (mem_of_mem_runs _ hr t ht)) _ hp
  · next inner =>
    split
    · exact (h inner List.mem_cons_self).alternatives
    · simpa using hs
  · simpa using hs

end PatternNode

namespace SyntaxTree

variable {source : String} {o : Prop} {S : Span → Prop}

mutual

theorem spanned_patternNode : (t : SyntaxTree) → Reading o S t.nodes →
    (patternNode source t).Spanned S
  | node kind isNamed span field children, h => by
    have hs : S span := (h.readable _ (mem_nodes_self _)).span
    have ht := spanned_patternTokens children h.below
    rw [patternNode]
    exact ⟨hs, PatternNode.spanned_alternativesOf h.hull hs ht⟩

theorem spanned_patternTokens : (trees : List SyntaxTree) → Reading o S (nodesAmong trees) →
    ∀ t ∈ patternTokens source trees, t.Spanned S
  | [], _ => by simp [patternTokens]
  | t :: rest, h => by
    have hr := spanned_patternTokens rest h.rest
    rw [patternTokens]
    split
    · exact hr
    · exact List.forall_mem_cons.2
        ⟨spanned_patternNode t h.first, hr⟩

end

theorem Reading.casePatterns? {trees : List SyntaxTree} (h : Reading o S (nodesAmong trees))
    {patterns : List Pattern} (hp : SyntaxTree.casePatterns? source trees = some patterns) :
    ∀ pattern ∈ patterns, S pattern.span := by
  rw [SyntaxTree.casePatterns?] at hp
  split at hp
  · cases hp
  · next single hf =>
    cases hp
    have hm : single ∈ trees := (List.mem_filter.1 (hf ▸ List.mem_cons_self)).1
    exact (spanned_patternNode single (h.mono (nodes_subset_nodesAmong hm))).alternatives
  · next first rest _ hf =>
    cases hp
    have hs := h.hull_getLastD (hf ▸ List.filter_sublist.subset)
    simpa using hs

/-! ## Suspensions -/

mutual

theorem exists_node_of_firstYield? {span : Span} : (t : SyntaxTree) → firstYield? t = some span →
    ∃ n ∈ t.nodes, n.span = span
  | node kind isNamed span' field children, h => by
    rw [firstYield?.eq_def] at h
    split at h
    · next heq =>
      cases heq
      cases h
      exact ⟨_, mem_nodes_self _, rfl⟩
    · cases h
    · cases h
    · cases h
    · cases h
    · next heq =>
      cases heq
      obtain ⟨n, hn, hs⟩ := exists_node_of_firstYieldAmong? children h
      exact ⟨n, nodesAmong_children_subset _ hn, hs⟩

theorem exists_node_of_firstYieldAmong? {span : Span} : (trees : List SyntaxTree) →
    firstYieldAmong? trees = some span → ∃ n ∈ nodesAmong trees, n.span = span
  | [], h => by simp [firstYieldAmong?] at h
  | t :: rest, h => by
    rw [firstYieldAmong?] at h
    split at h
    · next span' hy =>
      cases h
      split at hy
      · obtain ⟨n, hn, hs⟩ := exists_node_of_firstYield? t hy
        exact ⟨n, List.mem_append_left _ hn, hs⟩
      · cases hy
    · obtain ⟨n, hn, hs⟩ := exists_node_of_firstYieldAmong? rest h
      exact ⟨n, List.mem_append_right _ hn, hs⟩

end

end SyntaxTree

end Flowgraph
