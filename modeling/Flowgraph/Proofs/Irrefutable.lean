import Mathlib.Data.List.Forall2
import Flowgraph.Proofs.Syntax

/-!
# Cases that cannot fail

A `case` accepts every subject if it has no guard and its pattern cannot fail.  Which patterns
cannot fail is said by rules about syntax trees: a wildcard, a name that is bound, and whatever
groups, names or offers as an alternative a pattern that cannot fail.

Reading follows these rules, though it divides a pattern into alternatives first and classifies each
of them by itself.  It looks at the patterns of a clause only.  A clause with a comma behind its one
pattern matches sequences of one element, and yet it is read like the pattern alone.

## Main definitions

* `SyntaxTree.Irrefutable` : the pattern cannot fail.
* `SyntaxTree.OnlyPattern` : the pattern is the only one of a clause.

## Main results

* `SyntaxTree.settled_patternNode` : some alternative cannot fail exactly if the whole cannot.
* `SyntaxTree.isIrrefutable_accepts_iff` : patterns are classified by the rules.
* `SyntaxTree.acceptsAll_iff_irrefutable` : the cases of a `match` that accept every subject.
-/

namespace Flowgraph

/-! ## Alternatives of an or-pattern -/

/-- The entry `x` of a list has separators, or nothing, on both sides, and is none itself. -/
def StandsAlone {α : Type} (separates : α → Prop) (entries : List α) (x : α) : Prop :=
  ∃ before after, entries = before ++ x :: after ∧ ¬ separates x ∧
    (∀ y ∈ before.getLast?, separates y) ∧ ∀ y ∈ after.head?, separates y

theorem StandsAlone.mem {α : Type} {separates : α → Prop} {entries : List α} {x : α}
    (h : StandsAlone separates entries x) : x ∈ entries := by
  obtain ⟨before, after, rfl, -⟩ := h
  simp

theorem standsAlone_map_iff {α β : Type} {separates : β → Prop} {f : α → β} {entries : List α}
    {y : β} : StandsAlone separates (entries.map f) y ↔
      ∃ x, StandsAlone (fun x => separates (f x)) entries x ∧ f x = y := by
  constructor
  · rintro ⟨before, after, heq, hy, hb, ha⟩
    -- a list that is mapped falls apart where the list does
    obtain ⟨before, rest, rfl, rfl, hrest⟩ := List.map_eq_append_iff.1 heq
    obtain ⟨x, after, rfl, rfl, rfl⟩ := List.map_eq_cons_iff.1 hrest
    refine ⟨x, ⟨before, after, rfl, hy, ?_, ?_⟩, rfl⟩
    · simpa using hb
    · simpa using ha
  · rintro ⟨x, ⟨before, after, rfl, hy, hb, ha⟩, rfl⟩
    refine ⟨before.map f, after.map f, by simp, hy, ?_, ?_⟩
    · simpa using hb
    · simpa using ha

namespace PatternNode

theorem runs_cons_bar {t : PatternNode} (ht : t.kind = .barToken) (rest : List PatternNode) :
    runs (t :: rest) = [] :: runs rest := by
  simp [runs, ht]

theorem exists_runs_eq_cons (tokens : List PatternNode) :
    ∃ first others, runs tokens = first :: others := by
  cases tokens with
  | nil => exact ⟨[], [], rfl⟩
  | cons t rest =>
    rw [runs]
    split
    · exact ⟨_, _, rfl⟩
    · split <;> exact ⟨_, _, rfl⟩

theorem runs_cons_of_ne {t : PatternNode} (ht : t.kind ≠ .barToken) {rest first : List PatternNode}
    {others : List (List PatternNode)} (hr : runs rest = first :: others) :
    runs (t :: rest) = (t :: first) :: others := by
  simp [runs, ht, hr]

/-- A run of one token at the beginning. -/
theorem head_runs_eq_singleton_iff (tokens : List PatternNode) (x : PatternNode) :
    (runs tokens).head? = some [x] ↔ ∃ after, tokens = x :: after ∧ x.kind ≠ .barToken ∧
      ∀ y ∈ after.head?, y.kind = .barToken := by
  cases tokens with
  | nil => simp [runs]
  | cons t rest =>
    by_cases ht : t.kind = .barToken
    · simp only [runs_cons_bar ht, List.head?_cons, Option.some.injEq, List.nil_eq,
        List.cons_ne_nil, false_iff]
      rintro ⟨after, heq, hx, -⟩
      cases heq
      exact hx ht
    · obtain ⟨first, others, hr⟩ := exists_runs_eq_cons rest
      -- the run is over after one token if the next token is a bar, or there is none
      have hfirst : first = [] ↔ ∀ y ∈ rest.head?, y.kind = .barToken := by
        cases rest with
        | nil =>
          cases hr
          simp
        | cons t' rest =>
          by_cases ht' : t'.kind = .barToken
          · rw [runs_cons_bar ht'] at hr
            cases hr
            simp [ht']
          · obtain ⟨first', others', hr'⟩ := exists_runs_eq_cons rest
            rw [runs_cons_of_ne ht' hr'] at hr
            cases hr
            simp [ht']
      rw [runs_cons_of_ne ht hr, List.head?_cons, Option.some.injEq]
      constructor
      · intro h
        cases h
        exact ⟨rest, rfl, ht, hfirst.1 rfl⟩
      · rintro ⟨after, heq, -, hy⟩
        cases heq
        rw [hfirst.2 hy]

/-- A run of one token further on comes right after a bar. -/
theorem mem_tail_runs_iff (x : PatternNode) : (tokens : List PatternNode) →
    ([x] ∈ (runs tokens).tail ↔ ∃ before after y, tokens = before ++ y :: x :: after ∧
      y.kind = .barToken ∧ x.kind ≠ .barToken ∧ ∀ z ∈ after.head?, z.kind = .barToken)
  | [] => by simp [runs]
  | t :: rest => by
    obtain ⟨first, others, hr⟩ := exists_runs_eq_cons rest
    have ih := mem_tail_runs_iff x rest
    have hhead := head_runs_eq_singleton_iff rest x
    rw [hr, List.tail_cons] at ih
    rw [hr, List.head?_cons, Option.some.injEq] at hhead
    -- a bar ends a run, so what was the first run of the rest now comes further on
    by_cases ht : t.kind = .barToken
    · rw [runs_cons_bar ht, hr, List.tail_cons, List.mem_cons, ih, eq_comm, hhead]
      constructor
      · rintro (⟨after, rfl, hx, hz⟩ | ⟨before, after, y, rfl, h⟩)
        · exact ⟨[], after, t, rfl, ht, hx, hz⟩
        · exact ⟨t :: before, after, y, rfl, h⟩
      · rintro ⟨before, after, y, heq, h⟩
        rcases List.cons_eq_append_iff.1 heq with ⟨-, h'⟩ | ⟨before', -, rfl⟩
        · cases h'
          exact .inl ⟨after, rfl, h.2⟩
        · exact .inr ⟨before', after, y, rfl, h⟩
    · rw [runs_cons_of_ne ht hr, List.tail_cons, ih]
      constructor
      · rintro ⟨before, after, y, rfl, h⟩
        exact ⟨t :: before, after, y, rfl, h⟩
      · rintro ⟨before, after, y, heq, h⟩
        rcases List.cons_eq_append_iff.1 heq with ⟨-, h'⟩ | ⟨before', -, rfl⟩
        · cases h'
          exact absurd h.1 ht
        · exact ⟨before', after, y, rfl, h⟩

/-- The alternatives of one token are the tokens that stand alone between bars. -/
theorem singleton_mem_segments_iff {tokens : List PatternNode} {x : PatternNode} :
    [x] ∈ segments tokens ↔ StandsAlone (·.kind = .barToken) tokens x := by
  obtain ⟨first, others, hr⟩ := exists_runs_eq_cons tokens
  have hhead := head_runs_eq_singleton_iff tokens x
  have htail := mem_tail_runs_iff x tokens
  rw [hr, List.head?_cons, Option.some.injEq] at hhead
  rw [hr, List.tail_cons] at htail
  rw [segments, List.mem_filter, hr, List.mem_cons, htail, eq_comm, hhead]
  constructor
  -- the token is the first run, or it comes right after a bar
  · rintro ⟨⟨after, rfl, hx, hz⟩ | ⟨before, after, y, rfl, hy, hx, hz⟩, -⟩
    · exact ⟨[], after, rfl, hx, by simp, hz⟩
    · exact ⟨before ++ [y], after, by simp, hx, by simpa using hy, hz⟩
  · rintro ⟨before, after, rfl, hx, hb, hz⟩
    refine ⟨?_, rfl⟩
    rcases List.eq_nil_or_concat before with rfl | ⟨before, y, rfl⟩
    · exact .inl ⟨after, rfl, hx, hz⟩
    · exact .inr ⟨before, after, y, by simp, hb y (by simp), hx, hz⟩

/-! ## Alternatives and the whole -/

/-- Some alternative of the node cannot fail exactly if the node as a whole cannot. -/
def Settled (t : PatternNode) : Prop :=
  t.alternatives.any (·.kind.isIrrefutable) = t.accepts.isIrrefutable

/-- What is found in a list is of the kind that was looked for, if anything is. -/
theorem isIrrefutable_find?_getD (kinds : List PatternKind) :
    ((kinds.find? (·.isIrrefutable)).getD .refutable).isIrrefutable =
      kinds.any (·.isIrrefutable) := by
  cases hf : kinds.find? (·.isIrrefutable) with
  | none =>
    rw [List.find?_eq_none] at hf
    exact (List.any_eq_false.2 hf).symm
  | some kind =>
    have hk := List.find?_some hf
    rw [Option.getD_some, hk, eq_comm, List.any_eq_true]
    exact ⟨kind, List.mem_of_find?_eq_some hf, hk⟩

theorem any_segmentAlternatives {tokens : List PatternNode} (h : ∀ t ∈ tokens, t.Settled) :
    (segmentAlternatives tokens).any (·.kind.isIrrefutable) =
      (segmentAccepts tokens).isIrrefutable := by
  cases tokens with
  | nil => rfl
  | cons first rest =>
    cases rest with
    | nil => exact h first List.mem_cons_self
    | cons second rest => rfl

/-- The alternatives of a node are settled if its tokens are. -/
theorem any_alternativesOf {tokens : List PatternNode} (h : ∀ t ∈ tokens, t.Settled) (kind : Kind)
    (text : String) (span : Span) :
    (alternativesOf kind span (acceptsOf kind text tokens) tokens).any (·.kind.isIrrefutable) =
      (acceptsOf kind text tokens).isIrrefutable := by
  rw [alternativesOf.eq_def]
  split
  · -- an or-pattern is settled segment by segment
    rw [List.any_flatMap, acceptsOf, isIrrefutable_find?_getD, List.any_map, Bool.eq_iff_iff,
      List.any_eq_true, List.any_eq_true]
    refine exists_congr fun segment => and_congr_right fun hs => ?_
    have hr := (List.mem_filter.1 hs).1
    rw [any_segmentAlternatives fun t ht => h t (mem_of_mem_runs _ hr t ht), Function.comp]
  · next inner =>
    split
    · exact h inner List.mem_cons_self
    · exact Bool.or_false _
  · exact Bool.or_false _

end PatternNode

namespace SyntaxTree

/-- The tokens directly below a node, comments left out. -/
def tokens (t : SyntaxTree) : List SyntaxTree :=
  t.children.filter (·.kind != .comment)

theorem mem_children_of_mem_tokens {t token : SyntaxTree} (h : token ∈ t.tokens) :
    token ∈ t.children :=
  (List.mem_filter.1 h).1

theorem patternTokens_eq (source : String) : (trees : List SyntaxTree) →
    patternTokens source trees = (trees.filter (·.kind != .comment)).map (patternNode source)
  | [] => rfl
  | t :: rest => by
    rw [patternTokens, patternTokens_eq source rest, List.filter_cons]
    by_cases ht : t.kind = .comment <;> simp [ht]

section PatternNode

variable (source : String) (t : SyntaxTree)

@[simp] theorem kind_patternNode : (patternNode source t).kind = t.kind := by
  cases t
  rfl

theorem accepts_patternNode : (patternNode source t).accepts =
    PatternNode.acceptsOf t.kind (textOf source t.span) (t.tokens.map (patternNode source)) := by
  cases t
  rw [patternNode, tokens, ← patternTokens_eq]
  rfl

end PatternNode

mutual

/-- Some alternative of a pattern cannot fail exactly if the pattern as a whole cannot. -/
theorem settled_patternNode (source : String) : (t : SyntaxTree) → (patternNode source t).Settled
  | node kind isNamed span field children => by
    rw [patternNode]
    exact PatternNode.any_alternativesOf (settled_patternTokens source children) kind _ span

theorem settled_patternTokens (source : String) : (trees : List SyntaxTree) →
    ∀ t ∈ patternTokens source trees, t.Settled
  | [] => by simp [patternTokens]
  | t :: rest => by
    have hr := settled_patternTokens source rest
    rw [patternTokens]
    split
    · exact hr
    · exact List.forall_mem_cons.2 ⟨settled_patternNode source t, hr⟩

end

/-! ## Patterns that cannot fail -/

/-- The pattern cannot fail. -/
inductive Irrefutable (source : String) : SyntaxTree → Prop
  /-- `_`. -/
  | wildcard {t : SyntaxTree} (hk : t.kind = .wildcardToken) : Irrefutable source t
  /-- A name that is bound.  The names of constants are compared with. -/
  | name {t : SyntaxTree} (hk : t.kind = .identifier)
      (hn : textOf source t.span ∉ ["None", "True", "False"]) : Irrefutable source t
  /-- A name where names with dots may stand. -/
  | undotted {t name : SyntaxTree} (hk : t.kind = .dottedName) (ht : t.tokens = [name])
      (hn : name.kind = .identifier) (h : Irrefutable source name) : Irrefutable source t
  /-- A pattern as such. -/
  | pattern {t inner : SyntaxTree} (hk : t.kind = .casePattern) (ht : t.tokens = [inner])
      (h : Irrefutable source inner) : Irrefutable source t
  /-- A pattern in parentheses, without a comma behind it. -/
  | grouped {t opening inner closing : SyntaxTree} (hk : t.kind = .tuplePattern)
      (ht : t.tokens = [opening, inner, closing]) (ho : opening.kind = .openToken)
      (hc : closing.kind = .closeToken) (h : Irrefutable source inner) : Irrefutable source t
  /-- A pattern that is given a name by `as`. -/
  | named {t inner : SyntaxTree} {rest : List SyntaxTree} (hk : t.kind = .asPattern)
      (ht : t.tokens = inner :: rest) (h : Irrefutable source inner) : Irrefutable source t
  /-- An or-pattern with an alternative that cannot fail. -/
  | either {t alternative : SyntaxTree} (hk : t.kind = .unionPattern)
      (ht : StandsAlone (·.kind = .barToken) t.tokens alternative)
      (h : Irrefutable source alternative) : Irrefutable source t

end SyntaxTree

theorem PatternNode.isIrrefutable_nameKind (text : String) :
    (nameKind text).isIrrefutable = true ↔ text ∉ ["None", "True", "False"] := by
  rw [nameKind.eq_def]
  split <;> simp_all [PatternKind.isIrrefutable]

/-- An or-pattern cannot fail if a token that is an alternative by itself cannot. -/
theorem PatternNode.isIrrefutable_union (text : String) {tokens : List PatternNode} :
    (acceptsOf .unionPattern text tokens).isIrrefutable = true ↔
      ∃ t, StandsAlone (·.kind = .barToken) tokens t ∧ t.accepts.isIrrefutable = true := by
  rw [acceptsOf, isIrrefutable_find?_getD, List.any_map, List.any_eq_true]
  constructor
  · rintro ⟨segment, hs, ha⟩
    rw [Function.comp, segmentAccepts.eq_def] at ha
    split at ha
    · next t => exact ⟨t, singleton_mem_segments_iff.1 hs, ha⟩
    · cases ha
  · rintro ⟨t, ht, ha⟩
    exact ⟨[t], singleton_mem_segments_iff.2 ht, ha⟩

theorem Numbering.run_bind {α β : Type} (x : Numbering α) (f : α → Numbering β) (n : StmtId) :
    (x >>= f).run n = (f (x.run n).1).run (x.run n).2 :=
  rfl

namespace SyntaxTree

variable {source : String}

theorem Irrefutable.isIrrefutable_accepts {t : SyntaxTree} (h : Irrefutable source t) :
    (patternNode source t).accepts.isIrrefutable = true := by
  induction h with
  | wildcard hk =>
    rw [accepts_patternNode, hk]
    rfl
  | name hk hn =>
    rw [accepts_patternNode, hk]
    exact (PatternNode.isIrrefutable_nameKind _).2 hn
  | undotted hk ht hn h ih =>
    rw [accepts_patternNode, hk, ht]
    simpa [PatternNode.acceptsOf, hn] using ih
  | pattern hk ht h ih =>
    rw [accepts_patternNode, hk, ht]
    exact ih
  | grouped hk ht ho hc h ih =>
    rw [accepts_patternNode, hk, ht]
    simpa [PatternNode.acceptsOf, ho, hc] using ih
  | named hk ht h ih =>
    rw [accepts_patternNode, hk, ht]
    simp only [List.map_cons, PatternNode.acceptsOf, ih, if_true]
    rfl
  | either hk ht h ih =>
    rw [accepts_patternNode, hk, PatternNode.isIrrefutable_union]
    exact ⟨_, standsAlone_map_iff.2 ⟨_, by simpa using ht, rfl⟩, ih⟩

/-- A node whose tokens are classified by the rules is. -/
theorem irrefutable_of_tokens {t : SyntaxTree}
    (ih : ∀ token ∈ t.tokens, (patternNode source token).accepts.isIrrefutable = true →
      Irrefutable source token)
    (h : (patternNode source t).accepts.isIrrefutable = true) : Irrefutable source t := by
  rw [accepts_patternNode, PatternNode.acceptsOf.eq_def] at h
  -- one case for each rule of the classification, and one for all other kinds
  split at h
  · next hk => exact .wildcard hk
  · next hk hm =>
    obtain ⟨inner, ht, rfl⟩ := List.map_eq_singleton_iff.1 hm
    exact .pattern hk ht (ih inner (by simp [ht]) h)
  · next hk => exact .name hk ((PatternNode.isIrrefutable_nameKind _).1 h)
  · next hk hm =>
    obtain ⟨name, ht, rfl⟩ := List.map_eq_singleton_iff.1 hm
    split at h
    · next hn =>
      rw [kind_patternNode, beq_iff_eq] at hn
      exact .undotted hk ht hn (ih name (by simp [ht]) h)
    · cases h
  · next hk hm =>
    obtain ⟨inner, rest, ht, rfl, -⟩ := List.map_eq_cons_iff.1 hm
    split at h
    · next ha => exact .named hk ht (ih inner (by simp [ht]) ha)
    · cases h
  · next hk hm =>
    obtain ⟨opening, rest, ht, rfl, hm'⟩ := List.map_eq_cons_iff.1 hm
    obtain ⟨inner, rest, rfl, rfl, hm''⟩ := List.map_eq_cons_iff.1 hm'
    obtain ⟨closing, rfl, rfl⟩ := List.map_eq_singleton_iff.1 hm''
    split at h
    · next hp =>
      rw [kind_patternNode, kind_patternNode, Bool.and_eq_true, beq_iff_eq, beq_iff_eq] at hp
      exact .grouped hk ht hp.1 hp.2 (ih inner (by simp [ht]) h)
    · cases h
  · next hk =>
    obtain ⟨_, hm, ha⟩ := (PatternNode.isIrrefutable_union (textOf source t.span)).1 h
    obtain ⟨alternative, hs, rfl⟩ := standsAlone_map_iff.1 hm
    exact .either hk (by simpa using hs) (ih alternative hs.mem ha)
  · cases h

mutual

theorem irrefutable_of_accepts : (t : SyntaxTree) →
    (patternNode source t).accepts.isIrrefutable = true → Irrefutable source t
  | node _ _ _ _ children, h =>
    irrefutable_of_tokens
      (fun token ht =>
        irrefutable_of_accepts_among children token (mem_children_of_mem_tokens ht)) h

theorem irrefutable_of_accepts_among : (trees : List SyntaxTree) → ∀ t ∈ trees,
    (patternNode source t).accepts.isIrrefutable = true → Irrefutable source t
  | [] => by simp
  | t :: rest =>
    List.forall_mem_cons.2 ⟨irrefutable_of_accepts t, irrefutable_of_accepts_among rest⟩

end

/-- Patterns are classified by the rules. -/
theorem isIrrefutable_accepts_iff {t : SyntaxTree} :
    (patternNode source t).accepts.isIrrefutable = true ↔ Irrefutable source t :=
  ⟨irrefutable_of_accepts t, Irrefutable.isIrrefutable_accepts⟩

/-! ## Clauses -/

/-- The node is a clause of a `match`. -/
def isCase (t : SyntaxTree) : Bool :=
  t.isNamed && t.kind == .caseClause

/-- The clause has a guard. -/
def isGuarded (clause : SyntaxTree) : Bool :=
  clause.children.any fun t => t.isNamed && t.kind == .ifClause

/-- There is a comma between or behind the patterns of the clause. -/
def hasComma (clause : SyntaxTree) : Bool :=
  clause.children.any (·.kind == .other ",")

/-- The pattern is the only one of the clause. -/
def OnlyPattern (clause pattern : SyntaxTree) : Prop :=
  (clause.children.filter fun t => t.isNamed && t.kind == .casePattern) = [pattern]

/-- The clause accepts every subject: it has no guard, and no comma makes a sequence of its one
pattern, which cannot fail. -/
structure CannotFail (source : String) (clause : SyntaxTree) : Prop where
  unguarded : clause.isGuarded = false
  commaless : clause.hasComma = false
  irrefutable : ∃ pattern, clause.OnlyPattern pattern ∧ Irrefutable source pattern

theorem guard?_eq_none_iff {clause : SyntaxTree} :
    guard? clause.children = none ↔ clause.isGuarded = false := by
  rw [guard?, Option.map_eq_none_iff, List.find?_eq_none, isGuarded, List.any_eq_false]

theorem any_casePatterns? {clause : SyntaxTree} {patterns : List Pattern}
    (h : casePatterns? source clause.children = some patterns) :
    patterns.any (·.kind.isIrrefutable) = true ↔
      ∃ pattern, clause.OnlyPattern pattern ∧ Irrefutable source pattern := by
  rw [casePatterns?] at h
  split at h
  · cases h
  · next single hs =>
    cases h
    rw [settled_patternNode, isIrrefutable_accepts_iff]
    simp [OnlyPattern, hs]
  · next first rest hne hs =>
    cases h
    rw [List.any_cons, List.any_nil, Bool.or_false]
    -- several patterns are read as one that may fail
    refine iff_of_false (by simp [PatternKind.isIrrefutable]) ?_
    rintro ⟨pattern, hp, -⟩
    rw [OnlyPattern, hs] at hp
    cases hp
    exact hne rfl

/-- The case is read off the clause. -/
structure ReadAs (source : String) (clause : SyntaxTree) (case : MatchCase) : Prop where
  span : case.span = clause.span
  patterns : casePatterns? source clause.children = some case.head.patterns
  guard : case.head.guard = guard? clause.children

theorem ReadAs.acceptsAll_iff {clause : SyntaxTree} {case : MatchCase}
    (h : ReadAs source clause case) : case.head.acceptsAll = true ↔ clause.isGuarded = false ∧
      ∃ pattern, clause.OnlyPattern pattern ∧ Irrefutable source pattern := by
  rw [CaseHead.acceptsAll, Bool.and_eq_true, h.guard, Option.isNone_iff_eq_none,
    guard?_eq_none_iff, any_casePatterns? h.patterns]

/-- The cases of a `match` are read off its clauses, one by one. -/
theorem readAs_matchCases : (trees : List SyntaxTree) → (n : StmtId) → (cases : List MatchCase) →
    ((matchCases source trees).run n).1 = some cases →
      List.Forall₂ (ReadAs source) (trees.filter isCase) cases
  | [], n, cases, h => by
    cases h
    exact .nil
  | node kind isNamed span field children :: rest, n, cases, h => by
    have hcase : (node kind isNamed span field children).isCase =
      (isNamed && kind == .caseClause) := rfl
    rw [matchCases, ← hcase] at h
    rw [List.filter_cons]
    split at h
    · next hc =>
      rw [if_pos hc]
      split at h
      · next patterns body hp hb =>
        obtain ⟨cases', hr, rfl⟩ := Option.map_eq_some_iff.1 h
        exact .cons ⟨rfl, hp, rfl⟩ (readAs_matchCases rest (body.run n).2 cases' hr)
      · cases h
    · next hc =>
      rw [if_neg hc]
      exact readAs_matchCases rest n cases h

theorem casesInBody?_eq (trees : List SyntaxTree) : casesInBody? source trees =
    (inRole? .body trees).map fun block => matchCases source block.children := by
  induction trees with
  | nil => rfl
  | cons t rest ih =>
    obtain ⟨kind, isNamed, span, field, children⟩ := t
    rw [casesInBody?, ih]
    cases hf : field == some .body <;> simp [inRole?, SyntaxTree.field, hf, SyntaxTree.children]

/-- The cases of a `match` are read off the clauses in its body. -/
theorem readAs_toStmt {t : SyntaxTree} (hk : t.kind = .matchStatement) {n : StmtId} {site : Site}
    {subject : Span} {cases : List MatchCase}
    (h : ((toStmt source t).run n).1 = .dispatch site subject cases) :
    ∃ block, inRole? .body t.children = some block ∧
      List.Forall₂ (ReadAs source) (block.children.filter isCase) cases := by
  obtain ⟨kind, isNamed, span, field, children⟩ := t
  cases hk
  simp only [toStmt, casesInBody?_eq] at h
  -- a `match` without a subject or a body is not read as one
  split at h
  · next subject' x hs hx =>
    obtain ⟨block, hb, rfl⟩ := Option.map_eq_some_iff.1 hx
    refine ⟨block, hb, ?_⟩
    rw [Numbering.run_bind, Numbering.run_bind] at h
    split at h
    · next cases' hr =>
      cases h
      exact readAs_matchCases _ _ _ hr
    · cases h
  · cases h

/-- **Which cases accept every subject.**  The cases of a `match` are read off its clauses in order.
A case is read as one that accepts every subject exactly if its clause has no guard and only one
pattern, which cannot fail.  So a clause without a comma is read as accepting every subject exactly
if it does; whether a comma follows the pattern is not asked. -/
theorem acceptsAll_iff_irrefutable {t : SyntaxTree} (hk : t.kind = .matchStatement) {n : StmtId}
    {site : Site} {subject : Span} {cases : List MatchCase}
    (h : ((toStmt source t).run n).1 = .dispatch site subject cases) :
    ∃ block, inRole? .body t.children = some block ∧
      List.Forall₂ (fun clause case => case.span = clause.span ∧
          (case.head.acceptsAll = true ↔ clause.isGuarded = false ∧
            ∃ pattern, clause.OnlyPattern pattern ∧ Irrefutable source pattern) ∧
          (clause.hasComma = false → (case.head.acceptsAll = true ↔ clause.CannotFail source)))
        (block.children.filter isCase) cases := by
  obtain ⟨block, hb, hall⟩ := readAs_toStmt hk h
  refine ⟨block, hb, hall.imp fun clause case hr => ⟨hr.span, hr.acceptsAll_iff, fun hc => ?_⟩⟩
  -- without a comma, nothing but the guard and the pattern is left to ask
  rw [hr.acceptsAll_iff]
  constructor
  · rintro ⟨hg, hp⟩
    exact ⟨hg, hc, hp⟩
  · intro h
    exact ⟨h.unguarded, h.irrefutable⟩

end SyntaxTree

/-- A function that matches a number or anything else. -/
def numberOrName : String :=
  "def f():\n    match x:\n        case (-1 | y):\n            pass\n"

/-- The tree of its `match`.  The first alternative of the pattern has two tokens. -/
def numberOrNameTree : SyntaxTree :=
  .node .matchStatement true ⟨13, 61⟩ none
    [.node (.other "match") false ⟨13, 18⟩ none [],
      .node .identifier true ⟨19, 20⟩ (some .subject) [],
      .node .colonToken false ⟨20, 21⟩ none [],
      .node .block true ⟨21, 61⟩ (some .body)
        [.node .caseClause true ⟨30, 61⟩ (some .alternative)
          [.node (.other "case") false ⟨30, 34⟩ none [],
            .node .casePattern true ⟨35, 43⟩ none
              [.node .tuplePattern true ⟨35, 43⟩ none
                [.node .openToken false ⟨35, 36⟩ none [],
                  .node .casePattern true ⟨36, 42⟩ none
                    [.node .unionPattern true ⟨36, 42⟩ none
                      [.node (.other "-") false ⟨36, 37⟩ none [],
                        .node (.other "integer") true ⟨37, 38⟩ none [],
                        .node .barToken false ⟨39, 40⟩ none [],
                        .node .dottedName true ⟨41, 42⟩ none
                          [.node .identifier true ⟨41, 42⟩ none []]]],
                  .node .closeToken false ⟨42, 43⟩ none []]],
            .node .colonToken false ⟨43, 44⟩ none [],
            .node .block true ⟨57, 61⟩ (some .consequence)
              [.node .passStatement true ⟨57, 61⟩ none []]]]]

theorem acceptsAll_numberOrName : ∃ site subject case block clause,
    ((numberOrNameTree.toStmt numberOrName).run 0).1 = .dispatch site subject [case] ∧
      SyntaxTree.inRole? .body numberOrNameTree.children = some block ∧
      block.children.filter SyntaxTree.isCase = [clause] ∧ case.head.acceptsAll = true ∧
      clause.CannotFail numberOrName := by
  obtain ⟨site, subject, case, block, clause, h, hb, hf, hcase, hcomma⟩ :
      ∃ site subject case block clause,
        ((numberOrNameTree.toStmt numberOrName).run 0).1 = .dispatch site subject [case] ∧
        SyntaxTree.inRole? .body numberOrNameTree.children = some block ∧
        block.children.filter SyntaxTree.isCase = [clause] ∧ case.head.acceptsAll = true ∧
        clause.hasComma = false :=
    ⟨_, _, _, _, _, rfl, rfl, rfl, by decide, by decide⟩
  obtain ⟨block', hb', hall⟩ := SyntaxTree.acceptsAll_iff_irrefutable rfl h
  cases hb.symm.trans hb'
  rw [hf] at hall
  obtain ⟨⟨-, -, hiff⟩, -⟩ := List.forall₂_cons.1 hall
  exact ⟨site, subject, case, block, clause, h, hb, hf, hcase, (hiff hcomma).1 hcase⟩

/-- A function that matches sequences of one element. -/
def oneElement : String :=
  "def f():\n    match x:\n        case rest,:\n            pass\n"

/-- The tree of its `match`. -/
def oneElementTree : SyntaxTree :=
  .node .matchStatement true ⟨13, 58⟩ none
    [.node (.other "match") false ⟨13, 18⟩ none [],
      .node .identifier true ⟨19, 20⟩ (some .subject) [],
      .node .colonToken false ⟨20, 21⟩ none [],
      .node .block true ⟨21, 58⟩ (some .body)
        [.node .caseClause true ⟨30, 58⟩ (some .alternative)
          [.node (.other "case") false ⟨30, 34⟩ none [],
            .node .casePattern true ⟨35, 39⟩ none
              [.node .dottedName true ⟨35, 39⟩ none [.node .identifier true ⟨35, 39⟩ none []]],
            .node (.other ",") false ⟨39, 40⟩ none [],
            .node .colonToken false ⟨40, 41⟩ none [],
            .node .block true ⟨54, 58⟩ (some .consequence)
              [.node .passStatement true ⟨54, 58⟩ none []]]]]

/-- The comma is overlooked: the case is read as one that accepts every subject. -/
theorem acceptsAll_oneElement : ∃ site subject case block clause,
    ((oneElementTree.toStmt oneElement).run 0).1 = .dispatch site subject [case] ∧
      SyntaxTree.inRole? .body oneElementTree.children = some block ∧
      block.children.filter SyntaxTree.isCase = [clause] ∧ case.head.acceptsAll = true ∧
      ¬ clause.CannotFail oneElement := by
  refine ⟨_, _, _, _, _, rfl, rfl, rfl, by decide, fun h => ?_⟩
  cases h.commaless

end Flowgraph
