import Mathlib.Data.List.Nodup
import Flowgraph.Proofs.Faults
import Flowgraph.Proofs.Syntax

/-!
# Numbers and spans of what is read

Statements are numbered by a counter that reading passes on.  While the counter goes from one value
to another, the statements that are read get numbers between the two, and no two get the same one.
Read in order, the numbers ascend, with one exception.  A `try` lists its handlers, its `else` and
its `finally` clause in this order, but they are numbered as they are met.  Where the clauses are
met in the order in which they are listed, all numbers ascend.

Reading a compound statement can fail half-way.  The numbers that were given out by then stay used,
so nothing is lost by leaving out the statements that have them.

The same induction shows where spans come from.  Both are asked of a computation by `Reads`, which
says what numbers are given out once it is done, if some were given out before.

## Main definitions

* `Numbered` : numbers given out while the counter goes from one value to another.
* `Reads` : what a computation that numbers statements does.
* `Stmt.spans` : the spans of a statement itself.

## Main results

* `SyntaxTree.reads_toStmt`, `SyntaxTree.readsBody_items` : what reading statements does.
* `SyntaxTree.functions_numbered` : the numbers of the statements of a function.
-/

namespace Flowgraph

/-! ## Numbers -/

/-- Numbers given out while the counter goes from `m` to `n`: none is given out twice, and they
ascend if `o` holds. -/
structure Numbered (o : Prop) (m n : StmtId) (ids : List StmtId) : Prop where
  le : m ≤ n
  mem : ∀ id ∈ ids, m ≤ id ∧ id < n
  nodup : ids.Nodup
  sorted : o → ids.Pairwise (· < ·)

namespace Numbered

variable {o : Prop} {l m n : StmtId} {ids ids' : List StmtId}

theorem nil (h : m ≤ n) : Numbered o m n [] :=
  ⟨h, by simp, List.nodup_nil, fun _ => List.Pairwise.nil⟩

theorem append (h : Numbered o l m ids) (h' : Numbered o m n ids') :
    Numbered o l n (ids ++ ids') where
  le := Nat.le_trans h.le h'.le
  mem id hid := by
    rcases List.mem_append.1 hid with hid | hid
    · exact ⟨(h.mem id hid).1, Nat.lt_of_lt_of_le (h.mem id hid).2 h'.le⟩
    · exact ⟨Nat.le_trans h.le (h'.mem id hid).1, (h'.mem id hid).2⟩
  nodup := by
    refine List.nodup_append.2 ⟨h.nodup, h'.nodup, fun a ha b hb => ?_⟩
    exact Nat.ne_of_lt (Nat.lt_of_lt_of_le (h.mem a ha).2 (h'.mem b hb).1)
  sorted ho := by
    refine List.pairwise_append.2 ⟨h.sorted ho, h'.sorted ho, fun a ha b hb => ?_⟩
    exact Nat.lt_of_lt_of_le (h.mem a ha).2 (h'.mem b hb).1

/-- Some of the numbers, in any order; if they are to ascend, in the order in which they were given
out. -/
theorem of_perm (h : Numbered o m n ids) {kept : List StmtId} (hk : kept.Sublist ids)
    (hp : ids'.Perm kept) (hs : o → ids'.Sublist ids) : Numbered o m n ids' where
  le := h.le
  mem id hid := h.mem id (hk.subset (hp.subset hid))
  nodup := hp.nodup_iff.2 (hk.nodup h.nodup)
  sorted ho := (h.sorted ho).sublist (hs ho)

theorem sublist (h : Numbered o m n ids) (hs : ids'.Sublist ids) : Numbered o m n ids' :=
  h.of_perm hs (List.Perm.refl _) fun _ => hs

end Numbered

/-! ## Computations that number statements -/

/-- If the numbers `given` are given out before, the numbers of the result are given out
afterwards, and the result has the property `P`. -/
def Reads {α : Type} (o : Prop) (given : List StmtId) (x : Numbering α) (ids : α → List StmtId)
    (P : α → Prop) : Prop :=
  ∀ l m, Numbered o l m given →
    Numbered o l (x.run m).2 (ids (x.run m).1) ∧ P (x.run m).1

namespace Reads

variable {α β : Type} {o : Prop} {given given' : List StmtId} {x : Numbering α}
  {f : α → Numbering β} {ids : α → List StmtId} {ids' : β → List StmtId} {P : α → Prop}
  {Q : β → Prop}

theorem pure {a : α} (hp : P a) (hs : (ids a).Sublist given) :
    Reads o given (Pure.pure a : Numbering α) ids P :=
  fun _ _ h => ⟨h.sublist hs, hp⟩

theorem bind (hx : Reads o given x ids P) (hf : ∀ a, P a → Reads o (ids a) (f a) ids' Q) :
    Reads o given (x >>= f) ids' Q := by
  intro l m h
  obtain ⟨hm, hp⟩ := hx l m h
  exact hf _ hp l _ hm

/-- What is given out before does not matter to a computation. -/
theorem andThen (hx : Reads o [] x ids P)
    (hf : ∀ a, P a → Reads o (given ++ ids a) (f a) ids' Q) : Reads o given (x >>= f) ids' Q := by
  intro l m h
  obtain ⟨hm, hp⟩ := hx m m (.nil (Nat.le_refl m))
  exact hf _ hp l _ (h.append hm)

theorem andThen_site {span : Span} {f : Site → Numbering β}
    (hf : ∀ site : Site, site.span = span → Reads o (given ++ [site.id]) (f site) ids' Q) :
    Reads o given (Numbering.site span >>= f) ids' Q := by
  intro l m h
  have hone : Numbered o m (m + 1) [m] :=
    ⟨Nat.le_succ m, by simp, List.nodup_singleton m, fun _ => List.pairwise_singleton _ m⟩
  exact hf ⟨m, span⟩ rfl l (m + 1) (h.append hone)

/-- What is given out before may be listed differently. -/
theorem relisted (hx : Reads o given' x ids P) (kept : List StmtId) (hk : kept.Sublist given)
    (hp : given'.Perm kept) (hs : o → given'.Sublist given) : Reads o given x ids P :=
  fun l m h => hx l m (h.of_perm hk hp hs)

end Reads

/-! ## Spans of statements -/

/-- The spans of a statement itself, those of the statements inside it left out. -/
def Stmt.spans : Stmt → List Span
  | .branch site test _ clauses =>
    site.span :: test :: clauses.flatMap fun clause => clause.span :: clause.head.toList
  | .loop site (.condition test) _ _ => [site.span, test]
  | .loop site (.items isAsync target iterable) _ _ =>
    [site.span, target, iterable, (LoopHead.items isAsync target iterable).span]
  | .attempt site _ handlers _ _ =>
    site.span :: handlers.flatMap fun handler => handler.span :: handler.head.toList
  | .hold site _ header _ => [site.span, header]
  | .dispatch site subject cases =>
    site.span :: subject :: cases.flatMap fun case =>
      case.span :: case.head.patterns.map (·.span) ++ case.head.guard.toList
  | s => [s.site.span]

/-- `S` holds of the spans of a statement itself. -/
def Stmt.Spanned (S : Span → Prop) (s : Stmt) : Prop :=
  ∀ span ∈ s.spans, S span

/-- `S` holds of the spans of a statement and of the statements inside it. -/
def Stmt.AllSpanned (S : Span → Prop) (s : Stmt) : Prop :=
  ∀ t ∈ s.statements, t.Spanned S

/-- `S` holds of the spans of all statements of a body. -/
def BodySpanned (S : Span → Prop) (body : List Stmt) : Prop :=
  ∀ s ∈ bodyStatements body, s.Spanned S

theorem bodyStatements_append (body rest : List Stmt) :
    bodyStatements (body ++ rest) = bodyStatements body ++ bodyStatements rest := by
  induction body with
  | nil => rfl
  | cons s body ih => rw [List.cons_append, bodyStatements, bodyStatements, ih, List.append_assoc]

theorem clauseStatements_append (clauses rest : List BranchClause) :
    clauseStatements (clauses ++ rest) = clauseStatements clauses ++ clauseStatements rest := by
  induction clauses with
  | nil => rfl
  | cons clause clauses ih =>
    rw [List.cons_append, clauseStatements, clauseStatements, ih, List.append_assoc]

theorem Stmt.allSpanned_of_leaf {S : Span → Prop} {s : Stmt} (hs : s.statements = [s])
    (hp : s.spans = [s.site.span]) (h : S s.site.span) : s.AllSpanned S := by
  rw [AllSpanned, hs, List.forall_mem_singleton, Spanned, hp, List.forall_mem_singleton]
  exact h

theorem BodySpanned.nil {S : Span → Prop} : BodySpanned S [] := by
  simp [BodySpanned, bodyStatements]

theorem BodySpanned.cons {S : Span → Prop} {s : Stmt} {rest : List Stmt} (hs : s.AllSpanned S)
    (hr : BodySpanned S rest) : BodySpanned S (s :: rest) :=
  List.forall_mem_append.2 ⟨hs, hr⟩

theorem BodySpanned.append {S : Span → Prop} {body rest : List Stmt} (h : BodySpanned S body)
    (hr : BodySpanned S rest) : BodySpanned S (body ++ rest) := by
  rw [BodySpanned, bodyStatements_append]
  exact List.forall_mem_append.2 ⟨h, hr⟩

/-- The numbers of the statements of a body, each statement before those inside it. -/
def bodyIds (body : List Stmt) : List StmtId :=
  (bodyStatements body).map Stmt.id

@[simp] theorem bodyIds_nil : bodyIds [] = [] := rfl

@[simp] theorem bodyIds_cons (s : Stmt) (rest : List Stmt) :
    bodyIds (s :: rest) = s.statements.map Stmt.id ++ bodyIds rest := by
  rw [bodyIds, bodyStatements, List.map_append, ← bodyIds]

@[simp] theorem bodyIds_append (body rest : List Stmt) :
    bodyIds (body ++ rest) = bodyIds body ++ bodyIds rest := by
  rw [bodyIds, bodyStatements_append, List.map_append, ← bodyIds, ← bodyIds]

/-- What reading a body does. -/
def ReadsBody (o : Prop) (S : Span → Prop) (x : Numbering (List Stmt)) : Prop :=
  Reads o [] x bodyIds (BodySpanned S)

namespace SyntaxTree

variable {source : String} {o : Prop} {S : Span → Prop}

/-! ## Comments and suspensions -/

theorem readsBody_markers : (spans : List Span) → (∀ span ∈ spans, S span) →
    ReadsBody o S (markers source spans)
  | [], _ => Reads.pure .nil (List.nil_sublist _)
  | span :: rest, h => by
    obtain ⟨hs, hr⟩ := List.forall_mem_cons.1 h
    have ih := readsBody_markers rest hr
    rw [markers]
    split
    · exact ih
    · refine Reads.andThen_site fun site hsite => ih.andThen fun body hb => Reads.pure ?_ ?_
      · subst hsite
        exact .cons (Stmt.allSpanned_of_leaf rfl rfl hs) hb
      · simp [Stmt.statements, Stmt.id, Stmt.site]

theorem readsBody_suspension {t : SyntaxTree} (h : Reading o S t.nodes) :
    ReadsBody o S (suspension t) := by
  have hnil : ReadsBody o S (pure []) := Reads.pure .nil (List.nil_sublist _)
  have hyield : ∀ span, firstYield? t = some span →
      ReadsBody o S (do return [.yield (← Numbering.site span)]) := by
    intro span hy
    obtain ⟨n, hn, rfl⟩ := exists_node_of_firstYield? t hy
    have hs := (h.readable n hn).span
    refine Reads.andThen_site fun site hsite => Reads.pure ?_ ?_
    · rw [← hsite] at hs
      exact .cons (Stmt.allSpanned_of_leaf rfl rfl hs) .nil
    · simp [Stmt.statements, Stmt.id, Stmt.site]
  rw [suspension.eq_def]
  split
  -- `return` and `raise` may suspend the function before they leave it
  iterate 2
    · split
      · next span hy => exact hyield span hy
      · exact hnil
  · exact hnil

theorem spanned_commentRun {run : List Span} {t : SyntaxTree} (hr : ∀ span ∈ run, S span)
    (ht : S t.span) : ∀ span ∈ commentRun run t, S span := by
  rw [commentRun]
  split
  · exact hr
  · split
    · exact List.forall_mem_append.2 ⟨hr, List.forall_mem_singleton.2 ht⟩
    · simp

/-! ## Clauses -/

/-- The numbers of the statements in clauses. -/
def clauseIds (clauses : List BranchClause) : List StmtId :=
  (clauseStatements clauses).map Stmt.id

/-- The numbers of the statements in cases. -/
def caseIds (cases : List MatchCase) : List StmtId :=
  (caseStatements cases).map Stmt.id

/-- `S` holds of the spans of clauses and of the statements in them. -/
structure ClausesSpanned (S : Span → Prop) (clauses : List BranchClause) : Prop where
  heads : ∀ clause ∈ clauses, S clause.span ∧ ∀ head ∈ clause.head, S head
  bodies : ∀ s ∈ clauseStatements clauses, s.Spanned S

/-- `S` holds of the spans of cases and of the statements in them. -/
structure CasesSpanned (S : Span → Prop) (cases : List MatchCase) : Prop where
  heads : ∀ case ∈ cases, S case.span ∧ (∀ pattern ∈ case.head.patterns, S pattern.span) ∧
    ∀ guard ∈ case.head.guard, S guard
  bodies : ∀ s ∈ caseStatements cases, s.Spanned S

theorem ClausesSpanned.nil : ClausesSpanned S [] :=
  ⟨by simp, by simp [clauseStatements]⟩

theorem ClausesSpanned.cons {clause : BranchClause} {rest : List BranchClause}
    (hs : S clause.span) (hh : ∀ head ∈ clause.head, S head) (hb : BodySpanned S clause.body)
    (hr : ClausesSpanned S rest) : ClausesSpanned S (clause :: rest) :=
  ⟨List.forall_mem_cons.2 ⟨⟨hs, hh⟩, hr.heads⟩, List.forall_mem_append.2 ⟨hb, hr.bodies⟩⟩

theorem ClausesSpanned.append {clauses rest : List BranchClause} (h : ClausesSpanned S clauses)
    (hr : ClausesSpanned S rest) : ClausesSpanned S (clauses ++ rest) where
  heads := List.forall_mem_append.2 ⟨h.heads, hr.heads⟩
  bodies := by
    rw [clauseStatements_append]
    exact List.forall_mem_append.2 ⟨h.bodies, hr.bodies⟩

theorem CasesSpanned.nil : CasesSpanned S [] :=
  ⟨by simp, by simp [caseStatements]⟩

theorem CasesSpanned.cons {case : MatchCase} {rest : List MatchCase} (hs : S case.span)
    (hp : ∀ pattern ∈ case.head.patterns, S pattern.span) (hg : ∀ guard ∈ case.head.guard, S guard)
    (hb : BodySpanned S case.body) (hr : CasesSpanned S rest) : CasesSpanned S (case :: rest) :=
  ⟨List.forall_mem_cons.2 ⟨⟨hs, hp, hg⟩, hr.heads⟩, List.forall_mem_append.2 ⟨hb, hr.bodies⟩⟩

namespace AttemptClauses

/-- The numbers of the statements in the clauses of a `try`. -/
def ids (clauses : AttemptClauses) : List StmtId :=
  clauseIds clauses.handlers ++ bodyIds clauses.orelse ++ bodyIds clauses.final

/-- `S` holds of the spans of the clauses of a `try` and of the statements in them. -/
structure Spanned (S : Span → Prop) (clauses : AttemptClauses) : Prop where
  handlers : ClausesSpanned S clauses.handlers
  orelse : BodySpanned S clauses.orelse
  final : BodySpanned S clauses.final

/-- The clauses of a `try` that are still to be read are in order and come after those that have
been read. -/
structure Precede (clauses : AttemptClauses) (trees : List SyntaxTree) : Prop where
  inOrder : ClausesInOrder trees
  orelse : clauses.orelse ≠ [] → ∀ rank ∈ trees.filterMap clauseRank?, 1 < rank
  final : clauses.final ≠ [] → ∀ rank ∈ trees.filterMap clauseRank?, 2 < rank

variable {clauses : AttemptClauses} {t : SyntaxTree} {rest : List SyntaxTree}

theorem Precede.tail (h : clauses.Precede (t :: rest)) : clauses.Precede rest := by
  have hs : (rest.filterMap clauseRank?).Sublist ((t :: rest).filterMap clauseRank?) :=
    (List.sublist_cons_self t rest).filterMap _
  exact ⟨h.inOrder.sublist hs, fun ho rank hr => h.orelse ho rank (hs.subset hr),
    fun hf rank hr => h.final hf rank (hs.subset hr)⟩

/-- No clause that comes later in the order has been read before one that is still to be read. -/
theorem Precede.eq_nil (h : clauses.Precede (t :: rest)) {rank : Nat}
    (hr : clauseRank? t = some rank) :
    (rank ≤ 1 → clauses.orelse = []) ∧ (rank ≤ 2 → clauses.final = []) := by
  have hm : rank ∈ (t :: rest).filterMap clauseRank? := by simp [hr]
  constructor
  · intro hle
    by_contra hne
    exact absurd (h.orelse hne rank hm) (Nat.not_lt.2 hle)
  · intro hle
    by_contra hne
    exact absurd (h.final hne rank hm) (Nat.not_lt.2 hle)

/-- What comes after an `else` or a `finally` clause has a higher place in the order. -/
theorem Precede.lt (h : clauses.Precede (t :: rest)) {rank : Nat} (hpos : 0 < rank)
    (hr : clauseRank? t = some rank) : ∀ rank' ∈ rest.filterMap clauseRank?, rank < rank' := by
  have hp := h.inOrder
  rw [ClausesInOrder, List.filterMap_cons, hr, List.pairwise_cons] at hp
  intro rank' hr'
  rcases hp.1 rank' hr' with hlt | ⟨h0, -⟩
  · exact hlt
  · exact absurd h0 (Nat.ne_of_gt hpos)

theorem Precede.setElse (h : clauses.Precede (t :: rest)) (hr : clauseRank? t = some 1)
    (body : List Stmt) : { clauses with orelse := body }.Precede rest :=
  ⟨h.tail.inOrder, fun _ => h.lt Nat.one_pos hr, h.tail.final⟩

theorem Precede.setFinal (h : clauses.Precede (t :: rest)) (hr : clauseRank? t = some 2)
    (body : List Stmt) : { clauses with final := body }.Precede rest :=
  ⟨h.tail.inOrder, h.tail.orelse, fun _ => h.lt Nat.two_pos hr⟩

variable {α : Type} {x : Numbering α} {ids' : α → List StmtId} {P : α → Prop}

/-- The numbers of a handler are listed after those of the handlers before it. -/
theorem reads_addHandler (handler : Handler)
    (ho : o → clauses.orelse = [] ∧ clauses.final = [])
    (hx : Reads o { clauses with handlers := clauses.handlers ++ [handler] }.ids x ids' P) :
    Reads o (clauses.ids ++ bodyIds handler.body) x ids' P := by
  have hids : { clauses with handlers := clauses.handlers ++ [handler] }.ids =
      clauseIds clauses.handlers ++ bodyIds handler.body ++
        (bodyIds clauses.orelse ++ bodyIds clauses.final) := by
    simp [ids, clauseIds, clauseStatements_append, clauseStatements, bodyIds]
  rw [hids] at hx
  -- what was read last is listed before the `else` and `finally` clauses
  have hcomm : (bodyIds handler.body ++ (bodyIds clauses.orelse ++ bodyIds clauses.final)).Perm
      (bodyIds clauses.orelse ++ bodyIds clauses.final ++ bodyIds handler.body) :=
    List.perm_append_comm
  refine hx.relisted _ (List.Sublist.refl _) ?_ fun h => ?_
  · simpa only [ids, List.append_assoc] using hcomm.append_left (clauseIds clauses.handlers)
  · simp [ids, ho h]

/-- The numbers of an `else` clause take the place of those of an earlier one. -/
theorem reads_setElse (ho : o → clauses.orelse = [] ∧ clauses.final = []) {body : List Stmt}
    (hx : Reads o { clauses with orelse := body }.ids x ids' P) :
    Reads o (clauses.ids ++ bodyIds body) x ids' P := by
  refine hx.relisted (clauseIds clauses.handlers ++ bodyIds clauses.final ++ bodyIds body)
    ?_ ?_ fun h => ?_
  · simp only [ids]
    apply List.Sublist.append_right
    apply List.Sublist.append_right
    exact List.sublist_append_left _ _
  · simp only [ids, List.append_assoc]
    apply List.Perm.append_left
    exact List.perm_append_comm
  · simp [ids, ho h]

/-- The numbers of a `finally` clause take the place of those of an earlier one. -/
theorem reads_setFinal {body : List Stmt}
    (hx : Reads o { clauses with final := body }.ids x ids' P) :
    Reads o (clauses.ids ++ bodyIds body) x ids' P := by
  have hs : ({ clauses with final := body }.ids).Sublist (clauses.ids ++ bodyIds body) := by
    simp only [ids]
    apply List.Sublist.append_right
    exact List.sublist_append_left _ _
  exact hx.relisted _ hs (List.Perm.refl _) fun _ => hs

end AttemptClauses

/-! ## Compound statements -/

section Compound

variable {site : Site} {body orelse : List Stmt} (hsite : S site.span)

include hsite

theorem allSpanned_branch {test : Span} {clauses : List BranchClause} (ht : S test)
    (hb : BodySpanned S body) (hc : ClausesSpanned S clauses) :
    (Stmt.branch site test body clauses).AllSpanned S := by
  refine List.forall_mem_cons.2 ⟨?_, List.forall_mem_append.2 ⟨hb, hc.bodies⟩⟩
  simp only [Stmt.Spanned, Stmt.spans, List.forall_mem_cons, List.forall_mem_flatMap]
  refine ⟨hsite, ht, fun clause hm => ?_⟩
  obtain ⟨hs, hh⟩ := hc.heads clause hm
  exact ⟨hs, by simpa using hh⟩

theorem allSpanned_while {test : Span} (ht : S test) (hb : BodySpanned S body)
    (ho : BodySpanned S orelse) : (Stmt.loop site (.condition test) body orelse).AllSpanned S := by
  refine List.forall_mem_cons.2 ⟨?_, List.forall_mem_append.2 ⟨hb, ho⟩⟩
  simp only [Stmt.Spanned, Stmt.spans, List.forall_mem_cons]
  exact ⟨hsite, ht, by simp⟩

theorem allSpanned_for (hhull : ∀ a b, S a → S b → S (a.hull b)) {isAsync : Bool}
    {target iterable : Span} (ht : S target) (hi : S iterable) (hb : BodySpanned S body)
    (ho : BodySpanned S orelse) :
    (Stmt.loop site (.items isAsync target iterable) body orelse).AllSpanned S := by
  refine List.forall_mem_cons.2 ⟨?_, List.forall_mem_append.2 ⟨hb, ho⟩⟩
  simp only [Stmt.Spanned, Stmt.spans, List.forall_mem_cons]
  exact ⟨hsite, ht, hi, hhull target iterable ht hi, by simp⟩

theorem allSpanned_attempt (hb : BodySpanned S body) {clauses : AttemptClauses}
    (hc : clauses.Spanned S) :
    (Stmt.attempt site body clauses.handlers clauses.orelse clauses.final).AllSpanned S := by
  refine List.forall_mem_cons.2 ⟨?_, ?_⟩
  · simp only [Stmt.Spanned, Stmt.spans, List.forall_mem_cons, List.forall_mem_flatMap]
    refine ⟨hsite, fun handler hm => ?_⟩
    obtain ⟨hs, hh⟩ := hc.handlers.heads handler hm
    exact ⟨hs, by simpa using hh⟩
  · simp only [List.forall_mem_append]
    exact ⟨⟨⟨hb, hc.handlers.bodies⟩, hc.orelse⟩, hc.final⟩

theorem allSpanned_hold {isAsync : Bool} {header : Span} (hh : S header) (hb : BodySpanned S body) :
    (Stmt.hold site isAsync header body).AllSpanned S := by
  refine List.forall_mem_cons.2 ⟨?_, hb⟩
  simp only [Stmt.Spanned, Stmt.spans, List.forall_mem_cons]
  exact ⟨hsite, hh, by simp⟩

theorem allSpanned_dispatch {subject : Span} {cases : List MatchCase} (hs : S subject)
    (hc : CasesSpanned S cases) : (Stmt.dispatch site subject cases).AllSpanned S := by
  refine List.forall_mem_cons.2 ⟨?_, hc.bodies⟩
  simp only [Stmt.Spanned, Stmt.spans, List.forall_mem_cons, List.forall_mem_flatMap,
    List.forall_mem_append, List.forall_mem_map]
  refine ⟨hsite, hs, fun case hm => ?_⟩
  obtain ⟨hs, hp, hg⟩ := hc.heads case hm
  exact ⟨⟨hs, hp⟩, by simpa using hg⟩

end Compound

/-! ## Reading -/

mutual

/-- What reading a statement does. -/
theorem reads_toStmt : (t : SyntaxTree) → Reading o S t.nodes →
    Reads o [] (toStmt source t) (fun s => s.statements.map Stmt.id) (Stmt.AllSpanned S)
  | node kind isNamed span field children, h => by
    have hn := h.readable _ (mem_nodes_self _)
    have hc : Reading o S (nodesAmong children) := h.below
    have hspan : S span := hn.span
    rw [toStmt]
    refine Reads.andThen_site fun site hsite => ?_
    subst hsite
    -- a statement without parts, or one that could not be read to its end
    have hleaf : ∀ (s : Stmt) given, s.statements = [s] → s.spans = [s.site.span] →
        s.site = site → Reads o (site.id :: given) (pure s : Numbering Stmt)
          (fun s => s.statements.map Stmt.id) (Stmt.AllSpanned S) := by
      rintro s given hs hp rfl
      refine Reads.pure (Stmt.allSpanned_of_leaf hs hp hspan) ?_
      simp [hs, Stmt.id]
    split
    · exact hleaf _ _ rfl rfl rfl
    · exact hleaf _ _ rfl rfl rfl
    · exact hleaf _ _ rfl rfl rfl
    · exact hleaf _ _ rfl rfl rfl
    · exact hleaf _ _ rfl rfl rfl
    · split
      · exact hleaf _ _ rfl rfl rfl
      · exact hleaf _ _ rfl rfl rfl
    · -- `if`
      split
      · next test body ht hb =>
        refine (readsBody_bodyInRole? [] children hc (by simp) body hb).andThen fun body hb => ?_
        refine (reads_branchClauses children hc).andThen fun clauses hcl => ?_
        cases clauses with
        | none => exact hleaf _ _ rfl rfl rfl
        | some clauses =>
          refine Reads.pure (allSpanned_branch hspan (hc.spanInRole? ht) hb (hcl clauses rfl)) ?_
          simp [Stmt.statements, Stmt.id, Stmt.site, clauseIds, bodyIds]
      · exact hleaf _ _ rfl rfl rfl
    · -- `while`
      split
      · next test body ht hb =>
        refine (readsBody_bodyInRole? [] children hc (by simp) body hb).andThen fun body hb => ?_
        refine (reads_elseOfLoop children hc).andThen fun orelse ho => ?_
        cases orelse with
        | none => exact hleaf _ _ rfl rfl rfl
        | some orelse =>
          refine Reads.pure (allSpanned_while hspan (hc.spanInRole? ht) hb (ho orelse rfl)) ?_
          simp [Stmt.statements, Stmt.id, Stmt.site, bodyIds]
      · exact hleaf _ _ rfl rfl rfl
    · -- `for`
      split
      · next target iterable body ht hi hb =>
        refine (readsBody_bodyInRole? [] children hc (by simp) body hb).andThen fun body hb => ?_
        refine (reads_elseOfLoop children hc).andThen fun orelse ho => ?_
        cases orelse with
        | none => exact hleaf _ _ rfl rfl rfl
        | some orelse =>
          refine Reads.pure (allSpanned_for hspan h.hull (hc.spanInRole? ht) (hc.spanInRole? hi) hb
            (ho orelse rfl)) ?_
          simp [Stmt.statements, Stmt.id, Stmt.site, bodyIds]
      · exact hleaf _ _ rfl rfl rfl
    · -- `try`
      split
      · next body hb =>
        refine (readsBody_bodyInRole? [] children hc (by simp) body hb).andThen fun body hb => ?_
        have hclauses := reads_attemptClauses {} children hc ⟨.nil, .nil, .nil⟩ fun ho =>
          ⟨hn.ordered ho rfl, by simp, by simp⟩
        refine hclauses.andThen fun clauses hcl => ?_
        cases clauses with
        | none => exact hleaf _ _ rfl rfl rfl
        | some clauses =>
          refine Reads.pure (allSpanned_attempt hspan hb (hcl clauses rfl)) ?_
          simp [Stmt.statements, Stmt.id, Stmt.site, bodyIds, AttemptClauses.ids, clauseIds]
      · exact hleaf _ _ rfl rfl rfl
    · -- `with`
      split
      · next body hb =>
        refine (readsBody_bodyInRole? [] children hc (by simp) body hb).andThen fun body hb => ?_
        refine Reads.pure (allSpanned_hold hspan (Reading.headerSpan hn) hb) ?_
        simp [Stmt.statements, Stmt.id, Stmt.site, bodyIds]
      · exact hleaf _ _ rfl rfl rfl
    · -- `match`
      split
      · next subject cases hs hcs =>
        refine (reads_casesInBody? children hc cases hcs).andThen fun cases hcs => ?_
        cases cases with
        | none => exact hleaf _ _ rfl rfl rfl
        | some cases =>
          refine Reads.pure (allSpanned_dispatch hspan (hc.subjectSpan? hs) (hcs cases rfl)) ?_
          simp [Stmt.statements, Stmt.id, Stmt.site, caseIds]
      · exact hleaf _ _ rfl rfl rfl
    · exact hleaf _ _ rfl rfl rfl
    · exact hleaf _ _ rfl rfl rfl

/-- What reading the statements of a block does. -/
theorem readsBody_items : (trees : List SyntaxTree) → Reading o S (nodesAmong trees) →
    ReadsBody o S (items source trees)
  | [], _ => Reads.pure .nil (List.nil_sublist _)
  | t :: rest, h => by
    have hrest := readsBody_items rest h.rest
    have ht : S t.span := h.span List.mem_cons_self
    rw [items]
    split
    · exact hrest
    -- a comment may set a marker; before a statement comes the suspension in it, if any
    · split
      · refine (readsBody_markers [t.span] (by simpa using ht)).andThen fun marker hm => ?_
        exact hrest.andThen fun body hb => Reads.pure (hm.append hb) (by simp)
      · refine (readsBody_suspension h.first).andThen fun before hbefore => ?_
        refine (reads_toStmt t h.first).andThen fun s hs => ?_
        exact hrest.andThen fun body hb => Reads.pure (hbefore.append (.cons hs hb)) (by simp)

theorem readsBody_bodyInRole? {role : Field} (run : List Span) : (trees : List SyntaxTree) →
    Reading o S (nodesAmong trees) → (∀ span ∈ run, S span) → ∀ x,
      bodyInRole? source role run trees = some x → ReadsBody o S x
  | [], _, _, _, hx => by simp [bodyInRole?] at hx
  | node kind isNamed span field children :: rest, h, hrun, x, hx => by
    rw [bodyInRole?] at hx
    split at hx
    · cases hx
      -- the comments right before a block belong to it
      have hbefore : ∀ span ∈ (if isNamed then run else []), S span := by
        split
        · exact hrun
        · simp
      refine (readsBody_markers _ hbefore).andThen fun before hb => ?_
      exact (readsBody_items children h.first.below).andThen fun body hbody =>
        Reads.pure (hb.append hbody) (by simp)
    · exact readsBody_bodyInRole? _ rest h.rest
        (spanned_commentRun hrun (h.span List.mem_cons_self)) x hx

theorem readsBody_lastBlock? (run : List Span) : (trees : List SyntaxTree) →
    Reading o S (nodesAmong trees) → (∀ span ∈ run, S span) → ∀ x,
      lastBlock? source run trees = some x → ReadsBody o S x
  | [], _, _, _, hx => by simp [lastBlock?] at hx
  | node kind isNamed span field children :: rest, h, hrun, x, hx => by
    have ih := readsBody_lastBlock? (commentRun run (node kind isNamed span field children)) rest
      h.rest (spanned_commentRun hrun (h.span List.mem_cons_self))
    rw [lastBlock?] at hx
    split at hx
    · next body hb => exact ih x (hb.trans hx)
    · split at hx
      · cases hx
        refine (readsBody_markers run hrun).andThen fun before hb => ?_
        exact (readsBody_items children h.first.below).andThen fun body hbody =>
          Reads.pure (hb.append hbody) (by simp)
      · cases hx

theorem reads_branchClauses : (trees : List SyntaxTree) → Reading o S (nodesAmong trees) →
    Reads o [] (branchClauses source trees) (fun r => r.elim [] clauseIds)
      (fun r => ∀ clauses ∈ r, ClausesSpanned S clauses)
  | [], _ => Reads.pure (by simpa using ClausesSpanned.nil) (List.nil_sublist _)
  | node kind isNamed span field children :: rest, h => by
    have hrest := reads_branchClauses rest h.rest
    have hspan : S span := h.span List.mem_cons_self
    have hc : Reading o S (nodesAmong children) := h.first.below
    -- a clause that was read is put in front of those that follow
    have hcons : ∀ head body, (∀ span ∈ head, S span) → BodySpanned S body → Reads o (bodyIds body)
        (do return (← branchClauses source rest).map (⟨span, head, body⟩ :: ·))
        (fun r => r.elim [] clauseIds) (fun r => ∀ clauses ∈ r, ClausesSpanned S clauses) := by
      intro head body hh hb
      refine hrest.andThen fun clauses hcl => ?_
      cases clauses with
      | none => exact Reads.pure (by simp) (List.nil_sublist _)
      | some clauses =>
        refine Reads.pure ?_ ?_
        · simpa using ClausesSpanned.cons hspan hh hb (hcl clauses rfl)
        · simp [clauseIds, clauseStatements, bodyIds]
    rw [branchClauses.eq_def]
    dsimp only
    split
    · split
      · split
        · next test body ht hb =>
          refine (readsBody_bodyInRole? [] children hc (by simp) body hb).bind fun body hb => ?_
          exact hcons (some test) body (by simpa using hc.spanInRole? ht) hb
        · exact Reads.pure (by simp) (List.nil_sublist _)
      · split
        · next body hb =>
          refine (readsBody_bodyInRole? [] children hc (by simp) body hb).bind fun body hb => ?_
          exact hcons none body (by simp) hb
        · exact Reads.pure (by simp) (List.nil_sublist _)
      · exact Reads.pure (by simp) (List.nil_sublist _)
    · exact hrest

theorem reads_elseOfLoop : (trees : List SyntaxTree) → Reading o S (nodesAmong trees) →
    Reads o [] (elseOfLoop source trees) (fun r => r.elim [] bodyIds)
      (fun r => ∀ body ∈ r, BodySpanned S body)
  | [], _ => Reads.pure (by simpa using BodySpanned.nil) (List.nil_sublist _)
  | node kind isNamed span field children :: rest, h => by
    rw [elseOfLoop]
    split
    · split
      · next body hb =>
        refine (readsBody_bodyInRole? [] children h.first.below (by simp) body hb).bind
          fun body hb => ?_
        exact Reads.pure (by simpa using hb) (List.Sublist.refl _)
      · exact Reads.pure (by simp) (List.nil_sublist _)
    · exact reads_elseOfLoop rest h.rest

theorem reads_attemptClauses (clauses : AttemptClauses) : (trees : List SyntaxTree) →
    Reading o S (nodesAmong trees) → clauses.Spanned S → (o → clauses.Precede trees) →
      Reads o clauses.ids (attemptClauses source clauses trees)
        (fun r => r.elim [] AttemptClauses.ids) (fun r => ∀ clauses ∈ r, clauses.Spanned S)
  | [], _, hs, _ => Reads.pure (by simpa using hs) (List.Sublist.refl _)
  | node kind isNamed span field children :: rest, h, hs, ho => by
    have hskip := reads_attemptClauses clauses rest h.rest hs fun h => (ho h).tail
    have hspan : S span := h.span List.mem_cons_self
    have hc : Reading o S (nodesAmong children) := h.first.below
    -- `except` and `except*` are read alike: the handler joins those that came before it
    have hhandler : ∀ head body, (∀ span ∈ head, S span) → BodySpanned S body →
        clauseRank? (node kind isNamed span field children) = some 0 →
        Reads o (clauses.ids ++ bodyIds body)
          (attemptClauses source
            { clauses with handlers := clauses.handlers ++ [⟨span, head, body⟩] } rest)
          (fun r => r.elim [] AttemptClauses.ids) (fun r => ∀ clauses ∈ r, clauses.Spanned S) := by
      intro head body hh hb hr
      refine AttemptClauses.reads_addHandler ⟨span, head, body⟩ (fun h => ?_)
        (reads_attemptClauses _ rest h.rest ?_ fun h => ?_)
      -- in its place a handler comes before `else` and `finally`, so neither has been read
      · obtain ⟨horelse, hfinal⟩ := (ho h).eq_nil hr
        exact ⟨horelse (by decide), hfinal (by decide)⟩
      · exact ⟨hs.handlers.append (.cons hspan hh hb .nil), hs.orelse, hs.final⟩
      · exact ⟨(ho h).tail.inOrder, (ho h).tail.orelse, (ho h).tail.final⟩
    rw [attemptClauses.eq_def]
    dsimp only
    split
    · exact hskip
    · next hnamed =>
      have hnamed : isNamed = true := by simpa using hnamed
      subst hnamed
      split
      · split
        · next body hb =>
          refine (readsBody_lastBlock? [] children hc (by simp) body hb).andThen fun body hb => ?_
          exact hhandler _ body hc.handlerType? hb rfl
        · exact Reads.pure (by simp) (List.nil_sublist _)
      · split
        · next body hb =>
          refine (readsBody_lastBlock? [] children hc (by simp) body hb).andThen fun body hb => ?_
          exact hhandler _ body hc.handlerType? hb rfl
        · exact Reads.pure (by simp) (List.nil_sublist _)
      · split
        · next body hb =>
          refine (readsBody_bodyInRole? [] children hc (by simp) body hb).andThen fun body hb => ?_
          -- the clause takes the place of an earlier one; where clauses are in order there is none
          refine AttemptClauses.reads_setElse (fun h => ?_)
            (reads_attemptClauses _ rest h.rest ⟨hs.handlers, hb, hs.final⟩ fun h => ?_)
          · obtain ⟨horelse, hfinal⟩ := (ho h).eq_nil rfl
            exact ⟨horelse (by decide), hfinal (by decide)⟩
          · exact (ho h).setElse rfl body
        · exact Reads.pure (by simp) (List.nil_sublist _)
      · split
        · next body hb =>
          refine (readsBody_lastBlock? [] children hc (by simp) body hb).andThen fun body hb => ?_
          exact AttemptClauses.reads_setFinal
            (reads_attemptClauses _ rest h.rest ⟨hs.handlers, hs.orelse, hb⟩ fun h =>
              (ho h).setFinal rfl body)
        · exact Reads.pure (by simp) (List.nil_sublist _)
      · exact hskip

theorem reads_casesInBody? : (trees : List SyntaxTree) → Reading o S (nodesAmong trees) → ∀ x,
    casesInBody? source trees = some x →
      Reads o [] x (fun r => r.elim [] caseIds) (fun r => ∀ cases ∈ r, CasesSpanned S cases)
  | [], _, _, hx => by simp [casesInBody?] at hx
  | node kind isNamed span field children :: rest, h, x, hx => by
    rw [casesInBody?] at hx
    split at hx
    · cases hx
      exact reads_matchCases children h.first.below
    · exact reads_casesInBody? rest h.rest x hx

theorem reads_matchCases : (trees : List SyntaxTree) → Reading o S (nodesAmong trees) →
    Reads o [] (matchCases source trees) (fun r => r.elim [] caseIds)
      (fun r => ∀ cases ∈ r, CasesSpanned S cases)
  | [], _ => Reads.pure (by simp [CasesSpanned.nil]) (List.nil_sublist _)
  | node kind isNamed span field children :: rest, h => by
    have hrest := reads_matchCases rest h.rest
    have hspan : S span := h.span List.mem_cons_self
    have hc : Reading o S (nodesAmong children) := h.first.below
    rw [matchCases]
    split
    · split
      · next patterns body hp hb =>
        refine (readsBody_bodyInRole? [] children hc (by simp) body hb).bind fun body hb => ?_
        refine hrest.andThen fun cases hcs => ?_
        -- one case that cannot be read spoils them all
        cases cases with
        | none => exact Reads.pure (by simp) (List.nil_sublist _)
        | some cases =>
          refine Reads.pure ?_ ?_
          · simpa using CasesSpanned.cons hspan (hc.casePatterns? hp) hc.guard? hb (hcs cases rfl)
          · simp [caseIds, caseStatements, bodyIds]
      · exact Reads.pure (by simp) (List.nil_sublist _)
    · exact hrest

end

/-! ## Functions -/

/-- The statements of a function are numbered from zero. -/
theorem numbered_of_mem_functions {t : SyntaxTree} (hr : Reading o S t.nodes) {d : Definition}
    (h : d ∈ t.functions source) :
    (∃ n, Numbered o 0 n (bodyIds d.body)) ∧ S d.span ∧ BodySpanned S d.body := by
  obtain ⟨n, hn, place, hf⟩ := exists_node_of_mem_functions h
  obtain ⟨hspan, body, hb, hd⟩ := function?_eq_some hf
  have hchildren : Reading o S (nodesAmong n.children) :=
    hr.mono (List.Subset.trans n.nodesAmong_children_subset (nodes_subset_nodes hn))
  obtain ⟨hids, hspans⟩ := readsBody_bodyInRole? [] _ hchildren (by simp) body hb 0 0
    (.nil (Nat.le_refl 0))
  rw [hspan, hd]
  exact ⟨⟨_, hids⟩, (hr.readable n hn).span, hspans⟩

/-- No two statements of a function have one number.  If in every `try` the handlers come before the
`else` clause and that before the `finally` clause, the numbers ascend in the order in which the
statements are listed. -/
theorem functions_numbered {t : SyntaxTree} {d : Definition} (h : d ∈ t.functions source) :
    ((bodyStatements d.body).map Stmt.id).Nodup ∧
      ((∀ n ∈ t.nodes, n.kind = .tryStatement → ClausesInOrder n.children) →
        ((bodyStatements d.body).map Stmt.id).Pairwise (· < ·)) := by
  have hr : Reading (∀ n ∈ t.nodes, n.kind = .tryStatement → ClausesInOrder n.children)
      (fun _ => True) t.nodes :=
    ⟨fun _ _ _ _ => trivial, fun n hn => ⟨trivial, trivial, fun _ _ => trivial, fun ho => ho n hn⟩⟩
  obtain ⟨⟨_, hids⟩, -, -⟩ := numbered_of_mem_functions hr h
  exact ⟨hids.nodup, hids.sorted⟩

/-- A function with a `try`, a suspension before a `return`, and an `if` that lacks the body of a
clause. -/
def brokenIfBehindTry : SyntaxTree :=
  let leaf (kind : Kind) : SyntaxTree := node kind true ⟨0, 0⟩ none []
  let block (field : Option Field) : List SyntaxTree → SyntaxTree := node .block true ⟨0, 0⟩ field
  node .functionDefinition true ⟨0, 0⟩ none
    [node .identifier true ⟨0, 0⟩ (some .name) [],
      block (some .body)
        [node .tryStatement true ⟨0, 0⟩ none
          [block (some .body) [leaf .passStatement],
            node .exceptClause true ⟨0, 0⟩ none [block none [leaf .passStatement]],
            node .finallyClause true ⟨0, 0⟩ none
              [block none [node .returnStatement true ⟨0, 0⟩ none [leaf .yield]]]],
          node .ifStatement true ⟨0, 0⟩ none
            [node .identifier true ⟨0, 0⟩ (some .condition) [],
              block (some .consequence) [leaf .passStatement],
              node .elseClause true ⟨0, 0⟩ (some .alternative) []],
          leaf .passStatement]]

/-- The number of the statement inside the broken `if` stays used. -/
theorem functions_numbered_brokenIfBehindTry : ∃ d ∈ brokenIfBehindTry.functions "",
    (bodyStatements d.body).map Stmt.id = [0, 1, 2, 3, 4, 5, 7] ∧
      ((bodyStatements d.body).map Stmt.id).Nodup ∧
      ((bodyStatements d.body).map Stmt.id).Pairwise (· < ·) := by
  have h : ∃ d, brokenIfBehindTry.functions "" = [d] ∧
      (bodyStatements d.body).map Stmt.id = [0, 1, 2, 3, 4, 5, 7] := ⟨_, rfl, rfl⟩
  obtain ⟨d, hd, hids⟩ := h
  have hm : d ∈ brokenIfBehindTry.functions "" := hd ▸ List.mem_cons_self
  obtain ⟨hnodup, hsorted⟩ := functions_numbered hm
  refine ⟨d, hm, hids, hnodup, hsorted ?_⟩
  simp only [brokenIfBehindTry, nodes, nodesAmong, ClausesInOrder]
  decide

end SyntaxTree

end Flowgraph
