import Mathlib.Data.List.Sort
import Flowgraph.Proofs.Syntax

/-!
# The comments above a definition

A definition, together with its decorators, begins on some line.  The comment block above it is made
up of the lines directly above that hold a comment and nothing else, without a free line between
them.  What is read instead are comments among the siblings of the definition: going backwards from
it, as long as there are comments and no line is free.

The two are the same exactly if the block stands among the siblings and what is read stands alone on
lines above the definition.  Neither goes without saying.  The comment above the first method of a
class is no sibling of the method, and a comment behind a statement on the line above is one.

## Main definitions

* `SyntaxTree.LaidOut` : the nodes of a tree are laid out as in a text.
* `SyntaxTree.commentBlock` : the comment block above a line.
* `SyntaxTree.Announces` : where the definition with its decorators begins, and its siblings there.
* `Comment.Run` : the comments that are read.

## Main results

* `SyntaxTree.exists_announces` : every function is read below the place where it begins.
* `Comment.Run.eq_commentBlock_iff` : when the comments that are read are the block.
* `Definition.comments_read` : the comments of a function.
-/

namespace Flowgraph

namespace Text

theorem rowOf_mono {m n : Nat} (cs : List Char) (h : m ≤ n) : rowOf m cs ≤ rowOf n cs := by
  induction cs generalizing m n with
  | nil => cases m <;> cases n <;> simp [rowOf]
  | cons c cs ih =>
    cases m with
    | zero => simp [rowOf]
    | succ m =>
      cases n with
      | zero => exact absurd h (Nat.not_succ_le_zero m)
      | succ n => exact Nat.add_le_add_left (ih (Nat.sub_le_sub_right h _)) _

theorem row_mono (source : String) {m n : Nat} (h : m ≤ n) : row source m ≤ row source n :=
  rowOf_mono _ h

end Text

/-- The text of a comment, without number signs and blanks around it. -/
def Comment.textAt (source : String) (c : SyntaxTree) : String :=
  String.ofList (bare (SyntaxTree.textOf source c.span).toList)

namespace SyntaxTree

/-! ## Lines -/

section Rows

variable (source : String) (t : SyntaxTree)

/-- The line on which the node begins. -/
def firstRow : Nat :=
  Text.row source t.span.start

/-- The line on which the node ends. -/
def lastRow : Nat :=
  Text.row source t.span.stop

end Rows

/-- The node is laid out as in a text: its children stand inside it, one after the other, and a
comment is a token on one line. -/
structure Tidy (source : String) (n : SyntaxTree) : Prop where
  inside : ∀ child ∈ n.children, n.span.start ≤ child.span.start ∧ child.span.stop ≤ n.span.stop
  inOrder : n.children.Pairwise fun a b => a.span.stop ≤ b.span.start
  comment : n.kind = .comment → n.children.isEmpty = true ∧ n.span.start < n.span.stop ∧
    n.lastRow source = n.firstRow source

instance (source : String) : DecidablePred (Tidy source) := fun n =>
  decidable_of_iff ((∀ child ∈ n.children, n.span.start ≤ child.span.start ∧
      child.span.stop ≤ n.span.stop) ∧
      (n.children.Pairwise fun a b => a.span.stop ≤ b.span.start) ∧
      (n.kind = .comment → n.children.isEmpty = true ∧ n.span.start < n.span.stop ∧
        n.lastRow source = n.firstRow source))
    ⟨fun h => ⟨h.1, h.2.1, h.2.2⟩, fun h => ⟨h.inside, h.inOrder, h.comment⟩⟩

/-- All nodes of the tree are laid out as in a text. -/
def LaidOut (source : String) (t : SyntaxTree) : Prop :=
  ∀ n ∈ t.nodes, n.Tidy source

instance (source : String) : DecidablePred (LaidOut source) := fun t =>
  inferInstanceAs (Decidable (∀ n ∈ t.nodes, n.Tidy source))

section LaidOut

variable {source : String}

mutual

theorem span_of_mem_nodes {n : SyntaxTree} : {t : SyntaxTree} → t.LaidOut source → n ∈ t.nodes →
    t.span.start ≤ n.span.start ∧ n.span.stop ≤ t.span.stop
  | node kind isNamed span field children, h, hn => by
    rw [nodes_eq, List.mem_cons] at hn
    rcases hn with rfl | hn
    · exact ⟨Nat.le_refl _, Nat.le_refl _⟩
    · obtain ⟨t, ht, hs⟩ := span_of_mem_nodesAmong
        (fun m hm => h m (nodesAmong_children_subset _ hm)) hn
      have hin := (h _ (mem_nodes_self _)).inside t ht
      exact ⟨Nat.le_trans hin.1 hs.1, Nat.le_trans hs.2 hin.2⟩

theorem span_of_mem_nodesAmong {n : SyntaxTree} : {trees : List SyntaxTree} →
    (∀ m ∈ nodesAmong trees, m.Tidy source) → n ∈ nodesAmong trees →
      ∃ t ∈ trees, t.span.start ≤ n.span.start ∧ n.span.stop ≤ t.span.stop
  | [], _, hn => by simp [nodesAmong] at hn
  | t :: rest, h, hn => by
    rw [nodesAmong, List.forall_mem_append] at h
    rw [nodesAmong, List.mem_append] at hn
    rcases hn with hn | hn
    · exact ⟨t, List.mem_cons_self, span_of_mem_nodes h.1 hn⟩
    · obtain ⟨t', ht', hs⟩ := span_of_mem_nodesAmong h.2 hn
      exact ⟨t', List.mem_cons_of_mem _ ht', hs⟩

end

mutual

/-- The comments of a tree stand one after the other. -/
theorem pairwise_comments : (t : SyntaxTree) → t.LaidOut source →
    (t.nodes.filter (·.kind == .comment)).Pairwise fun a b => a.span.stop ≤ b.span.start
  | node kind isNamed span field children, h => by
    obtain ⟨inside, inOrder, comment⟩ := h _ (mem_nodes_self _)
    have hc := pairwise_commentsAmong children (fun m hm => h m (nodesAmong_children_subset _ hm))
      inOrder
    rw [nodes_eq, List.filter_cons]
    split
    · next hk =>
      -- a comment has nothing below it
      obtain ⟨hnil, -⟩ := comment (beq_iff_eq.1 hk)
      rw [List.isEmpty_iff.1 hnil]
      simp [nodesAmong]
    · exact hc

theorem pairwise_commentsAmong : (trees : List SyntaxTree) →
    (∀ m ∈ nodesAmong trees, m.Tidy source) →
      (trees.Pairwise fun a b => a.span.stop ≤ b.span.start) →
      ((nodesAmong trees).filter (·.kind == .comment)).Pairwise fun a b =>
        a.span.stop ≤ b.span.start
  | [], _, _ => by simp [nodesAmong]
  | t :: rest, h, ho => by
    rw [nodesAmong, List.forall_mem_append] at h
    obtain ⟨ht, ho⟩ := List.pairwise_cons.1 ho
    rw [nodesAmong, List.filter_append, List.pairwise_append]
    refine ⟨pairwise_comments t h.1, pairwise_commentsAmong rest h.2 ho, ?_⟩
    intro a ha b hb
    -- comments of different siblings are apart because the siblings are
    have hat := span_of_mem_nodes h.1 (List.mem_filter.1 ha).1
    obtain ⟨t', ht', hbt⟩ := span_of_mem_nodesAmong h.2 (List.mem_filter.1 hb).1
    exact Nat.le_trans hat.2 (Nat.le_trans (ht t' ht') hbt.1)

end

end LaidOut

/-! ## Comment blocks -/

section Block

variable (source : String) (root : SyntaxTree)

/-- The tokens of a tree: the nodes with nothing below them. -/
def leaves : List SyntaxTree :=
  root.nodes.filter (·.children.isEmpty)

/-- No other token of the tree has a part on the line on which the node begins. -/
def isAlone (c : SyntaxTree) : Bool :=
  root.leaves.all fun t => t.span == c.span ||
    !(t.firstRow source ≤ c.firstRow source && c.firstRow source ≤ t.lastRow source)

/-- The comments that stand alone on their lines, in document order. -/
def loneComments : List SyntaxTree :=
  (root.nodes.filter (·.kind == .comment)).filter (root.isAlone source)

/-- The comments on the lines directly above a line that hold a comment and nothing else. -/
def commentBlock (row : Nat) : List SyntaxTree :=
  (root.loneComments source).filter fun c => c.firstRow source < row &&
    (List.range' (c.firstRow source) (row - c.firstRow source)).all fun i =>
      (root.loneComments source).any (·.firstRow source == i)

variable {source root}

theorem mem_loneComments {c : SyntaxTree} : c ∈ root.loneComments source ↔
    c ∈ root.nodes ∧ c.kind = .comment ∧ root.isAlone source c = true := by
  rw [loneComments, List.mem_filter, List.mem_filter, beq_iff_eq, and_assoc]

theorem mem_commentBlock {row : Nat} {c : SyntaxTree} :
    c ∈ root.commentBlock source row ↔ c ∈ root.loneComments source ∧ c.firstRow source < row ∧
      ∀ i, c.firstRow source ≤ i → i < row → ∃ c' ∈ root.loneComments source,
        c'.firstRow source = i := by
  simp only [commentBlock, List.mem_filter, Bool.and_eq_true, decide_eq_true_eq, List.all_eq_true,
    List.mem_range'_1, List.any_eq_true, beq_iff_eq, and_imp]
  refine and_congr_right fun _ => and_congr_right fun hlt => ?_
  rw [Nat.add_sub_cancel' (Nat.le_of_lt hlt)]

/-- No two comments on one line stand alone. -/
theorem firstRow_ne_of_isAlone (h : root.LaidOut source) {a b : SyntaxTree}
    (ha : root.isAlone source a = true) (hb : b ∈ root.nodes) (hk : b.kind = .comment)
    (hne : b.span ≠ a.span) : b.firstRow source ≠ a.firstRow source := by
  intro he
  obtain ⟨hleaf, -, hrow⟩ := (h b hb).comment hk
  have := List.all_eq_true.1 ha b (List.mem_filter.2 ⟨hb, hleaf⟩)
  simp [hne, hrow, he] at this

end Block

/-! ## Where definitions begin -/

/-- The node stands in the tree right behind the given siblings, the nearest of them first. -/
inductive Follows (root : SyntaxTree) : List SyntaxTree → SyntaxTree → Prop
  | root : Follows root [] root
  | child {parent t : SyntaxTree} {before after : List SyntaxTree} (hp : parent ∈ root.nodes)
      (hc : parent.children = before.reverse ++ t :: after) : Follows root before t

/-- The definition begins with the node `outer`, right behind the given siblings: with itself, or
with the decorated definition that it is part of. -/
inductive Announces (root t : SyntaxTree) : List SyntaxTree → SyntaxTree → Prop
  | root (ht : t = root) : Announces root t [] t
  | plain {parent : SyntaxTree} {before after : List SyntaxTree} (hp : parent ∈ root.nodes)
      (hc : parent.children = before.reverse ++ t :: after)
      (hk : parent.kind ≠ .decoratedDefinition) : Announces root t before t
  | decorated {outer : SyntaxTree} {before : List SyntaxTree} (ho : root.Follows before outer)
      (hc : t ∈ outer.children) (hk : outer.kind = .decoratedDefinition) :
      Announces root t before outer

theorem Announces.follows {root t outer : SyntaxTree} {before : List SyntaxTree}
    (h : root.Announces t before outer) : root.Follows before outer := by
  cases h with
  | root ht => exact ht ▸ .root
  | plain hp hc hk => exact .child hp hc
  | decorated ho hc hk => exact ho

section Functions

variable {source : String} {root : SyntaxTree} {d : Definition}

/-- The place is the one where the definition begins. -/
def BeginsAt (root t : SyntaxTree) (place : Place) : Prop :=
  ∃ outer, root.Announces t place.before outer ∧ place.start = outer.span.start

mutual

/-- Functions are read below the places where they begin. -/
theorem exists_beginsAt {own place : Place} : (t : SyntaxTree) → t ∈ root.nodes →
    root.Follows own.before t → own.start = t.span.start → root.BeginsAt t place →
    d ∈ functionsAt source own place t → ∃ n ∈ root.nodes, n.kind = .functionDefinition ∧
      ∃ place, root.BeginsAt n place ∧ function? source place n = some d
  | node kind isNamed span field children, ht, ho, hs, hp, h => by
    rw [functionsAt, List.mem_append] at h
    rcases h with h | h
    · split at h
      · next hk =>
        exact ⟨_, ht, beq_iff_eq.1 hk, place, hp, Option.mem_toList.1 h⟩
      · simp at h
    · refine exists_beginsAt_among ht ?_ [] children rfl h
      intro before child after hc
      split
      -- below a decorated definition, the function begins where the decorators do
      · next hk =>
        have hm : child ∈ (node kind isNamed span field children).children := by simp [hc]
        exact ⟨_, .decorated ho hm (beq_iff_eq.1 hk), hs⟩
      · next hk => exact ⟨child, .plain ht hc fun he => hk (beq_iff_eq.2 he), rfl⟩

theorem exists_beginsAt_among {parent : SyntaxTree} (hp : parent ∈ root.nodes)
    {decorated : Option Place} (hd : ∀ before t after,
      parent.children = before.reverse ++ t :: after →
        root.BeginsAt t (decorated.getD ⟨before, t.span.start⟩)) (before : List SyntaxTree) :
    (trees : List SyntaxTree) → parent.children = before.reverse ++ trees →
      d ∈ functionsAmong source decorated before trees →
      ∃ n ∈ root.nodes, n.kind = .functionDefinition ∧
        ∃ place, root.BeginsAt n place ∧ function? source place n = some d
  | [], _, h => by simp [functionsAmong] at h
  | t :: rest, hc, h => by
    rw [functionsAmong, List.mem_append] at h
    rcases h with h | h
    · split at h
      · have hm : t ∈ parent.children := by simp [hc]
        have ht := nodes_subset_nodes hp
          (parent.nodesAmong_children_subset (mem_nodesAmong_of_mem hm))
        exact exists_beginsAt t ht (.child hp hc) rfl (hd before t rest hc) h
      · simp at h
    · exact exists_beginsAt_among hp hd (t :: before) rest (by simpa using hc) h

end

theorem comments_of_function? {place : Place} {t : SyntaxTree}
    (h : function? source place t = some d) : d.comments = place.comments source := by
  cases t
  simp only [function?, Option.bind_eq_bind, Option.bind_eq_some_iff, Option.pure_def,
    Option.some.injEq] at h
  obtain ⟨_, _, _, _, rfl⟩ := h
  rfl

/-- Every function of a tree is read below the place where it begins. -/
theorem exists_announces (h : d ∈ root.functions source) :
    ∃ t ∈ root.nodes, t.kind = .functionDefinition ∧ d.span = t.span ∧
      ∃ before outer, root.Announces t before outer ∧
        d.comments = Comment.leading source (outer.firstRow source) before := by
  obtain ⟨t, ht, hk, place, ⟨outer, ho, hs⟩, hf⟩ :=
    exists_beginsAt root root.mem_nodes_self .root rfl ⟨root, .root rfl, rfl⟩ h
  refine ⟨t, ht, hk, (function?_eq_some hf).1, place.before, outer, ho, ?_⟩
  rw [comments_of_function? hf, Place.comments, hs]
  rfl

end Functions

/-- The trees stand in the tree `root` before a place on the given line, one after the other, the
nearest first. -/
structure Preceding (source : String) (root : SyntaxTree) (row : Nat) (before : List SyntaxTree) :
    Prop where
  mem : ∀ t ∈ before, t ∈ root.nodes
  inOrder : before.Pairwise fun a b => b.span.stop ≤ a.span.start
  above : ∀ t ∈ before, t.lastRow source ≤ row

section Preceding

variable {source : String} {root : SyntaxTree} {row : Nat} {before : List SyntaxTree}

theorem Preceding.tail {t : SyntaxTree} (h : root.Preceding source row (t :: before)) :
    root.Preceding source (t.firstRow source) before where
  mem n hn := h.mem n (List.mem_cons_of_mem _ hn)
  inOrder := h.inOrder.tail
  above n hn := Text.row_mono source ((List.pairwise_cons.1 h.inOrder).1 n hn)

/-- The nearest of some comments ends on the last line. -/
theorem Preceding.firstRow_le (hr : root.LaidOut source) {t c : SyntaxTree}
    (h : root.Preceding source row (t :: before)) (ht : t.kind = .comment)
    (hc : c ∈ t :: before) (hk : c.kind = .comment) : c.firstRow source ≤ t.lastRow source := by
  obtain ⟨-, -, hline⟩ := (hr c (h.mem c hc)).comment hk
  rcases List.mem_cons.1 hc with rfl | hc
  · exact Nat.le_of_eq hline.symm
  · obtain ⟨-, -, hline'⟩ := (hr t (h.mem t List.mem_cons_self)).comment ht
    rw [← hline, hline']
    exact h.tail.above c hc

/-- Of two comments, one of which stands alone, the first is on an earlier line. -/
theorem Preceding.firstRow_lt (hr : root.LaidOut source) {t c : SyntaxTree}
    (h : root.Preceding source row (t :: before)) (ht : t.kind = .comment) (hc : c ∈ before)
    (hk : c.kind = .comment) (ha : root.isAlone source t = true ∨ root.isAlone source c = true) :
    c.firstRow source < t.firstRow source := by
  have htm := h.mem t List.mem_cons_self
  have hcm := h.mem c (List.mem_cons_of_mem _ hc)
  obtain ⟨-, hlt, -⟩ := (hr t htm).comment ht
  obtain ⟨-, -, hline⟩ := (hr c hcm).comment hk
  have hstop : c.span.stop ≤ t.span.start := (List.pairwise_cons.1 h.inOrder).1 c hc
  -- a comment is not empty, so the two do not stand at the same place
  have hne : c.span ≠ t.span := by
    intro he
    exact Nat.lt_irrefl _ (Nat.lt_of_lt_of_le hlt (he ▸ hstop))
  apply Nat.lt_of_le_of_ne (hline ▸ h.tail.above c hc)
  rcases ha with ha | ha
  · exact firstRow_ne_of_isAlone hr ha hcm hk hne
  · exact (firstRow_ne_of_isAlone hr ha htm ht hne.symm).symm

/-- The siblings before a node stand before it. -/
theorem Follows.preceding {t : SyntaxTree} (hr : root.LaidOut source) (h : root.Follows before t) :
    root.Preceding source (t.firstRow source) before := by
  cases h with
  | root => exact ⟨by simp, .nil, by simp⟩
  | child hp hc =>
    have ho := (hr _ hp).inOrder
    rw [hc, List.pairwise_append] at ho
    obtain ⟨hbefore, -, habove⟩ := ho
    refine ⟨fun n hn => ?_, List.pairwise_reverse.1 hbefore, fun n hn => ?_⟩
    · have hm : n ∈ _ := hc ▸ List.mem_append_left _ (List.mem_reverse.2 hn)
      exact nodes_subset_nodes hp (nodesAmong_children_subset _ (mem_nodesAmong_of_mem hm))
    · exact Text.row_mono source (habove n (List.mem_reverse.2 hn) t List.mem_cons_self)

end Preceding

end SyntaxTree

/-! ## The comments that are read -/

namespace Comment

/-- The comments that are read for a place on the given line, the nearest first.  Each ends on the
line above what follows it, or on the same line, and there is no such comment before them. -/
inductive Run (source : String) : Nat → List SyntaxTree → List SyntaxTree → Prop
  | done {row : Nat} {before : List SyntaxTree}
      (h : ∀ t ∈ before.head?, t.kind = .comment → t.lastRow source + 1 < row) :
      Run source row before []
  | comment {row : Nat} {t : SyntaxTree} {before run : List SyntaxTree} (hk : t.kind = .comment)
      (hr : row ≤ t.lastRow source + 1) (h : Run source (t.firstRow source) before run) :
      Run source row (t :: before) (t :: run)

theorem leading_cons (source : String) (row : Nat) (t : SyntaxTree) (before : List SyntaxTree) :
    leading source row (t :: before) =
      if t.kind = .comment ∧ row ≤ t.lastRow source + 1 then
        leading source (t.firstRow source) before ++ [textAt source t]
      else [] := by
  rw [leading]
  simp only [Bool.and_eq_true, beq_iff_eq, decide_eq_true_eq]
  rfl

theorem exists_run (source : String) (row : Nat) (before : List SyntaxTree) :
    ∃ run, Run source row before run ∧
      leading source row before = run.reverse.map (textAt source) := by
  induction before generalizing row with
  | nil => exact ⟨[], .done (by simp), rfl⟩
  | cons t before ih =>
    rw [leading_cons]
    split
    -- the run goes on as long as no line is free
    · next h =>
      obtain ⟨run, hr, he⟩ := ih (t.firstRow source)
      exact ⟨t :: run, .comment h.1 h.2 hr, by simp [he]⟩
    · next h =>
      refine ⟨[], .done ?_, rfl⟩
      rintro _ ⟨⟩ hk
      exact Nat.not_le.1 fun hr => h ⟨hk, hr⟩

namespace Run

variable {source : String} {root : SyntaxTree} {row : Nat} {before run : List SyntaxTree}

theorem isPrefix_takeWhile (h : Run source row before run) :
    run <+: before.takeWhile (·.kind == .comment) := by
  induction h with
  | done => exact List.nil_prefix
  | comment hk _ _ ih =>
    simp only [List.takeWhile_cons, hk, beq_self_eq_true, if_true]
    exact List.prefix_cons_iff.2 (.inr ⟨_, rfl, ih⟩)

theorem sublist (h : Run source row before run) : run.Sublist before :=
  h.isPrefix_takeWhile.sublist.trans (List.takeWhile_sublist _)

theorem kind_eq (h : Run source row before run) : ∀ c ∈ run, c.kind = .comment := by
  induction h with
  | done => simp
  | comment hk _ _ ih => exact List.forall_mem_cons.2 ⟨hk, ih⟩

/-- What is read belongs to the block, if it stands alone on lines above. -/
theorem mem_commentBlock (hr : root.LaidOut source) {above : Nat}
    (h : Run source row before run) (hp : root.Preceding source row before)
    (hc : ∀ c ∈ run, root.isAlone source c = true ∧ c.firstRow source < row) (hle : row ≤ above)
    (hrows : ∀ i, row ≤ i → i < above → ∃ c ∈ root.loneComments source, c.firstRow source = i) :
    ∀ c ∈ run, c ∈ root.commentBlock source above := by
  induction h with
  | done => simp
  | @comment row t before run hk hadj hrest ih =>
    obtain ⟨⟨halone, hlt⟩, hc⟩ := List.forall_mem_cons.1 hc
    have ht := hp.mem t List.mem_cons_self
    have hlone := SyntaxTree.mem_loneComments.2 ⟨ht, hk, halone⟩
    obtain ⟨-, hnonempty, hline⟩ := (hr t ht).comment hk
    -- the comment is on the line above, so that the lines from there on are covered
    have hrow : row = t.firstRow source + 1 := Nat.le_antisymm (hline ▸ hadj) hlt
    have hrows : ∀ i, t.firstRow source ≤ i → i < above →
        ∃ c ∈ root.loneComments source, c.firstRow source = i := by
      intro i hi hlt'
      rcases Nat.eq_or_lt_of_le hi with rfl | hi
      · exact ⟨t, hlone, rfl⟩
      · exact hrows i (hrow ▸ hi) hlt'
    have habove := Nat.lt_of_lt_of_le hlt hle
    have hearlier : ∀ c ∈ run, c.firstRow source < t.firstRow source := fun c hm =>
      hp.firstRow_lt hr hk (hrest.sublist.subset hm) (hrest.kind_eq c hm) (.inl halone)
    exact List.forall_mem_cons.2 ⟨SyntaxTree.mem_commentBlock.2 ⟨hlone, habove, hrows⟩,
      ih hp.tail (fun c hm => ⟨(hc c hm).1, hearlier c hm⟩) (Nat.le_of_lt habove) hrows⟩

/-- The block is read, if it stands directly before the place. -/
theorem mem_of_mem_commentBlock (hr : root.LaidOut source) {above : Nat}
    (h : Run source row before run) (hp : root.Preceding source row before) (hle : row ≤ above)
    (hb : ∀ c ∈ root.commentBlock source above, c.firstRow source < row →
      c ∈ before.takeWhile (·.kind == .comment)) :
    ∀ c ∈ root.commentBlock source above, c.firstRow source < row → c ∈ run := by
  intro c hc hlt
  induction h with
  | @done row before hdone =>
    cases before with
    | nil => simpa using hb c hc hlt
    | cons t before =>
      have hk : t.kind = .comment := by
        by_contra hk
        simpa [hk] using hb c hc hlt
      have hle' : ∀ c' ∈ root.commentBlock source above, c'.firstRow source < row →
          c'.firstRow source ≤ t.lastRow source := fun c' hc' hlt' =>
        hp.firstRow_le hr hk (List.takeWhile_subset _ (hb c' hc' hlt'))
          (SyntaxTree.mem_loneComments.1 (SyntaxTree.mem_commentBlock.1 hc').1).2.1
      -- the line below the nearest comment is free, and yet it belongs to the block
      have hfree : t.lastRow source + 1 < row := hdone t rfl hk
      have hbelow := Nat.lt_succ_of_le (hle' c hc hlt)
      obtain ⟨-, -, hrows⟩ := SyntaxTree.mem_commentBlock.1 hc
      obtain ⟨c', hc', hrow⟩ := hrows _ (Nat.le_of_lt hbelow) (Nat.lt_of_lt_of_le hfree hle)
      have hblock : c' ∈ root.commentBlock source above := by
        refine SyntaxTree.mem_commentBlock.2 ⟨hc', hrow ▸ Nat.lt_of_lt_of_le hfree hle, ?_⟩
        intro i hi
        exact hrows i (Nat.le_trans (Nat.le_of_lt hbelow) (hrow ▸ hi))
      exact absurd (hle' c' hblock (hrow ▸ hfree)) (hrow ▸ Nat.not_succ_le_self _)
  | @comment row t before run hk hadj hrest ih =>
    have hsplit : ∀ c' ∈ root.commentBlock source above, c'.firstRow source < row →
        c' = t ∨ c' ∈ before.takeWhile (·.kind == .comment) := by
      intro c' hc' hlt'
      simpa [List.takeWhile_cons, hk] using hb c' hc' hlt'
    have hrow : t.firstRow source ≤ row :=
      ((hr t (hp.mem t List.mem_cons_self)).comment hk).2.2 ▸ hp.above t List.mem_cons_self
    rcases hsplit c hc hlt with rfl | hm
    · exact List.mem_cons_self
    · obtain ⟨-, hkind, halone⟩ :=
        SyntaxTree.mem_loneComments.1 (SyntaxTree.mem_commentBlock.1 hc).1
      have hearlier := hp.firstRow_lt hr hk (List.takeWhile_subset _ hm) hkind (.inr halone)
      refine List.mem_cons_of_mem _ (ih hp.tail (Nat.le_trans hrow hle) ?_ hearlier)
      intro c' hc' hlt'
      refine (hsplit c' hc' (Nat.lt_of_lt_of_le hlt' hrow)).resolve_left ?_
      rintro rfl
      exact Nat.lt_irrefl _ hlt'

/-- The comments that are read are the block exactly if the block stands directly before the place
and what is read stands alone on lines above. -/
theorem eq_commentBlock_iff (hr : root.LaidOut source) (h : Run source row before run)
    (hp : root.Preceding source row before) :
    run.reverse = root.commentBlock source row ↔
      (∀ c ∈ root.commentBlock source row, c ∈ before.takeWhile (·.kind == .comment)) ∧
        ∀ c ∈ run, root.isAlone source c = true ∧ c.firstRow source < row := by
  constructor
  · intro he
    rw [← he]
    refine ⟨fun c hc => h.isPrefix_takeWhile.subset (List.mem_reverse.1 hc), fun c hc => ?_⟩
    have hm : c ∈ root.commentBlock source row := he ▸ List.mem_reverse.2 hc
    obtain ⟨hlone, hlt, -⟩ := SyntaxTree.mem_commentBlock.1 hm
    exact ⟨(SyntaxTree.mem_loneComments.1 hlone).2.2, hlt⟩
  · rintro ⟨hblock, halone⟩
    -- comments are told apart by where they begin, and both lists are in document order
    have : Std.Irrefl fun a b : SyntaxTree => a.span.start < b.span.start :=
      ⟨fun a => Nat.lt_irrefl _⟩
    have : Std.Antisymm fun a b : SyntaxTree => a.span.start < b.span.start :=
      ⟨fun a b hab hba => absurd hab (Nat.lt_asymm hba)⟩
    have hrun : run.reverse.Pairwise fun a b => a.span.start < b.span.start := by
      rw [List.pairwise_reverse]
      refine (hp.inOrder.sublist h.sublist).imp_of_mem ?_
      intro a b _ hb hab
      have hlt := ((hr b (hp.mem b (h.sublist.subset hb))).comment (h.kind_eq b hb)).2.1
      exact Nat.lt_of_lt_of_le hlt hab
    have hsorted : (root.commentBlock source row).Pairwise fun a b =>
        a.span.start < b.span.start := by
      have hsub : (root.commentBlock source row).Sublist (root.nodes.filter (·.kind == .comment)) :=
        List.filter_sublist.trans List.filter_sublist
      refine ((SyntaxTree.pairwise_comments root hr).sublist hsub).imp_of_mem ?_
      intro a b ha _ hab
      obtain ⟨hm, hk⟩ := List.mem_filter.1 (hsub.subset ha)
      exact Nat.lt_of_lt_of_le ((hr a hm).comment (beq_iff_eq.1 hk)).2.1 hab
    apply hrun.eq_of_mem_iff hsorted
    intro c
    rw [List.mem_reverse]
    constructor
    · exact h.mem_commentBlock hr hp halone (Nat.le_refl row)
        (fun i hi hlt => absurd hlt (Nat.not_lt.2 hi)) c
    · intro hc
      exact h.mem_of_mem_commentBlock hr hp (Nat.le_refl row) (fun c' hc' _ => hblock c' hc') c hc
        (SyntaxTree.mem_commentBlock.1 hc).2.1

end Run

end Comment

/-- **The comments of a function.**  A function is read with the comments among the siblings of its
definition, or of the decorated definition around it: going backwards, as long as there are comments
and no line is free.  In a tree that is laid out as in a text, these are the comment block above the
definition exactly if the block stands there, directly before the definition, and if what is read
stands alone on lines above it. -/
theorem Definition.comments_read {source : String} {root : SyntaxTree} {d : Definition}
    (h : d ∈ root.functions source) :
    ∃ t ∈ root.nodes, t.kind = .functionDefinition ∧ d.span = t.span ∧
      ∃ before outer run, root.Announces t before outer ∧
        Comment.Run source (outer.firstRow source) before run ∧
        d.comments = run.reverse.map (Comment.textAt source) ∧
        (root.LaidOut source →
          (run.reverse = root.commentBlock source (outer.firstRow source) ↔
            (∀ c ∈ root.commentBlock source (outer.firstRow source),
              c ∈ before.takeWhile (·.kind == .comment)) ∧
            ∀ c ∈ run, root.isAlone source c = true ∧
              c.firstRow source < outer.firstRow source)) := by
  obtain ⟨t, ht, hk, hs, before, outer, ho, hc⟩ := SyntaxTree.exists_announces h
  obtain ⟨run, hr, he⟩ := Comment.exists_run source (outer.firstRow source) before
  exact ⟨t, ht, hk, hs, before, outer, run, ho, hr, hc.trans he,
    fun hl => hr.eq_commentBlock_iff hl (ho.follows.preceding hl)⟩

/-- A decorated function below two comments. -/
def decorated : String :=
  "# a\n# b\n@d\ndef f(): pass\n"

/-- The tree of that text. -/
def decoratedTree : SyntaxTree :=
  .node (.other "module") true ⟨0, 25⟩ none
    [.node .comment true ⟨0, 3⟩ none [], .node .comment true ⟨4, 7⟩ none [],
      .node .decoratedDefinition true ⟨8, 24⟩ none
        [.node (.other "decorator") true ⟨8, 10⟩ none
            [.node (.other "@") false ⟨8, 9⟩ none [], .node .identifier true ⟨9, 10⟩ none []],
          .node .functionDefinition true ⟨11, 24⟩ (some (.other "definition"))
            [.node (.other "def") false ⟨11, 14⟩ none [],
              .node .identifier true ⟨15, 16⟩ (some .name) [],
              .node .colonToken false ⟨18, 19⟩ none [],
              .node .block true ⟨20, 24⟩ (some .body)
                [.node .passStatement true ⟨20, 24⟩ none []]]]]

theorem comments_read_decorated :
    ∃ d, d ∈ decoratedTree.functions decorated ∧ decoratedTree.LaidOut decorated ∧
      d.comments = ["a", "b"] ∧
      (decoratedTree.commentBlock decorated 2).map (Comment.textAt decorated) = ["a", "b"] ∧
      ∃ t ∈ decoratedTree.nodes, t.kind = .functionDefinition ∧ d.span = t.span ∧
        ∃ before outer run, decoratedTree.Announces t before outer ∧
          Comment.Run decorated (outer.firstRow decorated) before run ∧
          d.comments = run.reverse.map (Comment.textAt decorated) := by
  obtain ⟨d, hd, hc⟩ : ∃ d, decoratedTree.functions decorated = [d] ∧ d.comments = ["a", "b"] :=
    ⟨_, rfl, by decide⟩
  have hm : d ∈ decoratedTree.functions decorated := hd ▸ List.mem_cons_self
  obtain ⟨t, ht, hk, hs, before, outer, run, ho, hr, he, -⟩ := Definition.comments_read hm
  exact ⟨d, hm, by decide, hc, by decide, t, ht, hk, hs, before, outer, run, ho, hr, he⟩

/-- A class with two methods, each below a comment. -/
def methods : String :=
  "class C:\n    # a\n    def f(self): pass\n    # b\n\n    # c\n    def g(self): pass\n    # d\n"

/-- The tree of a method that begins at the given offset. -/
def methodAt (start : Nat) : SyntaxTree :=
  .node .functionDefinition true ⟨start, start + 17⟩ none
    [.node (.other "def") false ⟨start, start + 3⟩ none [],
      .node .identifier true ⟨start + 4, start + 5⟩ (some .name) [],
      .node (.other "parameters") true ⟨start + 5, start + 11⟩ (some (.other "parameters"))
        [.node .openToken false ⟨start + 5, start + 6⟩ none [],
          .node .identifier true ⟨start + 6, start + 10⟩ none [],
          .node .closeToken false ⟨start + 10, start + 11⟩ none []],
      .node .colonToken false ⟨start + 11, start + 12⟩ none [],
      .node .block true ⟨start + 13, start + 17⟩ (some .body)
        [.node .passStatement true ⟨start + 13, start + 17⟩ none
          [.node (.other "pass") false ⟨start + 13, start + 17⟩ none []]]]

/-- The tree of the methods with the comments between and behind them. -/
def methodsBlock : SyntaxTree :=
  .node .block true ⟨21, 85⟩ (some .body)
    [methodAt 21, .node .comment true ⟨43, 46⟩ none [], .node .comment true ⟨52, 55⟩ none [],
      methodAt 60, .node .comment true ⟨82, 85⟩ none []]

/-- The tree of the class.  The comment above the first method stands before the block. -/
def methodsTree : SyntaxTree :=
  .node (.other "module") true ⟨0, 86⟩ none
    [.node .classDefinition true ⟨0, 85⟩ none
      [.node (.other "class") false ⟨0, 5⟩ none [],
        .node .identifier true ⟨6, 7⟩ (some .name) [], .node .colonToken false ⟨7, 8⟩ none [],
        .node .comment true ⟨13, 16⟩ none [], methodsBlock]]

/-- The comment above the first method of a class is not read. -/
theorem comments_miss_first_method :
    ∃ d ∈ methodsTree.functions methods, methodsTree.LaidOut methods ∧
      methodsTree.Announces (methodAt 21) [] (methodAt 21) ∧ d.span = (methodAt 21).span ∧
      d.comments = [] ∧
      (methodsTree.commentBlock methods ((methodAt 21).firstRow methods)).map
        (Comment.textAt methods) = ["a"] := by
  obtain ⟨d, rest, hd, hs, hc⟩ : ∃ d rest, methodsTree.functions methods = d :: rest ∧
      d.span = (methodAt 21).span ∧ d.comments = [] := ⟨_, _, rfl, rfl, by decide⟩
  have hp : methodsBlock ∈ methodsTree.nodes := by
    simp [methodsTree, SyntaxTree.nodes, SyntaxTree.nodesAmong, SyntaxTree.mem_nodes_self]
  exact ⟨d, hd ▸ List.mem_cons_self, by decide +kernel, .plain hp rfl (by decide), hs, hc,
    by decide +kernel⟩

end Flowgraph
