import Mathlib.Algebra.Ring.Nat
import Mathlib.Data.Nat.Find
import Mathlib.Logic.Relation
import Flowgraph.Proofs.Faults
import Flowgraph.Proofs.Growth

/-!
# Regions are nested like brackets

The pass over a body opens a region, adds what is inside it, and never comes back to it.  So the
regions are numbered in preorder: the parent of a region is the region before it or lies around the
region before it.  All other facts about the shape of a region tree follow from this one.  What lies
within a region is numbered without gaps, and two regions are nested or have nothing in common.

Nothing is asked of the body.  It may be malformed, and its statements may share their numbers.

## Main definitions

* `RegionTree.Fills` : one tree comes from another by filling a region, in preorder.
* `RegionTree.Preordered` : parents lie around the region before their child.
* `Stmt.ownRegions` : the number of regions that a statement has apart from what is inside it.

## Main results

* `fills_addBodyRegions` : adding the regions of a body fills the region that the body stands in.
* `RegionTree.Preordered.exists_stop` : what lies within a region is numbered without gaps.
* `RegionTree.Preordered.opens_barrier` : going outwards through open borders ends at the barrier.
* `RegionTree.ofBody_laminar` : the shape of the regions of a function body.
-/

namespace Flowgraph

/-- The region is made for a clause of a `try`. -/
def RegionKind.isClause : RegionKind → Bool
  | .attemptBody | .handler | .final => true
  | _ => false

namespace RegionTree

variable {t t' t'' : RegionTree}

/-! ## Filling a region -/

/-- A region of this kind may be added to `p`: clauses of a `try` belong to a `try`. -/
def Admits (t : RegionTree) (p : RegionId) (kind : RegionKind) : Prop :=
  kind.isClause = true → (t.get? p).map (·.kind) = some .attempt

/-- The last tree is the first with regions added inside `p`, one after the other, and each of them
filled before the next is added. -/
inductive Fills : RegionTree → RegionId → RegionTree → Prop
  | nil {t : RegionTree} {p : RegionId} : Fills t p t
  | cons {t t' t'' : RegionTree} {p : RegionId} (kind : RegionKind) (stmt : StmtId) (part : Part)
      (admitted : t.Admits p kind) (inside : Fills (t.add kind p stmt part) t.size t')
      (rest : Fills t' p t'') : Fills t p t''

namespace Fills

variable {p : RegionId}

theorem append (h : t.Fills p t') (h' : t'.Fills p t'') : t.Fills p t'' := by
  induction h with
  | nil => exact h'
  | cons kind stmt part admitted inside _ _ ih => exact .cons kind stmt part admitted inside (ih h')

theorem of_add {kind : RegionKind} (stmt : StmtId) (part : Part) (admitted : t.Admits p kind)
    (inside : (t.add kind p stmt part).Fills t.size t') : t.Fills p t' :=
  .cons kind stmt part admitted inside .nil

theorem size_le (h : t.Fills p t') : t.size ≤ t'.size := by
  induction h with
  | nil => exact Nat.le_refl _
  | cons _ _ _ _ _ _ ihi ihr =>
    rw [size_add] at ihi
    exact Nat.le_trans (Nat.le_trans (Nat.le_succ _) ihi) ihr

/-- Regions that are there stay as they are. -/
theorem get?_eq (h : t.Fills p t') {r : RegionId} (hr : r < t.size) : t'.get? r = t.get? r := by
  induction h with
  | nil => rfl
  | cons _ _ _ _ inside _ ihi ihr =>
    have hin := inside.size_le
    rw [size_add] at hin
    rw [ihr (Nat.lt_of_lt_of_le hr (Nat.le_trans (Nat.le_succ _) hin)),
      ihi (by rw [size_add]; exact Nat.lt_succ_of_lt hr), get?_add_of_lt hr]

/-- What was admitted to a region that is there is admitted still. -/
theorem admits {q : RegionId} {kind : RegionKind} (h : t.Fills p t') (hq : q < t.size)
    (ha : t.Admits q kind) : t'.Admits q kind := by
  rwa [Admits, h.get?_eq hq]

end Fills

/-- Anything but a clause may be added anywhere. -/
theorem admits_of_not_isClause {k : RegionKind} (h : k.isClause = false) {p : RegionId} :
    t.Admits p k := by
  intro hk
  rw [h] at hk
  cases hk

/-- Everything may be added to the region of a `try`. -/
theorem admits_attempt (p : RegionId) (stmt : StmtId) (part : Part) (kind : RegionKind) :
    (t.add .attempt p stmt part).Admits t.size kind := by
  intro _
  rw [get?_add_size]
  rfl

end RegionTree

open RegionTree

mutual

/-- Adding the regions of a statement fills the region that it stands in. -/
theorem Stmt.fills_addRegions (parent : RegionId) : (s : Stmt) → (t : RegionTree) →
    t.Fills parent (s.addRegions parent t)
  | .simple _, _ | .pass _, _ | .marker .., _ | .yield _, _ | .jump .., _ | .unsupported _, _ =>
    .nil
  | .branch _ _ body clauses, t =>
    (fills_addBodyRegions parent body t).append (fills_addClauseRegions parent clauses _)
  | .loop site _ body orelse, t => by
    have hb := fills_addBodyRegions parent body t
    rw [Stmt.addRegions]
    split
    · exact hb
    · exact hb.append (.of_add site.id .orelse (admits_of_not_isClause rfl)
        (fills_addBodyRegions _ orelse _))
  | .attempt site body handlers orelse final, t => by
    rw [Stmt.addRegions]
    have hw : ∀ kind, (t.add .attempt parent site.id .whole).Admits t.size kind :=
      admits_attempt parent site.id .whole
    refine .of_add site.id .whole (admits_of_not_isClause (k := .attempt) rfl) ?_
    have hin : t.size < (t.add .attempt parent site.id .whole).size := by simp
    -- the clauses fill the region of the statement, one after the other
    generalize t.add .attempt parent site.id .whole = t₁ at hw hin ⊢
    have hb : t₁.Fills t.size
        (addBodyRegions t₁.size (t₁.add .attemptBody t.size site.id .body) body) :=
      .of_add site.id .body (hw _) (fills_addBodyRegions _ body _)
    have hh : t₁.Fills t.size (addHandlerRegions site.id t.size 0 _ handlers) :=
      hb.append (fills_addHandlerRegions site.id 0 handlers _
        (Nat.lt_of_lt_of_le hin hb.size_le) (hb.admits hin (hw .handler)))
    have ho := hh.append (fills_addBodyRegions t.size orelse _)
    split
    · exact ho
    · exact ho.append (.of_add site.id .final (ho.admits hin (hw .final))
        (fills_addBodyRegions _ final _))
  | .hold site _ _ body, t =>
    .of_add site.id .whole (admits_of_not_isClause rfl) (fills_addBodyRegions _ body _)
  | .dispatch site _ cases, t =>
    .of_add site.id .whole (admits_of_not_isClause rfl) (fills_addCaseRegions _ cases _)

/-- Adding the regions of a body fills the region that it stands in. -/
theorem fills_addBodyRegions (parent : RegionId) : (body : List Stmt) → (t : RegionTree) →
    t.Fills parent (addBodyRegions parent t body)
  | [], _ => .nil
  | s :: rest, t => (s.fills_addRegions parent t).append (fills_addBodyRegions parent rest _)

theorem fills_addClauseRegions (parent : RegionId) : (clauses : List BranchClause) →
    (t : RegionTree) → t.Fills parent (addClauseRegions parent t clauses)
  | [], _ => .nil
  | ⟨_, _, body⟩ :: rest, t =>
    (fills_addBodyRegions parent body t).append (fills_addClauseRegions parent rest _)

theorem fills_addHandlerRegions {whole : RegionId} (stmt : StmtId) (index : Nat) :
    (handlers : List Handler) → (t : RegionTree) → whole < t.size → t.Admits whole .handler →
      t.Fills whole (addHandlerRegions stmt whole index t handlers)
  | [], _, _, _ => .nil
  | ⟨_, _, body⟩ :: rest, t, hlt, ha => by
    have hb : t.Fills whole
        (addBodyRegions t.size (t.add .handler whole stmt (.handler index)) body) :=
      .of_add stmt (.handler index) ha (fills_addBodyRegions _ body _)
    exact hb.append (fills_addHandlerRegions stmt (index + 1) rest _
      (Nat.lt_of_lt_of_le hlt hb.size_le) (hb.admits hlt ha))

theorem fills_addCaseRegions (parent : RegionId) : (cases : List MatchCase) →
    (t : RegionTree) → t.Fills parent (addCaseRegions parent t cases)
  | [], _ => .nil
  | ⟨_, _, body⟩ :: rest, t =>
    (fills_addBodyRegions parent body t).append (fills_addCaseRegions parent rest _)

end

namespace RegionTree

variable {t t' : RegionTree}

/-! ## Preorder -/

/-- The regions are numbered in preorder: the parent of a region is the region before it or lies
around that one.  The function is the first region, and clauses of a `try` stand in a `try`. -/
structure Preordered (t : RegionTree) : Prop where
  ordered : t.Ordered
  follows : ∀ r q, t.parent? (r + 1) = some q → t.isWithin r q
  function : t.get? root = some ⟨root, none, .function⟩
  clauses : ∀ r region, t.get? r = some region → region.kind.isClause = true →
    ∃ q, region.parent = some q ∧ (t.get? q).map (·.kind) = some .attempt

/-- The next region may be added to `p`: the last region lies within `p`. -/
structure OpenAt (t : RegionTree) (p : RegionId) : Prop extends t.Preordered where
  last : t.isWithin (t.size - 1) p

section Add

variable {p : RegionId} {kind : RegionKind} {stmt : StmtId} {part : Part}

theorem OpenAt.lt_size (h : t.OpenAt p) : p < t.size := by
  have hle := h.ordered.le_of_isWithin h.last
  have hpos := h.ordered.root_lt_size
  exact Nat.lt_of_le_pred hpos hle

/-- Going outwards from a region that is there leads to the same regions as before. -/
theorem Ordered.isWithin_add (h : t.Ordered) (hp : p < t.size) {r x : RegionId}
    (hr : r < t.size) (hx : t.isWithin r x) : (t.add kind p stmt part).isWithin r x := by
  have h' := h.add kind hp stmt part
  -- by induction on the region, whose parent has a smaller number
  induction r using Nat.strongRecOn with
  | _ r ih =>
    have hadd : (t.add kind p stmt part).parent? r = t.parent? r := parent?_add_of_lt hr
    cases hq : t.parent? r with
    | none =>
      rw [hq] at hadd
      exact (h'.isWithin_iff_of_parent?_eq_none hadd).2
        ((h.isWithin_iff_of_parent?_eq_none hq).1 hx)
    | some q =>
      rw [hq] at hadd
      have hlt := h.parent_lt r q hq
      exact (h'.isWithin_iff hadd).2
        (((h.isWithin_iff hq).1 hx).imp_right (ih q hlt (Nat.lt_trans hlt hr)))

/-- A region is added where the tree is open, and the tree is then open inside it. -/
theorem OpenAt.add (h : t.OpenAt p) (ha : t.Admits p kind) :
    (t.add kind p stmt part).OpenAt t.size where
  ordered := h.ordered.add kind h.lt_size stmt part
  follows r q hq := by
    rcases lt_or_eq_of_lt_size_add (lt_size_of_parent? hq) with hlt | heq
    · rw [parent?_add_of_lt hlt] at hq
      exact h.ordered.isWithin_add h.lt_size (Nat.lt_of_succ_lt hlt) (h.follows r q hq)
    -- the region before the new one is the last one so far, which lies in the parent
    · rw [heq, parent?_add_size, Option.some.injEq] at hq
      have hr : t.size - 1 = r := by rw [← heq]; rfl
      subst hq hr
      exact h.ordered.isWithin_add h.lt_size (heq ▸ Nat.lt_succ_self _) h.last
  function := by
    rw [get?_add_of_lt h.ordered.root_lt_size]
    exact h.function
  clauses r region hr hk := by
    rcases lt_or_eq_of_lt_size_add (lt_size_of_get? hr) with hlt | rfl
    · rw [get?_add_of_lt hlt] at hr
      obtain ⟨q, hq, hkind⟩ := h.clauses r region hr hk
      have hqr : q < r := h.ordered.parent_lt r q (by rw [parent?, hr]; exact hq)
      exact ⟨q, hq, by rw [get?_add_of_lt (Nat.lt_trans hqr hlt), hkind]⟩
    · rw [get?_add_size, Option.some.injEq] at hr
      subst hr
      exact ⟨p, rfl, by rw [get?_add_of_lt h.lt_size, ha hk]⟩
  last := by
    rw [size_add, Nat.add_sub_cancel]
    exact (h.ordered.add kind h.lt_size stmt part).isWithin_self t.size

end Add

/-- A tree that is open at a region stays open there when the region is filled. -/
theorem Fills.openAt {p : RegionId} (h : t.Fills p t') (ht : t.OpenAt p) : t'.OpenAt p := by
  induction h with
  | nil => exact ht
  | @cons t t' t'' p kind stmt part admitted inside _ ihi ihr =>
    have hin := ihi (ht.add admitted)
    refine ihr ⟨hin.toPreordered, hin.ordered.isWithin_trans hin.last ?_⟩
    -- the region that was filled lies directly inside `p`
    have hget := inside.get?_eq (r := t.size) (by rw [size_add]; exact Nat.lt_succ_self _)
    have hparent : t'.parent? t.size = some p := by
      rw [parent?, hget, get?_add_size]
      rfl
    exact (hin.ordered.isWithin_iff hparent).2 (.inr (hin.ordered.isWithin_self p))

theorem openAt_single : single.OpenAt root where
  ordered := ordered_single
  follows r q h := by simp [parent?, get?, single] at h
  function := rfl
  clauses r region h hk := by
    cases r with
    | zero =>
      cases h
      cases hk
    | succ r => simp [get?, single] at h
  last := ordered_single.isWithin_self root

theorem preordered_ofBody (body : List Stmt) : (ofBody body).Preordered :=
  ((fills_addBodyRegions root body single).openAt openAt_single).toPreordered

namespace Preordered

/-- From a region within `c`, all smaller numbers down to `c` are within `c`. -/
theorem isWithin_of_le (h : t.Preordered) {r s c : RegionId} (hr : t.isWithin r c) (hc : c ≤ s)
    (hs : s ≤ r) : t.isWithin s c := by
  induction r, hs using Nat.le_induction with
  | base => exact hr
  | succ r hsr ih =>
    refine ih ?_
    have hlt : c < r + 1 := Nat.lt_succ_of_le (Nat.le_trans hc hsr)
    cases hp : t.parent? (r + 1) with
    | none =>
      rw [h.ordered.isWithin_iff_of_parent?_eq_none hp] at hr
      exact absurd hr (Nat.ne_of_gt hlt)
    | some q =>
      -- the region before `r + 1` lies within its parent, and so within `c`
      have hq := ((h.ordered.isWithin_iff hp).1 hr).resolve_left (Nat.ne_of_gt hlt)
      exact h.ordered.isWithin_trans (h.follows r q hp) hq

theorem not_isWithin_size (h : t.Preordered) {c : RegionId} (hc : c < t.size) :
    ¬ t.isWithin t.size c := by
  have hp : t.parent? t.size = none := by
    rw [Option.eq_none_iff_forall_ne_some]
    exact fun q hq => Nat.lt_irrefl _ (lt_size_of_parent? hq)
  rw [h.ordered.isWithin_iff_of_parent?_eq_none hp]
  exact Nat.ne_of_gt hc

/-- What lies within a region is numbered without gaps, from the region on. -/
theorem exists_stop (h : t.Preordered) {c : RegionId} (hc : c < t.size) :
    ∃ stop, c < stop ∧ stop ≤ t.size ∧ ∀ r, t.isWithin r c ↔ c ≤ r ∧ r < stop := by
  have hex : ∃ s, c < s ∧ ¬ t.isWithin s c := ⟨t.size, hc, h.not_isWithin_size hc⟩
  refine ⟨Nat.find hex, (Nat.find_spec hex).1,
    Nat.find_min' hex ⟨hc, h.not_isWithin_size hc⟩, fun r => ⟨fun hr => ?_, fun hr => ?_⟩⟩
  · refine ⟨h.ordered.le_of_isWithin hr, Nat.lt_of_not_le fun hle => ?_⟩
    exact (Nat.find_spec hex).2 (h.isWithin_of_le hr (Nat.le_of_lt (Nat.find_spec hex).1) hle)
  · rcases Nat.eq_or_lt_of_le hr.1 with rfl | hlt
    · exact h.ordered.isWithin_self _
    · exact not_not.1 fun hn => Nat.find_min hex hr.2 ⟨hlt, hn⟩

/-- Two regions are nested, or nothing lies within both. -/
theorem nested_or_disjoint (h : t.Preordered) (c d : RegionId) :
    t.isWithin c d ∨ t.isWithin d c ∨ ∀ r, ¬ (t.isWithin r c ∧ t.isWithin r d) := by
  by_cases hr : ∃ r, t.isWithin r c ∧ t.isWithin r d
  · obtain ⟨r, hc, hd⟩ := hr
    exact (h.ordered.isWithin_or_isWithin hc hd).imp_right .inl
  · exact .inr (.inr (not_exists.1 hr))

end Preordered

/-! ## Going outwards -/

/-- A region lies within another exactly if going from parent to parent leads there. -/
theorem Ordered.isWithin_iff_reflTransGen (h : t.Ordered) {r x : RegionId} :
    t.isWithin r x ↔ Relation.ReflTransGen (fun r q => t.parent? r = some q) r x := by
  constructor
  · intro hx
    induction r using Nat.strongRecOn with
    | _ r ih =>
      cases hp : t.parent? r with
      | none => rw [(h.isWithin_iff_of_parent?_eq_none hp).1 hx]
      | some q =>
        rcases (h.isWithin_iff hp).1 hx with rfl | hq
        · exact .refl
        · exact .head hp (ih q (h.parent_lt r q hp) hq)
  · intro hx
    induction hx using Relation.ReflTransGen.head_induction_on with
    | refl => exact h.isWithin_self x
    | head hp _ ih => exact (h.isWithin_iff hp).2 (.inr ih)

/-- The border of a region is open, and outside of it is `q`. -/
def Opens (t : RegionTree) (r q : RegionId) : Prop :=
  t.isBarrier r = false ∧ t.parent? r = some q

theorem isBarrier_iff {r : RegionId} : t.isBarrier r = true ↔
    ∃ region, t.get? r = some region ∧ region.kind ≠ .dispatch ∧ region.kind ≠ .loopElse := by
  rw [isBarrier]
  cases t.get? r with
  | none => simp
  | some region => cases hk : region.kind <;> simp [RegionKind.isBarrier, hk]

namespace Preordered

theorem isBarrier_root (h : t.Preordered) : t.isBarrier root = true :=
  isBarrier_iff.2 ⟨_, h.function, by decide, by decide⟩

/-- The barrier of a barrier is the region itself. -/
theorem barrier_eq_self (h : t.Preordered) {r : RegionId} (hr : t.isBarrier r = true) :
    t.barrier r = r := by
  cases hp : t.parent? r with
  | none => simp [barrier, h.ordered.ancestry_of_parent?_eq_none hp, hr]
  | some q => simp [barrier, h.ordered.ancestry_of_parent? hp, hr]

/-- The barrier of any other region is that of its parent. -/
theorem barrier_of_opens (h : t.Preordered) {r q : RegionId} (hr : t.Opens r q) :
    t.barrier r = t.barrier q := by
  simp [barrier, h.ordered.ancestry_of_parent? hr.2, hr.1]

/-- Only barriers have no open border. -/
theorem exists_opens (h : t.Preordered) {r : RegionId} (hr : r < t.size)
    (hb : t.isBarrier r = false) : ∃ q, t.Opens r q := by
  have hne : r ≠ root := by
    rintro rfl
    rw [h.isBarrier_root] at hb
    cases hb
  obtain ⟨q, hq⟩ := h.ordered.exists_parent? hr hne
  exact ⟨q, hb, hq⟩

/-- Going outwards through open borders ends at the barrier, which is a barrier. -/
theorem opens_barrier (h : t.Preordered) {r : RegionId} (hr : r < t.size) :
    Relation.ReflTransGen t.Opens r (t.barrier r) ∧ t.isBarrier (t.barrier r) = true := by
  induction r using Nat.strongRecOn with
  | _ r ih =>
    cases hb : t.isBarrier r with
    | true =>
      rw [h.barrier_eq_self hb]
      exact ⟨.refl, hb⟩
    | false =>
      obtain ⟨q, hq⟩ := h.exists_opens hr hb
      have hlt := h.ordered.parent_lt r q hq.2
      have hbar := ih q hlt (Nat.lt_trans hlt hr)
      rw [h.barrier_of_opens hq]
      exact ⟨.head hq hbar.1, hbar.2⟩

/-- Every barrier around a region lies around its barrier. -/
theorem isWithin_barrier (h : t.Preordered) {r x : RegionId} (hr : r < t.size)
    (hx : t.isWithin r x) (hb : t.isBarrier x = true) : t.isWithin (t.barrier r) x := by
  induction r using Nat.strongRecOn with
  | _ r ih =>
    cases hbr : t.isBarrier r with
    | true =>
      rw [h.barrier_eq_self hbr]
      exact hx
    | false =>
      obtain ⟨q, hq⟩ := h.exists_opens hr hbr
      have hlt := h.ordered.parent_lt r q hq.2
      -- `x` is a barrier and `r` is not, so `x` lies around the parent of `r`
      have hne : r ≠ x := by
        rintro rfl
        rw [hb] at hbr
        cases hbr
      rw [h.barrier_of_opens hq]
      exact ih q hlt (Nat.lt_trans hlt hr)
        (((h.ordered.isWithin_iff hq.2).1 hx).resolve_left hne)

end Preordered

end RegionTree

/-! ## The number of regions -/

/-- The number of regions that a statement has apart from what is inside it. -/
def Stmt.ownRegions : Stmt → Nat
  | .attempt _ _ handlers _ final => 2 + handlers.length + (if final.isEmpty then 0 else 1)
  | .hold .. | .dispatch .. => 1
  | .loop _ _ _ orelse => if orelse.isEmpty then 0 else 1
  | .simple _ | .pass _ | .marker .. | .yield _ | .jump .. | .branch .. | .unsupported _ => 0

/-- The number of regions of some statements, apart from what is inside them. -/
def regionCount (stmts : List Stmt) : Nat :=
  (stmts.map Stmt.ownRegions).sum

@[simp] theorem regionCount_nil : regionCount [] = 0 := rfl

@[simp] theorem regionCount_cons (s : Stmt) (stmts : List Stmt) :
    regionCount (s :: stmts) = s.ownRegions + regionCount stmts := by
  simp [regionCount]

@[simp] theorem regionCount_append (stmts stmts' : List Stmt) :
    regionCount (stmts ++ stmts') = regionCount stmts + regionCount stmts' := by
  simp [regionCount]

mutual

theorem Stmt.size_addRegions (parent : RegionId) : (s : Stmt) → (t : RegionTree) →
    (s.addRegions parent t).size = t.size + regionCount s.statements
  | .simple _, _ | .pass _, _ | .marker .., _ | .yield _, _ | .jump .., _ | .unsupported _, _ => by
    simp [Stmt.addRegions, Stmt.statements, Stmt.ownRegions]
  | .branch _ _ body clauses, t => by
    simp only [Stmt.addRegions, size_addClauseRegions, size_addBodyRegions, Stmt.statements,
      regionCount_cons, regionCount_append, Stmt.ownRegions]
    omega
  | .loop site _ body orelse, t => by
    simp only [Stmt.addRegions, Stmt.statements, regionCount_cons, regionCount_append,
      Stmt.ownRegions]
    split
    -- without an `else` clause no region is added for it
    · next h => simp [size_addBodyRegions, List.isEmpty_iff.1 h, bodyStatements]
    · simp only [size_addBodyRegions, size_add]
      omega
  | .attempt site body handlers orelse final, t => by
    simp only [Stmt.addRegions, Stmt.statements, regionCount_cons, regionCount_append,
      Stmt.ownRegions]
    split
    · next h =>
      simp only [size_addBodyRegions, size_addHandlerRegions, size_add, List.isEmpty_iff.1 h,
        bodyStatements, regionCount_nil]
      omega
    · simp only [size_addBodyRegions, size_addHandlerRegions, size_add]
      omega
  | .hold site _ _ body, t => by
    simp only [Stmt.addRegions, size_addBodyRegions, size_add, Stmt.statements, regionCount_cons,
      Stmt.ownRegions]
    omega
  | .dispatch site _ cases, t => by
    simp only [Stmt.addRegions, size_addCaseRegions, size_add, Stmt.statements, regionCount_cons,
      Stmt.ownRegions]
    omega

theorem size_addBodyRegions (parent : RegionId) : (body : List Stmt) → (t : RegionTree) →
    (addBodyRegions parent t body).size = t.size + regionCount (bodyStatements body)
  | [], _ => rfl
  | s :: rest, t => by
    simp only [addBodyRegions, size_addBodyRegions parent rest, s.size_addRegions parent,
      bodyStatements, regionCount_append]
    omega

theorem size_addClauseRegions (parent : RegionId) : (clauses : List BranchClause) →
    (t : RegionTree) →
    (addClauseRegions parent t clauses).size = t.size + regionCount (clauseStatements clauses)
  | [], _ => rfl
  | ⟨_, _, body⟩ :: rest, t => by
    simp only [addClauseRegions, size_addClauseRegions parent rest,
      size_addBodyRegions parent body, clauseStatements, regionCount_append]
    omega

theorem size_addHandlerRegions (stmt : StmtId) (whole : RegionId) (index : Nat) :
    (handlers : List Handler) → (t : RegionTree) →
    (addHandlerRegions stmt whole index t handlers).size =
      t.size + handlers.length + regionCount (clauseStatements handlers)
  | [], _ => rfl
  | ⟨_, _, body⟩ :: rest, t => by
    simp only [addHandlerRegions, size_addHandlerRegions stmt whole (index + 1) rest,
      size_addBodyRegions _ body, size_add, clauseStatements, regionCount_append,
      List.length_cons]
    omega

theorem size_addCaseRegions (parent : RegionId) : (cases : List MatchCase) → (t : RegionTree) →
    (addCaseRegions parent t cases).size = t.size + regionCount (caseStatements cases)
  | [], _ => rfl
  | ⟨_, _, body⟩ :: rest, t => by
    simp only [addCaseRegions, size_addCaseRegions parent rest, size_addBodyRegions parent body,
      caseStatements, regionCount_append]
    omega

end

/-! ## The shape of the tree -/

/-- **The regions of a function body are nested like brackets.**  They are numbered by position;
only the function has no parent, and parents come before their children.  What lies within a region
is numbered without gaps from the region on, so two regions are nested or disjoint.  Clauses of a
`try` stand in a `try`.  The number of regions is read off the statements, and going outwards
through open borders ends at the nearest region whose border is not open. -/
theorem RegionTree.ofBody_laminar (body : List Stmt) :
    let t := ofBody body
    (∀ r, r < t.size → ∃ region, t.get? r = some region ∧ region.id = r ∧
      (region.parent = none ↔ r = root) ∧ ∀ q, region.parent = some q → q < r) ∧
    (∀ r c, t.isWithin r c ↔ Relation.ReflTransGen (fun r q => t.parent? r = some q) r c) ∧
    (∀ c, c < t.size →
      ∃ stop, c < stop ∧ stop ≤ t.size ∧ ∀ r, t.isWithin r c ↔ c ≤ r ∧ r < stop) ∧
    (∀ c d, t.isWithin c d ∨ t.isWithin d c ∨ ∀ r, ¬ (t.isWithin r c ∧ t.isWithin r d)) ∧
    (∀ r region, t.get? r = some region → region.kind ∈ [.attemptBody, .handler, .final] →
      ∃ q, region.parent = some q ∧ (t.get? q).map (·.kind) = some .attempt) ∧
    t.size = 1 + ((bodyStatements body).map Stmt.ownRegions).sum ∧
    ∀ c, c < t.size →
      Relation.ReflTransGen t.Opens c (t.barrier c) ∧ (∀ q, ¬ t.Opens (t.barrier c) q) ∧
      t.isWithin c (t.barrier c) ∧
      (∃ region, t.get? (t.barrier c) = some region ∧
        region.kind ≠ .dispatch ∧ region.kind ≠ .loopElse) ∧
      ∀ d region, t.isWithin c d → t.get? d = some region → region.kind ≠ .dispatch →
        region.kind ≠ .loopElse → t.isWithin (t.barrier c) d := by
  intro t
  have h : t.Preordered := preordered_ofBody body
  refine ⟨fun r hr => ?_, fun r c => h.ordered.isWithin_iff_reflTransGen,
    fun c hc => h.exists_stop hc, h.nested_or_disjoint, fun r region hr hk => ?_, ?_,
    fun c hc => ?_⟩
  -- regions are numbered by position, and only the root has no parent
  · have hget : t.get? r = some t.regions[r] := List.getElem?_eq_getElem hr
    have hparent : t.parent? r = t.regions[r].parent := by rw [parent?, hget]; rfl
    refine ⟨t.regions[r], hget, h.ordered.id_eq r _ hget, ⟨fun hn => ?_, ?_⟩, fun q hq => ?_⟩
    · exact h.ordered.eq_root r hr (hparent.trans hn)
    · rintro rfl
      exact hparent.symm.trans h.ordered.parent?_root
    · exact h.ordered.parent_lt r q (hparent.trans hq)
  · refine h.clauses r region hr ?_
    simp only [List.mem_cons, List.not_mem_nil, or_false] at hk
    rcases hk with hk | hk | hk <;> rw [hk] <;> rfl
  · exact size_addBodyRegions root body single
  -- the way outwards follows parents, so the barrier is a region around
  · obtain ⟨hpath, hbar⟩ := h.opens_barrier hc
    refine ⟨hpath, fun q hq => ?_, ?_, isBarrier_iff.1 hbar, fun d region hd hg hk hk' => ?_⟩
    · rw [Opens, hbar] at hq
      cases hq.1
    · exact h.ordered.isWithin_iff_reflTransGen.2
        (Relation.ReflTransGen.mono (fun _ _ hq => hq.2) _ _ hpath)
    · exact h.isWithin_barrier hc hd (isBarrier_iff.2 ⟨region, hg, hk, hk'⟩)

end Flowgraph
