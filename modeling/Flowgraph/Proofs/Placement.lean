import Flowgraph.Proofs.Bodies

/-!
# Where nodes stand

The regions of a body are found by one pass over its statements, and its nodes are made by another.
The two passes agree.  A statement of the body is enclosed by the regions of the parts it stands in,
and by that of the function; the innermost of them is the region of every node that holds the
statement, in line or in a copy.  The exception are jumps on their way out.  Such a jump stands
alone at a node of a copy, in a region that it has not left yet.

What encloses a statement is said without following either pass: it is enough to stand somewhere in
a part.  The regions that enclose a statement are those that the region of its place lies within.

## Main definitions

* `Stmt.inPart` : the statements in a part of a statement.
* `RegionTree.Encloses`, `RegionTree.Innermost` : the regions that enclose a statement, and the one
  that lies within all of them.
* `Stmt.kind?` : what the region of a part is made for.

## Main results

* `Stmt.mem_inPart_iff` : to stand in a part is to stand in a body that belongs to the part.
* `RegionTree.encloses_of_isWithin`, `RegionTree.isWithin_of_encloses` : what encloses a statement.
* `RegionTree.innermost_of_mem_places` : the region of the place of a statement is the innermost.
* `RegionTree.kind_of_find?` : the kind of the region of a part.
* `Graph.regions_agree` : nodes stand in the innermost regions of their statements.
-/

namespace Flowgraph

/-! ## Enclosing regions -/

/-- The statements in a part of a statement, however deep they stand. -/
def Stmt.inPart : Stmt → Part → List Stmt
  | .loop _ _ _ orelse, .orelse => bodyStatements orelse
  | .attempt _ body handlers orelse final, .whole =>
    bodyStatements body ++ clauseStatements handlers ++ bodyStatements orelse ++
      bodyStatements final
  | .attempt _ body _ _ _, .body => bodyStatements body
  | .attempt _ _ handlers _ _, .handler index =>
    ((handlers[index]?).map fun handler => bodyStatements handler.body).getD []
  | .attempt _ _ _ _ final, .final => bodyStatements final
  | .hold _ _ _ body, .whole => bodyStatements body
  | .dispatch _ _ cases, .whole => caseStatements cases
  | _, _ => []

namespace RegionTree

/-- The region encloses a statement of the body: it is that of the function, or that of a part in
which the statement stands. -/
def Encloses (t : RegionTree) (body : List Stmt) (s : Stmt) (r : RegionId) : Prop :=
  r = root ∨ ∃ owner ∈ bodyStatements body, ∃ part, s ∈ owner.inPart part ∧
    t.find? owner.id part = some r

/-- Of the regions that enclose a statement, the one that lies within all others: as a region of the
tree, and by the statements that the regions enclose. -/
structure Innermost (t : RegionTree) (body : List Stmt) (s : Stmt) (r : RegionId) : Prop where
  encloses : t.Encloses body s r
  within : ∀ x, t.Encloses body s x → t.isWithin r x
  inside : ∀ x, t.Encloses body s x → ∀ s', t.Encloses body s' r → t.Encloses body s' x

variable {t : RegionTree} {links : List ((StmtId × Part) × Option (StmtId × Part))}

theorem Innermost.unique (h : t.Nests links) {body : List Stmt} {s : Stmt} {r r' : RegionId}
    (hr : t.Innermost body s r) (hr' : t.Innermost body s r') : r = r' := by
  apply Nat.le_antisymm
  · exact h.le_of_isWithin (hr'.within r hr.encloses)
  · exact h.le_of_isWithin (hr.within r' hr'.encloses)

end RegionTree

/-! ## Parts and bodies -/

/-- The parts of a statement that a body belongs to, if the body makes up the given part: that part,
and the whole statement if it is a `try`. -/
def Stmt.partsOf : Stmt → Option Part → List Part
  | _, none => []
  | .attempt .., some .whole => [.whole]
  | .attempt .., some part => [part, .whole]
  | _, some part => [part]

theorem Stmt.exists_mem_bodies_attempt {site : Site} {body : List Stmt} {handlers : List Handler}
    {orelse final : List Stmt} {P : Option Part × List Stmt → Prop} :
    (∃ b ∈ (Stmt.attempt site body handlers orelse final).bodies, P b) ↔
      P (some .body, body) ∨ (∃ x ∈ handlers.zipIdx, P (some (.handler x.2), x.1.body)) ∨
        P (some .whole, orelse) ∨ P (some .final, final) := by
  simp only [bodies, List.cons_append, List.mem_cons, List.mem_append, List.mem_map,
    List.not_mem_nil, or_false, or_and_right, exists_or, exists_eq_left]
  simp

/-- To stand in a part is to stand in a body that belongs to the part. -/
theorem Stmt.mem_inPart_iff {owner s : Stmt} {part : Part} : s ∈ owner.inPart part ↔
    ∃ b ∈ owner.bodies, part ∈ owner.partsOf b.1 ∧ s ∈ bodyStatements b.2 := by
  cases owner with
  | simple | pass | marker | yield | jump | unsupported => simp [inPart, bodies]
  | branch => simp [inPart, bodies, partsOf]
  | loop => cases part <;> simp [inPart, bodies, partsOf]
  | attempt site body handlers orelse final =>
    rw [exists_mem_bodies_attempt]
    cases part with
    -- all clauses of a `try` belong to the whole of it
    | whole => simp [inPart, partsOf, clauseStatements_eq_zipIdx]
    | body => simp [inPart, partsOf]
    | handler index =>
      cases hi : handlers[index]? with
      | none => simp [inPart, partsOf, List.mem_zipIdx_iff_getElem?, hi]
      | some handler => simp [inPart, partsOf, List.mem_zipIdx_iff_getElem?, hi]
    | final => simp [inPart, partsOf]
    | orelse => simp [inPart, partsOf]
  | hold => cases part <;> simp [inPart, bodies, partsOf]
  | dispatch => cases part <;> simp [inPart, bodies, partsOf, caseStatements_eq_flatMap]

/-! ## The regions of places -/

theorem clauseNesting_eq_flatMap (outer : Option (StmtId × Part)) (clauses : List BranchClause) :
    clauseNesting outer clauses = clauses.flatMap fun clause => bodyNesting outer clause.body := by
  induction clauses with
  | nil => rfl
  | cons clause rest ih => rw [clauseNesting, ih, List.flatMap_cons]

theorem handlerNesting_eq_flatMap (stmt : StmtId) (index : Nat) (handlers : List Handler) :
    handlerNesting stmt index handlers = (handlers.zipIdx index).flatMap fun x =>
      [((stmt, .handler x.2), some (stmt, .whole))] ++
        bodyNesting (some (stmt, .handler x.2)) x.1.body := by
  induction handlers generalizing index with
  | nil => rfl
  | cons handler rest ih => rw [handlerNesting, ih, List.zipIdx_cons, List.flatMap_cons]

theorem caseNesting_eq_flatMap (outer : Option (StmtId × Part)) (cases : List MatchCase) :
    caseNesting outer cases = cases.flatMap fun case => bodyNesting outer case.body := by
  induction cases with
  | nil => rfl
  | cons case rest ih => rw [caseNesting, ih, List.flatMap_cons]

theorem Stmt.nesting_subset_bodyNesting {s : Stmt} {body : List Stmt}
    {outer : Option (StmtId × Part)} (hs : s ∈ body) :
    s.nesting outer ⊆ bodyNesting outer body := by
  induction hs with
  | head rest => exact List.subset_append_left _ _
  | tail t _ ih => exact List.subset_append_of_subset_right _ ih

/-- The parts of the statements in the bodies of a statement are parts inside that statement. -/
theorem Stmt.bodyNesting_subset_nesting {s : Stmt} {b : Option Part × List Stmt}
    (outer : Option (StmtId × Part)) (hb : b ∈ s.bodies) :
    bodyNesting (s.placeIn outer b.1) b.2 ⊆ s.nesting outer := by
  intro x hx
  cases s with
  | simple | pass | marker | yield | jump | unsupported => simp [bodies] at hb
  | branch site test body clauses =>
    simp only [bodies, List.mem_cons, List.mem_map] at hb
    rw [nesting, clauseNesting_eq_flatMap, List.mem_append, List.mem_flatMap]
    rcases hb with rfl | ⟨clause, hc, rfl⟩
    · exact .inl hx
    · exact .inr ⟨clause, hc, hx⟩
  | loop site head body orelse =>
    simp only [bodies, List.mem_cons, List.not_mem_nil, or_false] at hb
    rw [nesting]
    rcases hb with rfl | rfl
    · exact List.mem_append_left _ (List.mem_append_left _ hx)
    · exact List.mem_append_right _ hx
  | attempt site body handlers orelse final =>
    simp only [bodies, List.mem_append, List.mem_cons, List.mem_map, List.not_mem_nil,
      or_false] at hb
    simp only [nesting, handlerNesting_eq_flatMap, List.mem_append, List.mem_flatMap]
    rcases hb with (rfl | ⟨y, hy, rfl⟩) | rfl | rfl
    · exact .inl (.inl (.inl (.inl (.inr hx))))
    · exact .inl (.inl (.inl (.inr ⟨y, hy, .inr hx⟩)))
    · exact .inl (.inl (.inr hx))
    · exact .inr hx
  | hold site isAsync header body =>
    simp only [bodies, List.mem_singleton] at hb
    subst hb
    exact List.mem_append_right _ hx
  | dispatch site subject cases =>
    simp only [bodies, List.mem_map] at hb
    obtain ⟨case, hc, rfl⟩ := hb
    rw [nesting, caseNesting_eq_flatMap]
    exact List.mem_append_right _ (List.mem_flatMap.2 ⟨case, hc, hx⟩)

/-- The parts of a statement at its place are parts of the body that it stands in. -/
theorem nesting_subset_of_mem_bodyPlaces {body : List Stmt} {outer : Option (StmtId × Part)} :
    ∀ x ∈ bodyPlaces outer body, x.1.nesting x.2 ⊆ bodyNesting outer body := by
  apply bodyPlaces_induct (P := fun s p => s.nesting p ⊆ bodyNesting outer body)
  · intro t p ht b hb s hs
    exact List.Subset.trans (Stmt.nesting_subset_bodyNesting hs)
      (List.Subset.trans (t.bodyNesting_subset_nesting p hb) ht)
  · intro s hs
    exact Stmt.nesting_subset_bodyNesting hs

theorem Stmt.links_attempt {site : Site} {body : List Stmt} {handlers : List Handler}
    {orelse final : List Stmt} {outer : Option (StmtId × Part)}
    {links : List ((StmtId × Part) × Option (StmtId × Part))}
    (hl : (Stmt.attempt site body handlers orelse final).nesting outer ⊆ links) :
    ((site.id, .whole), outer) ∈ links ∧ ((site.id, .body), some (site.id, .whole)) ∈ links ∧
      (∀ x ∈ handlers.zipIdx, ((site.id, .handler x.2), some (site.id, .whole)) ∈ links) ∧
      (final ≠ [] → ((site.id, .final), some (site.id, .whole)) ∈ links) := by
  refine ⟨hl (by simp [nesting]), hl (by simp [nesting]), fun x hx => hl ?_,
    fun hf => hl (by simp [nesting, hf])⟩
  simp only [nesting, handlerNesting_eq_flatMap, List.mem_append, List.mem_flatMap]
  exact .inl (.inl (.inl (.inr ⟨x, hx, .inl List.mem_cons_self⟩)))

namespace RegionTree.Nests

variable {t : RegionTree} {links : List ((StmtId × Part) × Option (StmtId × Part))}

/-- The region of a part, and what it lies within. -/
theorem exists_number (h : t.Nests links) {stmt : StmtId} {part : Part}
    {outer : Option (StmtId × Part)} {q : RegionId} (hk : ((stmt, part), outer) ∈ links)
    (hq : t.number outer = some q) : ∃ r, t.number (some (stmt, part)) = some r ∧
      ∀ x, t.isWithin r x ↔ t.find? stmt part = some x ∨ t.isWithin q x := by
  obtain ⟨r, q', hr, hq', hp⟩ := h.linked _ hk
  rw [hq, Option.some.injEq] at hq'
  subst hq'
  have hf : t.find? stmt part = some r := hr
  refine ⟨r, hr, fun x => ?_⟩
  rw [h.isWithin_iff hp, hf, Option.some.injEq]

/-- The region of a body of a statement lies within the parts of the statement that the body belongs
to, and within what the statement lies within. -/
theorem exists_number_placeIn (h : t.Nests links) {s : Stmt} {outer : Option (StmtId × Part)}
    {q : RegionId} (hl : s.nesting outer ⊆ links) (hq : t.number outer = some q)
    {b : Option Part × List Stmt} (hb : b ∈ s.bodies) (hne : b.2 ≠ []) :
    ∃ r, t.number (s.placeIn outer b.1) = some r ∧ ∀ x, t.isWithin r x ↔
      (∃ part ∈ s.partsOf b.1, t.find? s.id part = some x) ∨ t.isWithin q x := by
  -- a part that directly stands where the statement stands
  have hpart : ∀ part, s.partsOf (some part) = [part] → ((s.id, part), outer) ∈ links →
      ∃ r, t.number (some (s.id, part)) = some r ∧ ∀ x, t.isWithin r x ↔
        (∃ p ∈ s.partsOf (some part), t.find? s.id p = some x) ∨ t.isWithin q x := by
    intro part hp hk
    obtain ⟨r, hr, hx⟩ := h.exists_number hk hq
    exact ⟨r, hr, by simpa [hp] using hx⟩
  cases s with
  | simple | pass | marker | yield | jump | unsupported => simp [Stmt.bodies] at hb
  | branch site test body clauses =>
    simp only [Stmt.bodies, List.mem_cons, List.mem_map] at hb
    rcases hb with rfl | ⟨clause, hc, rfl⟩ <;> exact ⟨q, hq, by simp [Stmt.partsOf]⟩
  | loop site head body orelse =>
    simp only [Stmt.bodies, List.mem_cons, List.not_mem_nil, or_false] at hb
    rcases hb with rfl | rfl
    · exact ⟨q, hq, by simp [Stmt.partsOf]⟩
    · have hk : ((site.id, .orelse), outer) ∈ links := hl (by
        simpa [Stmt.nesting] using .inr (.inl hne))
      exact hpart .orelse rfl hk
  | attempt site body handlers orelse final =>
    obtain ⟨hwhole, hbody, hhandler, hfinal⟩ := Stmt.links_attempt hl
    obtain ⟨w, hw, hin⟩ := h.exists_number hwhole hq
    -- a clause lies within the whole statement, and that within the place of the statement
    have hclause : ∀ part, ((site.id, part), some (site.id, .whole)) ∈ links →
        ∃ r, t.number (some (site.id, part)) = some r ∧ ∀ x, t.isWithin r x ↔
          (∃ p ∈ [part, .whole], t.find? site.id p = some x) ∨ t.isWithin q x := by
      intro part hk
      obtain ⟨r, hr, hin'⟩ := h.exists_number hk hw
      refine ⟨r, hr, fun x => ?_⟩
      rw [hin', hin]
      simp [or_assoc]
    simp only [Stmt.bodies, List.mem_append, List.mem_cons, List.mem_map, List.not_mem_nil,
      or_false] at hb
    rcases hb with (rfl | ⟨y, hy, rfl⟩) | rfl | rfl
    · exact hclause .body hbody
    · exact hclause (.handler y.2) (hhandler y hy)
    · exact hpart .whole rfl hwhole
    · exact hclause .final (hfinal hne)
  | hold site isAsync header body =>
    simp only [Stmt.bodies, List.mem_singleton] at hb
    subst hb
    have hk : ((site.id, .whole), outer) ∈ links := hl (by simp [Stmt.nesting])
    exact hpart .whole rfl hk
  | dispatch site subject cases =>
    simp only [Stmt.bodies, List.mem_map] at hb
    obtain ⟨case, hc, rfl⟩ := hb
    have hk : ((site.id, .whole), outer) ∈ links := hl (by simp [Stmt.nesting])
    exact hpart .whole rfl hk

/-- The statements of a body have regions, which lie within those that the body lies within. -/
theorem exists_number_of_mem_bodyPlaces (h : t.Nests links) {body : List Stmt}
    {outer : Option (StmtId × Part)} {q : RegionId} (hl : bodyNesting outer body ⊆ links)
    (hq : t.number outer = some q) : ∀ x ∈ bodyPlaces outer body,
      ∃ r, t.number x.2 = some r ∧ ∀ y, t.isWithin q y → t.isWithin r y := by
  suffices hs : ∀ x ∈ bodyPlaces outer body, x.1.nesting x.2 ⊆ links ∧
      ∃ r, t.number x.2 = some r ∧ ∀ y, t.isWithin q y → t.isWithin r y from
    fun x hx => (hs x hx).2
  -- by induction on the place: the parts around it are nested as the tree is
  apply bodyPlaces_induct (P := fun s p => s.nesting p ⊆ links ∧
    ∃ r, t.number p = some r ∧ ∀ y, t.isWithin q y → t.isWithin r y)
  · rintro s p ⟨hp, r, hr, hin⟩ b hb s' hs'
    obtain ⟨r', hr', hin'⟩ := h.exists_number_placeIn hp hr hb (List.ne_nil_of_mem hs')
    refine ⟨?_, r', hr', fun y hy => (hin' y).2 (.inr (hin y hy))⟩
    exact List.Subset.trans (Stmt.nesting_subset_bodyNesting hs')
      (List.Subset.trans (s.bodyNesting_subset_nesting p hb) hp)
  · intro s hs
    exact ⟨List.Subset.trans (Stmt.nesting_subset_bodyNesting hs) hl, q, hq, fun y hy => hy⟩

end RegionTree.Nests

/-! ## Places and enclosing regions -/

namespace RegionTree

variable {body : List Stmt} {t : RegionTree}

/-- What encloses a statement encloses what stands in its bodies. -/
theorem Encloses.of_mem_bodies {s s' : Stmt} {x : RegionId} (h : t.Encloses body s x)
    {b : Option Part × List Stmt} (hb : b ∈ s.bodies) (hs : s' ∈ b.2) : t.Encloses body s' x := by
  rcases h with rfl | ⟨owner, ho, part, hm, hx⟩
  · exact .inl rfl
  · obtain ⟨b', hb', hp, hm⟩ := Stmt.mem_inPart_iff.1 hm
    have hm' := Stmt.mem_inPart_iff.2 ⟨b', hb', hp, mem_bodyStatements_of_mem_bodies hm hb hs⟩
    exact .inr ⟨owner, ho, part, hm', hx⟩

/-- A place lies within nothing but what encloses the statement. -/
theorem encloses_of_isWithin (hn : t.Nests (bodyNesting none body)) :
    ∀ x ∈ bodyPlaces none body, ∀ r, t.number x.2 = some r → ∀ y, t.isWithin r y →
      t.Encloses body x.1 y := by
  suffices hs : ∀ x ∈ bodyPlaces none body, (x.1 ∈ bodyStatements body ∧
      x.1.nesting x.2 ⊆ bodyNesting none body) ∧
      ∃ r, t.number x.2 = some r ∧ ∀ y, t.isWithin r y → t.Encloses body x.1 y by
    intro x hx r hr
    obtain ⟨-, r', hr', hin⟩ := hs x hx
    rw [hr, Option.some.injEq] at hr'
    exact hr' ▸ hin
  -- by induction on the place: a region around it is that of a part in between, or lies further out
  apply bodyPlaces_induct (P := fun s p => (s ∈ bodyStatements body ∧
    s.nesting p ⊆ bodyNesting none body) ∧
    ∃ r, t.number p = some r ∧ ∀ y, t.isWithin r y → t.Encloses body s y)
  · rintro s p ⟨⟨hs, hl⟩, q, hq, hin⟩ b hb s' hs'
    obtain ⟨r, hr, hx⟩ := hn.exists_number_placeIn hl hq hb (List.ne_nil_of_mem hs')
    refine ⟨⟨mem_bodyStatements_of_mem_bodies hs hb hs', ?_⟩, r, hr, fun y hy => ?_⟩
    · exact List.Subset.trans (Stmt.nesting_subset_bodyNesting hs')
        (List.Subset.trans (s.bodyNesting_subset_nesting p hb) hl)
    · rcases (hx y).1 hy with ⟨part, hp, hf⟩ | hy
      · have hm := Stmt.mem_inPart_iff.2 ⟨b, hb, hp, mem_bodyStatements_of_mem hs'⟩
        exact .inr ⟨s, hs, part, hm, hf⟩
      · exact (hin y hy).of_mem_bodies hb hs'
  · intro s hs
    refine ⟨⟨mem_bodyStatements_of_mem hs, Stmt.nesting_subset_bodyNesting hs⟩, root, rfl, ?_⟩
    intro y hy
    exact .inl (Nat.le_zero.1 (hn.le_of_isWithin hy))

/-- A place lies within everything that encloses the statement. -/
theorem isWithin_of_encloses (hn : t.Nests (bodyNesting none body))
    (hid : ((bodyStatements body).map Stmt.id).Nodup) {s : Stmt} {p : Option (StmtId × Part)}
    {r x : RegionId} (hs : (s, p) ∈ bodyPlaces none body) (hr : t.number p = some r)
    (hx : t.Encloses body s x) : t.isWithin r x := by
  have hplaces := hn.exists_number_of_mem_bodyPlaces (List.Subset.refl _) rfl
  rcases hx with rfl | ⟨owner, ho, part, hm, hx⟩
  · obtain ⟨r', hr', hin⟩ := hplaces _ hs
    rw [hr, Option.some.injEq] at hr'
    exact hr' ▸ hin root (hn.isWithin_self root)
  · obtain ⟨outer, hp⟩ := exists_mem_bodyPlaces none ho
    obtain ⟨b, hb, hpart, hsb⟩ := Stmt.mem_inPart_iff.1 hm
    have hne : b.2 ≠ [] := by
      intro he
      simp [he, bodyStatements] at hsb
    have hl := nesting_subset_of_mem_bodyPlaces _ hp
    obtain ⟨q, hq, -⟩ := hplaces _ hp
    obtain ⟨r₀, hr₀, hin⟩ := hn.exists_number_placeIn hl hq hb hne
    obtain ⟨p', hp'⟩ := exists_mem_bodyPlaces (owner.placeIn outer b.1) hsb
    obtain ⟨r', hr', hin'⟩ := hn.exists_number_of_mem_bodyPlaces
      (List.Subset.trans (owner.bodyNesting_subset_nesting outer hb) hl) hr₀ _ hp'
    -- the place in the body of the owner is the place in the function
    have hpp : p = p' := eq_of_mem_bodyPlaces hid hs (bodyPlaces_subset _ hp b hb hp')
    rw [← hpp, hr, Option.some.injEq] at hr'
    exact hr' ▸ hin' x ((hin x).2 (.inl ⟨part, hpart, hx⟩))

/-- The region of the place of a statement is the innermost one around the statement. -/
theorem innermost_of_mem_places (hn : t.Nests (bodyNesting none body))
    (hid : ((bodyStatements body).map Stmt.id).Nodup) {s : Stmt} {p : Option (StmtId × Part)}
    {r : RegionId} (hs : (s, p) ∈ bodyPlaces none body) (hr : t.number p = some r) :
    t.Innermost body s r where
  encloses := encloses_of_isWithin hn _ hs r hr r (hn.isWithin_self r)
  within _ := isWithin_of_encloses hn hid hs hr
  inside := by
    intro x hx s' hs'
    have hrx := isWithin_of_encloses hn hid hs hr hx
    by_cases hm : s' ∈ bodyStatements body
    · -- the place of the other statement lies within `r`, hence within `x`
      obtain ⟨p', hp'⟩ := exists_mem_bodyPlaces none hm
      obtain ⟨r', hr', -⟩ := hn.exists_number_of_mem_bodyPlaces (List.Subset.refl _) rfl _ hp'
      have hrr := isWithin_of_encloses hn hid hp' hr' hs'
      exact encloses_of_isWithin hn _ hp' r' hr' x (hn.isWithin_trans hrr hrx)
    · rcases hs' with rfl | ⟨owner, ho, part, hm', -⟩
      · exact .inl (Nat.le_zero.1 (hn.le_of_isWithin hrx))
      · obtain ⟨b, hb, -, hsb⟩ := Stmt.mem_inPart_iff.1 hm'
        exact absurd (bodyStatements_subset_of_mem_bodies ho hb hsb) hm

end RegionTree

/-! ## The kinds of regions -/

/-- What the region of a part of a statement is made for. -/
def Stmt.kind? : Stmt → Part → Option RegionKind
  | .loop .., .orelse => some .loopElse
  | .attempt .., .whole => some .attempt
  | .attempt .., .body => some .attemptBody
  | .attempt .., .handler _ => some .handler
  | .attempt .., .final => some .final
  | .hold .., .whole => some .hold
  | .dispatch .., .whole => some .dispatch
  | _, _ => none

/-- The regions of the tree are made for parts of the statements. -/
def RegionTree.MadeFor (t : RegionTree) (stmts : List Stmt) : Prop :=
  ∀ stmt part r, t.find? stmt part = some r → ∃ s ∈ stmts, s.id = stmt ∧
    ∃ region, t.get? r = some region ∧ s.kind? part = some region.kind

theorem RegionTree.MadeFor.add {t : RegionTree} {stmts : List Stmt} (h : t.MadeFor stmts)
    {s : Stmt} (hs : s ∈ stmts) (part : Part) {kind : RegionKind} (hk : s.kind? part = some kind)
    (parent : RegionId) : (t.add kind parent s.id part).MadeFor stmts := by
  intro stmt part' r hr
  -- the newest entry hides older ones for the same part
  by_cases he : (stmt, part') = (s.id, part)
  · cases he
    rw [find?_add_self, Option.some.injEq] at hr
    subst hr
    exact ⟨s, hs, rfl, ⟨t.size, some parent, kind⟩, by simp [get?, RegionTree.add, size], hk⟩
  · have hne : ((stmt, part') == (s.id, part)) = false := by simpa using he
    rw [find?, RegionTree.add, List.lookup_cons, hne] at hr
    obtain ⟨s', hs', hid, region, hg, hk'⟩ := h stmt part' r hr
    refine ⟨s', hs', hid, region, ?_, hk'⟩
    rw [get?, RegionTree.add, List.getElem?_append_left (List.getElem?_eq_some_iff.1 hg).1]
    exact hg

mutual

/-- Regions are added for parts of the statements that are passed over. -/
theorem Stmt.madeFor_addRegions {stmts : List Stmt} (parent : RegionId) : (s : Stmt) →
    {t : RegionTree} → s.statements ⊆ stmts → t.MadeFor stmts →
      (s.addRegions parent t).MadeFor stmts
  | .simple _, t, _, h | .pass _, t, _, h | .marker .., t, _, h | .yield _, t, _, h
  | .jump .., t, _, h | .unsupported _, t, _, h => h
  | .branch site test body clauses, t, hs, h => by
    simp only [Stmt.statements, List.cons_subset, List.append_subset] at hs
    exact madeFor_addClauseRegions parent clauses hs.2.2
      (madeFor_addBodyRegions parent body hs.2.1 h)
  | .loop site head body orelse, t, hs, h => by
    simp only [Stmt.statements, List.cons_subset, List.append_subset] at hs
    have hb := madeFor_addBodyRegions parent body hs.2.1 h
    rw [Stmt.addRegions]
    split
    · exact hb
    · exact madeFor_addBodyRegions _ orelse hs.2.2 (hb.add hs.1 .orelse rfl parent)
  | .attempt site body handlers orelse final, t, hs, h => by
    simp only [Stmt.statements, List.cons_subset, List.append_subset] at hs
    obtain ⟨hs, ⟨⟨hb, hh⟩, ho⟩, hf⟩ := hs
    -- in the order in which the regions are added
    have h := (h.add hs .whole rfl parent).add hs .body rfl t.size
    have h := madeFor_addBodyRegions (t.size + 1) body hb h
    have h := madeFor_addHandlerRegions t.size 0 hs rfl handlers hh h
    have h := madeFor_addBodyRegions t.size orelse ho h
    rw [Stmt.addRegions]
    simp only [RegionTree.size_add]
    split
    · exact h
    · exact madeFor_addBodyRegions _ final hf (h.add hs .final rfl t.size)
  | .hold site isAsync header body, t, hs, h => by
    rw [Stmt.statements, List.cons_subset] at hs
    exact madeFor_addBodyRegions t.size body hs.2 (h.add hs.1 .whole rfl parent)
  | .dispatch site subject cases, t, hs, h => by
    rw [Stmt.statements, List.cons_subset] at hs
    exact madeFor_addCaseRegions t.size cases hs.2 (h.add hs.1 .whole rfl parent)

theorem madeFor_addBodyRegions {stmts : List Stmt} (parent : RegionId) : (body : List Stmt) →
    {t : RegionTree} → bodyStatements body ⊆ stmts → t.MadeFor stmts →
      (addBodyRegions parent t body).MadeFor stmts
  | [], t, _, h => h
  | s :: rest, t, hs, h => by
    rw [bodyStatements, List.append_subset] at hs
    exact madeFor_addBodyRegions parent rest hs.2 (s.madeFor_addRegions parent hs.1 h)

theorem madeFor_addClauseRegions {stmts : List Stmt} (parent : RegionId) :
    (clauses : List BranchClause) → {t : RegionTree} → clauseStatements clauses ⊆ stmts →
      t.MadeFor stmts → (addClauseRegions parent t clauses).MadeFor stmts
  | [], t, _, h => h
  | ⟨_, _, body⟩ :: rest, t, hs, h => by
    rw [clauseStatements, List.append_subset] at hs
    exact madeFor_addClauseRegions parent rest hs.2 (madeFor_addBodyRegions parent body hs.1 h)

theorem madeFor_addHandlerRegions {stmts : List Stmt} (whole : RegionId) (index : Nat) {s : Stmt}
    (hs : s ∈ stmts) (hk : s.kind? (.handler index) = some .handler) :
    (handlers : List Handler) → {t : RegionTree} → clauseStatements handlers ⊆ stmts →
      t.MadeFor stmts → (addHandlerRegions s.id whole index t handlers).MadeFor stmts
  | [], t, _, h => h
  | ⟨_, _, body⟩ :: rest, t, hh, h => by
    rw [clauseStatements, List.append_subset] at hh
    have hb := madeFor_addBodyRegions t.size body hh.1 (h.add hs _ hk whole)
    have hk' : s.kind? (.handler (index + 1)) = some .handler := by cases s <;> trivial
    exact madeFor_addHandlerRegions whole (index + 1) hs hk' rest hh.2 hb

theorem madeFor_addCaseRegions {stmts : List Stmt} (parent : RegionId) :
    (cases : List MatchCase) → {t : RegionTree} → caseStatements cases ⊆ stmts →
      t.MadeFor stmts → (addCaseRegions parent t cases).MadeFor stmts
  | [], t, _, h => h
  | ⟨_, _, body⟩ :: rest, t, hs, h => by
    rw [caseStatements, List.append_subset] at hs
    exact madeFor_addCaseRegions parent rest hs.2 (madeFor_addBodyRegions parent body hs.1 h)

end

/-- The region of a part of a statement is of the kind that the statement has for the part. -/
theorem RegionTree.kind_of_find? {body : List Stmt}
    (hid : ((bodyStatements body).map Stmt.id).Nodup) {s : Stmt} (hs : s ∈ bodyStatements body)
    {part : Part} {r : RegionId} (hr : (ofBody body).find? s.id part = some r) :
    ((ofBody body).get? r).map (·.kind) = s.kind? part := by
  have hm : (ofBody body).MadeFor (bodyStatements body) :=
    madeFor_addBodyRegions root body (List.Subset.refl _) (by simp [MadeFor, single, find?])
  obtain ⟨s', hs', he, region, hg, hk⟩ := hm _ _ _ hr
  rw [List.inj_on_of_nodup_map hid hs' hs he] at hk
  rw [hg, hk, Option.map_some]

/-! ## Nodes and regions -/

/-- Every statement at its innermost region, every jump on its way out in a region around that, and
every resource in the region of its statement. -/
def RegionTree.lodging (t : RegionTree) (body : List Stmt) : Lodging where
  stmt r s := s ∈ bodyStatements body ∧ t.Innermost body s r
  passing x s := s ∈ bodyStatements body ∧ ∃ r, t.Innermost body s r ∧ t.isWithin r x
  released r header := ∃ site isAsync inner,
    .hold site isAsync header inner ∈ bodyStatements body ∧ t.find? site.id .whole = some r
  tested _ := True

theorem RegionTree.houses_lodging {body : List Stmt}
    (hid : ((bodyStatements body).map Stmt.id).Nodup) :
    ((ofBody body).lodging body).Houses (ofBody body) (bodyPlaces none body) where
  stmt _ _ _ hs hr :=
    ⟨mem_bodyStatements_of_mem_bodyPlaces hs, innermost_of_mem_places (nests_ofBody hid) hid hs hr⟩
  passing _ _ _ r _ hs hr hx :=
    ⟨mem_bodyStatements_of_mem_bodyPlaces hs, r,
      innermost_of_mem_places (nests_ofBody hid) hid hs hr, hx⟩
  released site isAsync _ inner _ _ hs hr :=
    ⟨site, isAsync, inner, mem_bodyStatements_of_mem_bodyPlaces hs, hr⟩
  tested _ _ _ _ _ := trivial

/-- The two passes agree on regions.  The graph has the regions of its body.  A node that holds a
statement stands in the innermost region around the statement, or it is a node of a copy that holds
nothing but a jump and stands in a region around that one; and a resource is released in the region
of a `with` statement that has it as its header. -/
theorem Graph.regions_agree {options : Options} {body : List Stmt} {g : Graph}
    (h : ofBody options body = .ok g) (hid : ((bodyStatements body).map Stmt.id).Nodup) :
    g.regions = RegionTree.ofBody body ∧
    (∀ n ∈ g.nodes, ∀ s ∈ n.stmts, s ∈ bodyStatements body ∧
      (∃ r, (RegionTree.ofBody body).Innermost body s r) ∧
      ∀ r, (RegionTree.ofBody body).Innermost body s r →
        (RegionTree.ofBody body).isWithin r n.region ∧
        (n.region = r ∨ n.duplicate = true ∧ ∃ site means, n.stmts = [.jump site means])) ∧
    ∀ n ∈ g.nodes, ∀ header, n.content = .release header →
      ∃ site isAsync inner, .hold site isAsync header inner ∈ bodyStatements body ∧
        (RegionTree.ofBody body).find? site.id .whole = some n.region ∧
        ((RegionTree.ofBody body).get? n.region).map (·.kind) = some .hold := by
  have hn := RegionTree.nests_ofBody hid
  have hlodged := lodged_ofBody h hid (RegionTree.houses_lodging hid)
  obtain ⟨_, -, -, hregions⟩ := ofPiece_ofBody h
  refine ⟨hregions, ?_, ?_⟩
  · intro n hm s hs
    obtain hall | ⟨hd, site, means, hj, hmem, r, hr, hin⟩ := (hlodged n hm).stmts
    -- statements in their own place
    · obtain ⟨hmem, hr⟩ := hall s hs
      refine ⟨hmem, ⟨_, hr⟩, fun r' hr' => ?_⟩
      rw [hr'.unique hn hr]
      exact ⟨hn.isWithin_self _, .inl rfl⟩
    -- a jump that carries on outside the region where it is written
    · rw [hj, List.mem_singleton] at hs
      subst hs
      refine ⟨hmem, ⟨r, hr⟩, fun r' hr' => ?_⟩
      rw [hr'.unique hn hr]
      exact ⟨hin, .inr ⟨hd, site, means, hj⟩⟩
  · intro n hm header hc
    obtain ⟨site, isAsync, inner, hmem, hr⟩ := (hlodged n hm).released header hc
    exact ⟨site, isAsync, inner, hmem, hr, RegionTree.kind_of_find? hid hmem hr⟩

/-- A `return` out of a `with` in the body of a `try` with a `finally` clause. -/
def returnOutOfWith : List Stmt :=
  let site (id : Nat) : Site := ⟨id, ⟨id, id + 1⟩⟩
  [.attempt (site 0) [.hold (site 1) false ⟨1, 2⟩ [.jump (site 2) .returning]] [] []
    [.pass (site 3)]]

/-- The `return` is met in the region of the `with`, in the body of the `try` once the resource is
released, and in the `try` once the clause has run. -/
theorem regions_agree_returnOutOfWith : ∃ g, Graph.ofBody {} returnOutOfWith = .ok g ∧
    ((bodyStatements returnOutOfWith).map Stmt.id).Nodup ∧
    (g.nodes.filter (·.stmts.any (·.id == 2))).map (·.region) = [3, 2, 1] ∧
    (∀ n ∈ g.nodes, ∀ s ∈ n.stmts,
      ∃ r, (RegionTree.ofBody returnOutOfWith).Innermost returnOutOfWith s r ∧
        (RegionTree.ofBody returnOutOfWith).isWithin r n.region) ∧
    ∃ n ∈ g.nodes, n.content = .release ⟨1, 2⟩ ∧
      ((RegionTree.ofBody returnOutOfWith).get? n.region).map (·.kind) = some .hold := by
  have h : ∃ g, Graph.ofBody {} returnOutOfWith = .ok g ∧
      (g.nodes.filter (·.stmts.any (·.id == 2))).map (·.region) = [3, 2, 1] ∧
      ∃ n, g.nodes[4]? = some n ∧ n.content = .release ⟨1, 2⟩ := ⟨_, rfl, rfl, _, rfl, rfl⟩
  have hid : ((bodyStatements returnOutOfWith).map Stmt.id).Nodup := by decide
  obtain ⟨g, hg, hregions, n, hn, hc⟩ := h
  have hn := List.mem_of_getElem? hn
  obtain ⟨-, hstmts, hreleased⟩ := Graph.regions_agree hg hid
  refine ⟨g, hg, hid, hregions, fun n hn s hs => ?_, n, hn, hc, ?_⟩
  · obtain ⟨-, ⟨r, hr⟩, hin⟩ := hstmts n hn s hs
    exact ⟨r, hr, (hin r hr).1⟩
  · obtain ⟨-, -, -, -, -, hk⟩ := hreleased n hn _ hc
    exact hk

end Flowgraph
