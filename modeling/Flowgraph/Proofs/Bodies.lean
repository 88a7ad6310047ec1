import Flowgraph.Proofs.Lodging

/-!
# The bodies of statements

A statement is followed in a listing by what stands in its bodies, whichever statement it is.  Seen
this way all compound statements are alike: each has a list of bodies, and a body either stands
where the statement stands or makes up a part with a region of its own.  The listing of statements
and that of their places have one equation each, and what is handed on from a statement to its
bodies reaches everything inside.

## Main definitions

* `Stmt.bodies` : the bodies of a statement, with the parts they make up.
* `Stmt.placeIn` : the place of the statements in a body.

## Main results

* `Stmt.bodies_induct` : induction over statements by their bodies.
* `Stmt.statements_eq`, `Stmt.places_eq` : a statement, then its bodies.
* `bodyPlaces_induct` : what is handed on from statements to their bodies holds at all places.
* `eq_of_mem_bodyPlaces` : a statement has one place.
-/

namespace Flowgraph

/-- The bodies of a statement, each with the part it makes up if that part has a region of its
own. -/
def Stmt.bodies : Stmt → List (Option Part × List Stmt)
  | .branch _ _ body clauses => (none, body) :: clauses.map fun clause => (none, clause.body)
  | .loop _ _ body orelse => [(none, body), (some .orelse, orelse)]
  | .attempt _ body handlers orelse final =>
    (some .body, body) ::
      (handlers.zipIdx.map fun (handler, index) => (some (.handler index), handler.body)) ++
      [(some .whole, orelse), (some .final, final)]
  | .hold _ _ _ body => [(some .whole, body)]
  | .dispatch _ _ cases => cases.map fun case => (some .whole, case.body)
  | _ => []

/-- The place of the statements in a body of a statement that stands in the part `outer`. -/
def Stmt.placeIn (t : Stmt) (outer : Option (StmtId × Part)) : Option Part →
    Option (StmtId × Part)
  | none => outer
  | some part => some (t.id, part)

theorem Clause.sizeOf_body_lt_of_mem {H : Type} [SizeOf H] {clauses : List (Clause H Stmt)}
    {clause : Clause H Stmt} (h : clause ∈ clauses) : sizeOf clause.body < sizeOf clauses := by
  have hc := List.sizeOf_lt_of_mem h
  cases clause
  simp at hc ⊢
  omega

theorem Stmt.sizeOf_lt_of_mem_bodies {s t : Stmt} {b : Option Part × List Stmt}
    (hb : b ∈ s.bodies) (ht : t ∈ b.2) : sizeOf t < sizeOf s := by
  have ht := List.sizeOf_lt_of_mem ht
  cases s with
  | simple | pass | marker | yield | jump | unsupported => simp [bodies] at hb
  | branch site test body clauses =>
    simp only [bodies, List.mem_cons, List.mem_map] at hb
    rcases hb with rfl | ⟨clause, hc, rfl⟩
    · simp at ht ⊢
      omega
    -- a clause is smaller than the list it stands in
    · have hc := Clause.sizeOf_body_lt_of_mem hc
      simp at ht ⊢
      omega
  | loop site head body orelse =>
    simp only [bodies, List.mem_cons, List.not_mem_nil, or_false] at hb
    rcases hb with rfl | rfl <;> (simp at ht ⊢; omega)
  | attempt site body handlers orelse final =>
    simp only [bodies, List.mem_append, List.mem_cons, List.mem_map, List.not_mem_nil,
      or_false] at hb
    rcases hb with (rfl | ⟨x, hx, rfl⟩) | rfl | rfl
    · simp at ht ⊢
      omega
    · have hc := Clause.sizeOf_body_lt_of_mem (List.fst_mem_of_mem_zipIdx hx)
      simp at ht ⊢
      omega
    all_goals simp at ht ⊢; omega
  | hold site isAsync header body =>
    simp only [bodies, List.mem_singleton] at hb
    subst hb
    simp at ht ⊢
    omega
  | dispatch site subject cases =>
    simp only [bodies, List.mem_map] at hb
    obtain ⟨case, hc, rfl⟩ := hb
    have hc := Clause.sizeOf_body_lt_of_mem hc
    simp at ht ⊢
    omega

/-- What holds of a statement if it holds of the statements in its bodies holds of all
statements. -/
theorem Stmt.bodies_induct {P : Stmt → Prop}
    (h : ∀ s : Stmt, (∀ b ∈ s.bodies, ∀ t ∈ b.2, P t) → P s) (s : Stmt) : P s :=
  h s fun _ hb t ht =>
    have := sizeOf_lt_of_mem_bodies hb ht
    bodies_induct h t
termination_by sizeOf s

theorem bodyStatements_eq_flatMap (body : List Stmt) :
    bodyStatements body = body.flatMap Stmt.statements := by
  induction body with
  | nil => rfl
  | cons s rest ih => rw [bodyStatements, ih, List.flatMap_cons]

theorem clauseStatements_eq_flatMap (clauses : List BranchClause) :
    clauseStatements clauses = clauses.flatMap fun clause => bodyStatements clause.body := by
  induction clauses with
  | nil => rfl
  | cons clause rest ih => rw [clauseStatements, ih, List.flatMap_cons]

theorem clauseStatements_eq_zipIdx (handlers : List Handler) :
    clauseStatements handlers = handlers.zipIdx.flatMap fun x => bodyStatements x.1.body := by
  conv_lhs => rw [clauseStatements_eq_flatMap, ← List.zipIdx_map_fst 0 handlers]
  exact List.flatMap_map ..

theorem caseStatements_eq_flatMap (cases : List MatchCase) :
    caseStatements cases = cases.flatMap fun case => bodyStatements case.body := by
  induction cases with
  | nil => rfl
  | cons case rest ih => rw [caseStatements, ih, List.flatMap_cons]

/-- A statement comes before what stands in its bodies. -/
theorem Stmt.statements_eq (s : Stmt) :
    s.statements = s :: s.bodies.flatMap fun b => bodyStatements b.2 := by
  cases s with
  | simple | pass | marker | yield | jump | unsupported => rfl
  | branch site test body clauses =>
    simp [statements, bodies, clauseStatements_eq_flatMap, List.flatMap_map]
  | loop site head body orelse => simp [statements, bodies]
  | attempt site body handlers orelse final =>
    simp [statements, bodies, clauseStatements_eq_zipIdx, List.flatMap_map]
  | hold site isAsync header body => simp [statements, bodies]
  | dispatch site subject cases =>
    simp [statements, bodies, caseStatements_eq_flatMap, List.flatMap_map]

theorem bodyPlaces_eq_flatMap (outer : Option (StmtId × Part)) (body : List Stmt) :
    bodyPlaces outer body = body.flatMap (Stmt.places outer) := by
  induction body with
  | nil => rfl
  | cons s rest ih => rw [bodyPlaces, ih, List.flatMap_cons]

theorem clausePlaces_eq_flatMap (outer : Option (StmtId × Part)) (clauses : List BranchClause) :
    clausePlaces outer clauses = clauses.flatMap fun clause => bodyPlaces outer clause.body := by
  induction clauses with
  | nil => rfl
  | cons clause rest ih => rw [clausePlaces, ih, List.flatMap_cons]

theorem handlerPlaces_eq_flatMap (stmt : StmtId) (index : Nat) (handlers : List Handler) :
    handlerPlaces stmt index handlers =
      (handlers.zipIdx index).flatMap fun x =>
        bodyPlaces (some (stmt, .handler x.2)) x.1.body := by
  induction handlers generalizing index with
  | nil => rfl
  | cons handler rest ih => rw [handlerPlaces, ih, List.zipIdx_cons, List.flatMap_cons]

theorem casePlaces_eq_flatMap (outer : Option (StmtId × Part)) (cases : List MatchCase) :
    casePlaces outer cases = cases.flatMap fun case => bodyPlaces outer case.body := by
  induction cases with
  | nil => rfl
  | cons case rest ih => rw [casePlaces, ih, List.flatMap_cons]

/-- The places of the statements in the bodies of a statement are told by the parts that the bodies
make up. -/
theorem Stmt.places_eq (outer : Option (StmtId × Part)) (s : Stmt) : s.places outer =
    (s, outer) :: s.bodies.flatMap fun b => bodyPlaces (s.placeIn outer b.1) b.2 := by
  cases s with
  | simple | pass | marker | yield | jump | unsupported => rfl
  | branch site test body clauses =>
    simp [places, bodies, placeIn, clausePlaces_eq_flatMap, List.flatMap_map]
  | loop site head body orelse => simp [places, bodies, placeIn, Stmt.id, Stmt.site]
  | attempt site body handlers orelse final =>
    simp [places, bodies, placeIn, Stmt.id, Stmt.site, handlerPlaces_eq_flatMap, List.flatMap_map]
  | hold site isAsync header body => simp [places, bodies, placeIn, Stmt.id, Stmt.site]
  | dispatch site subject cases =>
    simp [places, bodies, placeIn, Stmt.id, Stmt.site, casePlaces_eq_flatMap, List.flatMap_map]

/-- The places of a body are places of its statements. -/
theorem Stmt.map_fst_places (outer : Option (StmtId × Part)) (s : Stmt) :
    (s.places outer).map Prod.fst = s.statements := by
  induction s using bodies_induct generalizing outer with
  | h s ih =>
    rw [places_eq, statements_eq, List.map_cons, List.map_flatMap]
    congr 1
    apply List.flatMap_congr
    intro b hb
    rw [bodyPlaces_eq_flatMap, bodyStatements_eq_flatMap, List.map_flatMap]
    exact List.flatMap_congr fun t ht => ih b hb t ht _

theorem map_fst_bodyPlaces (outer : Option (StmtId × Part)) (body : List Stmt) :
    (bodyPlaces outer body).map Prod.fst = bodyStatements body := by
  rw [bodyPlaces_eq_flatMap, bodyStatements_eq_flatMap, List.map_flatMap]
  exact List.flatMap_congr fun s _ => s.map_fst_places outer

section Induct

variable {P : Stmt → Option (StmtId × Part) → Prop}

/-- What a statement hands on to the statements in its bodies holds of all statements inside, at
their places. -/
theorem Stmt.places_induct
    (hin : ∀ t outer, P t outer → ∀ b ∈ t.bodies, ∀ s ∈ b.2, P s (t.placeIn outer b.1))
    {s : Stmt} {outer : Option (StmtId × Part)} (h : P s outer) :
    ∀ x ∈ s.places outer, P x.1 x.2 := by
  induction s using bodies_induct generalizing outer with
  | h s ih =>
    intro x hx
    rw [places_eq, List.mem_cons, List.mem_flatMap] at hx
    rcases hx with rfl | ⟨b, hb, hx⟩
    · exact h
    · rw [bodyPlaces_eq_flatMap, List.mem_flatMap] at hx
      obtain ⟨t, ht, hx⟩ := hx
      exact ih b hb t ht (hin s outer h b hb t ht) x hx

theorem bodyPlaces_induct
    (hin : ∀ t outer, P t outer → ∀ b ∈ t.bodies, ∀ s ∈ b.2, P s (t.placeIn outer b.1))
    {body : List Stmt} {outer : Option (StmtId × Part)} (h : ∀ s ∈ body, P s outer) :
    ∀ x ∈ bodyPlaces outer body, P x.1 x.2 := by
  intro x hx
  rw [bodyPlaces_eq_flatMap, List.mem_flatMap] at hx
  obtain ⟨s, hs, hx⟩ := hx
  exact Stmt.places_induct hin (h s hs) x hx

end Induct

/-- The places in the bodies of a statement are places of the body that the statement stands in. -/
theorem bodyPlaces_subset {body : List Stmt} {outer : Option (StmtId × Part)} :
    ∀ x ∈ bodyPlaces outer body, ∀ b ∈ x.1.bodies,
      bodyPlaces (x.1.placeIn x.2 b.1) b.2 ⊆ bodyPlaces outer body := by
  have hsub : ∀ (s : Stmt) outer, ∀ b ∈ s.bodies,
      bodyPlaces (s.placeIn outer b.1) b.2 ⊆ s.places outer := by
    intro s outer b hb x hx
    rw [Stmt.places_eq]
    exact List.mem_cons_of_mem _ (List.mem_flatMap.2 ⟨b, hb, hx⟩)
  have hmem : ∀ (body : List Stmt) outer, ∀ s ∈ body, s.places outer ⊆ bodyPlaces outer body := by
    intro body outer s hs x hx
    rw [bodyPlaces_eq_flatMap]
    exact List.mem_flatMap.2 ⟨s, hs, hx⟩
  -- by induction on the place, from the outermost statements inwards
  apply bodyPlaces_induct (P := fun s p => ∀ b ∈ s.bodies,
    bodyPlaces (s.placeIn p b.1) b.2 ⊆ bodyPlaces outer body)
  · intro t p ht b hb s hs b' hb'
    exact List.Subset.trans (hsub s _ b' hb') (List.Subset.trans (hmem b.2 _ s hs) (ht b hb))
  · intro s hs b hb
    exact List.Subset.trans (hsub s outer b hb) (hmem body outer s hs)

theorem exists_mem_bodyPlaces {body : List Stmt} (outer : Option (StmtId × Part)) {s : Stmt}
    (hs : s ∈ bodyStatements body) : ∃ p, (s, p) ∈ bodyPlaces outer body := by
  rw [← map_fst_bodyPlaces outer] at hs
  obtain ⟨⟨_, p⟩, hp, rfl⟩ := List.mem_map.1 hs
  exact ⟨p, hp⟩

theorem mem_bodyStatements_of_mem_bodyPlaces {body : List Stmt} {outer p : Option (StmtId × Part)}
    {s : Stmt} (hs : (s, p) ∈ bodyPlaces outer body) : s ∈ bodyStatements body := by
  rw [← map_fst_bodyPlaces outer]
  exact List.mem_map.2 ⟨(s, p), hs, rfl⟩

/-- Where no two statements have one number, a statement has one place. -/
theorem eq_of_mem_bodyPlaces {body : List Stmt} (hid : ((bodyStatements body).map Stmt.id).Nodup)
    {s : Stmt} {outer p p' : Option (StmtId × Part)} (hp : (s, p) ∈ bodyPlaces outer body)
    (hp' : (s, p') ∈ bodyPlaces outer body) : p = p' := by
  rw [← map_fst_bodyPlaces outer, List.map_map] at hid
  exact congrArg Prod.snd (List.inj_on_of_nodup_map hid hp hp' rfl)

theorem mem_bodyStatements_of_mem {body : List Stmt} {s : Stmt} (hs : s ∈ body) :
    s ∈ bodyStatements body := by
  rw [bodyStatements_eq_flatMap]
  exact List.mem_flatMap.2 ⟨s, hs, by simp [s.statements_eq]⟩

/-- What stands in a body of a statement of a body stands in that body. -/
theorem bodyStatements_subset_of_mem_bodies {body : List Stmt} {t : Stmt}
    {b : Option Part × List Stmt} (ht : t ∈ bodyStatements body) (hb : b ∈ t.bodies) :
    bodyStatements b.2 ⊆ bodyStatements body := by
  intro s hs
  obtain ⟨p, hp⟩ := exists_mem_bodyPlaces none ht
  obtain ⟨p', hp'⟩ := exists_mem_bodyPlaces (t.placeIn p b.1) hs
  exact mem_bodyStatements_of_mem_bodyPlaces (bodyPlaces_subset _ hp b hb hp')

theorem mem_bodyStatements_of_mem_bodies {body : List Stmt} {s t : Stmt}
    {b : Option Part × List Stmt} (ht : t ∈ bodyStatements body) (hb : b ∈ t.bodies)
    (hs : s ∈ b.2) : s ∈ bodyStatements body :=
  bodyStatements_subset_of_mem_bodies ht hb (mem_bodyStatements_of_mem hs)

end Flowgraph
