import Flowgraph.Proofs.Faults
import Flowgraph.Proofs.Growth
import Flowgraph.Proofs.Tagging

/-!
# How regions are nested

The regions of a body lie in each other as the parts of its statements do.  Each part that has a
region of its own stands in another such part or in no statement at all; where no two statements
have the same number, the region tree gives the part a region whose parent is the region of the part
it stands in, and different parts have different regions.

## Main definitions

* `Stmt.nesting`, `bodyNesting` : the parts of statements, each with the part it stands in.
* `RegionTree.Nests` : the regions of the tree are nested in this way.

## Main results

* `nodup_bodyParts` : the parts of statements with different numbers are different.
* `RegionTree.nests_ofBody` : the regions of a function body are nested like its parts.
-/

namespace Flowgraph

/-! ## Parts of parts -/

mutual

/-- The parts of a statement that stands in the part `outer`, each with the part it stands in. -/
def Stmt.nesting (outer : Option (StmtId × Part)) :
    Stmt → List ((StmtId × Part) × Option (StmtId × Part))
  | .simple _ | .pass _ | .marker .. | .yield _ | .jump .. | .unsupported _ => []
  | .branch _ _ body clauses => bodyNesting outer body ++ clauseNesting outer clauses
  | .loop site _ body orelse =>
    bodyNesting outer body ++ (if orelse.isEmpty then [] else [((site.id, .orelse), outer)]) ++
      bodyNesting (some (site.id, .orelse)) orelse
  | .attempt site body handlers orelse final =>
    [((site.id, .whole), outer)] ++ [((site.id, .body), some (site.id, .whole))] ++
      bodyNesting (some (site.id, .body)) body ++ handlerNesting site.id 0 handlers ++
      bodyNesting (some (site.id, .whole)) orelse ++
      (if final.isEmpty then [] else [((site.id, .final), some (site.id, .whole))]) ++
      bodyNesting (some (site.id, .final)) final
  | .hold site _ _ body =>
    [((site.id, .whole), outer)] ++ bodyNesting (some (site.id, .whole)) body
  | .dispatch site _ cases =>
    [((site.id, .whole), outer)] ++ caseNesting (some (site.id, .whole)) cases

/-- The parts of the statements of a body. -/
def bodyNesting (outer : Option (StmtId × Part)) :
    List Stmt → List ((StmtId × Part) × Option (StmtId × Part))
  | [] => []
  | s :: rest => s.nesting outer ++ bodyNesting outer rest

/-- The parts of the statements in the clauses of an `if`. -/
def clauseNesting (outer : Option (StmtId × Part)) :
    List (Clause (Option Span) Stmt) → List ((StmtId × Part) × Option (StmtId × Part))
  | [] => []
  | ⟨_, _, body⟩ :: rest => bodyNesting outer body ++ clauseNesting outer rest

/-- The handlers of the `try` numbered `stmt`, counted from `index`, and the parts of the
statements in them. -/
def handlerNesting (stmt : StmtId) (index : Nat) :
    List (Clause (Option Span) Stmt) → List ((StmtId × Part) × Option (StmtId × Part))
  | [] => []
  | ⟨_, _, body⟩ :: rest =>
    [((stmt, .handler index), some (stmt, .whole))] ++
      bodyNesting (some (stmt, .handler index)) body ++ handlerNesting stmt (index + 1) rest

/-- The parts of the statements in the cases of a `match`. -/
def caseNesting (outer : Option (StmtId × Part)) :
    List (Clause CaseHead Stmt) → List ((StmtId × Part) × Option (StmtId × Part))
  | [] => []
  | ⟨_, _, body⟩ :: rest => bodyNesting outer body ++ caseNesting outer rest

end

/-! ## Parts of different statements -/

/-- Handlers from the position `index` on. -/
def Part.isHandlerFrom (index : Nat) : Part → Bool
  | .handler i => index ≤ i
  | _ => false

/-- A part is one of the parts of a `try`, and only of one with its number. -/
theorem count_ownParts_le (owner stmt : StmtId) (part : Part) :
    [(owner, Part.whole)].count (stmt, part) + [(owner, Part.body)].count (stmt, part) +
        (if owner = stmt ∧ part.isHandlerFrom 0 then 1 else 0) +
        [(owner, Part.final)].count (stmt, part) + [(owner, Part.orelse)].count (stmt, part) ≤
      [owner].count stmt := by
  by_cases h : owner = stmt <;> cases part <;> simp [Part.isHandlerFrom, h]

theorem count_handler_le (owner stmt : StmtId) (part : Part) (index : Nat) :
    [(owner, Part.handler index)].count (stmt, part) +
        (if owner = stmt ∧ part.isHandlerFrom (index + 1) then 1 else 0) ≤
      if owner = stmt ∧ part.isHandlerFrom index then 1 else 0 := by
  by_cases h : owner = stmt <;> cases part <;> simp [List.count_singleton, Part.isHandlerFrom, h]
  grind

theorem count_ite_le {α : Type} [BEq α] (p : Prop) [Decidable p] (l : List α) (a : α) :
    (if p then [] else l).count a ≤ l.count a := by
  split <;> simp

mutual

/-- A statement has each part at most as often as there are statements with its number. -/
theorem Stmt.count_parts_le (stmt : StmtId) (part : Part) : (s : Stmt) →
    s.parts.count (stmt, part) ≤ (s.statements.map Stmt.id).count stmt
  | .simple _ | .pass _ | .marker .. | .yield _ | .jump .. | .unsupported _ => by simp [Stmt.parts]
  | .branch site test body clauses => by
    have hb := count_bodyParts_le stmt part body
    have hc := count_clauseParts_le stmt part clauses
    simp only [Stmt.parts, Stmt.statements, List.map_cons, List.map_append, List.count_cons,
      List.count_append]
    omega
  | .loop site head body orelse => by
    have hb := count_bodyParts_le stmt part body
    have ho := count_bodyParts_le stmt part orelse
    -- the statement has each part of its own once, and the parts of its clauses are theirs
    have hown := count_ownParts_le site.id stmt part
    have hopt := count_ite_le (orelse.isEmpty = true) [(site.id, Part.orelse)] (stmt, part)
    rw [Stmt.statements, List.map_cons, ← List.singleton_append, List.map_append]
    simp only [Stmt.parts, List.count_append, Stmt.id, Stmt.site]
    omega
  | .attempt site body handlers orelse final => by
    have hb := count_bodyParts_le stmt part body
    have hh := count_handlerParts_le stmt part site.id 0 handlers
    have ho := count_bodyParts_le stmt part orelse
    have hf := count_bodyParts_le stmt part final
    have hown := count_ownParts_le site.id stmt part
    have hopt := count_ite_le (final.isEmpty = true) [(site.id, Part.final)] (stmt, part)
    rw [Stmt.statements, List.map_cons, ← List.singleton_append]
    simp only [Stmt.parts, List.map_append, List.count_append, Stmt.id, Stmt.site]
    omega
  | .hold site isAsync header body => by
    have hb := count_bodyParts_le stmt part body
    have hown := count_ownParts_le site.id stmt part
    rw [Stmt.statements, List.map_cons, ← List.singleton_append]
    simp only [Stmt.parts, List.count_append, Stmt.id, Stmt.site]
    omega
  | .dispatch site subject cases => by
    have hc := count_caseParts_le stmt part cases
    have hown := count_ownParts_le site.id stmt part
    rw [Stmt.statements, List.map_cons, ← List.singleton_append]
    simp only [Stmt.parts, List.count_append, Stmt.id, Stmt.site]
    omega

theorem count_bodyParts_le (stmt : StmtId) (part : Part) : (body : List Stmt) →
    (bodyParts body).count (stmt, part) ≤ ((bodyStatements body).map Stmt.id).count stmt
  | [] => by simp [bodyParts]
  | s :: rest => by
    have hs := s.count_parts_le stmt part
    have hr := count_bodyParts_le stmt part rest
    simp only [bodyParts, bodyStatements, List.map_append, List.count_append]
    omega

theorem count_clauseParts_le (stmt : StmtId) (part : Part) : (clauses : List BranchClause) →
    (clauseParts clauses).count (stmt, part) ≤ ((clauseStatements clauses).map Stmt.id).count stmt
  | [] => by simp [clauseParts]
  | ⟨_, _, body⟩ :: rest => by
    have hb := count_bodyParts_le stmt part body
    have hr := count_clauseParts_le stmt part rest
    simp only [clauseParts, clauseStatements, List.map_append, List.count_append]
    omega

/-- The handlers of a `try` add the parts of that statement, each of them once. -/
theorem count_handlerParts_le (stmt : StmtId) (part : Part) (owner : StmtId) (index : Nat) :
    (handlers : List Handler) → (handlerParts owner index handlers).count (stmt, part) ≤
      ((clauseStatements handlers).map Stmt.id).count stmt +
        if owner = stmt ∧ part.isHandlerFrom index then 1 else 0
  | [] => by simp [handlerParts]
  | ⟨_, _, body⟩ :: rest => by
    have hb := count_bodyParts_le stmt part body
    have hr := count_handlerParts_le stmt part owner (index + 1) rest
    have hown := count_handler_le owner stmt part index
    simp only [handlerParts, clauseStatements, List.map_append, List.count_append]
    omega

theorem count_caseParts_le (stmt : StmtId) (part : Part) : (cases : List MatchCase) →
    (caseParts cases).count (stmt, part) ≤ ((caseStatements cases).map Stmt.id).count stmt
  | [] => by simp [caseParts]
  | ⟨_, _, body⟩ :: rest => by
    have hb := count_bodyParts_le stmt part body
    have hr := count_caseParts_le stmt part rest
    simp only [caseParts, caseStatements, List.map_append, List.count_append]
    omega

end

/-- The parts of statements with different numbers are different. -/
theorem nodup_bodyParts {body : List Stmt} (h : ((bodyStatements body).map Stmt.id).Nodup) :
    (bodyParts body).Nodup := by
  rw [List.nodup_iff_count_le_one] at h ⊢
  intro k
  exact (count_bodyParts_le k.1 k.2 body).trans (h k.1)

mutual

theorem Stmt.map_fst_nesting (outer : Option (StmtId × Part)) : (s : Stmt) →
    (s.nesting outer).map Prod.fst = s.parts
  | .simple _ | .pass _ | .marker .. | .yield _ | .jump .. | .unsupported _ => by
    simp [Stmt.nesting, Stmt.parts]
  | .branch _ _ body clauses => by
    simp [Stmt.nesting, Stmt.parts, map_fst_bodyNesting, map_fst_clauseNesting]
  | .loop _ _ body orelse => by
    rw [Stmt.nesting, Stmt.parts]
    split <;> simp [map_fst_bodyNesting]
  | .attempt site body handlers orelse final => by
    rw [Stmt.nesting, Stmt.parts]
    split <;> simp [map_fst_bodyNesting, map_fst_handlerNesting]
  | .hold _ _ _ body => by simp [Stmt.nesting, Stmt.parts, map_fst_bodyNesting]
  | .dispatch _ _ cases => by simp [Stmt.nesting, Stmt.parts, map_fst_caseNesting]

theorem map_fst_bodyNesting (outer : Option (StmtId × Part)) : (body : List Stmt) →
    (bodyNesting outer body).map Prod.fst = bodyParts body
  | [] => by simp [bodyNesting, bodyParts]
  | s :: rest => by simp [bodyNesting, bodyParts, s.map_fst_nesting, map_fst_bodyNesting outer rest]

theorem map_fst_clauseNesting (outer : Option (StmtId × Part)) : (clauses : List BranchClause) →
    (clauseNesting outer clauses).map Prod.fst = clauseParts clauses
  | [] => by simp [clauseNesting, clauseParts]
  | ⟨_, _, body⟩ :: rest => by
    simp [clauseNesting, clauseParts, map_fst_bodyNesting, map_fst_clauseNesting outer rest]

theorem map_fst_handlerNesting (stmt : StmtId) (index : Nat) : (handlers : List Handler) →
    (handlerNesting stmt index handlers).map Prod.fst = handlerParts stmt index handlers
  | [] => by simp [handlerNesting, handlerParts]
  | ⟨_, _, body⟩ :: rest => by
    simp [handlerNesting, handlerParts, map_fst_bodyNesting,
      map_fst_handlerNesting stmt (index + 1) rest]

theorem map_fst_caseNesting (outer : Option (StmtId × Part)) : (cases : List MatchCase) →
    (caseNesting outer cases).map Prod.fst = caseParts cases
  | [] => by simp [caseNesting, caseParts]
  | ⟨_, _, body⟩ :: rest => by
    simp [caseNesting, caseParts, map_fst_bodyNesting, map_fst_caseNesting outer rest]

end

/-! ## Nested regions -/

namespace RegionTree

variable {t t' : RegionTree} {links : List ((StmtId × Part) × Option (StmtId × Part))}

/-- The tree has a region for each of the parts, which lies in the region of the part it stands in,
and for no other part; the regions are different. -/
structure Nests (t : RegionTree) (links : List ((StmtId × Part) × Option (StmtId × Part))) : Prop
    extends t.Ordered where
  linked : ∀ link ∈ links, ∃ r q, t.number (some link.1) = some r ∧ t.number link.2 = some q ∧
    t.parent? r = some q
  tagged : ∀ k r, t.number (some k) = some r → k ∈ links.map Prod.fst ∧ root < r
  injective : ∀ k k' r, t.number (some k) = some r → t.number (some k') = some r → k = k'

theorem nests_single : single.Nests [] where
  toOrdered := ordered_single
  linked := by simp
  tagged := by simp [number, find?, single]
  injective := by simp [number, find?, single]

section Add

variable {kind : RegionKind} {parent : RegionId} {stmt : StmtId} {part : Part}

/-- Adding a region for a part that has none leaves the regions of all others. -/
theorem Nests.number_add (h : t.Nests links) (hk : (stmt, part) ∉ links.map Prod.fst)
    {p : Option (StmtId × Part)} {q : RegionId} (hp : t.number p = some q) :
    (t.add kind parent stmt part).number p = some q := by
  cases p with
  | none => exact hp
  | some k =>
    rw [number_add_of_ne, hp]
    rintro rfl
    exact hk (h.tagged _ q hp).1

/-- Adding the region of one more part. -/
theorem Nests.add (h : t.Nests links) {outer : Option (StmtId × Part)}
    (hk : (stmt, part) ∉ links.map Prod.fst) (ho : t.number outer = some parent) :
    (t.add kind parent stmt part).Nests (links ++ [((stmt, part), outer)]) := by
  refine ⟨h.toOrdered.add kind (h.lt_size outer parent ho) stmt part, fun link hlink => ?_,
    fun k r hr => ?_, fun k k' r hr hr' => ?_⟩
  · rcases List.mem_append.1 hlink with hlink | hlink
    · obtain ⟨r, q, hr, hq, hp⟩ := h.linked link hlink
      refine ⟨r, q, h.number_add hk hr, h.number_add hk hq, ?_⟩
      rw [parent?_add_of_lt (lt_size_of_parent? hp), hp]
    · obtain rfl := List.mem_singleton.1 hlink
      exact ⟨t.size, parent, number_add_self, h.number_add hk ho, parent?_add_size⟩
  · rw [List.map_append, List.mem_append]
    rcases number_add_cases hr with ⟨rfl, rfl⟩ | hr
    · exact ⟨.inr (by simp), h.root_lt_size⟩
    · exact ⟨.inl (h.tagged k r hr).1, (h.tagged k r hr).2⟩
  · -- the new region has a number that no region had before
    rcases number_add_cases hr with ⟨rfl, hnew⟩ | hr <;>
      rcases number_add_cases hr' with ⟨rfl, hnew'⟩ | hr'
    · rfl
    · exact absurd (hnew ▸ h.lt_size _ r hr') (Nat.lt_irrefl _)
    · exact absurd (hnew' ▸ h.lt_size _ r hr) (Nat.lt_irrefl _)
    · exact h.injective k k' r hr hr'

end Add

/-- From `t` to `t'`, the tree has grown by the regions of the parts `new`. -/
structure Grown (t t' : RegionTree)
    (links new : List ((StmtId × Part) × Option (StmtId × Part))) : Prop where
  nests : t'.Nests (links ++ new)
  keeps : ∀ p q, t.number p = some q → t'.number p = some q

theorem Nests.grown_nil (h : t.Nests links) : t.Grown t links [] :=
  ⟨by simpa using h, fun _ _ hp => hp⟩

theorem Grown.trans {t'' : RegionTree} {new new' : List ((StmtId × Part) × Option (StmtId × Part))}
    (h : t.Grown t' links new) (h' : t'.Grown t'' (links ++ new) new') :
    t.Grown t'' links (new ++ new') :=
  ⟨by simpa only [List.append_assoc] using h'.nests, fun p q hp => h'.keeps p q (h.keeps p q hp)⟩

/-- The tree grows by a region for one part, if that part had none. -/
theorem Nests.grown_add (h : t.Nests links) (kind : RegionKind) {parent : RegionId}
    {stmt : StmtId} {part : Part} {outer : Option (StmtId × Part)}
    (ho : t.number outer = some parent)
    (hn : ((links ++ [((stmt, part), outer)]).map Prod.fst).Nodup) :
    t.Grown (t.add kind parent stmt part) links [((stmt, part), outer)] := by
  have hk : (stmt, part) ∉ links.map Prod.fst := by
    intro hm
    rw [List.map_append, List.nodup_append] at hn
    exact hn.2.2 _ hm (stmt, part) (by simp) rfl
  exact ⟨h.add hk ho, fun p q hp => h.number_add hk hp⟩

end RegionTree

open RegionTree

/-- Parts that are all different, added one group after the other. -/
theorem nodup_keys_append {links new new' : List ((StmtId × Part) × Option (StmtId × Part))}
    (hn : ((links ++ (new ++ new')).map Prod.fst).Nodup) :
    ((links ++ new).map Prod.fst).Nodup ∧ ((links ++ new ++ new').map Prod.fst).Nodup := by
  rw [← List.append_assoc] at hn
  exact ⟨hn.sublist ((List.sublist_append_left _ _).map _), hn⟩

mutual

/-- Adding the regions of a statement nests them like its parts. -/
theorem Stmt.grown_addRegions {parent : RegionId} {outer : Option (StmtId × Part)} : (s : Stmt) →
    {t : RegionTree} → {links : List ((StmtId × Part) × Option (StmtId × Part))} →
      t.Nests links → t.number outer = some parent →
      ((links ++ s.nesting outer).map Prod.fst).Nodup →
      t.Grown (s.addRegions parent t) links (s.nesting outer)
  | .simple _, t, links, h, _, _ | .pass _, t, links, h, _, _ | .marker .., t, links, h, _, _
  | .yield _, t, links, h, _, _ | .jump .., t, links, h, _, _
  | .unsupported _, t, links, h, _, _ => by
    rw [Stmt.addRegions, Stmt.nesting]
    exact h.grown_nil
  | .branch _ _ body clauses, t, links, h, ho, hn => by
    rw [Stmt.addRegions]
    rw [Stmt.nesting] at hn ⊢
    obtain ⟨hn, hn'⟩ := nodup_keys_append hn
    have hb := grown_addBodyRegions body h ho hn
    exact hb.trans (grown_addClauseRegions clauses hb.nests (hb.keeps _ _ ho) hn')
  | .loop site _ body orelse, t, links, h, ho, hn => by
    rw [Stmt.addRegions]
    rw [Stmt.nesting, List.append_assoc] at hn ⊢
    obtain ⟨hn, hn'⟩ := nodup_keys_append hn
    have hb := grown_addBodyRegions body h ho hn
    cases orelse with
    | nil => simpa [bodyNesting] using hb
    | cons s rest =>
      obtain ⟨hn', hn''⟩ := nodup_keys_append hn'
      have ha := hb.nests.grown_add .loopElse (hb.keeps _ _ ho) hn'
      exact hb.trans (ha.trans (grown_addBodyRegions (s :: rest) ha.nests number_add_self hn''))
  | .attempt site body handlers orelse final, t, links, h, ho, hn => by
    rw [Stmt.addRegions]
    rw [Stmt.nesting] at hn ⊢
    simp only [List.append_assoc] at hn ⊢
    -- in the order of the pass: the statement, its body, the handlers, the `else` clause, which has
    -- no region of its own, and the `finally` clause
    obtain ⟨hn, hn'⟩ := nodup_keys_append hn
    have hw := h.grown_add .attempt ho hn
    have hwhole : (t.add .attempt parent site.id .whole).number (some (site.id, .whole)) =
        some t.size := number_add_self
    obtain ⟨hn, hn'⟩ := nodup_keys_append hn'
    have ha := hw.nests.grown_add .attemptBody hwhole hn
    obtain ⟨hn, hn'⟩ := nodup_keys_append hn'
    have hb := grown_addBodyRegions body ha.nests number_add_self hn
    have hwhole := hb.keeps _ _ (ha.keeps _ _ hwhole)
    obtain ⟨hn, hn'⟩ := nodup_keys_append hn'
    have hh := grown_addHandlerRegions handlers hb.nests hwhole hn
    have hwhole := hh.keeps _ _ hwhole
    obtain ⟨hn, hn'⟩ := nodup_keys_append hn'
    have hoe := grown_addBodyRegions orelse hh.nests hwhole hn
    have hwhole := hoe.keeps _ _ hwhole
    refine hw.trans (ha.trans (hb.trans (hh.trans (hoe.trans ?_))))
    cases final with
    | nil => simpa [bodyNesting] using hoe.nests.grown_nil
    | cons s rest =>
      obtain ⟨hn, hn'⟩ := nodup_keys_append hn'
      have hf := hoe.nests.grown_add .final hwhole hn
      exact hf.trans (grown_addBodyRegions (s :: rest) hf.nests number_add_self hn')
  | .hold site _ _ body, t, links, h, ho, hn => by
    rw [Stmt.addRegions]
    rw [Stmt.nesting] at hn ⊢
    obtain ⟨hn, hn'⟩ := nodup_keys_append hn
    have ha := h.grown_add .hold ho hn
    exact ha.trans (grown_addBodyRegions body ha.nests number_add_self hn')
  | .dispatch site _ cases, t, links, h, ho, hn => by
    rw [Stmt.addRegions]
    rw [Stmt.nesting] at hn ⊢
    obtain ⟨hn, hn'⟩ := nodup_keys_append hn
    have ha := h.grown_add .dispatch ho hn
    exact ha.trans (grown_addCaseRegions cases ha.nests number_add_self hn')

/-- Adding the regions of a body nests them like the parts of its statements. -/
theorem grown_addBodyRegions {parent : RegionId} {outer : Option (StmtId × Part)} :
    (body : List Stmt) → {t : RegionTree} →
      {links : List ((StmtId × Part) × Option (StmtId × Part))} → t.Nests links →
      t.number outer = some parent → ((links ++ bodyNesting outer body).map Prod.fst).Nodup →
      t.Grown (addBodyRegions parent t body) links (bodyNesting outer body)
  | [], t, links, h, _, _ => by
    rw [addBodyRegions, bodyNesting]
    exact h.grown_nil
  | s :: rest, t, links, h, ho, hn => by
    rw [addBodyRegions]
    rw [bodyNesting] at hn ⊢
    -- the parts of the first statement are new, and those of the rest are new after them
    obtain ⟨hn, hn'⟩ := nodup_keys_append hn
    have hs := s.grown_addRegions h ho hn
    exact hs.trans (grown_addBodyRegions rest hs.nests (hs.keeps _ _ ho) hn')

theorem grown_addClauseRegions {parent : RegionId} {outer : Option (StmtId × Part)} :
    (clauses : List BranchClause) → {t : RegionTree} →
      {links : List ((StmtId × Part) × Option (StmtId × Part))} → t.Nests links →
      t.number outer = some parent → ((links ++ clauseNesting outer clauses).map Prod.fst).Nodup →
      t.Grown (addClauseRegions parent t clauses) links (clauseNesting outer clauses)
  | [], t, links, h, _, _ => by
    rw [addClauseRegions, clauseNesting]
    exact h.grown_nil
  | ⟨_, _, body⟩ :: rest, t, links, h, ho, hn => by
    rw [addClauseRegions]
    rw [clauseNesting] at hn ⊢
    obtain ⟨hn, hn'⟩ := nodup_keys_append hn
    have hb := grown_addBodyRegions body h ho hn
    exact hb.trans (grown_addClauseRegions rest hb.nests (hb.keeps _ _ ho) hn')

theorem grown_addHandlerRegions {stmt : StmtId} {whole : RegionId} {index : Nat} :
    (handlers : List Handler) → {t : RegionTree} →
      {links : List ((StmtId × Part) × Option (StmtId × Part))} → t.Nests links →
      t.number (some (stmt, .whole)) = some whole →
      ((links ++ handlerNesting stmt index handlers).map Prod.fst).Nodup →
      t.Grown (addHandlerRegions stmt whole index t handlers) links
        (handlerNesting stmt index handlers)
  | [], t, links, h, _, _ => by
    rw [addHandlerRegions, handlerNesting]
    exact h.grown_nil
  | ⟨_, _, body⟩ :: rest, t, links, h, ho, hn => by
    rw [addHandlerRegions]
    rw [handlerNesting, List.append_assoc] at hn ⊢
    obtain ⟨hn, hn'⟩ := nodup_keys_append hn
    -- a handler has a region of its own, and its body stands in it
    have ha := h.grown_add .handler ho hn
    obtain ⟨hn', hn''⟩ := nodup_keys_append hn'
    have hb := grown_addBodyRegions body ha.nests number_add_self hn'
    exact ha.trans (hb.trans
      (grown_addHandlerRegions rest hb.nests (hb.keeps _ _ (ha.keeps _ _ ho)) hn''))

theorem grown_addCaseRegions {parent : RegionId} {outer : Option (StmtId × Part)} :
    (cases : List MatchCase) → {t : RegionTree} →
      {links : List ((StmtId × Part) × Option (StmtId × Part))} → t.Nests links →
      t.number outer = some parent → ((links ++ caseNesting outer cases).map Prod.fst).Nodup →
      t.Grown (addCaseRegions parent t cases) links (caseNesting outer cases)
  | [], t, links, h, _, _ => by
    rw [addCaseRegions, caseNesting]
    exact h.grown_nil
  | ⟨_, _, body⟩ :: rest, t, links, h, ho, hn => by
    rw [addCaseRegions]
    rw [caseNesting] at hn ⊢
    obtain ⟨hn, hn'⟩ := nodup_keys_append hn
    have hb := grown_addBodyRegions body h ho hn
    exact hb.trans (grown_addCaseRegions rest hb.nests (hb.keeps _ _ ho) hn')

end

/-- The regions of a function body are nested like its parts. -/
theorem RegionTree.nests_ofBody {body : List Stmt}
    (h : ((bodyStatements body).map Stmt.id).Nodup) :
    (RegionTree.ofBody body).Nests (bodyNesting none body) := by
  have hn : (([] ++ bodyNesting none body).map Prod.fst).Nodup := by
    rw [List.nil_append, map_fst_bodyNesting]
    exact nodup_bodyParts h
  exact (grown_addBodyRegions body nests_single rfl hn).nests

end Flowgraph
