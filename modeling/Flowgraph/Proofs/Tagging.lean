import Flowgraph.Region.Tagging

/-!
# Every part of a statement has its region

Planning asks for the region of every part of a statement that has one.  The pass that adds regions
tags exactly these parts, and the numbers it gives are those of regions of the tree.  Where several
statements have one number, later tags hide earlier ones; a part that was tagged stays tagged.

## Main definitions

* `Stmt.parts`, `bodyParts` : the parts of statements that have a region of their own.
* `RegionTree.Tags` : the tree has a region for every one of these parts.

## Main results

* `tags_addBodyRegions` : adding the regions of a body tags its parts.
* `RegionTree.tags_ofBody` : the regions of a function body cover its parts.
-/

namespace Flowgraph

mutual

/-- The parts of a statement, and of the statements in it, that have a region of their own. -/
def Stmt.parts : Stmt → List (StmtId × Part)
  | .simple _ | .pass _ | .marker .. | .yield _ | .jump .. | .unsupported _ => []
  | .branch _ _ body clauses => bodyParts body ++ clauseParts clauses
  | .loop site _ body orelse =>
    bodyParts body ++ (if orelse.isEmpty then [] else [(site.id, .orelse)]) ++ bodyParts orelse
  | .attempt site body handlers orelse final =>
    [(site.id, .whole)] ++ [(site.id, .body)] ++ bodyParts body ++
      handlerParts site.id 0 handlers ++ bodyParts orelse ++
      (if final.isEmpty then [] else [(site.id, .final)]) ++ bodyParts final
  | .hold site _ _ body => [(site.id, .whole)] ++ bodyParts body
  | .dispatch site _ cases => [(site.id, .whole)] ++ caseParts cases

/-- The parts of the statements of a body. -/
def bodyParts : List Stmt → List (StmtId × Part)
  | [] => []
  | s :: rest => s.parts ++ bodyParts rest

/-- The parts of the statements in the clauses of an `if`. -/
def clauseParts : List (Clause (Option Span) Stmt) → List (StmtId × Part)
  | [] => []
  | ⟨_, _, body⟩ :: rest => bodyParts body ++ clauseParts rest

/-- The handlers of the `try` numbered `stmt`, counted from `index`, and the parts of the
statements in them. -/
def handlerParts (stmt : StmtId) (index : Nat) :
    List (Clause (Option Span) Stmt) → List (StmtId × Part)
  | [] => []
  | ⟨_, _, body⟩ :: rest =>
    [(stmt, .handler index)] ++ bodyParts body ++ handlerParts stmt (index + 1) rest

/-- The parts of the statements in the cases of a `match`. -/
def caseParts : List (Clause CaseHead Stmt) → List (StmtId × Part)
  | [] => []
  | ⟨_, _, body⟩ :: rest => bodyParts body ++ caseParts rest

end

namespace RegionTree

/-- The tree has a region for every one of the parts. -/
def Tags (t : RegionTree) (parts : List (StmtId × Part)) : Prop :=
  ∀ part ∈ parts, ∃ r, t.find? part.1 part.2 = some r ∧ r < t.size

theorem tags_append {t : RegionTree} {parts parts' : List (StmtId × Part)} :
    t.Tags (parts ++ parts') ↔ t.Tags parts ∧ t.Tags parts' :=
  List.forall_mem_append

/-- Adding a region tags one more part and forgets none. -/
theorem Tags.add {t : RegionTree} {parts : List (StmtId × Part)} (h : t.Tags parts)
    (kind : RegionKind) (parent : RegionId) (stmt : StmtId) (part : Part) :
    (t.add kind parent stmt part).Tags (parts ++ [(stmt, part)]) := by
  have hnew : ∃ r, (t.add kind parent stmt part).find? stmt part = some r ∧
      r < (t.add kind parent stmt part).size := ⟨t.size, by simp, by simp⟩
  refine tags_append.2 ⟨fun k hk => ?_, by simp [Tags]⟩
  -- a part with the same key now has the new region; any other keeps its own
  by_cases he : k = (stmt, part)
  · subst he
    exact hnew
  · obtain ⟨r, hr, hlt⟩ := h k hk
    have hne : (k == (stmt, part)) = false := by simpa using he
    refine ⟨r, ?_, Nat.lt_of_lt_of_le hlt (by simp)⟩
    rw [find?, RegionTree.add, List.lookup_cons, hne]
    exact hr

end RegionTree

open RegionTree

mutual

/-- Adding the regions of a statement tags its parts. -/
theorem Stmt.tags_addRegions (parent : RegionId) : (s : Stmt) → {t : RegionTree} →
    {parts : List (StmtId × Part)} → t.Tags parts → (s.addRegions parent t).Tags (parts ++ s.parts)
  | .simple _, t, parts, h | .pass _, t, parts, h | .marker .., t, parts, h | .yield _, t, parts, h
  | .jump .., t, parts, h | .unsupported _, t, parts, h => by
    simpa [Stmt.parts, Stmt.addRegions] using h
  | .branch _ _ body clauses, t, parts, h => by
    have := tags_addClauseRegions parent clauses (tags_addBodyRegions parent body h)
    simpa only [Stmt.parts, Stmt.addRegions, List.append_assoc] using this
  | .loop site _ body orelse, t, parts, h => by
    have hb := tags_addBodyRegions parent body h
    rw [Stmt.addRegions, Stmt.parts]
    cases orelse with
    | nil => simpa [bodyParts] using hb
    | cons s rest =>
      have := tags_addBodyRegions (addBodyRegions parent t body).size (s :: rest)
        (hb.add .loopElse parent site.id .orelse)
      simpa only [List.isEmpty_cons, Bool.false_eq_true, if_false, List.append_assoc] using this
  | .attempt site body handlers orelse final, t, parts, h => by
    -- in the order of the pass: the statement, its body, the handlers, the `else` clause, which has
    -- no region of its own, and the `finally` clause
    have hb := tags_addBodyRegions (t.add .attempt parent site.id .whole).size body
      ((h.add .attempt parent site.id .whole).add .attemptBody t.size site.id .body)
    have ho := tags_addBodyRegions t.size orelse
      (tags_addHandlerRegions site.id t.size 0 handlers hb)
    rw [Stmt.addRegions, Stmt.parts]
    -- the number of the last region is the size of the tree before it
    generalize addBodyRegions t.size _ orelse = t' at ho ⊢
    cases final with
    | nil =>
      simpa only [List.isEmpty_nil, if_true, bodyParts, List.append_nil, List.append_assoc] using ho
    | cons s rest =>
      have := tags_addBodyRegions t'.size (s :: rest) (ho.add .final t.size site.id .final)
      simpa only [List.isEmpty_cons, Bool.false_eq_true, if_false, List.append_assoc] using this
  | .hold site _ _ body, t, parts, h => by
    have := tags_addBodyRegions t.size body (h.add .hold parent site.id .whole)
    simpa only [Stmt.parts, Stmt.addRegions, List.append_assoc] using this
  | .dispatch site _ cases, t, parts, h => by
    have := tags_addCaseRegions t.size cases (h.add .dispatch parent site.id .whole)
    simpa only [Stmt.parts, Stmt.addRegions, List.append_assoc] using this

/-- Adding the regions of a body tags its parts. -/
theorem tags_addBodyRegions (parent : RegionId) : (body : List Stmt) → {t : RegionTree} →
    {parts : List (StmtId × Part)} → t.Tags parts →
      (addBodyRegions parent t body).Tags (parts ++ bodyParts body)
  | [], t, parts, h => by simpa [bodyParts, addBodyRegions] using h
  | s :: rest, t, parts, h => by
    have := tags_addBodyRegions parent rest (s.tags_addRegions parent h)
    simpa only [bodyParts, addBodyRegions, List.append_assoc] using this

theorem tags_addClauseRegions (parent : RegionId) : (clauses : List BranchClause) →
    {t : RegionTree} → {parts : List (StmtId × Part)} → t.Tags parts →
      (addClauseRegions parent t clauses).Tags (parts ++ clauseParts clauses)
  | [], t, parts, h => by simpa [clauseParts, addClauseRegions] using h
  | ⟨_, _, body⟩ :: rest, t, parts, h => by
    have := tags_addClauseRegions parent rest (tags_addBodyRegions parent body h)
    simpa only [clauseParts, addClauseRegions, List.append_assoc] using this

theorem tags_addHandlerRegions (stmt : StmtId) (whole : RegionId) (index : Nat) :
    (handlers : List Handler) → {t : RegionTree} → {parts : List (StmtId × Part)} →
      t.Tags parts →
      (addHandlerRegions stmt whole index t handlers).Tags
        (parts ++ handlerParts stmt index handlers)
  | [], t, parts, h => by simpa [handlerParts, addHandlerRegions] using h
  | ⟨_, _, body⟩ :: rest, t, parts, h => by
    have := tags_addHandlerRegions stmt whole (index + 1) rest
      (tags_addBodyRegions t.size body (h.add .handler whole stmt (.handler index)))
    simpa only [handlerParts, addHandlerRegions, List.append_assoc] using this

theorem tags_addCaseRegions (parent : RegionId) : (cases : List MatchCase) → {t : RegionTree} →
    {parts : List (StmtId × Part)} → t.Tags parts →
      (addCaseRegions parent t cases).Tags (parts ++ caseParts cases)
  | [], t, parts, h => by simpa [caseParts, addCaseRegions] using h
  | ⟨_, _, body⟩ :: rest, t, parts, h => by
    have := tags_addCaseRegions parent rest (tags_addBodyRegions parent body h)
    simpa only [caseParts, addCaseRegions, List.append_assoc] using this

end

/-- The regions of a function body cover its parts. -/
theorem RegionTree.tags_ofBody (body : List Stmt) :
    (RegionTree.ofBody body).Tags (bodyParts body) := by
  have hnil : single.Tags [] := by simp [Tags]
  exact tags_addBodyRegions root body hnil

end Flowgraph
