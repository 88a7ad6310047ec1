import Mathlib.Data.List.Infix
import Flowgraph.Mermaid.Shape

/-!
# Quoted captions

A caption stands between two double quotes, and every double quote of its content is written as an
entity.  So the text of a node has two double quotes, and the caption is what stands between them.

To read a caption is to write a double quote for every entity in it.  This does not only undo the
entities that stand for double quotes, but also those that were in the content, and nothing else: an
entity begins with a number sign and has no other, so none begins inside an entity that was put in,
and none that begins in front of one goes on into it.  Reading therefore gives the content back
exactly if there is no entity in it.

## Main definitions

* `Text.replace` : a text with every occurrence of one text replaced by another.

## Main results

* `Mermaid.escape_eq_intercalate` : the parts between the double quotes, with entities between them.
* `Mermaid.replace_escape` : reading what was written is like reading the content itself.
* `Mermaid.caption_quoted` : captions are quoted safely, and can be read again.
-/

namespace Flowgraph

namespace Text

/-! ## Replacing a text -/

/-- Replaces the occurrences of one text, which is not empty, by another, from the beginning on. -/
def replace (old new : List Char) : List Char → List Char
  | [] => []
  | c :: cs =>
    if old.isPrefixOf (c :: cs) then new ++ replace old new (cs.drop (old.length - 1))
    else c :: replace old new cs
termination_by cs => cs.length
decreasing_by
  · simp only [List.length_drop, List.length_cons]
    omega
  · exact Nat.lt_add_one _

variable {old new cs : List Char}

theorem replace_nil (old new : List Char) : replace old new [] = [] := by
  unfold replace
  rfl

/-- An occurrence at the beginning is replaced. -/
theorem replace_append (hold : old ≠ []) (cs : List Char) :
    replace old new (old ++ cs) = new ++ replace old new cs := by
  obtain ⟨c, old', rfl⟩ := List.exists_cons_of_ne_nil hold
  have hoccurs : (c :: old').isPrefixOf (c :: (old' ++ cs)) = true :=
    List.isPrefixOf_iff_prefix.2 (List.prefix_append (c :: old') cs)
  rw [List.cons_append, replace, if_pos hoccurs]
  simp

/-- A character with which no occurrence begins is kept. -/
theorem replace_cons {c : Char} (h : ¬ old <+: c :: cs) :
    replace old new (c :: cs) = c :: replace old new cs := by
  rw [replace, if_neg]
  rwa [List.isPrefixOf_iff_prefix]

/-- A text is empty, or it begins with an occurrence, or with a character with which none begins. -/
theorem occurrence_induction {P : List Char → Prop} (hold : old ≠ []) (nil : P [])
    (occurs : ∀ cs, P cs → P (old ++ cs)) (other : ∀ c cs, ¬ old <+: c :: cs → P cs → P (c :: cs))
    (cs : List Char) : P cs := by
  -- by induction on the length, which an occurrence makes shorter because it is not empty
  induction hlength : cs.length using Nat.strong_induction_on generalizing cs with
  | _ n ih =>
    subst hlength
    by_cases hprefix : old <+: cs
    · obtain ⟨rest, rfl⟩ := hprefix
      refine occurs rest (ih rest.length ?_ rest rfl)
      have hpos := List.length_pos_of_ne_nil hold
      rw [List.length_append]
      omega
    · cases cs with
      | nil => exact nil
      | cons c cs => exact other c cs hprefix (ih cs.length (Nat.lt_add_one _) cs rfl)

theorem replace_of_not_infix (h : ¬ old <:+: cs) : replace old new cs = cs := by
  induction cs with
  | nil => exact replace_nil old new
  | cons c cs ih =>
    rw [List.infix_cons_iff, not_or] at h
    rw [replace_cons h.1, ih h.2]

/-- To replace a text by a shorter one makes a text shorter, if anything is replaced. -/
theorem length_replace (hlt : new.length < old.length) (cs : List Char) :
    (replace old new cs).length ≤ cs.length ∧
      (old <:+: cs → (replace old new cs).length < cs.length) := by
  have hold : old ≠ [] := List.ne_nil_of_length_pos (Nat.zero_lt_of_lt hlt)
  induction cs using occurrence_induction hold with
  | nil =>
    rw [replace_nil]
    exact ⟨Nat.le_refl 0, fun hinfix => absurd (List.infix_nil.1 hinfix) hold⟩
  | occurs cs ih =>
    rw [replace_append hold, List.length_append, List.length_append]
    omega
  | other c cs hno ih =>
    rw [replace_cons hno, List.length_cons, List.length_cons]
    refine ⟨Nat.succ_le_succ ih.1, fun hinfix => Nat.succ_lt_succ (ih.2 ?_)⟩
    exact (List.infix_cons_iff.1 hinfix).resolve_left hno

/-- To replace a text by a shorter one changes nothing exactly if there is no occurrence. -/
theorem replace_eq_self_iff (hlt : new.length < old.length) :
    replace old new cs = cs ↔ ¬ old <:+: cs := by
  constructor
  · intro heq hinfix
    have hshorter := (length_replace hlt cs).2 hinfix
    rw [heq] at hshorter
    exact Nat.lt_irrefl _ hshorter
  · exact replace_of_not_infix

end Text

namespace Mermaid

/-! ## Entities -/

variable {c : Char} {cs word : List Char}

theorem quoteEntity_ne_nil : quoteEntity ≠ [] := by
  decide

theorem escape_quote_cons (cs : List Char) :
    escape ('"' :: cs) = quoteEntity ++ escape cs := rfl

theorem escape_cons (hc : c ≠ '"') (cs : List Char) : escape (c :: cs) = c :: escape cs := by
  unfold escape
  rw [List.flatMap_cons, if_neg hc]
  rfl

/-- An entity has no double quote, so nothing in it is escaped. -/
theorem escape_quoteEntity_append (cs : List Char) :
    escape (quoteEntity ++ cs) = quoteEntity ++ escape cs := by
  unfold escape
  rw [List.flatMap_append]
  rfl

theorem quote_notMem_escape (cs : List Char) : '"' ∉ escape cs := by
  unfold escape
  rw [List.mem_flatMap]
  rintro ⟨c, -, hmem⟩
  split at hmem
  · exact absurd hmem (by decide)
  · next hc => exact hc (List.mem_singleton.1 hmem).symm

/-- A content is written as its parts between the double quotes, with entities between them. -/
theorem escape_eq_intercalate (cs : List Char) :
    escape cs = quoteEntity.intercalate (cs.splitOn '"') := by
  induction cs with
  | nil => rfl
  | cons c cs ih =>
    -- there is always a first part, which a character in front joins or leaves empty
    obtain ⟨part, parts, hparts⟩ :=
      List.exists_cons_of_ne_nil (List.splitOnP_ne_nil (· == '"') cs)
    unfold List.splitOn at ih ⊢
    rw [List.splitOnP_cons_eq_if_modifyHead, hparts]
    rw [hparts] at ih
    by_cases hc : c = '"'
    · subst hc
      rw [escape_quote_cons, ih]
      simp [List.intercalate]
    · rw [escape_cons hc, ih, if_neg (by simpa using hc)]
      cases parts <;> simp [List.intercalate]

/-- What begins without a number sign in an escaped text is in the content: an entity that was put
in begins with one. -/
theorem prefix_of_prefix_escape (hword : '#' ∉ word) (h : word <+: escape cs) : word <+: cs := by
  induction word generalizing cs with
  | nil => exact List.nil_prefix
  | cons a word ih =>
    cases cs with
    | nil => exact absurd (List.prefix_nil.1 h) (List.cons_ne_nil a word)
    | cons c cs =>
      by_cases hc : c = '"'
      -- an entity would begin the word with a number sign
      · subst hc
        obtain ⟨rfl, -⟩ := List.cons_prefix_cons.1 h
        exact absurd List.mem_cons_self hword
      · rw [escape_cons hc] at h
        obtain ⟨rfl, htail⟩ := List.cons_prefix_cons.1 h
        refine List.cons_prefix_cons.2 ⟨rfl, ih (fun hmem => ?_) htail⟩
        exact hword (List.mem_cons_of_mem _ hmem)

/-- No entity comes about in front of one that was put in. -/
theorem not_quoteEntity_prefix_escape (h : ¬ quoteEntity <+: c :: cs) :
    ¬ quoteEntity <+: c :: escape cs := by
  intro hprefix
  obtain ⟨hsign, hword⟩ := List.cons_prefix_cons.1 hprefix
  exact h (List.cons_prefix_cons.2 ⟨hsign, prefix_of_prefix_escape (by decide) hword⟩)

/-- To read what was written is to read the content itself. -/
theorem replace_escape (cs : List Char) :
    Text.replace quoteEntity ['"'] (escape cs) = Text.replace quoteEntity ['"'] cs := by
  induction cs using Text.occurrence_induction quoteEntity_ne_nil with
  | nil => rfl
  | occurs cs ih =>
    rw [escape_quoteEntity_append, Text.replace_append quoteEntity_ne_nil,
      Text.replace_append quoteEntity_ne_nil, ih]
  | other c cs hno ih =>
    rw [Text.replace_cons hno]
    by_cases hc : c = '"'
    · subst hc
      rw [escape_quote_cons, Text.replace_append quoteEntity_ne_nil, ih]
      rfl
    -- escaping makes no entity of a character with which none begins
    · rw [escape_cons hc, Text.replace_cons (not_quoteEntity_prefix_escape hno), ih]

/-! ## Captions -/

theorem toList_caption {content : String} (h : content ≠ "") :
    (caption content).toList = escape content.toList := by
  unfold caption
  rw [if_neg (by simpa using h), String.toList_ofList]

theorem quote_notMem_caption (content : String) : '"' ∉ (caption content).toList := by
  by_cases h : content = ""
  · subst h
    decide
  · rw [toList_caption h]
    exact quote_notMem_escape _

theorem Shape.quote_notMem (shape : Shape) :
    '"' ∉ shape.opening.toList ∧ '"' ∉ shape.closing.toList := by
  cases shape <;> decide

/-- **Captions are quoted safely and can be read again.**  The text of a node has two double quotes,
and the caption, which stands between them, has none.  Unless the content is empty, the caption
consists of the parts of the content between its double quotes, with entities between them, and to
replace the entities by double quotes gives the content back exactly if there is no entity in it. -/
theorem caption_quoted (shape : Shape) (content : String) :
    (nodeText shape content).toList.splitOn '"' =
      [shape.opening.toList, (caption content).toList, shape.closing.toList] ∧
    '"' ∉ (caption content).toList ∧
    (content ≠ "" →
      (caption content).toList = quoteEntity.intercalate (content.toList.splitOn '"') ∧
      (Text.replace quoteEntity ['"'] (caption content).toList = content.toList ↔
        ¬ quoteEntity <:+: content.toList)) := by
  refine ⟨?_, quote_notMem_caption content, ?_⟩
  · have htext : (nodeText shape content).toList = ['"'].intercalate
        [shape.opening.toList, (caption content).toList, shape.closing.toList] := by
      simp [nodeText, List.intercalate]
    rw [htext]
    apply List.splitOn_intercalate
    · simp [shape.quote_notMem, quote_notMem_caption]
    · exact List.cons_ne_nil _ _
  · intro hne
    rw [toList_caption hne, replace_escape]
    exact ⟨escape_eq_intercalate _, Text.replace_eq_self_iff (by decide)⟩

/-- A content with two double quotes inside what would be an entity without them. -/
def brokenEntity : String :=
  "#quot\"\";"

theorem caption_quoted_brokenEntity :
    caption brokenEntity = "#quot#quot;#quot;;" ∧
      Text.replace quoteEntity ['"'] (caption brokenEntity).toList = brokenEntity.toList := by
  obtain ⟨-, -, hread⟩ := caption_quoted .rectangle brokenEntity
  exact ⟨by decide, (hread (by decide)).2.2 (by decide)⟩

end Mermaid

end Flowgraph
