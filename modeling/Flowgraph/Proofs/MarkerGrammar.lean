import Mathlib.Data.List.DropRight
import Flowgraph.Proofs.Scanning
import Flowgraph.Proofs.SourceText
import Flowgraph.Source.Comment

/-!
# The form of a comment that sets a marker

A comment that sets a marker consists of number signs, blanks, the word `CFG:`, blanks, a name and a
rest, in this order.  The rest is empty or begins with a character that cannot stand in a name, so
the name is as long as it can be; of the other parts all but the word and the name may be empty.

No character is of two kinds: blanks do not stand in names, and neither number signs nor the letters
of the word are blanks.  This is all that is used of the tables of blanks and of letters and
numbers, whichever version of the standard they are taken from.  So every part but the rest is the
longest run of its kind, a comment can be divided in one way at most, and taking away one longest
run after the other finds the division.  Blanks at the end of the comment belong to the rest, and it
does not matter that they are taken away first.

The name is cut out of the comment at a byte offset.  The offset is that of a character which is not
of the name, or of the end, and never one inside a character.

## Main definitions

* `Comment.MarkerForm` : the parts of a comment that sets a marker.

## Main results

* `Text.isBlank_of_isAlphanumeric` : no blank is a letter or a number.
* `Comment.MarkerForm.text_injective` : a comment can be divided in one way at most.
* `Comment.MarkerForm.marker?_text`, `Comment.exists_form` : reading finds the division.
* `Comment.marker_grammar` : the comments that set a marker, and the markers that they set.
-/

namespace Flowgraph

namespace Text

/-! ## Blanks -/

theorem ranges_apart :
    ∀ r ∈ blankRanges, ∀ s ∈ alphanumericRanges, r.2 < s.1 ∨ s.2 < r.1 := by
  decide +kernel

/-- No letter and no number is a blank. -/
theorem isBlank_of_isAlphanumeric {c : Char} (h : isAlphanumeric c = true) : isBlank c = false := by
  unfold isAlphanumeric at h
  obtain ⟨s, hs, hin⟩ := List.any_eq_true.1 h
  unfold isBlank
  apply List.any_eq_false.2
  intro r hr
  have hapart := ranges_apart r hr s hs
  simp only [Bool.and_eq_true, decide_eq_true_eq] at hin ⊢
  omega

/-- The blanks at the end of a text are at the end of whatever follows its last character that is
not a blank. -/
theorem trimEnd_append {before : List Char} (h : ∀ c, before.getLast? = some c → isBlank c = false)
    (behind : List Char) : trimEnd (before ++ behind) = before ++ trimEnd behind := by
  change (before ++ behind).rdropWhile isBlank = before ++ behind.rdropWhile isBlank
  induction behind using List.reverseRecOn with
  | nil =>
    rw [List.append_nil, List.rdropWhile_nil, List.append_nil, List.rdropWhile_eq_self_iff]
    intro hne
    rw [h _ (List.getLast?_eq_some_getLast hne)]
    exact Bool.false_ne_true
  | append_singleton behind c ih =>
    rw [← List.append_assoc]
    -- by induction from the end: a blank is dropped on both sides, and anything else stops both
    by_cases hc : isBlank c = true
    · rw [List.rdropWhile_concat_pos _ _ _ hc, List.rdropWhile_concat_pos _ _ _ hc, ih]
    · rw [List.rdropWhile_concat_neg _ _ _ hc, List.rdropWhile_concat_neg _ _ _ hc,
        List.append_assoc]

/-- What is taken away at the end of a text are blanks. -/
theorem exists_eq_trimEnd_append (cs : List Char) :
    ∃ blanks, cs = trimEnd cs ++ blanks ∧ ∀ c ∈ blanks, isBlank c = true :=
  ⟨cs.rtakeWhile isBlank, List.rdropWhile_append_rtakeWhile.symm, fun _ => List.mem_rtakeWhile_imp⟩

theorem head?_of_head?_trimEnd {cs : List Char} {c : Char} (h : (trimEnd cs).head? = some c) :
    cs.head? = some c := by
  obtain ⟨blanks, heq, -⟩ := exists_eq_trimEnd_append cs
  rw [heq, List.head?_append, h]
  rfl

/-! ## Byte offsets -/

theorem runEnd_cons_of_pos {p : Char → Bool} {c : Char} (hc : p c = true) (cs : List Char) :
    runEnd p (c :: cs) = c.utf8Size + runEnd p cs := by
  unfold runEnd
  rw [findByte?, hc, Bool.not_true, if_neg Bool.false_ne_true]
  cases findByte? (fun c => !p c) cs with
  | none => simp
  | some n => rfl

theorem runEnd_cons_of_neg {p : Char → Bool} {c : Char} (hc : p c = false) (cs : List Char) :
    runEnd p (c :: cs) = 0 := by
  unfold runEnd
  rw [findByte?, hc, Bool.not_false, if_pos rfl]
  rfl

/-- A run ends where its bytes end. -/
theorem runEnd_eq (p : Char → Bool) (cs : List Char) :
    runEnd p cs = (String.ofList (cs.takeWhile p)).utf8ByteSize := by
  induction cs with
  | nil => rfl
  | cons c cs ih =>
    cases hc : p c with
    | false => simp [runEnd_cons_of_neg hc, hc]
    | true => simp [runEnd_cons_of_pos hc, hc, ih]

/-- The end of a run is not inside a character. -/
theorem isValid_runEnd (p : Char → Bool) (cs : List Char) :
    (⟨runEnd p cs⟩ : String.Pos.Raw).IsValid (String.ofList cs) := by
  apply String.Pos.Raw.isValid_iff_exists_append.2
  refine ⟨String.ofList (cs.takeWhile p), String.ofList (cs.dropWhile p), ?_, ?_⟩
  · rw [← String.ofList_append, List.takeWhile_append_dropWhile]
  · rw [runEnd_eq]
    rfl

/-- To cut a text at the end of a run is to take the run away. -/
theorem splitAtByte?_runEnd (p : Char → Bool) (cs : List Char) :
    splitAtByte? (runEnd p cs) cs = some (cs.takeWhile p, cs.dropWhile p) := by
  induction cs with
  | nil => rfl
  | cons c cs ih =>
    cases hc : p c with
    | false =>
      rw [runEnd_cons_of_neg hc, splitAtByte?, List.takeWhile_cons_of_neg (by simp [hc]),
        List.dropWhile_cons_of_neg (by simp [hc])]
    | true =>
      rw [runEnd_cons_of_pos hc, splitAtByte?_cons, ih, List.takeWhile_cons_of_pos hc,
        List.dropWhile_cons_of_pos hc, Option.map_some]

end Text

namespace Comment

open Text (LongestRun isBlank trimStart trimEnd)

theorem isBlank_of_isNameChar {c : Char} (h : isNameChar c = true) : isBlank c = false := by
  unfold isNameChar at h
  rcases Bool.or_eq_true_iff.1 h with h | h
  · exact Text.isBlank_of_isAlphanumeric h
  · rw [eq_of_beq h]
    decide

/-- The parts of a comment that sets a marker. -/
@[ext] structure MarkerForm where
  /-- Number signs. -/
  signs : List Char
  /-- Blanks in front of the word. -/
  indent : List Char
  /-- Blanks in front of the name. -/
  gap : List Char
  /-- The name of the marker. -/
  name : List Char
  /-- What follows the name. -/
  rest : List Char
  signs_eq : ∀ c ∈ signs, c = '#'
  indent_blank : ∀ c ∈ indent, isBlank c = true
  gap_blank : ∀ c ∈ gap, isBlank c = true
  name_ne_nil : name ≠ []
  name_chars : ∀ c ∈ name, isNameChar c = true
  rest_stops : ∀ c, rest.head? = some c → isNameChar c = false

namespace MarkerForm

/-- The comment with these parts. -/
def text (form : MarkerForm) : List Char :=
  form.signs ++ (form.indent ++ (keyword ++ (form.gap ++ (form.name ++ form.rest))))

variable (form : MarkerForm)

theorem longestRun_signs (behind : List Char) :
    LongestRun (· == '#') form.signs (form.indent ++ (keyword ++ behind)) where
  all c hc := by
    rw [form.signs_eq c hc]
    rfl
  stops c hc := by
    -- the next character is a blank or the first letter of the word
    cases hindent : form.indent with
    | nil =>
      rw [hindent] at hc
      cases hc
      rfl
    | cons blank blanks =>
      rw [hindent] at hc
      cases hc
      have hblank := form.indent_blank c (hindent ▸ List.mem_cons_self)
      apply beq_eq_false_iff_ne.2
      rintro rfl
      cases hblank.symm.trans (by decide : isBlank '#' = false)

theorem longestRun_indent (behind : List Char) :
    LongestRun isBlank form.indent (keyword ++ behind) where
  all := form.indent_blank
  stops c hc := by
    cases hc
    decide

theorem longestRun_gap (behind : List Char) :
    LongestRun isBlank form.gap (form.name ++ behind) where
  all := form.gap_blank
  stops c hc := by
    obtain ⟨first, others, hname⟩ := List.exists_cons_of_ne_nil form.name_ne_nil
    rw [hname] at hc
    cases hc
    exact isBlank_of_isNameChar (form.name_chars c (hname ▸ List.mem_cons_self))

theorem longestRun_name : LongestRun isNameChar form.name form.rest :=
  ⟨form.name_chars, form.rest_stops⟩

/-- A comment can be divided in one way at most. -/
theorem text_injective : Function.Injective text := by
  intro form form' heq
  -- each part is the longest run of its kind, so one after the other is the same
  obtain ⟨hsigns, heq⟩ := (form.longestRun_signs _).unique (form'.longestRun_signs _) heq
  obtain ⟨hindent, heq⟩ := (form.longestRun_indent _).unique (form'.longestRun_indent _) heq
  have heq := List.append_cancel_left heq
  obtain ⟨hgap, heq⟩ := (form.longestRun_gap _).unique (form'.longestRun_gap _) heq
  obtain ⟨hname, hrest⟩ := form.longestRun_name.unique form'.longestRun_name heq
  exact MarkerForm.ext hsigns hindent hgap hname hrest

/-- Without number signs and blanks at its ends, the comment begins with the word, and what is taken
away at its end belongs to the rest. -/
theorem bare_text : bare form.text = keyword ++ (form.gap ++ (form.name ++ trimEnd form.rest)) := by
  have hlast : ∀ c, (keyword ++ (form.gap ++ form.name)).getLast? = some c →
      isBlank c = false := by
    intro c hc
    rw [← List.append_assoc, List.getLast?_append_of_ne_nil _ form.name_ne_nil] at hc
    exact isBlank_of_isNameChar (form.name_chars c (List.mem_of_getLast? hc))
  unfold bare text Text.trim trimStart
  rw [(form.longestRun_signs _).dropWhile_append, (form.longestRun_indent _).dropWhile_append]
  simpa using Text.trimEnd_append hlast form.rest

end MarkerForm

/-- Behind the word the name is the longest run of name characters, if there are any. -/
theorem marker?_of_bare {comment behind : List Char} (h : bare comment = keyword ++ behind) :
    marker? comment =
      if ((trimStart behind).takeWhile isNameChar).isEmpty then none
      else some ((trimStart behind).takeWhile isNameChar) := by
  have hword : keyword.isPrefixOf? (bare comment) = some behind :=
    List.isPrefixOf?_eq_some_iff_append_eq.2 h.symm
  unfold marker?
  simp only [hword, Text.splitAtByte?_runEnd, Option.bind_eq_bind, Option.bind_some]

/-- A comment sets a marker if it begins with the word, apart from number signs and blanks, and some
name characters follow. -/
theorem marker?_eq_some_iff {comment name : List Char} :
    marker? comment = some name ↔ name ≠ [] ∧ ∃ behind, bare comment = keyword ++ behind ∧
      (trimStart behind).takeWhile isNameChar = name := by
  by_cases h : ∃ behind, bare comment = keyword ++ behind
  · obtain ⟨behind, hbare⟩ := h
    -- what follows the word is determined by the comment
    have hbehind : ∀ behind', bare comment = keyword ++ behind' ↔ behind = behind' := by
      intro behind'
      rw [hbare, List.append_cancel_left_eq]
    simp only [marker?_of_bare hbare, hbehind, exists_eq_left']
    cases (trimStart behind).takeWhile isNameChar with
    | nil => simp
    | cons c cs => simp +contextual [eq_comm]
  · have hword : keyword.isPrefixOf? (bare comment) = none := by
      rw [Option.eq_none_iff_forall_ne_some]
      intro behind hword
      exact h ⟨behind, (List.isPrefixOf?_eq_some_iff_append_eq.1 hword).symm⟩
    have hnone : marker? comment = none := by
      unfold marker?
      rw [hword]
      rfl
    rw [hnone]
    constructor
    · intro hsome
      cases hsome
    · rintro ⟨-, behind, hbare, -⟩
      exact absurd ⟨behind, hbare⟩ h

/-- The marker that a comment of this form sets is the name. -/
theorem MarkerForm.marker?_text (form : MarkerForm) : marker? form.text = some form.name := by
  refine marker?_eq_some_iff.2 ⟨form.name_ne_nil, _, form.bare_text, ?_⟩
  unfold trimStart
  rw [(form.longestRun_gap _).dropWhile_append]
  refine LongestRun.takeWhile_append ⟨form.name_chars, fun c hc => ?_⟩
  exact form.rest_stops c (Text.head?_of_head?_trimEnd hc)

/-- What is taken away from a comment are number signs and blanks. -/
theorem exists_eq_append_bare (comment : List Char) :
    ∃ signs indent blanks, comment = signs ++ (indent ++ (bare comment ++ blanks)) ∧
      (∀ c ∈ signs, c = '#') ∧ (∀ c ∈ indent, isBlank c = true) ∧
      ∀ c ∈ blanks, isBlank c = true := by
  have hsigns := Text.longestRun_takeWhile (· == '#') comment
  have hindent := Text.longestRun_takeWhile isBlank (comment.dropWhile (· == '#'))
  obtain ⟨blanks, hblanks, hall⟩ :=
    Text.exists_eq_trimEnd_append (trimStart (comment.dropWhile (· == '#')))
  refine ⟨_, _, blanks, ?_, fun c hc => eq_of_beq (hsigns.all c hc), hindent.all, hall⟩
  unfold bare Text.trim
  rw [← hblanks, trimStart, List.takeWhile_append_dropWhile, List.takeWhile_append_dropWhile]

/-- A comment that sets a marker has the form. -/
theorem exists_form {comment name : List Char} (h : marker? comment = some name) :
    ∃ form : MarkerForm, form.text = comment ∧ form.name = name := by
  obtain ⟨hne, behind, hbare, rfl⟩ := marker?_eq_some_iff.1 h
  obtain ⟨signs, indent, blanks, hcomment, hsigns, hindent, hblanks⟩ :=
    exists_eq_append_bare comment
  have hgap := Text.longestRun_takeWhile isBlank behind
  have hname := Text.longestRun_takeWhile isNameChar (trimStart behind)
  refine ⟨{
    signs, indent
    gap := behind.takeWhile isBlank
    name := (trimStart behind).takeWhile isNameChar
    rest := (trimStart behind).dropWhile isNameChar ++ blanks
    signs_eq := hsigns
    indent_blank := hindent
    gap_blank := hgap.all
    name_ne_nil := hne
    name_chars := hname.all
    rest_stops := ?_ }, ?_, rfl⟩
  · -- behind the name comes a character that stops it, or a blank from the end of the comment
    intro c hc
    rw [List.head?_append, Option.or_eq_some_iff] at hc
    rcases hc with hc | ⟨-, hc⟩
    · exact hname.stops c hc
    · have hblank := hblanks c (List.mem_of_mem_head? hc)
      by_contra hchar
      rw [isBlank_of_isNameChar (by simpa using hchar)] at hblank
      cases hblank
  · -- the name and what stops it make the text behind the blanks again
    conv_rhs => rw [hcomment, hbare]
    dsimp only [MarkerForm.text]
    rw [← List.append_assoc (List.takeWhile isNameChar _), List.takeWhile_append_dropWhile,
      trimStart, ← List.append_assoc (List.takeWhile isBlank _), List.takeWhile_append_dropWhile,
      List.append_assoc keyword]

/-- **The form of a marker.**  A comment sets the marker of a name if and only if it consists of
number signs, blanks, the word, blanks, this name and a rest that does not go on with the name; it
sets none if it has no such form, and it has one such form at most.  The byte offset at which the
name is cut out of the comment is not inside a character, and what is cut out is the name. -/
theorem marker_grammar (comment : List Char) :
    (∀ name, marker? comment = some name ↔
      ∃ form : MarkerForm, form.text = comment ∧ form.name = name) ∧
    (marker? comment = none ↔ ¬ ∃ form : MarkerForm, form.text = comment) ∧
    (∀ form form' : MarkerForm, form.text = comment → form'.text = comment → form = form') ∧
    ∀ behind, bare comment = keyword ++ behind →
      (⟨Text.runEnd isNameChar (trimStart behind)⟩ : String.Pos.Raw).IsValid
        (String.ofList (trimStart behind)) ∧
      ∃ name rest, Text.splitAtByte? (Text.runEnd isNameChar (trimStart behind))
          (trimStart behind) = some (name, rest) ∧
        marker? comment = if name.isEmpty then none else some name := by
  -- the other parts follow from the form of the comments that set a marker
  have hsome : ∀ name, marker? comment = some name ↔
      ∃ form : MarkerForm, form.text = comment ∧ form.name = name := by
    intro name
    constructor
    · exact exists_form
    · rintro ⟨form, rfl, rfl⟩
      exact form.marker?_text
  refine ⟨hsome, ?_, ?_, ?_⟩
  · rw [Option.eq_none_iff_forall_ne_some]
    constructor
    · rintro hnone ⟨form, hform⟩
      exact hnone form.name ((hsome form.name).2 ⟨form, hform, rfl⟩)
    · intro hno name hname
      obtain ⟨form, hform, -⟩ := (hsome name).1 hname
      exact hno ⟨form, hform⟩
  · intro form form' hform hform'
    exact MarkerForm.text_injective (hform.trans hform'.symm)
  · intro behind hbare
    refine ⟨Text.isValid_runEnd isNameChar (trimStart behind), _, _,
      Text.splitAtByte?_runEnd isNameChar (trimStart behind), ?_⟩
    exact marker?_of_bare hbare

/-- A comment in which letters of two bytes stand in the name and behind it. -/
def accentedMarker : List Char :=
  "## CFG: état_1, été ".toList

theorem marker_grammar_accentedMarker :
    (∃ form : MarkerForm, form.text = accentedMarker ∧ form.name = "état_1".toList) ∧
    (⟨7⟩ : String.Pos.Raw).IsValid "état_1, été" := by
  obtain ⟨hsome, -, -, hcut⟩ := marker_grammar accentedMarker
  have hbare : bare accentedMarker = keyword ++ " état_1, été".toList := by decide +kernel
  have htext : trimStart " état_1, été".toList = "état_1, été".toList := by decide +kernel
  have hend : Text.runEnd isNameChar "état_1, été".toList = 7 := by decide +kernel
  obtain ⟨hvalid, -⟩ := hcut _ hbare
  rw [htext, hend, String.ofList_toList] at hvalid
  exact ⟨(hsome _).1 (by decide +kernel), hvalid⟩

end Comment

end Flowgraph
