import Introspect.Diagnostic
import Introspect.Proofs.Text

/-!
# Rendered diagnostics

A diagnostic is rendered with the line of source it is about and, in the row below, a caret. The two
rows are put together on their own. The one begins with the number of the line, which takes three
places or as many as it needs, and a separator of three characters; the other begins with four
characters, whatever the number of the line. So the caret never stands under the place it is meant
to mark, but to the left of it: by two characters for line numbers of up to three digits, by one
more for every further digit.

* `Marks` says what a rendering shows of a line, and in which column the caret stands below it;
* `marks_render` is about the rendering of any diagnostic whose line exists;
* `caret_left_of_place` compares the caret to the place in the line.
-/

namespace Introspect.Diagnostic

/-- The number of places in which a line is numbered. -/
def numberWidth (line : Nat) : Nat := max 3 (toString line).length

/-- **What a rendering shows.** The last two of its rows are `lead`, with the line of source behind
it, and a row whose only caret is the character with the index `caret`. -/
structure Marks (text lead line : String) (caret : Nat) : Prop where
  rows : ∃ front below, text = front ++ "\n" ++ (lead ++ line) ++ "\n" ++ below ++ "\n" ∧
    '\n' ∉ (lead ++ line).toList ∧ '\n' ∉ below.toList ∧
    ∀ i, below.toList[i]? = some '^' ↔ i = caret

@[simp] theorem toList_repeated (n : Nat) (c : Char) :
    (repeated n c).toList = List.replicate n c := by
  simp [repeated]

theorem not_feed_of_mem_number {n : Nat} {c : Char} (h : c ∈ (toString n).toList) : c ≠ '\n' := by
  rintro rfl
  rw [show toString n = n.repr from rfl, Nat.toList_repr] at h
  exact absurd (Nat.isDigit_of_mem_toDigits (by decide) (by decide) h) (by decide)

/-- The number of a line fills its places. -/
theorem length_lineNumber (n : Nat) : (lineNumber n).length = numberWidth n := by
  simp only [lineNumber, numberWidth, ← String.length_toList, String.toList_append,
    List.length_append, toList_repeated, List.length_replicate]
  omega

theorem not_feed_of_mem_lineNumber {n : Nat} {c : Char} (h : c ∈ (lineNumber n).toList) :
    c ≠ '\n' := by
  rw [lineNumber, String.toList_append, List.mem_append, toList_repeated] at h
  rcases h with h | h
  · rw [List.eq_of_mem_replicate h]
    decide
  · exact not_feed_of_mem_number h

/-- A mark is a caret and tildes behind it. -/
theorem exists_marker_eq (span : Span) :
    ∃ n, (marker span).toList = '^' :: List.replicate n '~' := by
  unfold marker
  split
  · exact ⟨0, rfl⟩
  · exact ⟨span.len - 1, by simp⟩

/-- The only caret of a row: that of the mark, behind what is in front of it. -/
theorem caret_iff {lead : List Char} (hlead : '^' ∉ lead) (blanks tildes i : Nat) :
    (lead ++ List.replicate blanks ' ' ++ '^' :: List.replicate tildes '~')[i]? = some '^' ↔
      i = lead.length + blanks := by
  constructor
  · intro h
    rw [List.getElem?_append] at h
    split at h
    · -- in front of the mark there is none
      have hmem := List.mem_of_getElem? h
      rw [List.mem_append] at hmem
      rcases hmem with hmem | hmem
      · exact absurd hmem hlead
      · exact absurd (List.eq_of_mem_replicate hmem) (by decide)
    · next hi =>
      simp only [List.length_append, List.length_replicate, Nat.not_lt] at h hi
      -- behind the caret of the mark there are tildes only
      cases hj : i - (lead.length + blanks) with
      | zero => omega
      | succ j =>
        rw [hj, List.getElem?_cons_succ] at h
        exact absurd (List.eq_of_mem_replicate (List.mem_of_getElem? h)) (by decide)
  · rintro rfl
    rw [List.getElem?_append_right (by simp)]
    simp

/-- **What the rendering of a diagnostic shows,** if the line that it is about exists. -/
theorem marks_render {d : Diagnostic} {source line : String} (hnumber : d.span.line ≠ 0)
    (hline : (Text.lines source)[d.span.line - 1]? = some line) :
    Marks (d.render source) (lineNumber d.span.line ++ " | ") line
      (4 + (max d.span.col 1 - 1)) := by
  obtain ⟨tildes, hmarker⟩ := exists_marker_eq d.span
  let detail := if d.message = "" then "" else "  " ++ d.message ++ "\n"
  refine ⟨"Error at " ++ (toString d.span.line ++ ":" ++ toString (max d.span.col 1)) ++ ": "
    ++ d.kind.text ++ "\n" ++ detail ++ "  |",
    "  | " ++ repeated (max d.span.col 1 - 1) ' ' ++ marker d.span, ?_, ?_, ?_, ?_⟩
  · -- the rendering is the head, the detail and the excerpt, one behind the other
    simp only [render, if_neg hnumber, hline, detail, String.append_assoc]
    rfl
  · simp only [String.toList_append, List.mem_append, not_or]
    -- neither the number of the line nor the line itself has a line feed
    refine ⟨⟨fun h => not_feed_of_mem_lineNumber h rfl, by decide⟩, ?_⟩
    exact Text.no_feed_of_mem_lines (List.mem_of_getElem? hline)
  · simp [hmarker]
  · intro i
    rw [String.toList_append, String.toList_append, toList_repeated, hmarker]
    exact caret_iff (by decide) _ _ i

/-- **The caret stands to the left of its place.** For every source and every diagnostic about a
line of it, with a column in that line or right behind it: the character with the number of the
column stands in the row above the caret, but further to the right by all places of the line number
but one. -/
theorem caret_left_of_place (d : Diagnostic) (source line : String) (hnumber : d.span.line ≠ 0)
    (hline : (Text.lines source)[d.span.line - 1]? = some line) (hcol : 1 ≤ d.span.col)
    (hle : d.span.col ≤ line.length + 1) :
    ∃ lead caret, Marks (d.render source) lead line caret ∧
      (lead ++ line).toList[lead.length + (d.span.col - 1)]? = line.toList[d.span.col - 1]? ∧
      caret + (numberWidth d.span.line - 1) = lead.length + (d.span.col - 1) ∧
      caret < lead.length + (d.span.col - 1) ∧ caret < (lead ++ line).length := by
  have hlength : (lineNumber d.span.line ++ " | ").length = numberWidth d.span.line + 3 := by
    rw [String.length_append, length_lineNumber]
    rfl
  have hwidth : 3 ≤ numberWidth d.span.line := Nat.le_max_left _ _
  refine ⟨_, _, marks_render hnumber hline, ?_, ?_, ?_, ?_⟩
  · rw [String.toList_append, ← String.length_toList,
      List.getElem?_append_right (Nat.le_add_right _ _), Nat.add_sub_cancel_left]
  · omega
  · omega
  · rw [String.length_append, hlength]
    omega

/-- A missing name in the second line, in column seven. -/
def missingName : Diagnostic := expectedName ⟨2, 2, 7, 12, 1⟩ "'\x7b'"

theorem caret_left_of_place_missingName :
    missingName.span.line ≠ 0 ∧
      (Text.lines "<?php\nclass \x7b\n\x7d")[missingName.span.line - 1]? = some "class \x7b" ∧
      1 ≤ missingName.span.col ∧ missingName.span.col ≤ "class \x7b".length + 1 ∧
      ∃ lead caret, Marks (missingName.render "<?php\nclass \x7b\n\x7d") lead "class \x7b" caret ∧
        (lead ++ "class \x7b").toList[lead.length + 6]? = some '\x7b' ∧
        caret + 2 = lead.length + 6 ∧ caret < lead.length + 6 ∧
        caret < (lead ++ "class \x7b").length :=
  ⟨by decide, by decide, by decide, by decide,
    caret_left_of_place missingName "<?php\nclass \x7b\n\x7d" "class \x7b" (by decide) (by decide)
      (by decide) (by decide)⟩

/-- **Not under its place.** The character in column seven is the thirteenth of its row, the caret
the eleventh of the row below. -/
theorem caret_not_under_place :
    Marks (missingName.render "<?php\nclass \x7b\n\x7d") "  2 | " "class \x7b" 10 ∧
      ("  2 | " ++ "class \x7b").toList[12]? = some '\x7b' ∧
      10 ≠ "  2 | ".length + (missingName.span.col - 1) := by
  have hline : (Text.lines "<?php\nclass \x7b\n\x7d")[missingName.span.line - 1]? =
      some "class \x7b" := by decide
  exact ⟨marks_render (by decide) hline, by decide, by decide⟩

end Introspect.Diagnostic
