/-!
# Cutting text at characters

Cuts of a text at every character of a class, and the lines of a text. The functions work on the
list of characters; the versions on `String` are what the rest of the library calls.

* `cutAt` cuts at every character of a class, and `intercalate_cutAt` says that nothing but those
  characters is lost;
* `lines` are the pieces between line feeds, each without one carriage return before the line feed,
  and without an empty piece at the end;
* `dropLeading` removes all leading copies of a character and `dropOne` at most one.
-/

namespace Introspect.Text

/-- Prepends a character to the first piece of a cut text. -/
def extendFirst (c : Char) : List (List Char) → List (List Char)
  | [] => [[c]]
  | p :: ps => (c :: p) :: ps

/-- **Pieces.** The text between the characters of the class `sep`; there is always at least one
piece. -/
def cutAt (sep : Char → Bool) : List Char → List (List Char)
  | [] => [[]]
  | c :: cs => if sep c then [] :: cutAt sep cs else extendFirst c (cutAt sep cs)

theorem cutAt_ne_nil (sep : Char → Bool) (cs : List Char) : cutAt sep cs ≠ [] := by
  cases cs with
  | nil => simp [cutAt]
  | cons c cs =>
    rw [cutAt]
    split
    · simp
    · cases h : cutAt sep cs <;> simp [extendFirst]

theorem intercalate_extendFirst (sep c : Char) {ps : List (List Char)} (h : ps ≠ []) :
    [sep].intercalate (extendFirst c ps) = c :: [sep].intercalate ps := by
  cases ps with
  | nil => exact absurd rfl h
  | cons p ps => cases ps <;> simp [extendFirst, List.intercalate]

/-- Joining the pieces with the separating character gives the text back. -/
theorem intercalate_cutAt (sep : Char) (cs : List Char) :
    [sep].intercalate (cutAt (· == sep) cs) = cs := by
  induction cs with
  | nil => simp [cutAt, List.intercalate]
  | cons c cs ih =>
    rw [cutAt]
    split
    · rename_i h
      obtain rfl : c = sep := by simpa using h
      cases hp : cutAt (· == c) cs with
      | nil => exact absurd hp (cutAt_ne_nil _ cs)
      | cons p ps =>
        rw [hp] at ih
        simp only [List.intercalate] at ih ⊢
        simp [List.intersperse, ih]
    · rw [intercalate_extendFirst sep c (cutAt_ne_nil _ cs), ih]

/-- The text cut at every occurrence of one character. -/
def split (sep : Char) (s : String) : List String :=
  (cutAt (· == sep) s.toList).map String.ofList

/-- Without one carriage return at the end. -/
def dropReturn (cs : List Char) : List Char :=
  match cs.getLast? with
  | some '\r' => cs.dropLast
  | _ => cs

/-- Pieces read as lines: all but the last were ended by a line feed. -/
def endLines : List (List Char) → List (List Char)
  | [] => []
  -- The last piece was not ended by a line feed and keeps its carriage return.
  | [last] => if last = [] then [] else [last]
  | p :: ps => dropReturn p :: endLines ps

/-- **Lines.** A line ends at a line feed or at the end of the text; the line feed and one carriage
return before it are no part of the line, and the end of a text adds no empty line. -/
def lines (s : String) : List String :=
  (endLines (cutAt (· == '\n') s.toList)).map String.ofList

/-- Without all leading copies of `c`. -/
def dropLeading (c : Char) (s : String) : String :=
  String.ofList (s.toList.dropWhile (· == c))

/-- Without all copies of `c` at either end. -/
def dropAround (c : Char) (s : String) : String :=
  String.ofList ((s.toList.dropWhile (· == c)).reverse.dropWhile (· == c)).reverse

/-- Without at most one leading `c`. -/
def dropOne (c : Char) (s : String) : String :=
  match s.toList with
  | [] => s
  | d :: ds => if d = c then String.ofList ds else s

end Introspect.Text
