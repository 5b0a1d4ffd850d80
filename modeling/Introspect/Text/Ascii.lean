/-!
# ASCII letter case and ASCII character classes

Reserved words, class names and method names are compared without regard to the case of the
letters `A` to `Z`; every other character, accented letters included, stands for itself. This
module holds that comparison and the character classes of which names and numbers are made.

* `foldCase` writes the letters `A` to `Z` in lower case and keeps everything else;
* `eqIgnoringCase` holds of two texts exactly when `foldCase` sends them to the same text;
* `isNameStart`, `isNamePart` are the characters of an identifier, all of non-ASCII included;
* `isSpace` is the white space between tokens, which is ASCII only.
-/

namespace Introspect.Text

/-- The lower case of an ASCII letter; any other character is kept. -/
def lowerChar (c : Char) : Char :=
  if 'A' ≤ c ∧ c ≤ 'Z' then Char.ofNat (c.toNat + 32) else c

/-- **Case folding.** The letters `A` to `Z` in lower case, everything else as it is. -/
def foldCase (s : String) : String :=
  String.ofList (s.toList.map lowerChar)

/-- Whether two texts are equal up to the case of ASCII letters. -/
def eqIgnoringCase (s t : String) : Bool :=
  foldCase s == foldCase t

@[simp] theorem toList_foldCase (s : String) :
    (foldCase s).toList = s.toList.map lowerChar := by
  simp [foldCase]

@[simp] theorem eqIgnoringCase_iff {s t : String} :
    eqIgnoringCase s t = true ↔ foldCase s = foldCase t := by
  simp [eqIgnoringCase]

/-- A letter of the ASCII alphabet. -/
def isLetter (c : Char) : Bool :=
  ('a' ≤ c && c ≤ 'z') || ('A' ≤ c && c ≤ 'Z')

/-- A decimal digit. -/
def isDigit (c : Char) : Bool :=
  '0' ≤ c && c ≤ '9'

/-- A digit of the given radix, letters in either case standing for ten and above. -/
def isDigitIn (radix : Nat) (c : Char) : Bool :=
  if isDigit c then c.toNat - '0'.toNat < radix
  else isLetter c && (lowerChar c).toNat - 'a'.toNat + 10 < radix

/-- A character that can begin an identifier. Everything beyond ASCII can. -/
def isNameStart (c : Char) : Bool :=
  isLetter c || c == '_' || 128 ≤ c.toNat

/-- A character that can continue an identifier. -/
def isNamePart (c : Char) : Bool :=
  isNameStart c || isDigit c

/-- The white space that separates tokens: blank, tab, line feed, form feed, carriage return. -/
def isSpace (c : Char) : Bool :=
  c == ' ' || c == '\t' || c == '\n' || c == '\x0c' || c == '\r'

/-- The white space inside a line: blank and tab. -/
def isIndent (c : Char) : Bool :=
  c == ' ' || c == '\t'

theorem isNamePart_of_isNameStart {c : Char} (h : isNameStart c = true) : isNamePart c = true := by
  simp [isNamePart, h]

end Introspect.Text
