import Introspect.Text.Split

/-!
# Unicode white space

The white space that ends an open tag, opens a doc comment and separates the words inside one.
It is the Unicode property `White_Space`, twenty-five characters, and so wider than the ASCII
white space between tokens.

* `isBlank` is the property;
* `trim` removes it from both ends of a text;
* `words` are the maximal runs of other characters.
-/

namespace Introspect.Text

/-- The characters with the property `White_Space`, as closed ranges of code points. -/
def blankRanges : List (Nat × Nat) :=
  [(0x09, 0x0d), (0x20, 0x20), (0x85, 0x85), (0xa0, 0xa0), (0x1680, 0x1680), (0x2000, 0x200a),
    (0x2028, 0x2029), (0x202f, 0x202f), (0x205f, 0x205f), (0x3000, 0x3000)]

/-- Whether a character is Unicode white space. -/
def isBlank (c : Char) : Bool :=
  blankRanges.any fun (lo, hi) => lo ≤ c.toNat && c.toNat ≤ hi

/-- Without the blanks at the beginning. -/
def trimStart (cs : List Char) : List Char :=
  cs.dropWhile isBlank

/-- Without the blanks at the end. -/
def trimEnd (cs : List Char) : List Char :=
  (cs.reverse.dropWhile isBlank).reverse

/-- **Trimming.** The text without the blanks at its two ends. -/
def trim (s : String) : String :=
  String.ofList (trimEnd (trimStart s.toList))

/-- **Words.** The maximal runs of characters that are not blank. -/
def words (s : String) : List String :=
  ((cutAt isBlank s.toList).filter (· ≠ [])).map String.ofList

end Introspect.Text
