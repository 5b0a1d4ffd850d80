import Introspect.Text.Ascii
import Introspect.Text.Alphanumeric
import Introspect.Text.Blank

/-!
# Patterns

Names are left out of queries by patterns. How patterns are written, and what they match, is up to a
`PatternLanguage`, and queries are stated for any of them. The language that runs is
`Pattern.language`: that of regular expressions, as far as they are written in the ways listed in
`Introspect.Pattern.Reading`.

In this language a `Pattern` describes texts, and a text *matches* a pattern if some part of it is
as the pattern says. Matching works on positions: `Pattern.ends` are all positions at which a part
that begins at a given position can end. Since it keeps sets of positions, it needs no backtracking,
and repetitions of repetitions end like all others.
-/

namespace Introspect

/-- **Languages of patterns.** Which names match the pattern that a text writes, or what is wrong
with the text. -/
abbrev PatternLanguage := String → Except String (String → Bool)

/-! ### Sets of characters -/

/-- The classes of characters that have a name. -/
inductive CharKind where
  | digit
  | word
  | blank
  deriving DecidableEq, Repr

/-- Whether a character is of the class. -/
def CharKind.has : CharKind → Char → Bool
  | .digit => Text.isDecimal
  | .word => Text.isWordChar
  | .blank => Text.isBlank

/-- A part of a set of characters. -/
inductive CharPart where
  /-- The characters between two, both included. -/
  | range (lo hi : Char)
  /-- The characters of a class, or all others. -/
  | kind (k : CharKind) (negated : Bool)
  deriving DecidableEq, Repr

/-- Whether a character belongs to the part. -/
def CharPart.has : CharPart → Char → Bool
  | range lo hi, c => lo ≤ c && c ≤ hi
  | kind k negated, c => k.has c != negated

/-- A set of characters, the union of its parts or the complement of it. -/
structure CharSet where
  parts : List CharPart
  negated : Bool := false
  /-- Whether an ASCII letter belongs to the union if it does in the other case. -/
  caseless : Bool := false
  deriving DecidableEq, Repr

namespace CharSet

/-- A single character. -/
def single (c : Char) : CharSet := { parts := [.range c c] }

/-- All characters but the line feed. -/
def inLine : CharSet := { parts := [.range '\n' '\n'], negated := true }

/-- The ASCII letter in the other case; any other character is kept. -/
def otherCase (c : Char) : Char :=
  if 'a' ≤ c ∧ c ≤ 'z' then Char.ofNat (c.toNat - 32) else Text.lowerChar c

/-- Whether a character belongs to the set. -/
def has (s : CharSet) (c : Char) : Bool :=
  s.parts.any (fun p => p.has c || (s.caseless && p.has (otherCase c))) != s.negated

end CharSet

/-! ### Patterns -/

/-- A description of texts. -/
inductive Pattern where
  /-- Nothing, anywhere. -/
  | nothing
  /-- One character of a set. -/
  | one (set : CharSet)
  /-- The beginning of the text. -/
  | start
  /-- The end of the text. -/
  | stop
  | cat (a b : Pattern)
  | alt (a b : Pattern)
  /-- The pattern repeated, at least `least` times and at most `most` times if that is given. -/
  | rep (a : Pattern) (least : Nat) (most : Option Nat)
  deriving DecidableEq, Repr

namespace Pattern

/-- The positions reached from some positions by exactly `n` steps. -/
def after (step : Nat → List Nat) : Nat → List Nat → List Nat
  | 0, starts => starts
  | n + 1, starts => after step n (starts.flatMap step).eraseDups

/-- The positions reached from some positions by at most `n` steps. -/
def within (step : Nat → List Nat) : Nat → List Nat → List Nat
  | 0, starts => starts
  | n + 1, starts => within step n (starts ++ starts.flatMap step).eraseDups

/-- **Matching at a position.** The positions at which a part of the text that is as the pattern
says and begins at `i` can end. A repetition without an upper bound needs no more steps beyond the
least number than the text has characters, since a step that does not advance leads nowhere new. -/
def ends (text : List Char) : Pattern → Nat → List Nat
  | nothing, i => [i]
  | one set, i => if text[i]?.any set.has then [i + 1] else []
  | start, i => if i = 0 then [i] else []
  | stop, i => if i = text.length then [i] else []
  | cat a b, i => ((ends text a i).flatMap (ends text b)).eraseDups
  | alt a b, i => (ends text a i ++ ends text b i).eraseDups
  | rep a least most, i =>
    -- First the steps that have to be taken, then those that may be.
    within (ends text a) ((most.map (· - least)).getD text.length) (after (ends text a) least [i])

/-- **Matching.** Whether some part of the text is as the pattern says. -/
def isMatch (p : Pattern) (text : String) : Bool :=
  (List.range (text.toList.length + 1)).any fun i => !(p.ends text.toList i).isEmpty

end Pattern

end Introspect
