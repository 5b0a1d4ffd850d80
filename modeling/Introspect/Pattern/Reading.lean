import Introspect.Pattern.Basic

/-!
# Written patterns

How patterns are written. Characters stand for themselves except these:

* `^` and `$` are the beginning and the end of the text, `.` is any character but the line feed;
* `*`, `+`, `?`, `{m}`, `{m,}` and `{m,n}` repeat what stands before them, and a `?` behind one of
  them changes nothing about what matches;
* `[...]` and `[^...]` are sets of characters, ranges and named classes;
* `a|b` is a choice, and `(...)` or `(?:...)` holds together;
* `(?i)` ignores the case of ASCII letters up to the end of the group, `(?i:...)` inside it;
* `\d`, `\w`, `\s` are the digits, the characters of words and the blanks, `\D`, `\W`, `\S` all
  others, some letters behind a backslash are control characters, and punctuation behind a backslash
  stands for itself.

A written pattern is first cut into items (`Pattern.Item`), and the items are then put together with
a stack of open groups. `Pattern.parse?` refuses what is not written so.
-/

namespace Introspect.Pattern

/-! ### Items -/

/-- An item of a written pattern. -/
inductive Item where
  /-- A pattern that is complete in itself. -/
  | leaf (p : Pattern)
  | repeated (least : Nat) (most : Option Nat)
  | bar
  /-- The beginning of a group, which may begin to ignore letter case. -/
  | opening (caseless : Bool)
  | closing
  /-- From here on letter case is ignored. -/
  | caseless
  deriving Repr

/-- One member of a written set: a character or a class. -/
inductive Member where
  | char (c : Char)
  | kind (k : CharKind) (negated : Bool)
  deriving Repr

/-- The member as a part of a set. -/
def Member.part : Member → CharPart
  | char c => .range c c
  | kind k negated => .kind k negated

/-- Whether a backslash may stand before the character to make it stand for itself. -/
def isEscapable (c : Char) : Bool :=
  c.toNat < 128 && !Text.isLetter c && !Text.isDigit c && c != '<' && c != '>'

/-- What a character stands for behind a backslash. -/
def escaped? : Char → Option Member
  | 'd' => some (.kind .digit false)
  | 'D' => some (.kind .digit true)
  | 'w' => some (.kind .word false)
  | 'W' => some (.kind .word true)
  | 's' => some (.kind .blank false)
  | 'S' => some (.kind .blank true)
  | 'a' => some (.char '\x07')
  | 'f' => some (.char '\x0c')
  | 'n' => some (.char '\n')
  | 'r' => some (.char '\r')
  | 't' => some (.char '\t')
  | 'v' => some (.char '\x0b')
  | c => if isEscapable c then some (.char c) else none

/-- The member of a set at the head of a text, and what follows it. -/
def member? : List Char → Option (Member × List Char)
  | [] => none
  | ['\\'] => none
  | '\\' :: c :: cs => (escaped? c).map (·, cs)
  | '[' :: _ => none
  | c :: cs => some (.char c, cs)

/-- The part of a set at the head of a text, and what follows it. A hyphen makes a range unless the
set ends behind it. -/
def part? (cs : List Char) : Option (CharPart × List Char) := do
  let (m, cs) ← member? cs
  match cs with
  | '-' :: c :: rest =>
    if c = ']' ∨ c = '-' then pure (m.part, cs)
    else
      match m, ← member? (c :: rest) with
      | .char lo, (.char hi, rest) => if lo ≤ hi then pure (.range lo hi, rest) else none
      | _, _ => none
  | _ => pure (m.part, cs)

/-- The parts of a set up to the bracket that ends it, and what follows the bracket. Every part
takes a character, so that the length of the text is enough fuel. -/
def parts? : Nat → List Char → Option (List CharPart × List Char)
  | 0, _ => none
  | _ + 1, ']' :: cs => some ([], cs)
  | n + 1, cs => do
    let (p, cs) ← part? cs
    let (ps, cs) ← parts? n cs
    pure (p :: ps, cs)

/-- The set behind an opening bracket, and what follows it. Hyphens at the beginning stand for
themselves, and so does a closing bracket there. -/
def set? (cs : List Char) : Option (CharSet × List Char) := do
  let negated := cs.head? == some '^'
  let cs := if negated then cs.drop 1 else cs
  let hyphens := cs.takeWhile (· == '-')
  let cs := cs.dropWhile (· == '-')
  let brackets := if hyphens = [] then (cs.take 1).filter (· == ']') else []
  -- The characters in front, which stand for themselves, are not read as parts.
  let cs := cs.drop brackets.length
  let (parts, cs) ← parts? (cs.length + 1) cs
  let leading := (hyphens ++ brackets).map fun c => CharPart.range c c
  pure ({ parts := leading ++ parts, negated }, cs)

/-- The value of decimal digits. -/
def value (digits : List Char) : Nat :=
  digits.foldl (fun n c => n * 10 + (c.toNat - '0'.toNat)) 0

/-- The number at the head of a text, with the blanks around it, and what follows. -/
def number? (cs : List Char) : Option (Nat × List Char) :=
  let cs := Text.trimStart cs
  match cs.takeWhile Text.isDigit with
  | [] => none
  | digits => some (value digits, Text.trimStart (cs.drop digits.length))

/-- The bounds behind an opening brace, and what follows the closing one. -/
def bounds? (cs : List Char) : Option (Item × List Char) := do
  let (least, cs) ← number? cs
  match cs with
  | '}' :: cs => pure (.repeated least (some least), cs)
  | ',' :: cs =>
    match Text.trimStart cs with
    | '}' :: cs => pure (.repeated least none, cs)
    | _ =>
      match ← number? cs with
      | (most, '}' :: cs) => if least ≤ most then pure (.repeated least (some most), cs) else none
      | _ => none
  | _ => none

/-- Without a question mark at the head. -/
def dropMark : List Char → List Char
  | '?' :: cs => cs
  | cs => cs

/-- The item at the head of a text, and what follows it. -/
def item? : List Char → Option (Item × List Char)
  | [] => none
  | '^' :: cs => some (.leaf .start, cs)
  | '$' :: cs => some (.leaf .stop, cs)
  | '.' :: cs => some (.leaf (.one .inLine), cs)
  | '|' :: cs => some (.bar, cs)
  | ')' :: cs => some (.closing, cs)
  | '*' :: cs => some (.repeated 0 none, dropMark cs)
  | '+' :: cs => some (.repeated 1 none, dropMark cs)
  | '?' :: cs => some (.repeated 0 (some 1), dropMark cs)
  | '{' :: cs => (bounds? cs).map fun (item, cs) => (item, dropMark cs)
  | '(' :: '?' :: cs =>
    match cs with
    | ':' :: cs => some (.opening false, cs)
    | 'i' :: ':' :: cs => some (.opening true, cs)
    | 'i' :: ')' :: cs => some (.caseless, cs)
    | _ => none
  | '(' :: cs => some (.opening false, cs)
  | '[' :: cs => (set? cs).map fun (set, cs) => (.leaf (.one set), cs)
  | '\\' :: cs => (member? ('\\' :: cs)).map fun (m, cs) => (.leaf (.one { parts := [m.part] }), cs)
  | c :: cs => some (.leaf (.one (.single c)), cs)

/-- The items of a text. Every item takes a character, so that the length of the text is enough
fuel. -/
def items? : Nat → List Char → Option (List Item)
  | _, [] => some []
  | 0, _ => none
  | n + 1, cs => do
    let (item, cs) ← item? cs
    let rest ← items? n cs
    pure (item :: rest)

/-! ### Groups -/

/-- A group whose end has not been reached. -/
structure Group where
  /-- The choices that are complete. -/
  choices : Option Pattern := none
  /-- The current choice, but for its last item. -/
  before : Pattern := .nothing
  /-- The last item, if it can be repeated. -/
  last : Option Pattern := none
  /-- Whether letter case was ignored where the group began. -/
  outerCaseless : Bool := false

namespace Group

/-- The current choice. -/
def current (g : Group) : Pattern :=
  match g.last with
  | some p => .cat g.before p
  | none => g.before

/-- The group as a pattern. -/
def close (g : Group) : Pattern :=
  match g.choices with
  | some p => .alt p g.current
  | none => g.current

end Group

/-- Where the reading of items stands: the innermost open group, those around it, and whether letter
case is ignored. -/
structure Assembly where
  group : Group := {}
  outer : List Group := []
  caseless : Bool := false

/-- A pattern that ignores letter case if that is asked for. -/
def withCase (caseless : Bool) : Pattern → Pattern
  | one set => one { set with caseless }
  | p => p

/-- Takes an item. Nothing but a pattern can be repeated, and only an open group can end. -/
def Assembly.take (a : Assembly) : Item → Option Assembly
  | .leaf p =>
    some { a with
      group := { a.group with before := a.group.current, last := some (withCase a.caseless p) } }
  -- A repetition of a repetition repeats the whole of it.
  | .repeated least most =>
    a.group.last.map fun p => { a with group := { a.group with last := some (.rep p least most) } }
  | .bar =>
    some { a with
      group := { choices := some a.group.close, outerCaseless := a.group.outerCaseless } }
  | .opening caseless =>
    some { group := { outerCaseless := a.caseless }, outer := a.group :: a.outer,
           caseless := a.caseless || caseless }
  | .closing =>
    match a.outer with
    | [] => none
    | g :: outer =>
      some { group := { g with before := g.current, last := some a.group.close }, outer := outer,
             caseless := a.group.outerCaseless }
  | .caseless =>
    some { a with
      group := { a.group with before := a.group.current, last := none }, caseless := true }

/-- **Reading.** The pattern that a text writes, if it writes one. -/
def parse? (text : String) : Option Pattern := do
  let items ← items? text.toList.length text.toList
  let a ← items.foldlM Assembly.take {}
  if a.outer.isEmpty then pure a.group.close else none

/-- **The language that runs.** It does not say in detail what is wrong with a text. -/
def language : PatternLanguage := fun text =>
  match parse? text with
  | some p => .ok p.isMatch
  | none => .error "regex parse error"

end Introspect.Pattern
