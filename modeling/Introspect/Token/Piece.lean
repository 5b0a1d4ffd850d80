import Introspect.Text.Blank
import Introspect.Token.Basic

/-!
# The piece of text at the head of the input

Scanning cuts a source text into pieces. This module looks at the head of the remaining text and
says how many characters the next piece has and what it is: trivia that is passed over, a token, or
text that is no token. It decides nothing about positions or nesting.

Every recogniser here gives a **length in characters**, so a piece and what remains behind it
append to the text by `List.take_append_drop`, and no piece is empty (`Piece.length_pos`).

* `htmlPiece?` reads text outside of code up to the next open tag, or the open tag itself;
* `codePiece?` reads code: white space, comments, literals, names and punctuation;
* `closeQuote`, `closeComment`, `closeHeredoc` find the earliest end of a delimited literal.
-/

namespace Introspect.Token

/-- What a piece of text is. -/
inductive Verdict where
  /-- White space or a comment that documents nothing. -/
  | trivia
  | token (kind : Kind)
  | broken (fault : LexicalFault)
  deriving DecidableEq, Repr

/-- A non-empty piece at the head of a text. -/
structure Piece where
  verdict : Verdict
  /-- Length in characters. -/
  length : Nat
  length_pos : 0 < length := by omega
  deriving DecidableEq, Repr

/-- Code lies between tags; everything else is passed through. -/
inductive Mode where
  | html
  | code
  deriving DecidableEq, Repr, Inhabited

/-! ### Tags and text outside of code -/

/-- Length of the line break at the head: two characters, one or none. -/
def lineBreakLength : List Char → Nat
  | '\r' :: '\n' :: _ => 2
  | '\n' :: _ => 1
  | '\r' :: _ => 1
  | _ => 0

/-- Whether the text ends here or goes on with a blank. -/
def endsWord : List Char → Bool
  | [] => true
  | c :: _ => Text.isBlank c

/-- Length of one line break, or else of one blank or tab, at the head. -/
def tagSpaceLength (cs : List Char) : Nat :=
  match lineBreakLength cs with
  | 0 => (cs.take 1).countP Text.isIndent
  | n => n

/-- **Open tags.** The tag at the head, with its length. The long tag, in any letter case, takes one
line break or one blank behind it; the short tag and the long one count only before white space or
at the end. -/
def openTag? : List Char → Option (Kind × Nat)
  | '<' :: '?' :: cs =>
    let word := (cs.take 3).map Text.lowerChar
    if word = ['p', 'h', 'p'] ∧ endsWord (cs.drop 3) then
      some (.openTag, 5 + tagSpaceLength (cs.drop 3))
    -- This one counts whatever follows it.
    else if cs.head? = some '=' then some (.openTagWithEcho, 3)
    else if endsWord cs then some (.openTag, 2)
    else none
  | _ => none

/-- Number of characters before the next open tag, or before the end. -/
def htmlLength : List Char → Nat
  | [] => 0
  | c :: cs => if (openTag? (c :: cs)).isSome then 0 else htmlLength cs + 1

/-- The piece at the head of text outside of code. -/
def htmlPiece? (cs : List Char) : Option Piece :=
  match openTag? cs with
  | some (kind, n + 1) => some ⟨.token kind, n + 1, Nat.succ_pos n⟩
  | _ =>
    match cs with
    | [] => none
    -- No tag begins at the first character, so that the text goes on at least behind it.
    | _ :: rest => some ⟨.token .inlineHtml, htmlLength rest + 1, Nat.succ_pos _⟩

/-! ### Comments -/

/-- Length of the rest of a comment that ends before a line feed or a close tag. -/
def lineCommentLength : List Char → Nat
  | [] => 0
  | c :: cs =>
    if c = '\n' ∨ (c = '?' ∧ cs.head? = some '>') then 0 else lineCommentLength cs + 1

/-- Length of the text up to the first end of a block comment, the end included. -/
def closeComment : List Char → Option Nat
  | [] => none
  | c :: cs =>
    if c = '*' ∧ cs.head? = some '/' then some 2 else (closeComment cs).map (· + 1)

/-! ### Strings and heredocs -/

/-- Length of the text up to the first `quote` that no backslash escapes, the quote included. -/
def closeQuote (quote : Char) : List Char → Option Nat
  | [] => none
  | c :: cs =>
    if c = '\\' then
      match cs with
      | [] => none
      | _ :: ds => (closeQuote quote ds).map (· + 2)
    else if c = quote then some 1
    else (closeQuote quote cs).map (· + 1)

/-- The header of a heredoc behind its three angle brackets: optional blanks, a label, bare or in
quotes of one sort, and a line break. Gives the label and the length of the header. -/
def heredocHeader? (cs : List Char) : Option (List Char × Nat) :=
  let indent := (cs.takeWhile Text.isIndent).length
  let body := cs.drop indent
  let quote := body.head?.filter fun c => c == '"' || c == '\''
  let body := if quote.isSome then body.drop 1 else body
  match body with
  | [] => none
  | c :: _ =>
    if Text.isNameStart c then
      let label := body.takeWhile Text.isNamePart
      let behind := body.drop label.length
      let closing :=
        match quote with
        | none => some (behind, 0)
        -- Only the quote that was opened closes the label.
        | some q => if behind.head? = some q then some (behind.drop 1, 2) else none
      match closing with
      | none => none
      | some (tail, quotes) =>
        match lineBreakLength tail with
        | 0 => none
        | n => some (label, indent + quotes + label.length + n)
    else none

/-- Whether a line closes the heredoc with this label: blanks, the label, and no character that
would make the label a longer name. Gives the length up to the end of the label. -/
def closingLine? (label : List Char) (line : List Char) : Option Nat :=
  let indent := (line.takeWhile Text.isIndent).length
  let body := line.drop indent
  if label.isPrefixOf body ∧ ¬ (body.drop label.length).head?.any Text.isNamePart then
    some (indent + label.length)
  else none

/-- Length of a heredoc's body up to the end of the first closing line's label. The flag tells
whether a line begins here. -/
def closeHeredoc (label : List Char) (lineStart : Bool) (cs : List Char) : Option Nat :=
  -- A label in the middle of a line closes nothing.
  match (if lineStart then closingLine? label cs else none) with
  | some n => some n
  | none =>
    match cs with
    | [] => none
    | c :: rest => (closeHeredoc label (c == '\n') rest).map (· + 1)

/-! ### Numbers and names -/

/-- Length of a run of decimal digits and underscores. -/
def digitsLength (cs : List Char) : Nat :=
  (cs.takeWhile fun c => Text.isDigit c || c == '_').length

/-- The radix that a letter behind a zero announces. -/
def radixOf : Char → Option Nat
  | 'x' | 'X' => some 16
  | 'b' | 'B' => some 2
  | 'o' | 'O' => some 8
  | _ => none

/-- Length of the fraction at the head: a point, a digit, and more digits. -/
def fractionLength : List Char → Nat
  | '.' :: d :: cs => if Text.isDigit d then 1 + digitsLength (d :: cs) else 0
  | _ => 0

/-- Length of the exponent at the head: its letter, an optional sign, a digit, and more digits. -/
def exponentLength : List Char → Nat
  | e :: cs =>
    if e = 'e' ∨ e = 'E' then
      match cs with
      | s :: d :: ds =>
        if s = '+' ∨ s = '-' then (if Text.isDigit d then 2 + digitsLength (d :: ds) else 0)
        else if Text.isDigit s then 1 + digitsLength cs
        else 0
      | [d] => if Text.isDigit d then 2 else 0
      | [] => 0
    else 0
  | [] => 0

/-- **Numbers.** The number at the head of a text that begins with a digit, or with a point and a
digit. Behind the announcement of a radix at least one digit or underscore has to follow. -/
def numberPiece (cs : List Char) : Piece :=
  match cs with
  | '0' :: r :: rest =>
    match radixOf r with
    | some radix =>
      match (rest.takeWhile fun c => c == '_' || Text.isDigitIn radix c).length with
      | 0 => ⟨.broken (.invalidNumber "expected digits after radix prefix"), 2, by omega⟩
      | n => ⟨.token .intLiteral, 2 + n, by omega⟩
    | none => decimal cs
  | _ => decimal cs
where
  /-- A number in radix ten; it is a float if it has a fraction or an exponent. -/
  decimal (cs : List Char) : Piece :=
    let whole := digitsLength cs
    let fraction := fractionLength (cs.drop whole)
    let exponent := exponentLength (cs.drop (whole + fraction))
    let kind := if fraction + exponent = 0 then .intLiteral else .floatLiteral
    -- The maximum serves the type alone: the text begins with a digit or a point.
    ⟨.token kind, max 1 (whole + fraction + exponent), by omega⟩

/-- Length of the rest of a name: parts of identifiers, and backslashes before which an identifier
has been read and behind which another begins. -/
def nameLength : List Char → Nat
  | [] => 0
  | c :: cs =>
    if Text.isNamePart c then nameLength cs + 1
    else if c = '\\' ∧ cs.head?.any Text.isNameStart then nameLength cs + 1
    else 0

/-- **Names.** A name with a backslash is a name, and so is a reserved word where the name of a
member stands; any other reserved word is itself. -/
def nameKind (memberPosition : Bool) (text : List Char) : Kind :=
  if text.contains '\\' || memberPosition then .name
  else (Kind.ofWord? (String.ofList text)).getD .name

/-! ### Punctuation -/

/-- Punctuation and operators, longer ones first, so that the first match is the longest. -/
def punctuation : List (List Char × Kind) :=
  [("<<=", .operator), (">>=", .operator), ("**=", .operator), ("<=>", .operator),
    ("===", .operator), ("!==", .operator), ("??=", .operator), ("...", .ellipsis),
    ("?->", .nullsafeArrow), ("::", .colonColon), ("->", .arrow), ("=>", .doubleArrow),
    ("==", .operator), ("!=", .operator), ("<>", .operator), ("<=", .operator),
    (">=", .operator), ("&&", .operator), ("||", .operator), ("??", .operator),
    ("++", .operator), ("--", .operator), ("+=", .operator), ("-=", .operator),
    ("*=", .operator), ("/=", .operator), (".=", .operator), ("%=", .operator),
    ("&=", .operator), ("|=", .operator), ("^=", .operator), ("<<", .operator),
    (">>", .operator), ("**", .operator), ("(", .leftParen), (")", .rightParen),
    ("[", .leftBracket), ("]", .rightBracket), ("\x7b", .leftBrace), ("\x7d", .rightBrace),
    (";", .semicolon), (",", .comma), ("=", .equal), ("&", .amp), ("?", .question),
    (":", .colon), ("|", .pipe), ("+", .operator), ("-", .operator), ("*", .operator),
    ("/", .operator), ("%", .operator), ("^", .operator), ("~", .operator), ("!", .operator),
    ("<", .operator), (">", .operator), (".", .operator), ("@", .operator), ("$", .operator),
    ("\\", .operator)].map fun (text, kind) => (text.toList, kind)

/-- The punctuation at the head, or else a character that begins no token. -/
def punctuationPiece (c : Char) (cs : List Char) : Piece :=
  match punctuation.find? fun (text, _) => text.isPrefixOf (c :: cs) with
  | some (text, kind) => ⟨.token kind, max 1 text.length, by omega⟩
  | none => ⟨.broken (.unexpectedChar c), 1, by omega⟩

/-! ### Code -/

/-- A string that begins with `quote`. -/
def quotedPiece (quote : Char) (kind : Kind) (rest : List Char) : Piece :=
  match closeQuote quote rest with
  | some n => ⟨.token kind, n + 1, by omega⟩
  -- Everything up to the end of the file is lost.
  | none => ⟨.broken .unterminatedString, rest.length + 1, by omega⟩

/-- A block comment; `rest` is the text behind its two opening characters. It documents what follows
if a second star and a blank open it. -/
def commentPiece (rest : List Char) : Piece :=
  match closeComment rest with
  | some n =>
    -- A slash behind the second star closes the comment: the shortest one documents nothing.
    let isDoc := rest.head? = some '*' ∧ (rest.drop 1).head?.any Text.isBlank
    ⟨if isDoc then .token .docComment else .trivia, n + 2, by omega⟩
  | none => ⟨.broken .unterminatedComment, rest.length + 2, by omega⟩

/-- A heredoc, if one begins at three angle brackets; `rest` is the text behind them. -/
def heredocPiece? (rest : List Char) : Option Piece :=
  match heredocHeader? rest with
  | none => none
  | some (label, n) =>
    match closeHeredoc label true (rest.drop n) with
    | some m => some ⟨.token .heredocLiteral, 3 + n + m, by omega⟩
    | none =>
      some ⟨.broken (.unterminatedHeredoc (String.ofList label)), 3 + rest.length, by omega⟩

/-- **Code.** The piece at the head of code. `memberPosition` tells whether the name of a member
would stand here, `atStart` whether nothing of the source precedes, where a byte order mark is
passed over. -/
def codePiece? (memberPosition atStart : Bool) : List Char → Option Piece
  | [] => none
  | c :: rest => some <|
    if c = '\uFEFF' ∧ atStart then ⟨.trivia, 1, by omega⟩
    else if Text.isSpace c then ⟨.trivia, (rest.takeWhile Text.isSpace).length + 1, by omega⟩
    else if c = '?' ∧ rest.head? = some '>' then
      ⟨.token .closeTag, 2 + lineBreakLength (rest.drop 1), by omega⟩
    else if c = '#' then
      if rest.head? = some '[' then ⟨.token .attributeOpen, 2, by omega⟩
      else ⟨.trivia, lineCommentLength rest + 1, by omega⟩
    else if c = '/' ∧ rest.head? = some '/' then
      ⟨.trivia, lineCommentLength (rest.drop 1) + 2, by omega⟩
    else if c = '/' ∧ rest.head? = some '*' then commentPiece (rest.drop 1)
    else if c = '\'' then quotedPiece c .stringLiteral rest
    else if c = '"' ∨ c = '\x60' then quotedPiece c .interpolatedString rest
    else if c = '<' ∧ ['<', '<'].isPrefixOf rest then
      -- Without a header the angle brackets are operators.
      (heredocPiece? (rest.drop 2)).getD (punctuationPiece c rest)
    else if c = '$' ∧ rest.head?.any Text.isNameStart then
      ⟨.token .variableName, (rest.takeWhile Text.isNamePart).length + 1, by omega⟩
    else if Text.isDigit c ∨ (c = '.' ∧ rest.head?.any Text.isDigit) then numberPiece (c :: rest)
    else if Text.isNameStart c ∨ (c = '\\' ∧ rest.head?.any Text.isNameStart) then
      let n := nameLength rest + 1
      ⟨.token (nameKind memberPosition ((c :: rest).take n)), n, by omega⟩
    else punctuationPiece c rest

end Introspect.Token
