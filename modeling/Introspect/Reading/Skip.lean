import Introspect.Reading.Routine

/-!
# Passing over tokens

What is not a declaration is passed over: bodies of functions, statements, attributes, and the rest
of a declaration that cannot be read. The walks over tokens are functions on the list of tokens that
remain; each gives a tail of the list it is given.

* `closeBlock` finds the brace that closes a block, `passAttributes` the end of attributes;
* `statementEnd`, `bodyStart`, `declarationEnd`, `memberEnd` find where passing over ends;
* `initializer` reads a value and keeps its text exactly as it is written.
-/

namespace Introspect.Reading

/-! ### Walks over tokens -/

/-- The brace that closes the outermost of `depth + 1` open blocks, and the tokens behind it. -/
def closeBlock (depth : Nat) : List Entry → Option (Token × List Entry)
  | [] => none
  | e :: es =>
    match e.kind with
    | .leftBrace => closeBlock (depth + 1) es
    | .rightBrace =>
      match depth with
      | 0 => some (e.token, es)
      | d + 1 => closeBlock d es
    | _ => closeBlock depth es

/-- The tokens behind consecutive attributes, or the opening token of an attribute that is never
closed. `inside` holds the opening token and the number of further brackets that are open, inside an
attribute. -/
def passAttributes (inside : Option (Token × Nat)) : List Entry → Except Token (List Entry)
  | [] =>
    match inside with
    | none => .ok []
    | some (opening, _) => .error opening
  | e :: es =>
    match inside with
    | none =>
      if e.kind = .attributeOpen then passAttributes (some (e.token, 0)) es else .ok (e :: es)
    | some (opening, depth) =>
      match e.kind with
      | .attributeOpen | .leftBracket => passAttributes (some (opening, depth + 1)) es
      | .rightBracket =>
        match depth with
        | 0 => passAttributes none es
        | d + 1 => passAttributes (some (opening, d)) es
      | _ => passAttributes (some (opening, depth)) es

/-- The tokens from the end of a statement on: a semicolon or a brace outside of all parentheses and
brackets. -/
def statementEnd (nesting : Nat) : List Entry → List Entry
  | [] => []
  | e :: es =>
    match e.kind with
    | .semicolon | .leftBrace | .rightBrace =>
      if nesting = 0 then e :: es else statementEnd nesting es
    | .leftParen | .leftBracket => statementEnd (nesting + 1) es
    -- A bracket that closes nothing leaves the nesting at zero.
    | .rightParen | .rightBracket => statementEnd (nesting - 1) es
    | _ => statementEnd nesting es

/-- The tokens from the body of a function on: a brace anywhere, a semicolon outside of parentheses,
or a closing parenthesis that was opened before. -/
def bodyStart (parens : Nat) : List Entry → List Entry
  | [] => []
  | e :: es =>
    match e.kind with
    | .leftBrace => e :: es
    | .semicolon => if parens = 0 then e :: es else bodyStart parens es
    | .leftParen => bodyStart (parens + 1) es
    | .rightParen => if parens = 0 then e :: es else bodyStart (parens - 1) es
    | _ => bodyStart parens es

/-- The tokens from the next semicolon or opening brace on. -/
def declarationEnd (es : List Entry) : List Entry :=
  es.dropWhile fun e => e.kind ≠ .semicolon ∧ e.kind ≠ .leftBrace

/-- The tokens from the next semicolon or brace on. -/
def memberEnd (es : List Entry) : List Entry :=
  es.dropWhile fun e => e.kind ≠ .semicolon ∧ e.kind ≠ .leftBrace ∧ e.kind ≠ .rightBrace

/-! ### Routines that pass over tokens -/

/-- Reads a block and yields its closing brace. -/
def skipBlock : Routine Token := do
  let opening ← expect .leftBrace
  let s ← get
  match closeBlock 0 s.rest with
  | some (closing, rest) =>
    set { s with rest }
    return closing
  | none =>
    -- Nothing behind a block that is never closed is read.
    set { s with rest := [] }
    throw ⟨.mismatchedDelimiter, opening.span, "'\x7b' is never closed"⟩

/-- Reads consecutive attributes. -/
def skipAttributes : Routine Unit := do
  let s ← get
  match passAttributes none s.rest with
  | .ok rest => set { s with rest }
  | .error opening =>
    set { s with rest := [] }
    throw ⟨.mismatchedDelimiter, opening.span, "attribute is never closed"⟩

/-- Goes to a tail of the remaining tokens; a semicolon there is consumed, and a block there is
read. -/
def skipTo (tail : List Entry → List Entry) : Routine Unit := do
  modify fun s => { s with rest := tail s.rest }
  match ← peekKind with
  | .semicolon => discard advance
  | .leftBrace =>
    match ← attempt skipBlock with
    | .ok _ => return
    | .error d => report d
  | _ => return

/-- Passes over the rest of a statement. -/
def skipStatement : Routine Unit := skipTo (statementEnd 0)

/-- Passes over a function, a trait or an anonymous class, header and body. -/
def skipToBody : Routine Unit := skipTo (bodyStart 0)

/-- Passes over a declaration whose header cannot be read. -/
def recoverDeclaration : Routine Unit := skipTo declarationEnd

/-- Passes over the rest of a member that cannot be read. -/
def recoverMember : Routine Unit := skipTo memberEnd

/-! ### Initializers -/

/-- The number of open brackets behind a token; none where it closes a bracket opened before. -/
def bracketsAfter (kind : Token.Kind) (nesting : Nat) : Option Nat :=
  match kind with
  | .leftParen | .leftBracket | .leftBrace => some (nesting + 1)
  | .rightParen | .rightBracket | .rightBrace => if nesting = 0 then none else some (nesting - 1)
  | _ => some nesting

/-- The tokens of a value and those behind it. The value ends in front of a token of a kind in
`stops`, or of a closing bracket that was opened before it, outside of all brackets. -/
def splitInitializer (stops : List Token.Kind) (nesting : Nat) :
    List Entry → List Token × List Entry
  | [] => ([], [])
  | e :: es =>
    -- Inside brackets the kinds in `stops` end nothing.
    if nesting = 0 ∧ stops.contains e.kind then ([], e :: es)
    else
      match bracketsAfter e.kind nesting with
      | none => ([], e :: es)
      | some n =>
        let tail := splitInitializer stops n es
        (e.token :: tail.1, tail.2)

/-- **Initializers.** Reads a value and yields its text exactly as `source` has it, with the last of
its tokens. -/
def initializer (source : String) (stops : List Token.Kind) : Routine (String × Token) := do
  let s ← get
  let (tokens, rest) := splitInitializer stops 0 s.rest
  set { s with rest }
  -- A value that runs to the end of the file is not a value.
  if rest = [] then throw (.endOfFile s.eof.span)
  match tokens with
  | [] => unexpected "value"
  | first :: more =>
    let last := more.getLastD first
    return (((first.span.merge last.span).slice? source).getD "", last)

end Introspect.Reading
