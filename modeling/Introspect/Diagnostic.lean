import Introspect.Text.Split
import Introspect.Token.Basic

/-!
# Diagnostics

What is reported about a source file. A `Diagnostic` has a kind, a place and a message; lexical
errors and rejected writes to a declaration become diagnostics too, so that a file has one list of
them, in the order in which they were found.

* `Diagnostic.text` is a diagnostic in one line, `Diagnostic.listText` a list of them;
* `Diagnostic.render` shows it with the line of source it is about and marks the place there.
-/

namespace Introspect

/-- What a diagnostic is about. -/
inductive Diagnostic.Kind where
  | expectedToken
  | unexpectedEnd
  | lexical
  | invalidDeclaration
  | expectedParameters
  | expectedClassMember
  | expectedIdentifier
  | duplicateIdentifier
  | mismatchedDelimiter
  | invalidModifier
  | conflictingModifiers
  | duplicateInitialization
  deriving DecidableEq, Repr, Inhabited

/-- The kind in words. -/
def Diagnostic.Kind.text : Diagnostic.Kind → String
  | .expectedToken => "expected token"
  | .unexpectedEnd => "unexpected end of file"
  | .lexical => "lexer error"
  | .invalidDeclaration => "invalid declaration"
  | .expectedParameters => "expected parameters"
  | .expectedClassMember => "expected class member"
  | .expectedIdentifier => "expected identifier"
  | .duplicateIdentifier => "duplicate identifier"
  | .mismatchedDelimiter => "mismatched delimiter"
  | .invalidModifier => "invalid modifier"
  | .conflictingModifiers => "conflicting modifiers"
  | .duplicateInitialization => "duplicate initialization"

/-- Something to report about a source file. -/
structure Diagnostic where
  kind : Diagnostic.Kind
  span : Span
  message : String
  deriving DecidableEq, Repr, Inhabited

namespace Diagnostic

/-! ### Common diagnostics -/

/-- Something was expected where something else was found. -/
def expected (span : Span) (wanted found : String) : Diagnostic :=
  ⟨.expectedToken, span, "expected " ++ wanted ++ ", found " ++ found⟩

/-- The file ended too early. -/
def endOfFile (span : Span) : Diagnostic :=
  ⟨.unexpectedEnd, span, "unexpected end of file"⟩

/-- A name was expected where something else was found. -/
def expectedName (span : Span) (found : String) : Diagnostic :=
  ⟨.expectedIdentifier, span, "expected identifier, found " ++ found⟩

/-- Something is declared a second time. -/
def redeclared (span : Span) (what name : String) : Diagnostic :=
  ⟨.duplicateIdentifier, span, what ++ " '" ++ name ++ "' is declared more than once"⟩

/-- A lexical error as a diagnostic. -/
def ofLexical (e : LexicalError) : Diagnostic :=
  ⟨.lexical, e.span, e.message⟩

/-! ### Text -/

/-- The diagnostic in one line. -/
def text (d : Diagnostic) : String :=
  d.kind.text ++ " at " ++ d.span.text ++ ": " ++ d.message

/-- A list of diagnostics, one in a line. -/
def listText (ds : List Diagnostic) : String :=
  "\n".intercalate (ds.map text)

/-- Whether a list has a diagnostic of the kind. -/
def hasKind (ds : List Diagnostic) (kind : Kind) : Bool :=
  ds.any (·.kind == kind)

/-- A character, `n` times. -/
def repeated (n : Nat) (c : Char) : String :=
  String.ofList (List.replicate n c)

/-- A number in at least three places. -/
def lineNumber (n : Nat) : String :=
  let digits := toString n
  repeated (3 - digits.length) ' ' ++ digits

/-- The mark under a span: a caret, and on a single line a tilde for every further byte. -/
def marker (span : Span) : String :=
  if span.len ≤ 1 ∨ span.endLine ≠ span.line then "^" else "^" ++ repeated (span.len - 1) '~'

/-- **Rendering.** The diagnostic with the line of `source` it is about, if there is that line, and
a row that marks the place. -/
def render (d : Diagnostic) (source : String) : String :=
  let col := max d.span.col 1
  let place := toString d.span.line ++ ":" ++ toString col
  let head := "Error at " ++ place ++ ": " ++ d.kind.text ++ "\n"
  let detail := if d.message = "" then "" else "  " ++ d.message ++ "\n"
  -- A diagnostic without a place has line zero.
  let line? := if d.span.line = 0 then none else (Text.lines source)[d.span.line - 1]?
  let excerpt :=
    match line? with
    | none => ""
    | some line =>
      "  |\n" ++ lineNumber d.span.line ++ " | " ++ line ++ "\n"
        ++ "  | " ++ repeated (col - 1) ' ' ++ marker d.span ++ "\n"
  head ++ detail ++ excerpt

end Diagnostic

end Introspect
