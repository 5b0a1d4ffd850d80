import Introspect.Source.Span
import Introspect.Token.Kind

/-!
# Tokens and lexical errors

A `Token` is a kind, the text it was written as and the place of that text. A `LexicalError` is a
fault found while scanning, with the place of the offending text.
-/

namespace Introspect

/-- A token of a source text. -/
structure Token where
  kind : Token.Kind
  /-- The text of the token; empty for invalid input and for the end of the text. -/
  lexeme : String
  span : Span
  deriving DecidableEq, Repr, Inhabited

/-- The token as error messages name it: names and variables are quoted, other tokens are
described by their kind. -/
def Token.describe (t : Token) : String :=
  match t.kind with
  | .name | .variableName => t.kind.description ++ " '" ++ t.lexeme ++ "'"
  | k => k.description

/-- What can be wrong with the text itself. -/
inductive LexicalFault where
  /-- A character that begins no token. -/
  | unexpectedChar (c : Char)
  | unterminatedString
  /-- A heredoc whose label does not come back. -/
  | unterminatedHeredoc (label : String)
  | unterminatedComment
  | invalidNumber (detail : String)
  /-- A closing brace without an opening one. -/
  | unbalancedScope
  /-- Braces still open at the end of the text. -/
  | unclosedScope (depth : Nat)
  deriving DecidableEq, Repr

/-- A fault of the text and its place. -/
structure LexicalError where
  fault : LexicalFault
  span : Span
  deriving DecidableEq, Repr

/-- The error in words. -/
def LexicalError.message (e : LexicalError) : String :=
  let place := e.span.text
  match e.fault with
  | .unexpectedChar c => "unexpected character '" ++ String.singleton c ++ "' at " ++ place
  | .unterminatedString => "unterminated string at " ++ place
  | .unterminatedHeredoc label => "unterminated heredoc '" ++ label ++ "' at " ++ place
  | .unterminatedComment => "unterminated comment at " ++ place
  | .invalidNumber detail => "invalid number at " ++ place ++ ": " ++ detail
  | .unbalancedScope => "unbalanced '\x7d' at " ++ place
  | .unclosedScope depth =>
    toString depth ++ " unclosed scope(s) at end of input (" ++ place ++ ")"

end Introspect
