import Introspect.Token.Scanner

/-!
# Significant tokens

Declarations are read from the significant tokens of a file: tags, text outside of code and invalid
input are left out, and a doc comment is kept with the significant token it stands in front of. If
several doc comments stand there, the last one is kept.
-/

namespace Introspect.Reading

/-- A significant token and the doc comment in front of it. -/
structure Entry where
  token : Token
  /-- The raw text of the nearest doc comment between this token and the one before it. -/
  doc : Option String
  deriving DecidableEq, Repr, Inhabited

/-- The kind of the token. -/
def Entry.kind (e : Entry) : Token.Kind := e.token.kind

/-- The significant tokens of a list, up to the end of the text. `doc` is the doc comment that waits
for its token. -/
def entries (doc : Option String) : List Token → List Entry
  | [] => []
  | t :: ts =>
    match t.kind with
    | .inlineHtml | .openTag | .openTagWithEcho | .closeTag | .invalid => entries doc ts
    | .docComment => entries (some t.lexeme) ts
    | .endOfText => []
    | _ => ⟨t, doc⟩ :: entries none ts

/-- The significant tokens of a file and the token at its end. -/
structure Buffer where
  entries : List Entry
  eof : Token
  deriving Repr, Inhabited

/-- The buffer of the tokens of a file. -/
def Buffer.ofTokens (ts : List Token) : Buffer :=
  ⟨Reading.entries none ts, ts.getLastD default⟩

end Introspect.Reading
