import Introspect.Text.Ascii

/-!
# Kinds of tokens

A scan for declarations tells apart only what it needs: the boundaries of code, literals, names,
reserved words, brackets and some punctuation. All other operators are of one kind.

* `Token.Kind` lists the kinds and `Token.Kind.description` names each in error messages;
* `Token.Kind.ofWord?` finds the reserved word that a text spells, in any letter case;
* `Token.Kind.opensMemberName` are the kinds behind which a reserved word is an ordinary name.
-/

namespace Introspect

/-- What a token is. -/
inductive Token.Kind where
  /-- Text outside of code. -/
  | inlineHtml
  /-- A tag that begins code. -/
  | openTag
  /-- The tag that begins a printed expression. -/
  | openTagWithEcho
  /-- The tag that ends code. -/
  | closeTag
  | intLiteral
  | floatLiteral
  /-- A string in single quotes. -/
  | stringLiteral
  /-- A string in double quotes or backquotes. -/
  | interpolatedString
  | heredocLiteral
  /-- An identifier, or identifiers joined by backslashes. -/
  | name
  /-- A dollar sign and an identifier. -/
  | variableName
  | docComment
  | selfWord
  | parentWord
  | staticWord
  | abstractWord
  | classWord
  | interfaceWord
  | traitWord
  | functionWord
  | constWord
  | varWord
  | extendsWord
  | implementsWord
  | namespaceWord
  | useWord
  | asWord
  | newWord
  | publicWord
  | protectedWord
  | privateWord
  | finalWord
  | readonlyWord
  | leftParen
  | rightParen
  | leftBracket
  | rightBracket
  | leftBrace
  | rightBrace
  | semicolon
  | comma
  /-- The two characters that open an attribute. -/
  | attributeOpen
  | equal
  | amp
  | question
  | colon
  | colonColon
  | arrow
  | nullsafeArrow
  | doubleArrow
  | ellipsis
  | pipe
  /-- Any other operator. -/
  | operator
  /-- The end of the text. -/
  | endOfText
  /-- Text that is no token. -/
  | invalid
  deriving DecidableEq, Repr, Inhabited

namespace Token.Kind

/-- The reserved words, in lower case. -/
def reservedWords : List (String × Kind) :=
  [("self", selfWord), ("parent", parentWord), ("static", staticWord), ("abstract", abstractWord),
    ("class", classWord), ("interface", interfaceWord), ("trait", traitWord),
    ("function", functionWord), ("const", constWord), ("var", varWord), ("extends", extendsWord),
    ("implements", implementsWord), ("namespace", namespaceWord), ("use", useWord), ("as", asWord),
    ("new", newWord), ("public", publicWord), ("protected", protectedWord),
    ("private", privateWord), ("final", finalWord), ("readonly", readonlyWord)]

/-- **Reserved words.** The reserved word that a text spells, whatever the case of its letters. -/
def ofWord? (word : String) : Option Kind :=
  reservedWords.lookup (Text.foldCase word)

/-- Whether the kind is that of a reserved word. -/
def isReserved (k : Kind) : Bool :=
  reservedWords.any (·.2 == k)

/-- Whether the kind is that of a literal. -/
def isLiteral : Kind → Bool
  | intLiteral | floatLiteral | stringLiteral | interpolatedString | heredocLiteral => true
  | _ => false

/-- Whether the kind is that of a member modifier. -/
def isModifier : Kind → Bool
  | publicWord | protectedWord | privateWord | staticWord | abstractWord | finalWord | readonlyWord
  | varWord => true
  | _ => false

/-- Kinds behind which a reserved word is the name of a member. -/
def opensMemberName : Kind → Bool
  | arrow | nullsafeArrow | colonColon | functionWord => true
  | _ => false

/-- The kind as error messages name it. -/
def description : Kind → String
  | inlineHtml => "inline text"
  | openTag => "'<?php'"
  | openTagWithEcho => "'<?='"
  | closeTag => "'?>'"
  | intLiteral => "integer"
  | floatLiteral => "float"
  | stringLiteral | interpolatedString => "string"
  | heredocLiteral => "heredoc"
  | name => "name"
  | variableName => "variable"
  | docComment => "doc comment"
  | selfWord => "'self'"
  | parentWord => "'parent'"
  | staticWord => "'static'"
  | abstractWord => "'abstract'"
  | classWord => "'class'"
  | interfaceWord => "'interface'"
  | traitWord => "'trait'"
  | functionWord => "'function'"
  | constWord => "'const'"
  | varWord => "'var'"
  | extendsWord => "'extends'"
  | implementsWord => "'implements'"
  | namespaceWord => "'namespace'"
  | useWord => "'use'"
  | asWord => "'as'"
  | newWord => "'new'"
  | publicWord => "'public'"
  | protectedWord => "'protected'"
  | privateWord => "'private'"
  | finalWord => "'final'"
  | readonlyWord => "'readonly'"
  | leftParen => "'('"
  | rightParen => "')'"
  | leftBracket => "'['"
  | rightBracket => "']'"
  | leftBrace => "'\x7b'"
  | rightBrace => "'\x7d'"
  | semicolon => "';'"
  | comma => "','"
  | attributeOpen => "'#['"
  | equal => "'='"
  | amp => "'&'"
  | question => "'?'"
  | colon => "':'"
  | colonColon => "'::'"
  | arrow => "'->'"
  | nullsafeArrow => "'?->'"
  | doubleArrow => "'=>'"
  | ellipsis => "'...'"
  | pipe => "'|'"
  | operator => "operator"
  | endOfText => "end of file"
  | invalid => "invalid input"

end Token.Kind

end Introspect
