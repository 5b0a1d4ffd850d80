import Introspect.Reading.Routine
import Introspect.Text.Alphanumeric

/-!
# Reading types

Types are read in two places: in declarations, from tokens, and in doc comments, from the type word
of a tag. Both replace the words for relative classes: the enclosing class for itself, its declared
parent for the parent. All other class names are resolved.

* `typeHint` reads a declared type: a nullable one, or a union of single types and intersections;
* `docType?` reads a documented type, of which generic arguments are dropped. What is no type
  documents none.
-/

namespace Introspect.Reading

/-- What a type inside a class is read against. -/
structure Frame where
  resolver : Resolver
  /-- The enclosing class. -/
  className : String
  /-- Its declared parent. -/
  parentName : Option String
  deriving Repr, Inhabited

namespace Frame

/-- The type that a name denotes. An imported name is a class even if it spells a type word. -/
def typeOfName (f : Frame) (scope : Scope) (typeWord? : String → Option TypeHint) (name : String) :
    TypeHint :=
  let asClass := TypeHint.named (f.resolver.resolve scope name)
  if name.toList.contains Name.separator ∨ (scope.imported? name).isSome then asClass
  else (typeWord? name).getD asClass

/-! ### Documented types -/

/-- The characters of which a documented type may consist. -/
def isDocTypeChar (c : Char) : Bool :=
  Text.isAlphanumeric c || c == '_' || c == '\\' || c == '$' || c == '-'

/-- A documented type without a bar and without a question mark. -/
def docSingleType? (f : Frame) (scope : Scope) (text : String) : Option TypeHint :=
  let text := Text.trim text
  if "[]".toList.isSuffixOf text.toList then some .array
  else
    -- Generic arguments say nothing that a type could hold.
    let base := text.toList.takeWhile (· ≠ '<')
    if base = [] ∨ ¬ base.all isDocTypeChar then none
    else
      match Text.foldCase (String.ofList base) with
      | "$this" | "static" => some .static
      | "self" => some (.named f.className)
      | "parent" => f.parentName.map .named
      | "list" | "non-empty-array" | "non-empty-list" => some .array
      | _ =>
        -- These characters are allowed for the words above alone.
        if base.head? = some '$' ∨ base.contains '-' then none
        else some (f.typeOfName scope TypeHint.ofDocWord? (String.ofList base))

/-- **Documented types.** The type that the type word of a tag denotes, if it denotes one. -/
def docType? (f : Frame) (scope : Scope) (text : String) : Option TypeHint :=
  let text := Text.trim text
  match text.toList with
  | '?' :: inner => (f.docSingleType? scope (String.ofList inner)).map .nullable
  | _ =>
    match (Text.split '|' text).mapM (f.docSingleType? scope) with
    | none => none
    | some [] => none
    | some [hint] => some hint
    | some hints => some (.union hints)

end Frame

/-! ### Declared types -/

/-- Reads a single type. The parent of a class that declares none is refused, but read. -/
def singleType (f : Frame) : Routine TypeHint := do
  let t ← peek
  match t.kind with
  | .selfWord =>
    discard advance
    return .named f.className
  | .parentWord =>
    discard advance
    match f.parentName with
    | some parent => return .named parent
    | none =>
      throw ⟨.invalidDeclaration, t.span,
        "'parent' used in '" ++ f.className ++ "', which has no parent"⟩
  | .staticWord =>
    discard advance
    return .static
  | .name =>
    discard advance
    return f.typeOfName (← get).scope TypeHint.ofWord? t.lexeme
  | _ => throw (.expected t.span "type" t.describe)

/-- Whether an ampersand joins two types here, rather than marking a reference. -/
def State.atTypeJoin (s : State) : Bool :=
  s.peek.kind == .amp
    && [Token.Kind.name, .selfWord, .parentWord, .staticWord].contains (s.peekAt 1).kind

/-- Consumes an ampersand that joins two types, if one is here. -/
def typeJoin : Routine Bool := do
  if (← get).atTypeJoin then
    discard advance
    return true
  else return false

/-- Reads a member of a union: a single type, an intersection, or one in parentheses. -/
def unionMember (f : Frame) : Routine TypeHint := do
  if (← eat .leftParen).isSome then
    -- In parentheses no parameter can follow, so that every ampersand joins.
    let members ← listOf (singleType f) (do return (← eat .amp).isSome)
    discard (expect .rightParen)
    return .intersection members
  else
    match ← listOf (singleType f) typeJoin with
    | [hint] => return hint
    | members => return .intersection members

/-- **Declared types.** Reads a nullable type or a union. -/
def typeHint (f : Frame) : Routine TypeHint := do
  if (← eat .question).isSome then return .nullable (← singleType f)
  else
    match ← listOf (unionMember f) (do return (← eat .pipe).isSome) with
    | [hint] => return hint
    | members => return .union members

end Introspect.Reading
