import Introspect.Text.Ascii

/-!
# Type hints

A `TypeHint` is the type that a declaration writes for a parameter, a property, a constant or a
return value, with class names already qualified.

* `TypeHint.ofWord?` reads a type word that can never name a class, and `TypeHint.ofDocWord?` also
  the words that are types in doc comments only;
* `TypeHint.text` writes a hint as source text would, an intersection inside a union in
  parentheses;
* `TypeHint.allowsNull`, `TypeHint.isArray`, `TypeHint.isCallable` and `TypeHint.className?` answer
  what is asked about a hint.
-/

namespace Introspect

/-- A type as a declaration writes it. -/
inductive TypeHint where
  | array
  | callable
  /-- The class through which a method was called. -/
  | static
  /-- A scalar or pseudo type. -/
  | builtin (name : String)
  /-- A class or interface. -/
  | named (name : String)
  | nullable (inner : TypeHint)
  | union (members : List TypeHint)
  | intersection (members : List TypeHint)
  deriving Repr, Inhabited, BEq

namespace TypeHint

/-- Words that are types wherever a type stands. -/
def builtinWords : List String :=
  ["bool", "int", "float", "string", "mixed", "void", "null", "object", "iterable", "never",
    "false", "true"]

/-- Words that are types in doc comments, where they name no imported class. -/
def docWords : List String :=
  ["boolean", "integer", "double", "resource", "scalar"]

/-- The type that a word denotes in any letter case, if it can never name a class. -/
def ofWord? (word : String) : Option TypeHint :=
  let lower := Text.foldCase word
  if lower = "array" then some array
  else if lower = "callable" then some callable
  else if lower = "static" then some static
  else if builtinWords.contains lower then some (builtin lower)
  else none

/-- Whether a word is a type word. -/
def isTypeWord (word : String) : Bool :=
  (ofWord? word).isSome

/-- The type that a word denotes in a doc comment. -/
def ofDocWord? (word : String) : Option TypeHint :=
  match ofWord? word with
  | some hint => some hint
  | none =>
    let lower := Text.foldCase word
    if docWords.contains lower then some (builtin lower) else none

mutual
/-- **Printing.** The hint as source text writes it. -/
def text : TypeHint → String
  | array => "array"
  | callable => "callable"
  | static => "static"
  | builtin name => name
  | named name => name
  | nullable inner => "?" ++ inner.text
  | union members => "|".intercalate (unionTexts members)
  | intersection members => "&".intercalate (texts members)

/-- The texts of the members of an intersection. -/
def texts : List TypeHint → List String
  | [] => []
  | t :: ts => t.text :: texts ts

/-- The texts of the members of a union: an intersection stands in parentheses. -/
def unionTexts : List TypeHint → List String
  | [] => []
  | t :: ts =>
    (match t with
      | intersection _ => "(" ++ t.text ++ ")"
      | _ => t.text) :: unionTexts ts
end

mutual
/-- Whether `null` is a value of the type. -/
def allowsNull : TypeHint → Bool
  | nullable _ => true
  | builtin name => name == "null" || name == "mixed"
  | union members => someAllowsNull members
  | _ => false

/-- Whether `null` is a value of one of the types. -/
def someAllowsNull : List TypeHint → Bool
  | [] => false
  | t :: ts => t.allowsNull || someAllowsNull ts
end

/-- Whether the type is `array`, or nullable `array`. -/
def isArray : TypeHint → Bool
  | array => true
  | nullable inner => inner.isArray
  | _ => false

/-- Whether the type is `callable`, or nullable `callable`. -/
def isCallable : TypeHint → Bool
  | callable => true
  | nullable inner => inner.isCallable
  | _ => false

/-- The class that the type names, if it is a single class, nullable or not. -/
def className? : TypeHint → Option String
  | named name => some name
  | nullable inner => inner.className?
  | _ => none

theorem texts_eq_map (ts : List TypeHint) : texts ts = ts.map text := by
  induction ts with
  | nil => simp [texts]
  | cons t ts ih => simp [texts, ih]

end TypeHint

end Introspect
