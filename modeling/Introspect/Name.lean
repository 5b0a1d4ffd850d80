import Introspect.Text.Split
import Introspect.TypeHint

/-!
# Qualified names and their resolution

A qualified name is a sequence of segments joined by backslashes. Classes are found by their
`lookupKey`, which ignores leading backslashes and the case of ASCII letters.

A `Scope` holds what decides the meaning of a name at a place of a file: the current namespace and
the imports in effect. Entering a namespace forgets the imports. A `Resolver` turns a written name
into a qualified one:

* `Resolver.namespaced` applies the rules of namespaces and imports;
* `Resolver.verbatim` keeps every name as it is written.

Resolution never fails: a name that leads nowhere is still a name.
-/

namespace Introspect

namespace Name

/-- The character between two segments. -/
def separator : Char := '\\'

/-- The last segment of a name. -/
def short (name : String) : String :=
  String.ofList (name.toList.reverse.takeWhile (· ≠ separator)).reverse

/-- A name without the separators in front of it. -/
def relative (name : String) : String :=
  Text.dropLeading separator name

/-- The segments before the last one, without separators in front; empty for a global name. -/
def qualifier (name : String) : String :=
  String.ofList (((relative name).toList.reverse.dropWhile (· ≠ separator)).drop 1).reverse

/-- **Lookup keys.** Two names denote the same class exactly when their keys are equal. -/
def lookupKey (name : String) : String :=
  Text.foldCase (relative name)

/-- A name inside a namespace; the global namespace is the empty one. -/
def join (ns name : String) : String :=
  if ns = "" then name else ns ++ String.singleton separator ++ name

/-- Whether a name is one of the words for a class relative to the enclosing one. -/
def isRelativeWord (name : String) : Bool :=
  ["self", "parent", "static"].contains (Text.foldCase name)

/-- The first segment of a name and, if there are more, the rest behind the separator. -/
def splitFirst (name : String) : String × Option String :=
  let first := name.toList.takeWhile (· ≠ separator)
  match name.toList.drop first.length with
  | [] => (name, none)
  | _ :: rest => (String.ofList first, some (String.ofList rest))

/-- What follows the word `namespace` and a separator, in any letter case, at the head of a name. -/
def afterNamespaceWord? (name : String) : Option String :=
  let lead := "namespace\\".toList
  if (name.toList.take lead.length).map Text.lowerChar = lead then
    some (String.ofList (name.toList.drop lead.length))
  else none

end Name

/-- The namespace and the imports in effect at a place of a file. -/
structure Scope where
  /-- The current namespace; empty for the global one. -/
  ns : String
  /-- Imported names by alias, the alias in lower case; each alias occurs once. -/
  imports : List (String × String)
  deriving DecidableEq, Repr, Inhabited

namespace Scope

/-- The global namespace without imports. -/
def empty : Scope := ⟨"", []⟩

/-- Enters a namespace. Imports do not carry over. -/
def enter (_ : Scope) (ns : String) : Scope :=
  ⟨Text.dropAround Name.separator ns, []⟩

/-- Imports `target` under an alias, which without an explicit one is its last segment. What was
imported under the same alias before is replaced. -/
def addImport (s : Scope) (target : String) (aliasName : Option String) : Scope :=
  let target := Name.relative target
  let key := Text.foldCase (aliasName.getD (Name.short target))
  { s with imports := (key, target) :: s.imports.filter (·.1 ≠ key) }

/-- What is imported under an alias, in any letter case. -/
def imported? (s : Scope) (aliasName : String) : Option String :=
  s.imports.lookup (Text.foldCase aliasName)

/-- The full name of something declared here. -/
def declare (s : Scope) (name : String) : String :=
  Name.join s.ns name

end Scope

/-- A way to turn written names into qualified ones. -/
inductive Resolver where
  /-- By the rules of namespaces and imports. -/
  | namespaced
  /-- Not at all: names stay as they are written. -/
  | verbatim
  deriving DecidableEq, Repr, Inhabited

/-- **Resolution.** In order: a name with a leading separator is absolute; a name behind the word
`namespace` is taken in the current namespace; a name whose first segment is imported continues the
imported name; type words and the words for relative classes stand for themselves; every other name
is taken in the current namespace. -/
def Resolver.resolve (r : Resolver) (s : Scope) (name : String) : String :=
  match r with
  | .verbatim => name
  | .namespaced =>
    if name = "" then ""
    else if name.toList.head? = some Name.separator then String.ofList (name.toList.drop 1)
    else
      match Name.afterNamespaceWord? name with
      | some rest => Name.join s.ns rest
      | none =>
        let (first, rest) := Name.splitFirst name
        match s.imported? first with
        | some target =>
          match rest with
          | some rest => Name.join target rest
          | none => target
        | none =>
          if rest.isNone ∧ (TypeHint.isTypeWord name ∨ Name.isRelativeWord name) then name
          else Name.join s.ns name

end Introspect
