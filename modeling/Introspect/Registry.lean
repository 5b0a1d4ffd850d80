import Introspect.Declaration.Class

/-!
# The registry of classes

A `Registry` holds the classes that are available, each under its lookup key. The first class
registered under a key stays: a later one with the same key is refused. Classes name their parents
and interfaces and find them here when they are asked, so the order of registration does not matter
to what they find.
-/

namespace Introspect

/-- The class of a lookup key in a list of classes. -/
def findClass (classes : List Class) (key : String) : Option Class :=
  classes.find? (·.key == key)

/-- The available classes, in the order of their registration. -/
structure Registry where
  classes : List Class
  deriving Repr, Inhabited

namespace Registry

/-- No class is available. -/
def empty : Registry := ⟨[]⟩

/-- The class of a name, in any letter case and with or without leading separators. -/
def get? (r : Registry) (name : String) : Option Class :=
  findClass r.classes (Name.lookupKey name)

/-- Whether a class of this name is registered. -/
def contains (r : Registry) (name : String) : Bool :=
  (r.get? name).isSome

/-- **Registration.** Adds a class unless its key is taken. -/
def register (r : Registry) (c : Class) : Registry :=
  if r.contains c.name then r else ⟨r.classes ++ [c]⟩

/-- Registers classes one after the other. -/
def registerAll (r : Registry) (cs : List Class) : Registry :=
  cs.foldl register r

/-- The number of registered classes. -/
def size (r : Registry) : Nat := r.classes.length

/-- The names of the registered classes, in the order of their code points. -/
def names (r : Registry) : List String :=
  (r.classes.map (·.name)).mergeSort fun a b => !decide (b < a)

theorem key_eq_of_findClass {classes : List Class} {key : String} {c : Class}
    (h : findClass classes key = some c) : c.key = key := by
  simpa using List.find?_some h

theorem mem_of_findClass {classes : List Class} {key : String} {c : Class}
    (h : findClass classes key = some c) : c ∈ classes :=
  List.mem_of_find?_eq_some h

end Registry

end Introspect
