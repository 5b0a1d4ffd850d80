import Introspect.Declaration.Member
import Introspect.Name

/-!
# Classes and interfaces

A `Class` is a class or interface as a source file declares it. It names its parent and its
interfaces and does not hold them: they are looked up when somebody asks, so a class may name one
that is declared later, elsewhere or nowhere. A class that is not `linked` looks nothing up.

The registry in which a linked class looks names up is the one that is asked for it. A class does
not carry a registry of its own, so one that holds another registry cannot be built here.
-/

namespace Introspect

/-- A declared class or interface. -/
structure Class where
  /-- The full name, without leading separators. -/
  name : String
  flags : ClassFlags
  /-- The raw doc comment. -/
  docComment : Option String
  /-- The declared parent, resolved. -/
  parentName : Option String
  /-- The declared interfaces, resolved; for an interface, those it extends. -/
  interfaceNames : List String
  constants : List Constant
  methods : List Method
  properties : List Property
  sourceFile : Option String
  startLine : Nat
  endLine : Nat
  /-- Whether the class looks up the names it holds, in the registry at hand. -/
  linked : Bool
  deriving Repr, Inhabited, BEq

namespace Class

/-- The key under which the class is found. -/
def key (c : Class) : String := Name.lookupKey c.name

/-- A method that the class itself declares, its name in any letter case. -/
def ownMethod? (c : Class) (name : String) : Option Method :=
  c.methods.find? (·.key == Text.foldCase name)

/-- Whether the class itself declares a method of this name. -/
def declaresMethod (c : Class) (name : String) : Bool :=
  (c.ownMethod? name).isSome

/-- A property that the class itself declares, with or without dollar signs. -/
def ownProperty? (c : Class) (name : String) : Option Property :=
  c.properties.find? (·.name == Text.dropLeading '$' name)

/-- A constant that the class itself declares. -/
def ownConstant? (c : Class) (name : String) : Option Constant :=
  c.constants.find? (·.name == name)

end Class

/-- **Constructors.** A method that is not abstract constructs instances of its class if it is named
so, or if it has the short name of the class and the class declares no method named so. `owner` is
the declaring class, if it is still there to be asked. -/
def Method.isConstructor (m : Method) (owner : Option Class) : Bool :=
  !m.modifiers.hasAbstract
    && (Text.eqIgnoringCase m.name Method.constructorName
      || (Text.eqIgnoringCase m.name (Name.short m.className)
        && !owner.any (·.declaresMethod Method.constructorName)))

end Introspect
