import Introspect.DocBlock
import Introspect.Modifiers
import Introspect.TypeHint

/-!
# Members of classes

Parameters, methods, properties and constants as a source file declares them. These are finished
descriptions: they are made from drafts and never change. A member knows the name of the class that
declares it, not the class.
-/

namespace Introspect

/-- A declared parameter of a method. -/
structure Parameter where
  /-- The name, without the dollar sign. -/
  name : String
  /-- Place in the parameter list, counted from zero. -/
  position : Nat
  /-- The declared type, or the documented one if none is declared. -/
  typeHint : Option TypeHint
  /-- The default value as it is written. -/
  defaultValue : Option String
  byReference : Bool
  variadic : Bool
  /-- Whether the parameter also declares a property. -/
  promoted : Bool
  /-- Whether a call may leave the argument out. -/
  optional : Bool
  deriving Repr, Inhabited, BEq

namespace Parameter

/-- Whether `null` may be passed: there is no type, the type admits it, or it is the default. -/
def allowsNull (p : Parameter) : Bool :=
  match p.typeHint with
  | none => true
  | some hint => hint.allowsNull || p.defaultValue.any (Text.eqIgnoringCase · "null")

/-- Whether the type is `array`, or nullable `array`. -/
def isArray (p : Parameter) : Bool := p.typeHint.any TypeHint.isArray

/-- Whether the type is `callable`, or nullable `callable`. -/
def isCallable (p : Parameter) : Bool := p.typeHint.any TypeHint.isCallable

/-- The class that the type names. -/
def className? (p : Parameter) : Option String := p.typeHint.bind TypeHint.className?

end Parameter

/-- A declared method. -/
structure Method where
  name : String
  modifiers : Modifiers
  /-- The raw doc comment. -/
  docComment : Option String
  returnsReference : Bool
  /-- The declared return type, or the documented one if none is declared. -/
  returnType : Option TypeHint
  parameters : List Parameter
  startLine : Nat
  endLine : Nat
  /-- Name of the declaring class. -/
  className : String
  deriving Repr, Inhabited, BEq

namespace Method

/-- The name of constructors. -/
def constructorName : String := "__construct"

/-- The name of destructors. -/
def destructorName : String := "__destruct"

/-- The key under which a method is found: its name, in any letter case. -/
def key (m : Method) : String := Text.foldCase m.name

/-- The parameter of a name, with or without dollar signs. -/
def parameter? (m : Method) (name : String) : Option Parameter :=
  m.parameters.find? (·.name == Text.dropLeading '$' name)

/-- The number of parameters that a call has to pass. -/
def requiredCount (m : Method) : Nat := m.parameters.countP (! ·.optional)

/-- Whether the method destroys instances. -/
def isDestructor (m : Method) : Bool := Text.eqIgnoringCase m.name destructorName

end Method

/-- A declared property. -/
structure Property where
  /-- The name, without the dollar sign. -/
  name : String
  modifiers : Modifiers
  /-- The raw doc comment. -/
  docComment : Option String
  /-- The declared type, or the documented one if none is declared. -/
  typeHint : Option TypeHint
  /-- The default value as it is written. -/
  defaultValue : Option String
  startLine : Nat
  endLine : Nat
  /-- Name of the declaring class. -/
  className : String
  deriving Repr, Inhabited, BEq

/-- Whether only the declaring class sees the property. -/
def Property.isPrivate (p : Property) : Bool := p.modifiers.visibility == .owner

/-- A declared class constant. -/
structure Constant where
  name : String
  /-- The value as it is written. -/
  value : String
  modifiers : Modifiers := { hasPublic := true }
  typeHint : Option TypeHint := none
  line : Nat
  deriving Repr, Inhabited, BEq

/-- The constant with modifiers, public unless they say otherwise. -/
def Constant.withModifiers (c : Constant) (m : Modifiers) : Constant :=
  { c with modifiers := m.withVisibility }

end Introspect
