import Introspect.Declaration.Class
import Introspect.Diagnostic

/-!
# Drafts

Declarations are drafted field by field while a file is read, or by hand, and then built. Every
field of a draft is **written once**: a second write is refused and changes nothing. A class refuses
a member whose name it already has; methods are compared in any letter case.

* `writeOnce` is the rule for a single field;
* `ClassDraft.addMethod`, `ClassDraft.addProperty`, `ClassDraft.addConstant` add members and
  `ClassDraft.addInterface` an interface, a repeated one silently not;
* `ParameterDraft.build`, `MethodDraft.build`, `PropertyDraft.build`, `ClassDraft.build` make the
  declarations. Lines default to zero, an end line to the start line.
-/

namespace Introspect

/-! ### Refused writes -/

/-- The fields of drafts. -/
inductive DraftField where
  | docComment
  | parent
  | sourceFile
  | startLine
  | endLine
  | returnType
  | parameters
  | declaringClass
  | typeHint
  | defaultValue
  deriving DecidableEq, Repr

/-- The field in words. -/
def DraftField.text : DraftField → String
  | .docComment => "doc comment"
  | .parent => "parent"
  | .sourceFile => "source file"
  | .startLine => "start line"
  | .endLine => "end line"
  | .returnType => "return type"
  | .parameters => "parameters"
  | .declaringClass => "declaring class"
  | .typeHint => "type hint"
  | .defaultValue => "default value"

/-- The sorts of members. -/
inductive MemberSort where
  | constant
  | method
  | property
  deriving DecidableEq, Repr

/-- The sort in words. -/
def MemberSort.text : MemberSort → String
  | .constant => "constant"
  | .method => "method"
  | .property => "property"

/-- Why a draft refuses a write. -/
inductive DraftError where
  /-- The field has been written before. -/
  | alreadyWritten (field : DraftField) (element : String)
  /-- The class has a member of that name. -/
  | duplicateMember (sort : MemberSort) (name className : String)
  deriving DecidableEq, Repr

/-- The error in words. -/
def DraftError.message : DraftError → String
  | .alreadyWritten field element => field.text ++ " of '" ++ element ++ "' is already initialized"
  | .duplicateMember sort name className =>
    sort.text ++ " '" ++ name ++ "' is already declared in '" ++ className ++ "'"

/-- The kind of diagnostic as which the error is reported. -/
def DraftError.kind : DraftError → Diagnostic.Kind
  | .alreadyWritten .. => .duplicateInitialization
  | .duplicateMember .. => .duplicateIdentifier

/-- A refused write at a place of a file. -/
def Diagnostic.ofDraft (e : DraftError) (span : Span) : Diagnostic :=
  ⟨e.kind, span, e.message⟩

/-- **Write once.** Fills an empty field of an element and refuses to change a full one. -/
def writeOnce {α : Type} (slot : Option α) (field : DraftField) (element : String) (value : α) :
    Except DraftError (Option α) :=
  match slot with
  | none => .ok (some value)
  | some _ => .error (.alreadyWritten field element)

@[simp] theorem writeOnce_none {α : Type} (field : DraftField) (element : String) (value : α) :
    writeOnce none field element value = .ok (some value) := rfl

@[simp] theorem writeOnce_some {α : Type} (old : α) (field : DraftField) (element : String)
    (value : α) :
    writeOnce (some old) field element value = .error (.alreadyWritten field element) := rfl

/-! ### Parameters -/

/-- A parameter in the making. -/
structure ParameterDraft where
  name : String
  typeHint : Option TypeHint := none
  defaultValue : Option String := none
  byReference : Bool := false
  variadic : Bool := false
  promoted : Bool := false
  deriving Repr, Inhabited, BEq

namespace ParameterDraft

/-- A draft for a parameter; one dollar sign in front of the name is dropped. -/
def ofName (name : String) (byReference variadic promoted : Bool) : ParameterDraft :=
  { name := Text.dropOne '$' name, byReference, variadic, promoted }

def writeTypeHint (d : ParameterDraft) (hint : TypeHint) : Except DraftError ParameterDraft := do
  let slot ← writeOnce d.typeHint .typeHint d.name hint
  pure { d with typeHint := slot }

def writeDefault (d : ParameterDraft) (value : String) : Except DraftError ParameterDraft := do
  let slot ← writeOnce d.defaultValue .defaultValue d.name value
  pure { d with defaultValue := slot }

/-- Whether the argument may be left out as long as no later one is needed. -/
def omittable (d : ParameterDraft) : Bool := d.variadic || d.defaultValue.isSome

/-- The parameter at a position of a list of which the first `required` ones are required. -/
def build (d : ParameterDraft) (position required : Nat) : Parameter where
  name := d.name
  position := position
  typeHint := d.typeHint
  defaultValue := d.defaultValue
  byReference := d.byReference
  variadic := d.variadic
  promoted := d.promoted
  optional := required ≤ position

/-- The number of parameters up to the last one that cannot be left out. -/
def requiredCount (ds : List ParameterDraft) : Nat :=
  -- An omittable parameter in front of a required one has to be given as well.
  (ds.reverse.dropWhile omittable).length

/-- The parameters of a list, in order. -/
def buildAll (ds : List ParameterDraft) : List Parameter :=
  ds.zipIdx.map fun (d, position) => d.build position (requiredCount ds)

end ParameterDraft

/-! ### Methods -/

/-- A method in the making. -/
structure MethodDraft where
  name : String
  modifiers : Modifiers
  returnsReference : Bool := false
  docComment : Option String := none
  returnType : Option TypeHint := none
  parameters : Option (List ParameterDraft) := none
  startLine : Option Nat := none
  endLine : Option Nat := none
  className : Option String := none
  deriving Repr, Inhabited, BEq

namespace MethodDraft

/-- A draft for a method, public unless the modifiers say otherwise. -/
def ofName (name : String) (modifiers : Modifiers) (returnsReference : Bool) : MethodDraft :=
  { name, modifiers := modifiers.withVisibility, returnsReference }

/-- Writes the doc comment. What it says is `DocBlock.parse` of the raw text, so the raw text alone
is kept. -/
def writeDoc (d : MethodDraft) (raw : String) : Except DraftError MethodDraft := do
  let slot ← writeOnce d.docComment .docComment d.name raw
  pure { d with docComment := slot }

def writeReturnType (d : MethodDraft) (hint : TypeHint) : Except DraftError MethodDraft := do
  let slot ← writeOnce d.returnType .returnType d.name hint
  pure { d with returnType := slot }

def writeParameters (d : MethodDraft) (ps : List ParameterDraft) :
    Except DraftError MethodDraft := do
  let slot ← writeOnce d.parameters .parameters d.name ps
  pure { d with parameters := slot }

def writeStartLine (d : MethodDraft) (line : Nat) : Except DraftError MethodDraft := do
  let slot ← writeOnce d.startLine .startLine d.name line
  pure { d with startLine := slot }

def writeEndLine (d : MethodDraft) (line : Nat) : Except DraftError MethodDraft := do
  let slot ← writeOnce d.endLine .endLine d.name line
  pure { d with endLine := slot }

/-- Records the name of the declaring class. -/
def writeClass (d : MethodDraft) (className : String) : Except DraftError MethodDraft := do
  let slot ← writeOnce d.className .declaringClass d.name className
  pure { d with className := slot }

/-- The drafted method. -/
def build (d : MethodDraft) : Method where
  name := d.name
  modifiers := d.modifiers
  docComment := d.docComment
  returnsReference := d.returnsReference
  returnType := d.returnType
  parameters := ParameterDraft.buildAll (d.parameters.getD [])
  startLine := d.startLine.getD 0
  endLine := d.endLine.getD (d.startLine.getD 0)
  className := d.className.getD ""

end MethodDraft

/-! ### Properties -/

/-- A property in the making. -/
structure PropertyDraft where
  name : String
  modifiers : Modifiers
  docComment : Option String := none
  typeHint : Option TypeHint := none
  defaultValue : Option String := none
  startLine : Option Nat := none
  endLine : Option Nat := none
  className : Option String := none
  deriving Repr, Inhabited, BEq

namespace PropertyDraft

/-- A draft for a property, public unless the modifiers say otherwise; one dollar sign in front of
the name is dropped. -/
def ofName (name : String) (modifiers : Modifiers) : PropertyDraft :=
  { name := Text.dropOne '$' name, modifiers := modifiers.withVisibility }

/-- Writes the doc comment; as for methods, the raw text alone is kept. -/
def writeDoc (d : PropertyDraft) (raw : String) : Except DraftError PropertyDraft := do
  let slot ← writeOnce d.docComment .docComment d.name raw
  pure { d with docComment := slot }

def writeTypeHint (d : PropertyDraft) (hint : TypeHint) : Except DraftError PropertyDraft := do
  let slot ← writeOnce d.typeHint .typeHint d.name hint
  pure { d with typeHint := slot }

def writeDefault (d : PropertyDraft) (value : String) : Except DraftError PropertyDraft := do
  let slot ← writeOnce d.defaultValue .defaultValue d.name value
  pure { d with defaultValue := slot }

def writeStartLine (d : PropertyDraft) (line : Nat) : Except DraftError PropertyDraft := do
  let slot ← writeOnce d.startLine .startLine d.name line
  pure { d with startLine := slot }

def writeEndLine (d : PropertyDraft) (line : Nat) : Except DraftError PropertyDraft := do
  let slot ← writeOnce d.endLine .endLine d.name line
  pure { d with endLine := slot }

/-- Records the name of the declaring class. -/
def writeClass (d : PropertyDraft) (className : String) : Except DraftError PropertyDraft := do
  let slot ← writeOnce d.className .declaringClass d.name className
  pure { d with className := slot }

/-- The drafted property. -/
def build (d : PropertyDraft) : Property where
  name := d.name
  modifiers := d.modifiers
  docComment := d.docComment
  typeHint := d.typeHint
  defaultValue := d.defaultValue
  startLine := d.startLine.getD 0
  endLine := d.endLine.getD (d.startLine.getD 0)
  className := d.className.getD ""

end PropertyDraft

/-! ### Classes -/

/-- A class in the making. Members are kept in the order in which they were added. -/
structure ClassDraft where
  name : String
  flags : ClassFlags
  docComment : Option String := none
  parentName : Option String := none
  interfaceNames : List String := []
  constants : List Constant := []
  methods : List MethodDraft := []
  properties : List PropertyDraft := []
  sourceFile : Option String := none
  startLine : Option Nat := none
  endLine : Option Nat := none
  deriving Repr, Inhabited, BEq

namespace ClassDraft

/-- A draft for a class; separators in front of the name are dropped. -/
def ofName (name : String) (flags : ClassFlags) : ClassDraft :=
  { name := Name.relative name, flags }

/-- Writes the doc comment; as for methods, the raw text alone is kept. -/
def writeDoc (d : ClassDraft) (raw : String) : Except DraftError ClassDraft := do
  let slot ← writeOnce d.docComment .docComment d.name raw
  pure { d with docComment := slot }

def writeParent (d : ClassDraft) (name : String) : Except DraftError ClassDraft := do
  let slot ← writeOnce d.parentName .parent d.name name
  pure { d with parentName := slot }

def writeSourceFile (d : ClassDraft) (path : String) : Except DraftError ClassDraft := do
  let slot ← writeOnce d.sourceFile .sourceFile d.name path
  pure { d with sourceFile := slot }

def writeStartLine (d : ClassDraft) (line : Nat) : Except DraftError ClassDraft := do
  let slot ← writeOnce d.startLine .startLine d.name line
  pure { d with startLine := slot }

def writeEndLine (d : ClassDraft) (line : Nat) : Except DraftError ClassDraft := do
  let slot ← writeOnce d.endLine .endLine d.name line
  pure { d with endLine := slot }

/-- Adds an interface, unless one with the same key is there. -/
def addInterface (d : ClassDraft) (name : String) : ClassDraft :=
  if d.interfaceNames.any (Name.lookupKey · == Name.lookupKey name) then d
  else { d with interfaceNames := d.interfaceNames ++ [name] }

/-- Adds a constant, unless one of the same name is there. -/
def addConstant (d : ClassDraft) (c : Constant) : Except DraftError ClassDraft :=
  if d.constants.any (·.name == c.name) then .error (.duplicateMember .constant c.name d.name)
  else .ok { d with constants := d.constants ++ [c] }

/-- Whether a method of this name, in any letter case, has been added. -/
def hasMethod (d : ClassDraft) (name : String) : Bool :=
  d.methods.any (Text.eqIgnoringCase ·.name name)

/-- Adds a method and records this class as the declaring one. -/
def addMethod (d : ClassDraft) (m : MethodDraft) : Except DraftError ClassDraft :=
  if d.hasMethod m.name then .error (.duplicateMember .method m.name d.name)
  else do
    -- Refused if the method was taken from another class.
    let owned ← m.writeClass d.name
    pure { d with methods := d.methods ++ [owned] }

/-- Whether a property of this name has been added. -/
def hasProperty (d : ClassDraft) (name : String) : Bool :=
  d.properties.any (·.name == name)

/-- Adds a property and records this class as the declaring one. -/
def addProperty (d : ClassDraft) (p : PropertyDraft) : Except DraftError ClassDraft :=
  if d.hasProperty p.name then .error (.duplicateMember .property p.name d.name)
  else do
    let owned ← p.writeClass d.name
    pure { d with properties := d.properties ++ [owned] }

/-- The drafted class, which looks names up exactly if it is `linked`. -/
def build (d : ClassDraft) (linked : Bool) : Class where
  name := d.name
  flags := d.flags
  docComment := d.docComment
  parentName := d.parentName
  interfaceNames := d.interfaceNames
  constants := d.constants
  methods := d.methods.map MethodDraft.build
  properties := d.properties.map PropertyDraft.build
  sourceFile := d.sourceFile
  startLine := d.startLine.getD 0
  endLine := d.endLine.getD (d.startLine.getD 0)
  linked := linked

end ClassDraft

end Introspect
