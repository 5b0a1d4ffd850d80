import Introspect.Hierarchy

/-!
# References to classes

A `Reference` is what a name leads to: a class, or nothing but the name. Every question that can be
asked of a class can be asked of a reference; a missing class answers that it has nothing. The name
of a missing class is empty where it stands for a parent that is not declared.
-/

namespace Introspect

/-- A class, or the name of a class that is not available. -/
inductive Reference where
  | known (c : Class)
  | missing (name : String)
  deriving Repr, Inhabited

/-- What a name leads to in a registry. -/
def Registry.lookup (r : Registry) (name : String) : Reference :=
  match r.get? name with
  | some c => .known c
  | none => .missing (Name.relative name)

/-- What a name that a class holds leads to. A missing class keeps the name as it is held. -/
def Class.follow (c : Class) (r : Registry) (name : String) : Reference :=
  match c.resolve? r name with
  | some d => .known d
  | none => .missing name

/-- The parent of a class. -/
def Class.parentReference (c : Class) (r : Registry) : Reference :=
  match c.parentName with
  | some name => c.follow r name
  | none => .missing ""

namespace Reference

/-- The class, if it is available. -/
def class? : Reference → Option Class
  | known c => some c
  | missing _ => none

/-- Whether the class is missing. -/
def isMissing (ref : Reference) : Bool := ref.class?.isNone

/-- An answer of the class, or the answer of a missing one. -/
def ask {α : Type} (ref : Reference) (absent : α) (f : Class → α) : α :=
  (ref.class?.map f).getD absent

@[simp] theorem ask_known {α : Type} (c : Class) (absent : α) (f : Class → α) :
    (known c).ask absent f = f c := rfl

@[simp] theorem ask_missing {α : Type} (name : String) (absent : α) (f : Class → α) :
    (missing name).ask absent f = absent := rfl

/-- The full name. -/
def name : Reference → String
  | known c => c.name
  | missing name => name

def flags (ref : Reference) : ClassFlags := ref.ask {} (·.flags)

def isInstantiable (ref : Reference) (r : Registry) : Bool := ref.ask false (·.isInstantiable r)

def docComment (ref : Reference) : Option String := ref.ask none (·.docComment)

def sourceFile (ref : Reference) : Option String := ref.ask none (·.sourceFile)

def startLine (ref : Reference) : Option Nat := ref.ask none (some ·.startLine)

def endLine (ref : Reference) : Option Nat := ref.ask none (some ·.endLine)

def parent (ref : Reference) (r : Registry) : Reference :=
  ref.ask (missing "") (·.parentReference r)

def interfaceNames (ref : Reference) (r : Registry) : List String :=
  ref.ask [] (·.allInterfaceNames r)

def interfaces (ref : Reference) (r : Registry) : List Reference :=
  ref.ask [] fun c => (c.allInterfaceNames r).map (c.follow r)

def implements (ref : Reference) (r : Registry) (name : String) : Bool :=
  ref.ask false (·.implements r name)

def isSubclassOf (ref : Reference) (r : Registry) (name : String) : Bool :=
  ref.ask false (·.isSubclassOf r name)

def method? (ref : Reference) (r : Registry) (name : String) : Option (Class × Method) :=
  ref.ask none (·.method? r name)

def methods (ref : Reference) (r : Registry) : List (Class × Method) := ref.ask [] (·.allMethods r)

def property? (ref : Reference) (r : Registry) (name : String) : Option (Class × Property) :=
  ref.ask none (·.property? r name)

def properties (ref : Reference) (r : Registry) : List (Class × Property) :=
  ref.ask [] (·.allProperties r)

def constant? (ref : Reference) (r : Registry) (name : String) : Option Constant :=
  ref.ask none (·.constant? r name)

def constants (ref : Reference) (r : Registry) : List Constant := ref.ask [] (·.allConstants r)

end Reference

end Introspect
