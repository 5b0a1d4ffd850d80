import Introspect.Registry

/-!
# Class hierarchies

What a class inherits, found by looking names up in a registry. Nothing is assumed of the classes:
parents and interfaces may be missing, and classes may extend each other in a circle.

The walks of this module run over a **pool** of classes that have not been visited, and take a class
out of the pool when they reach it. They end because the pool shrinks, and a circle ends where it
would close because the class is no longer in the pool.

* `Class.ancestors` are the available ancestors, nearest first;
* `Class.interfaceNames` of a hierarchy, `Class.allInterfaceNames`, are the names reached through
  declared interfaces, each name directly followed by what it extends;
* `Class.method?`, `Class.property?`, `Class.constant?` find a member and `Class.allMethods`,
  `Class.allProperties`, `Class.allConstants` list them; a nearer declaration hides a farther one.
-/

namespace Introspect

/-- The classes of a list that do not have the key. -/
def withoutKey (classes : List Class) (key : String) : List Class :=
  classes.filter (·.key ≠ key)

/-- Taking a class out of a pool shrinks it. -/
theorem length_withoutKey_lt {classes : List Class} {key : String} {c : Class}
    (h : findClass classes key = some c) : (withoutKey classes key).length < classes.length := by
  have hmem := Registry.mem_of_findClass h
  have hkey := Registry.key_eq_of_findClass h
  unfold withoutKey
  refine List.length_filter_lt_length_iff_exists.mpr ⟨c, hmem, ?_⟩
  simp [hkey]

/-- The elements of a list whose keys do not occur earlier. -/
def distinctBy {α : Type} (key : α → String) : List α → List α
  | [] => []
  | a :: as => a :: (distinctBy key as).filter (key · ≠ key a)

namespace Class

/-! ### Looking names up -/

/-- What the class finds under a name: nothing if it is not linked. -/
def resolve? (c : Class) (r : Registry) (name : String) : Option Class :=
  if c.linked then r.get? name else none

/-- The parent, if it is declared and available. -/
def parent? (c : Class) (r : Registry) : Option Class :=
  c.parentName.bind (c.resolve? r)

/-- The registered classes that a walk from the class can still visit. -/
def pool (c : Class) (r : Registry) : List Class :=
  withoutKey r.classes c.key

/-! ### Ancestors -/

/-- The chain of parents that a class reaches inside a pool. -/
def chain (c : Class) (pool : List Class) : List Class :=
  match _h : (if c.linked then c.parentName.bind (findClass pool ∘ Name.lookupKey) else none) with
  | none => []
  | some p => p :: chain p (withoutKey pool p.key)
termination_by pool.length
decreasing_by
  split at _h
  · obtain ⟨name, _, hname⟩ := Option.bind_eq_some_iff.mp _h
    exact (Registry.key_eq_of_findClass hname).symm ▸ length_withoutKey_lt hname
  · cases _h

/-- **Ancestors.** The available ancestors, nearest first, up to the first parent that is missing or
has been reached before. -/
def ancestors (c : Class) (r : Registry) : List Class :=
  c.chain (c.pool r)

/-- The declared parent names along the chain of parents, available or not. The chain is followed
through the registry of the class from which it starts. -/
def parentNames (name : Option String) (pool : List Class) : List String :=
  match name with
  | none => []
  | some n =>
    match _h : findClass pool (Name.lookupKey n) with
    -- The name counts although nothing is available under it.
    | none => [n]
    | some p => n :: parentNames p.parentName (withoutKey pool (Name.lookupKey n))
termination_by pool.length
decreasing_by exact length_withoutKey_lt _h

/-! ### Interfaces -/

/-- The names reached from the pending ones, behind those already found. A name that is reached
again is passed over; a new one is followed by the names that its interface declares. -/
def discover (pool : List Class) (found pending : List String) : List String :=
  match pending with
  | [] => found
  | name :: pending =>
    if found.any (Name.lookupKey · == Name.lookupKey name) then discover pool found pending
    else
      match _h : findClass pool (Name.lookupKey name) with
      -- A name that leads nowhere counts, and nothing follows from it.
      | none => discover pool (found ++ [name]) pending
      | some i =>
        discover (withoutKey pool (Name.lookupKey name)) (found ++ [name])
          (i.interfaceNames ++ pending)
termination_by (pool.length, pending.length)
decreasing_by
  · exact Prod.Lex.right _ (by simp)
  · exact Prod.Lex.right _ (by simp)
  · exact Prod.Lex.left _ _ (length_withoutKey_lt _h)

/-- **Interfaces.** The names of all interfaces that the class has directly, through its ancestors
or through other interfaces, in the order in which they are found. -/
def allInterfaceNames (c : Class) (r : Registry) : List String :=
  discover (if c.linked then r.classes else []) []
    (c.interfaceNames ++ (c.ancestors r).flatMap (·.interfaceNames))

/-- Whether the class has an interface of this name. -/
def implements (c : Class) (r : Registry) (name : String) : Bool :=
  (c.allInterfaceNames r).any (Name.lookupKey · == Name.lookupKey name)

/-- **Subclasses.** Whether the class extends or implements something else of this name, directly or
not. Names count also when nothing is available under them. -/
def isSubclassOf (c : Class) (r : Registry) (name : String) : Bool :=
  let wanted := Name.lookupKey name
  wanted ≠ c.key
    && ((parentNames c.parentName (if c.linked then c.pool r else [])).any
        (Name.lookupKey · == wanted)
      || c.implements r name)

/-! ### Members -/

/-- The classes from which members are inherited: ancestors, then the available interfaces. -/
def sources (c : Class) (r : Registry) : List Class :=
  c.ancestors r ++ (c.allInterfaceNames r).filterMap (c.resolve? r)

/-- The methods that a class declares, each with the class. -/
def ownedMethods (c : Class) : List (Class × Method) :=
  c.methods.map fun m => (c, m)

/-- A method of the class, declared or inherited, with the class that declares it. -/
def method? (c : Class) (r : Registry) (name : String) : Option (Class × Method) :=
  match c.ownMethod? name with
  | some m => some (c, m)
  | none => (c.sources r).findSome? fun d => (d.ownMethod? name).map fun m => (d, m)

/-- Whether the class has a method of this name. -/
def hasMethod (c : Class) (r : Registry) (name : String) : Bool :=
  (c.method? r name).isSome

/-- All methods: those of the class, of its ancestors and of its interfaces. -/
def allMethods (c : Class) (r : Registry) : List (Class × Method) :=
  distinctBy (fun (_, m) => m.key) ((c :: c.sources r).flatMap ownedMethods)

/-- A property that a class leaves to its heirs. -/
def heritable? (c : Class) (name : String) : Option Property :=
  (c.ownProperty? name).filter (! ·.isPrivate)

/-- A property of the class, declared or inherited, with the class that declares it. Private
properties are not inherited. -/
def property? (c : Class) (r : Registry) (name : String) : Option (Class × Property) :=
  match c.ownProperty? name with
  | some p => some (c, p)
  -- Interfaces are not asked, and a private property does not hide one farther up.
  | none => (c.ancestors r).findSome? fun d => (d.heritable? name).map fun p => (d, p)

/-- Whether the class has a property of this name. -/
def hasProperty (c : Class) (r : Registry) (name : String) : Bool :=
  (c.property? r name).isSome

/-- All properties: those of the class and those that its ancestors leave to it. -/
def allProperties (c : Class) (r : Registry) : List (Class × Property) :=
  let inherited := (c.ancestors r).flatMap fun d =>
    (d.properties.filter (! ·.isPrivate)).map fun p => (d, p)
  distinctBy (fun (_, p) => p.name) (c.properties.map (fun p => (c, p)) ++ inherited)

/-- A constant of the class, declared or inherited. -/
def constant? (c : Class) (r : Registry) (name : String) : Option Constant :=
  match c.ownConstant? name with
  | some k => some k
  | none => (c.sources r).findSome? (·.ownConstant? name)

/-- Whether the class has a constant of this name. -/
def hasConstant (c : Class) (r : Registry) (name : String) : Bool :=
  (c.constant? r name).isSome

/-- All constants: those of the class, of its ancestors and of its interfaces. -/
def allConstants (c : Class) (r : Registry) : List Constant :=
  distinctBy (·.name) ((c :: c.sources r).flatMap (·.constants))

/-- **Instantiability.** The class is concrete, and its constructor, if it has one, is public. -/
def isInstantiable (c : Class) (r : Registry) : Bool :=
  !c.flags.hasInterface && !c.flags.hasAbstract
    -- The constructor of a nearer class stands first.
    && match (c.allMethods r).find? fun (owner, m) => m.isConstructor (some owner) with
      | none => true
      | some (_, m) => m.modifiers.visibility == .everyone

end Class

/-! ### Origins of methods -/

/-- How a method relates to the class through which it was found. -/
inductive Origin where
  /-- The class declares it and its parent has none of the name. -/
  | introduced
  /-- The class declares it and its parent has one of the name. -/
  | overridden
  /-- Another class declares it. -/
  | inherited
  deriving DecidableEq, Repr

/-- **Origins.** How a method relates to a class. -/
def Method.originIn (m : Method) (c : Class) (r : Registry) : Origin :=
  if Name.lookupKey m.className ≠ c.key then .inherited
  else if (c.parent? r).any (·.hasMethod r m.name) then .overridden
  else .introduced

/-- How the method of a name relates to the class, if the class has one. -/
def Class.methodOrigin? (c : Class) (r : Registry) (name : String) : Option Origin :=
  (c.method? r name).map fun (_, m) => m.originIn c r

end Introspect
