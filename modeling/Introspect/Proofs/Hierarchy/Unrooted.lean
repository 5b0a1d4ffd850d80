import Introspect.Proofs.Hierarchy.Lookups
import Mathlib.Data.List.DropRight

/-!
# Names up to leading separators

A name denotes the same class with and without the separators in front of it. `Class.unrooted` drops
these from every name that a class holds: from the names of its parent and its interfaces, and from
the classes in the types of its members. This module shows that nothing is lost by it: whatever is
asked about a hierarchy, the answer that the unrooted classes give is the unrooted answer.

* `findClass_unrooted`, `Class.chain_unrooted`, `Class.parentNames_unrooted` and
  `Class.discover_unrooted`: a look-up and the three walks, from which all answers are made;
* `Class.AlikeAnswers` collects every question about a hierarchy, answered up to leading separators,
  and `alikeAnswers_of_unrooted_eq` says that classes which are equal without them answer alike.
-/

namespace Introspect

/-! ### Descriptions without leading separators -/

namespace Name

theorem relative_relative (name : String) : relative (relative name) = relative name := by
  unfold relative Text.dropLeading
  rw [String.toList_ofList, List.dropWhile_idempotent]

theorem lookupKey_relative (name : String) : lookupKey (relative name) = lookupKey name := by
  rw [lookupKey, relative_relative, lookupKey]

end Name

namespace TypeHint

mutual
/-- The type without separators in front of the classes in it. -/
def unrooted : TypeHint → TypeHint
  | named name => named (Name.relative name)
  | nullable inner => nullable inner.unrooted
  | union members => union (unrootedAll members)
  | intersection members => intersection (unrootedAll members)
  | array => array
  | callable => callable
  | static => static
  | builtin name => builtin name

/-- The types without separators in front of the classes in them. -/
def unrootedAll : List TypeHint → List TypeHint
  | [] => []
  | t :: ts => t.unrooted :: unrootedAll ts
end

end TypeHint

/-- The parameter without separators in front of the classes in its type. -/
def Parameter.unrooted (p : Parameter) : Parameter :=
  { p with typeHint := p.typeHint.map TypeHint.unrooted }

/-- The method without separators in front of the classes in its types. -/
def Method.unrooted (m : Method) : Method :=
  { m with
    returnType := m.returnType.map TypeHint.unrooted
    parameters := m.parameters.map Parameter.unrooted }

/-- The property without separators in front of the classes in its type. -/
def Property.unrooted (p : Property) : Property :=
  { p with typeHint := p.typeHint.map TypeHint.unrooted }

/-- The constant without separators in front of the classes in its type. -/
def Constant.unrooted (c : Constant) : Constant :=
  { c with typeHint := c.typeHint.map TypeHint.unrooted }

/-- **Unrooted classes.** The class without separators in front of the names that it holds: of its
parent, of its interfaces and of the classes in the types of its members. -/
def Class.unrooted (c : Class) : Class :=
  { c with
    parentName := c.parentName.map Name.relative
    interfaceNames := c.interfaceNames.map Name.relative
    constants := c.constants.map Constant.unrooted
    methods := c.methods.map Method.unrooted
    properties := c.properties.map Property.unrooted }

/-- The registry with its classes unrooted. -/
def Registry.unrooted (r : Registry) : Registry := ⟨r.classes.map Class.unrooted⟩

/-- The reference with its class unrooted, or without separators in front of its name. -/
def Reference.unrooted : Reference → Reference
  | known c => known c.unrooted
  | missing name => missing (Name.relative name)

/-- A member and the class that declares it, both unrooted. -/
abbrev Class.unrootedWith {α : Type} (member : α → α) : Class × α → Class × α :=
  Prod.map Class.unrooted member

/-! ### Look-ups and walks -/

@[simp] theorem Class.key_unrooted (c : Class) : c.unrooted.key = c.key := rfl

theorem findClass_unrooted (classes : List Class) (key : String) :
    findClass (classes.map Class.unrooted) key = (findClass classes key).map Class.unrooted := by
  simp only [findClass, List.find?_map, Function.comp_def, Class.key_unrooted]

theorem withoutKey_unrooted (classes : List Class) (key : String) :
    withoutKey (classes.map Class.unrooted) key =
      (withoutKey classes key).map Class.unrooted := by
  induction classes with
  | nil => rfl
  | cons c classes ih =>
    unfold withoutKey at ih ⊢
    by_cases hc : c.key = key
    · have hc' : c.unrooted.key = key := hc
      simp only [List.map_cons, List.filter_cons, hc, hc', ne_eq, not_true, decide_false,
        Bool.false_eq_true, if_false, ih]
    · have hc' : c.unrooted.key ≠ key := hc
      simp only [List.map_cons, List.filter_cons, hc, hc', ne_eq, not_false_eq_true, decide_true,
        if_true, ih]

theorem any_lookupKey_relative (names : List String) (key : String) :
    (names.map Name.relative).any (Name.lookupKey · == key) =
      names.any (Name.lookupKey · == key) := by
  simp only [List.any_map, Function.comp_def, Name.lookupKey_relative]

namespace Class

theorem parentIn?_unrooted (c : Class) (pool : List Class) :
    c.unrooted.parentIn? (pool.map unrooted) = (c.parentIn? pool).map unrooted := by
  show (if c.linked then (c.parentName.map Name.relative).bind
    (findClass (pool.map unrooted) ∘ Name.lookupKey) else none) = _
  unfold parentIn?
  cases c.linked <;> cases c.parentName <;>
    simp [Name.lookupKey_relative, findClass_unrooted]

theorem chain_unrooted (c : Class) (pool : List Class) :
    c.unrooted.chain (pool.map unrooted) = (c.chain pool).map unrooted := by
  -- on the length of the pool, which the walk shortens
  induction hn : pool.length using Nat.strongRecOn generalizing c pool with
  | ind n ih =>
    have hparent := c.parentIn?_unrooted pool
    cases hp : c.parentIn? pool with
    | none =>
      rw [hp] at hparent
      rw [chain_of_none hp, chain_of_none hparent, List.map_nil]
    | some p =>
      rw [hp] at hparent
      rw [chain_of_some hp, chain_of_some hparent, List.map_cons]
      show p.unrooted :: p.unrooted.chain (withoutKey (pool.map unrooted) p.key) = _
      rw [withoutKey_unrooted, ih _ (hn ▸ length_withoutKey_of_parentIn? hp) p _ rfl]

theorem parentNames_unrooted (name : Option String) (pool : List Class) :
    parentNames (name.map Name.relative) (pool.map unrooted) =
      (parentNames name pool).map Name.relative := by
  fun_induction parentNames name pool with
  | case1 pool => rw [Option.map_none, parentNames, List.map_nil]
  | case2 pool n hnone =>
    rw [Option.map_some, parentNames]
    split
    · rfl
    · next p hp =>
      rw [Name.lookupKey_relative, findClass_unrooted, hnone] at hp
      cases hp
  -- the parent is in both pools, and leaves them
  | case3 pool n p hp ih =>
    rw [Option.map_some, parentNames]
    split
    · next hnone =>
      rw [Name.lookupKey_relative, findClass_unrooted, hp] at hnone
      cases hnone
    · next q hq =>
      rw [Name.lookupKey_relative, findClass_unrooted, hp] at hq
      obtain rfl := Option.some.inj hq
      rw [List.map_cons, ← ih, Name.lookupKey_relative, withoutKey_unrooted]
      rfl

theorem discover_unrooted (pool : List Class) (found pending : List String) :
    discover (pool.map unrooted) (found.map Name.relative) (pending.map Name.relative) =
      (discover pool found pending).map Name.relative := by
  fun_induction discover pool found pending with
  | case1 pool found => rw [List.map_nil, discover]
  | case2 pool found name pending hfound ih =>
    rw [List.map_cons, discover_of_found, ih]
    rwa [Name.lookupKey_relative, any_lookupKey_relative]
  | case3 pool found name pending hfound hnone ih =>
    -- a name of no class is found, and leads to no more names
    rw [List.map_cons, discover_of_none, ← ih, List.map_append, List.map_singleton]
    · rwa [Name.lookupKey_relative, any_lookupKey_relative]
    · rw [Name.lookupKey_relative, findClass_unrooted, hnone, Option.map_none]
  | case4 pool found name pending hfound i hi ih =>
    -- a name of a class leads to the interfaces of the class, which leaves the pool
    rw [List.map_cons, discover_of_some (i := i.unrooted), ← ih, List.map_append,
      List.map_singleton, List.map_append, Name.lookupKey_relative, withoutKey_unrooted]
    · rfl
    · rwa [Name.lookupKey_relative, any_lookupKey_relative]
    · rw [Name.lookupKey_relative, findClass_unrooted, hi, Option.map_some]

/-! ### Answers -/

section Answers

variable (c : Class) (r : Registry) (name : String)

theorem resolve?_unrooted :
    c.unrooted.resolve? r.unrooted (Name.relative name) = (c.resolve? r name).map unrooted := by
  show (if c.linked then findClass (r.classes.map unrooted) (Name.lookupKey (Name.relative name))
    else none) = _
  rw [Name.lookupKey_relative, findClass_unrooted, resolve?]
  cases c.linked <;> rfl

theorem ancestors_unrooted :
    c.unrooted.ancestors r.unrooted = (c.ancestors r).map unrooted := by
  show c.unrooted.chain (withoutKey (r.classes.map unrooted) c.key) = _
  rw [withoutKey_unrooted, chain_unrooted]
  rfl

theorem allInterfaceNames_unrooted :
    c.unrooted.allInterfaceNames r.unrooted = (c.allInterfaceNames r).map Name.relative := by
  -- the pool and the names that the walk begins with are those of the class, unrooted
  have hpool : (if c.linked then r.classes.map unrooted else []) =
      (if c.linked then r.classes else []).map unrooted := by
    cases c.linked <;> rfl
  have hpending : c.unrooted.interfaceNames ++
      (c.unrooted.ancestors r.unrooted).flatMap (·.interfaceNames) =
        (c.interfaceNames ++ (c.ancestors r).flatMap (·.interfaceNames)).map Name.relative := by
    rw [ancestors_unrooted, List.map_append, List.flatMap_map, List.map_flatMap]
    rfl
  rw [allInterfaceNames, hpending]
  show discover (if c.linked then r.classes.map unrooted else []) ([].map Name.relative) _ = _
  rw [hpool, discover_unrooted]
  rfl

theorem implements_unrooted : c.unrooted.implements r.unrooted name = c.implements r name := by
  rw [implements, implements, allInterfaceNames_unrooted, any_lookupKey_relative]

theorem isSubclassOf_unrooted :
    c.unrooted.isSubclassOf r.unrooted name = c.isSubclassOf r name := by
  -- the class itself is in neither pool
  have hpool : (if c.linked then c.unrooted.pool r.unrooted else []) =
      (if c.linked then c.pool r else []).map unrooted := by
    cases c.linked
    · rfl
    · exact withoutKey_unrooted r.classes c.key
  have hnames : parentNames c.unrooted.parentName
      (if c.linked then c.unrooted.pool r.unrooted else []) =
        (parentNames c.parentName (if c.linked then c.pool r else [])).map Name.relative := by
    rw [hpool]
    exact parentNames_unrooted _ _
  rw [isSubclassOf, isSubclassOf, implements_unrooted]
  show (_ && ((parentNames c.unrooted.parentName
    (if c.linked then c.unrooted.pool r.unrooted else [])).any _ || _)) = _
  rw [hnames, any_lookupKey_relative]
  rfl

/-! ### Members -/

theorem ownMethod?_unrooted :
    c.unrooted.ownMethod? name = (c.ownMethod? name).map Method.unrooted :=
  List.find?_map

theorem ownProperty?_unrooted :
    c.unrooted.ownProperty? name = (c.ownProperty? name).map Property.unrooted :=
  List.find?_map

theorem ownConstant?_unrooted :
    c.unrooted.ownConstant? name = (c.ownConstant? name).map Constant.unrooted :=
  List.find?_map

theorem heritable?_unrooted :
    c.unrooted.heritable? name = (c.heritable? name).map Property.unrooted := by
  rw [heritable?, ownProperty?_unrooted, Option.filter_map]
  rfl

theorem sources_unrooted : c.unrooted.sources r.unrooted = (c.sources r).map unrooted := by
  rw [sources, sources, ancestors_unrooted, allInterfaceNames_unrooted, List.map_append,
    List.filterMap_map, List.map_filterMap]
  congr 2
  funext n
  exact resolve?_unrooted c r n

end Answers

/-- The first of some classes to have a member is the same one without leading separators. -/
theorem findSome?_unrooted {α : Type} {own : Class → Option α} {member : α → α}
    (hown : ∀ d : Class, own d.unrooted = (own d).map member) (classes : List Class) :
    (classes.map unrooted).findSome? (fun d => (own d).map fun a => (d, a)) =
      (classes.findSome? fun d => (own d).map fun a => (d, a)).map (unrootedWith member) := by
  rw [List.findSome?_map, List.map_findSome?]
  congr 1
  funext d
  simp only [Function.comp_apply, hown, Option.map_map]
  rfl

theorem distinctBy_map {α β : Type} (key : β → String) (f : α → β) (l : List α) :
    distinctBy key (l.map f) = (distinctBy (key ∘ f) l).map f := by
  induction l with
  | nil => rfl
  | cons a l ih =>
    rw [List.map_cons, distinctBy, distinctBy, ih, List.filter_map, List.map_cons]
    rfl

section Members

variable (c : Class) (r : Registry) (name : String)

theorem method?_unrooted :
    c.unrooted.method? r.unrooted name = (c.method? r name).map (unrootedWith Method.unrooted) := by
  unfold method?
  rw [ownMethod?_unrooted, sources_unrooted]
  cases c.ownMethod? name with
  | some m => rfl
  | none => exact findSome?_unrooted (fun d => d.ownMethod?_unrooted name) _

theorem allMethods_unrooted :
    c.unrooted.allMethods r.unrooted =
      (c.allMethods r).map (unrootedWith Method.unrooted) := by
  have hmethods : (c.unrooted :: c.unrooted.sources r.unrooted).flatMap ownedMethods =
      ((c :: c.sources r).flatMap ownedMethods).map (unrootedWith Method.unrooted) := by
    rw [sources_unrooted, ← List.map_cons, List.flatMap_map, List.map_flatMap]
    congr 1
    funext d
    show (d.methods.map Method.unrooted).map _ = (d.methods.map _).map _
    rw [List.map_map, List.map_map]
    rfl
  rw [allMethods, hmethods, distinctBy_map]
  rfl

theorem property?_unrooted :
    c.unrooted.property? r.unrooted name =
      (c.property? r name).map (unrootedWith Property.unrooted) := by
  unfold property?
  rw [ownProperty?_unrooted, ancestors_unrooted]
  cases c.ownProperty? name with
  | some p => rfl
  | none => exact findSome?_unrooted (fun d => d.heritable?_unrooted name) _

theorem allProperties_unrooted :
    c.unrooted.allProperties r.unrooted =
      (c.allProperties r).map (unrootedWith Property.unrooted) := by
  have howned : ∀ ps : List Property, ∀ d : Class,
      (ps.map Property.unrooted).map (fun p => (d.unrooted, p)) =
        (ps.map fun p => (d, p)).map (unrootedWith Property.unrooted) := by
    intro ps d
    rw [List.map_map, List.map_map]
    rfl
  -- ancestors are the same up to separators, and so is what each of them hands down
  have hinherited : (c.unrooted.ancestors r.unrooted).flatMap (fun d =>
      (d.properties.filter (! ·.isPrivate)).map fun p => (d, p)) =
        ((c.ancestors r).flatMap fun d =>
          (d.properties.filter (! ·.isPrivate)).map fun p => (d, p)).map
            (unrootedWith Property.unrooted) := by
    rw [ancestors_unrooted, List.flatMap_map, List.map_flatMap]
    congr 1
    funext d
    rw [← howned]
    show ((d.properties.map Property.unrooted).filter _).map _ = _
    rw [List.filter_map]
    rfl
  show distinctBy _ ((c.properties.map Property.unrooted).map _ ++ _) = _
  rw [hinherited, howned, ← List.map_append, distinctBy_map]
  rfl

theorem constant?_unrooted :
    c.unrooted.constant? r.unrooted name = (c.constant? r name).map Constant.unrooted := by
  unfold constant?
  rw [ownConstant?_unrooted, sources_unrooted]
  cases c.ownConstant? name with
  | some k => rfl
  | none =>
    show ((c.sources r).map unrooted).findSome? _ = ((c.sources r).findSome? _).map _
    rw [List.findSome?_map, List.map_findSome?]
    congr 1
    funext d
    exact d.ownConstant?_unrooted name

theorem allConstants_unrooted :
    c.unrooted.allConstants r.unrooted = (c.allConstants r).map Constant.unrooted := by
  have hconstants : (c.unrooted :: c.unrooted.sources r.unrooted).flatMap (·.constants) =
      ((c :: c.sources r).flatMap (·.constants)).map Constant.unrooted := by
    rw [sources_unrooted, ← List.map_cons, List.flatMap_map, List.map_flatMap]
    rfl
  rw [allConstants, hconstants, distinctBy_map]
  rfl

theorem isConstructor_unrooted (m : Method) :
    m.unrooted.isConstructor (some c.unrooted) = m.isConstructor (some c) := by
  -- whether a method is a constructor depends on names of methods only
  have hdeclares : ∀ n, c.unrooted.declaresMethod n = c.declaresMethod n := by
    intro n
    rw [declaresMethod, ownMethod?_unrooted, Option.isSome_map]
    rfl
  unfold Method.isConstructor
  simp only [Option.any_some, hdeclares]
  rfl

theorem isInstantiable_unrooted : c.unrooted.isInstantiable r.unrooted = c.isInstantiable r := by
  have hconstructs : ∀ p : Class × Method,
      (unrootedWith Method.unrooted p).2.isConstructor (some (unrootedWith Method.unrooted p).1) =
        p.2.isConstructor (some p.1) :=
    fun p => isConstructor_unrooted p.1 p.2
  unfold isInstantiable
  rw [allMethods_unrooted, List.find?_map]
  simp only [Function.comp_def, hconstructs]
  cases (c.allMethods r).find? fun p => p.2.isConstructor (some p.1) <;> rfl

theorem parent?_unrooted : c.unrooted.parent? r.unrooted = (c.parent? r).map unrooted := by
  show (c.parentName.map Name.relative).bind _ = _
  rw [parent?, Option.bind_map, Option.map_bind]
  congr 1
  funext n
  exact resolve?_unrooted c r n

theorem originIn_unrooted (m : Method) :
    m.unrooted.originIn c.unrooted r.unrooted = m.originIn c r := by
  have hparent : (c.unrooted.parent? r.unrooted).any (·.hasMethod r.unrooted m.name) =
      (c.parent? r).any (·.hasMethod r m.name) := by
    rw [parent?_unrooted, Option.any_map]
    congr 1
    funext d
    simp only [hasMethod, method?_unrooted, Option.isSome_map]
  unfold Method.originIn
  show (if Name.lookupKey m.className ≠ c.key then _
    else if (c.unrooted.parent? r.unrooted).any (·.hasMethod r.unrooted m.name) then _ else _) = _
  rw [hparent]

theorem methodOrigin?_unrooted :
    c.unrooted.methodOrigin? r.unrooted name = c.methodOrigin? r name := by
  have horigin : ∀ p : Class × Method,
      (unrootedWith Method.unrooted p).2.originIn c.unrooted r.unrooted = p.2.originIn c r :=
    fun p => originIn_unrooted c r p.2
  rw [methodOrigin?, method?_unrooted, Option.map_map, methodOrigin?]
  simp only [Function.comp_def, horigin]

theorem follow_unrooted :
    c.unrooted.follow r.unrooted (Name.relative name) = (c.follow r name).unrooted := by
  rw [follow, resolve?_unrooted, follow]
  cases c.resolve? r name <;> rfl

theorem parentReference_unrooted :
    c.unrooted.parentReference r.unrooted = (c.parentReference r).unrooted := by
  have hparent : c.unrooted.parentName = c.parentName.map Name.relative := rfl
  unfold parentReference
  rw [hparent]
  cases c.parentName with
  | none => rfl
  | some n => exact follow_unrooted c r n

end Members

end Class

/-! ### Registries -/

namespace Registry

theorem register_unrooted (r : Registry) (c : Class) :
    (r.register c).unrooted = r.unrooted.register c.unrooted := by
  have hcontains : r.unrooted.contains c.unrooted.name = r.contains c.name := by
    show (findClass (r.classes.map Class.unrooted) (Name.lookupKey c.name)).isSome = _
    rw [findClass_unrooted, Option.isSome_map]
    rfl
  unfold register
  rw [hcontains]
  split
  · rfl
  · simp only [unrooted, List.map_append, List.map_singleton]

theorem registerAll_unrooted (r : Registry) (cs : List Class) :
    (r.registerAll cs).unrooted = r.unrooted.registerAll (cs.map Class.unrooted) := by
  induction cs generalizing r with
  | nil => rfl
  | cons c cs ih =>
    show ((r.register c).registerAll cs).unrooted = _
    rw [ih, register_unrooted]
    rfl

end Registry

/-! ### Answers up to leading separators -/

/-- **Answers up to leading separators.** Two classes, each with a registry of its own, answer every
question about their hierarchies alike. -/
structure Class.AlikeAnswers (c c' : Class) (r r' : Registry) : Prop where
  parent : (c.parentReference r).unrooted = (c'.parentReference r').unrooted
  ancestors : (c.ancestors r).map Class.unrooted = (c'.ancestors r').map Class.unrooted
  interfaceNames : (c.allInterfaceNames r).map Name.relative =
    (c'.allInterfaceNames r').map Name.relative
  interfaces : ((c.allInterfaceNames r).map (c.follow r)).map Reference.unrooted =
    ((c'.allInterfaceNames r').map (c'.follow r')).map Reference.unrooted
  method : ∀ name, (c.method? r name).map (Class.unrootedWith Method.unrooted) =
    (c'.method? r' name).map (Class.unrootedWith Method.unrooted)
  methods : (c.allMethods r).map (Class.unrootedWith Method.unrooted) =
    (c'.allMethods r').map (Class.unrootedWith Method.unrooted)
  property : ∀ name, (c.property? r name).map (Class.unrootedWith Property.unrooted) =
    (c'.property? r' name).map (Class.unrootedWith Property.unrooted)
  properties : (c.allProperties r).map (Class.unrootedWith Property.unrooted) =
    (c'.allProperties r').map (Class.unrootedWith Property.unrooted)
  constant : ∀ name, (c.constant? r name).map Constant.unrooted =
    (c'.constant? r' name).map Constant.unrooted
  constants : (c.allConstants r).map Constant.unrooted =
    (c'.allConstants r').map Constant.unrooted
  methodOrigin : ∀ name, c.methodOrigin? r name = c'.methodOrigin? r' name
  implements : ∀ name, c.implements r name = c'.implements r' name
  isSubclassOf : ∀ name, c.isSubclassOf r name = c'.isSubclassOf r' name
  isInstantiable : c.isInstantiable r = c'.isInstantiable r'

/-- **Classes that are equal without leading separators answer alike,** if what they are asked
against is. -/
theorem Class.alikeAnswers_of_unrooted_eq {c c' : Class} {r r' : Registry}
    (hc : c.unrooted = c'.unrooted) (hr : r.unrooted = r'.unrooted) : c.AlikeAnswers c' r r' where
  -- both answers are compared through the answer of the unrooted classes, which is the same
  parent := by rw [← parentReference_unrooted, ← parentReference_unrooted, hc, hr]
  ancestors := by rw [← ancestors_unrooted, ← ancestors_unrooted, hc, hr]
  interfaceNames := by rw [← allInterfaceNames_unrooted, ← allInterfaceNames_unrooted, hc, hr]
  interfaces := by
    have hfollow : ∀ (d : Class) (q : Registry),
        ((d.allInterfaceNames q).map (d.follow q)).map Reference.unrooted =
          (d.unrooted.allInterfaceNames q.unrooted).map (d.unrooted.follow q.unrooted) := by
      intro d q
      rw [allInterfaceNames_unrooted, List.map_map, List.map_map]
      exact List.map_congr_left fun n _ => (follow_unrooted d q n).symm
    rw [hfollow, hfollow, hc, hr]
  method := fun name => by rw [← method?_unrooted, ← method?_unrooted, hc, hr]
  methods := by rw [← allMethods_unrooted, ← allMethods_unrooted, hc, hr]
  property := fun name => by rw [← property?_unrooted, ← property?_unrooted, hc, hr]
  properties := by rw [← allProperties_unrooted, ← allProperties_unrooted, hc, hr]
  constant := fun name => by rw [← constant?_unrooted, ← constant?_unrooted, hc, hr]
  constants := by rw [← allConstants_unrooted, ← allConstants_unrooted, hc, hr]
  methodOrigin := fun name => by rw [← methodOrigin?_unrooted, ← c'.methodOrigin?_unrooted, hc, hr]
  implements := fun name => by rw [← implements_unrooted, ← c'.implements_unrooted, hc, hr]
  isSubclassOf := fun name => by rw [← isSubclassOf_unrooted, ← c'.isSubclassOf_unrooted, hc, hr]
  isInstantiable := by rw [← isInstantiable_unrooted, ← c'.isInstantiable_unrooted, hc, hr]

end Introspect
