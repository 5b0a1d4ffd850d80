import Introspect.Reference
import Mathlib.Tactic.Common

/-!
# Hierarchies depend on lookups only

What a class inherits is found by names. The walks run over lists of classes, but of a list nothing
matters beyond which class is found in it under which key: `SameLookups` says that two lists agree
on that, and it is all that the walks need to come to the same end.

* `SameLookups.withoutKey`: taking the same key out of both lists keeps it, and so every walk goes
  on alike where it takes a class out of its pool;
* `SameLookups.chain`, `SameLookups.parentNames`, `SameLookups.discover`: the three walks;
* `Registry.findClass_registerAll`: what is found after a registration;
* `Class.SameAnswers` collects every question about a hierarchy, and `SameLookups.answers` says that
  registries which agree on lookups answer all of them alike.
-/

namespace Introspect

/-- **Agreement on lookups.** Under every key the same class is found, or none. -/
def SameLookups (classes classes' : List Class) : Prop :=
  ∀ key, findClass classes key = findClass classes' key

theorem findClass_cons (c : Class) (classes : List Class) (key : String) :
    findClass (c :: classes) key = if c.key = key then some c else findClass classes key := by
  by_cases h : c.key = key
  · rw [if_pos h]
    exact List.find?_cons_of_pos (beq_iff_eq.mpr h)
  · rw [if_neg h]
    exact List.find?_cons_of_neg (mt beq_iff_eq.mp h)

/-- Without a key, everything else is found as before. -/
theorem findClass_withoutKey (classes : List Class) (taken key : String) :
    findClass (withoutKey classes taken) key
      = if key = taken then none else findClass classes key := by
  induction classes with
  | nil => exact (ite_self none).symm
  | cons c classes ih =>
    rw [withoutKey, List.filter_cons, ← withoutKey]
    -- a class under the taken key is dropped, and no other lookup would have found it
    by_cases hc : c.key = taken
    · rw [if_neg (by simpa using hc), ih, findClass_cons, hc]
      by_cases hkey : key = taken
      · rw [if_pos hkey, if_pos hkey]
      · rw [if_neg hkey, if_neg hkey, if_neg (Ne.symm hkey)]
    · rw [if_pos (by simpa using hc), findClass_cons, findClass_cons, ih]
      by_cases hkey : c.key = key
      · rw [if_pos hkey, if_neg (hkey ▸ hc), if_pos hkey]
      · rw [if_neg hkey, if_neg hkey]

section Walks

variable {pool pool' : List Class}

theorem SameLookups.withoutKey (h : SameLookups pool pool') (taken : String) :
    SameLookups (withoutKey pool taken) (withoutKey pool' taken) := by
  intro key
  rw [findClass_withoutKey, findClass_withoutKey, h key]

/-! ### Chains of parents -/

/-- The parent that a class reaches inside a pool. -/
def Class.parentIn? (c : Class) (pool : List Class) : Option Class :=
  if c.linked then c.parentName.bind (findClass pool ∘ Name.lookupKey) else none

theorem Class.chain_of_none {c : Class} (h : c.parentIn? pool = none) : c.chain pool = [] := by
  rw [Class.chain]
  split
  · rfl
  · next p hp => exact absurd (h.symm.trans hp) (by simp)

theorem Class.chain_of_some {c p : Class} (h : c.parentIn? pool = some p) :
    c.chain pool = p :: p.chain (Introspect.withoutKey pool p.key) := by
  rw [Class.chain]
  split
  · next hp => exact absurd (h.symm.trans hp) (by simp)
  · next q hq =>
    obtain rfl : p = q := Option.some.inj (h.symm.trans hq)
    rfl

/-- A parent leaves the pool when it is reached. -/
theorem Class.length_withoutKey_of_parentIn? {c p : Class} (h : c.parentIn? pool = some p) :
    (Introspect.withoutKey pool p.key).length < pool.length := by
  unfold Class.parentIn? at h
  split at h
  · obtain ⟨name, -, hname⟩ := Option.bind_eq_some_iff.mp h
    exact (Registry.key_eq_of_findClass hname).symm ▸ length_withoutKey_lt hname
  · cases h

theorem SameLookups.parentIn? (h : SameLookups pool pool') (c : Class) :
    c.parentIn? pool = c.parentIn? pool' := by
  have heq : findClass pool = findClass pool' := funext h
  rw [Class.parentIn?, Class.parentIn?, heq]

/-- The chain of parents is the same in pools that agree on lookups. -/
theorem SameLookups.chain (h : SameLookups pool pool') (c : Class) :
    c.chain pool = c.chain pool' := by
  -- on the length of the pool, which the walk shortens
  induction hn : pool.length using Nat.strongRecOn generalizing c pool pool' with
  | ind n ih =>
    cases hp : c.parentIn? pool with
    | none =>
      have hp' : c.parentIn? pool' = none := h.parentIn? c ▸ hp
      rw [Class.chain_of_none hp, Class.chain_of_none hp']
    | some p =>
      have hp' : c.parentIn? pool' = some p := h.parentIn? c ▸ hp
      have hless := Class.length_withoutKey_of_parentIn? hp
      rw [Class.chain_of_some hp, Class.chain_of_some hp',
        ih _ (hn ▸ hless) (h.withoutKey p.key) p rfl]

/-- The names along it are, too. -/
theorem SameLookups.parentNames (h : SameLookups pool pool') (name : Option String) :
    Class.parentNames name pool = Class.parentNames name pool' := by
  fun_induction Class.parentNames name pool generalizing pool' with
  | case1 pool => rw [Class.parentNames]
  | case2 pool n hnone =>
    rw [Class.parentNames]
    split
    · rfl
    · next p hp => exact absurd (hnone.symm.trans ((h _).trans hp)) (by simp)
  -- the parent is registered, and leaves both pools
  | case3 pool n p hp ih =>
    rw [Class.parentNames, ih (h.withoutKey _)]
    split
    · next hnone => exact absurd (hp.symm.trans ((h _).trans hnone)) (by simp)
    · next q hq =>
      obtain rfl : p = q := Option.some.inj (hp.symm.trans ((h _).trans hq))
      rfl

/-! ### Interfaces -/

section Discover

variable {found pending : List String} {name : String}

theorem Class.discover_of_found
    (hfound : (found.any (Name.lookupKey · == Name.lookupKey name)) = true) :
    Class.discover pool found (name :: pending) = Class.discover pool found pending := by
  rw [Class.discover.eq_def]
  exact if_pos hfound

theorem Class.discover_of_none
    (hfound : ¬ (found.any (Name.lookupKey · == Name.lookupKey name)) = true)
    (h : findClass pool (Name.lookupKey name) = none) :
    Class.discover pool found (name :: pending)
      = Class.discover pool (found ++ [name]) pending := by
  rw [Class.discover.eq_def]
  dsimp only
  rw [if_neg hfound]
  split
  · rfl
  · next i hi => exact absurd (h.symm.trans hi) (by simp)

theorem Class.discover_of_some {i : Class}
    (hfound : ¬ (found.any (Name.lookupKey · == Name.lookupKey name)) = true)
    (h : findClass pool (Name.lookupKey name) = some i) :
    Class.discover pool found (name :: pending)
      = Class.discover (Introspect.withoutKey pool (Name.lookupKey name)) (found ++ [name])
          (i.interfaceNames ++ pending) := by
  rw [Class.discover.eq_def]
  dsimp only
  rw [if_neg hfound]
  split
  · next hnone => exact absurd (h.symm.trans hnone) (by simp)
  · next j hj =>
    obtain rfl : i = j := Option.some.inj (h.symm.trans hj)
    rfl

end Discover

/-- The interfaces that are discovered are the same, in the same order. -/
theorem SameLookups.discover (h : SameLookups pool pool') (found pending : List String) :
    Class.discover pool found pending = Class.discover pool' found pending := by
  fun_induction Class.discover pool found pending generalizing pool' with
  | case1 pool found => rw [Class.discover]
  -- a name that was discovered before is passed over in both
  | case2 pool found name pending hfound ih => rw [Class.discover_of_found hfound, ih h]
  -- a dangling name is discovered, but leads no further
  | case3 pool found name pending hfound hnone ih =>
    rw [Class.discover_of_none hfound (h _ ▸ hnone), ih h]
  | case4 pool found name pending hfound i hi ih =>
    rw [Class.discover_of_some hfound (h _ ▸ hi), ih (h.withoutKey _)]

end Walks

/-! ### Lookups behind a registration -/

namespace Registry

/-- A class is found where its key is still free. -/
theorem findClass_register (r : Registry) (c : Class) (key : String) :
    findClass (r.register c).classes key = (findClass r.classes key).or (findClass [c] key) := by
  unfold register contains get?
  split
  · next htaken =>
    -- the key of the class is taken: where it would be found, the other one is
    obtain ⟨d, hd⟩ := Option.isSome_iff_exists.mp htaken
    rw [findClass_cons]
    by_cases hkey : c.key = key
    · have hfound : findClass r.classes key = some d := hkey ▸ hd
      rw [hfound, Option.some_or]
    · rw [if_neg hkey]
      exact Option.or_none.symm
  · exact List.find?_append

/-- **Lookups behind a registration:** what was there first, and then what comes first. -/
theorem findClass_registerAll (r : Registry) (cs : List Class) (key : String) :
    findClass (r.registerAll cs).classes key = (findClass r.classes key).or (findClass cs key) := by
  induction cs generalizing r with
  | nil => exact Option.or_none.symm
  | cons c cs ih =>
    calc findClass ((r.register c).registerAll cs).classes key
        = ((findClass r.classes key).or (findClass [c] key)).or (findClass cs key) := by
          rw [ih, findClass_register]
      _ = (findClass r.classes key).or (findClass ([c] ++ cs) key) := by
          rw [Option.or_assoc, findClass, findClass, findClass, findClass, List.find?_append]

theorem sameLookups_registerAll (cs : List Class) :
    SameLookups (empty.registerAll cs).classes cs := by
  intro key
  rw [findClass_registerAll]
  exact Option.none_or

end Registry

/-! ### Answers -/

/-- **Answers.** Two registries answer every question about the hierarchy of a class alike. -/
structure Class.SameAnswers (c : Class) (r r' : Registry) : Prop where
  parent : c.parentReference r = c.parentReference r'
  ancestors : c.ancestors r = c.ancestors r'
  interfaceNames : c.allInterfaceNames r = c.allInterfaceNames r'
  interfaces : (c.allInterfaceNames r).map (c.follow r) = (c.allInterfaceNames r').map (c.follow r')
  method : ∀ name, c.method? r name = c.method? r' name
  methods : c.allMethods r = c.allMethods r'
  property : ∀ name, c.property? r name = c.property? r' name
  properties : c.allProperties r = c.allProperties r'
  constant : ∀ name, c.constant? r name = c.constant? r' name
  constants : c.allConstants r = c.allConstants r'
  methodOrigin : ∀ name, c.methodOrigin? r name = c.methodOrigin? r' name
  implements : ∀ name, c.implements r name = c.implements r' name
  isSubclassOf : ∀ name, c.isSubclassOf r name = c.isSubclassOf r' name
  isInstantiable : c.isInstantiable r = c.isInstantiable r'

namespace SameLookups

variable {r r' : Registry}

theorem get? (h : SameLookups r.classes r'.classes) (name : String) : r.get? name = r'.get? name :=
  h _

theorem resolve? (h : SameLookups r.classes r'.classes) (c : Class) (name : String) :
    c.resolve? r name = c.resolve? r' name := by
  rw [Class.resolve?, Class.resolve?, h.get? name]

theorem ancestors (h : SameLookups r.classes r'.classes) (c : Class) :
    c.ancestors r = c.ancestors r' :=
  (h.withoutKey c.key).chain c

theorem allInterfaceNames (h : SameLookups r.classes r'.classes) (c : Class) :
    c.allInterfaceNames r = c.allInterfaceNames r' := by
  rw [Class.allInterfaceNames, Class.allInterfaceNames, h.ancestors c]
  split
  · exact h.discover _ _
  · rfl

theorem sources (h : SameLookups r.classes r'.classes) (c : Class) :
    c.sources r = c.sources r' := by
  have hresolve : c.resolve? r = c.resolve? r' := funext (h.resolve? c)
  rw [Class.sources, Class.sources, h.ancestors c, h.allInterfaceNames c, hresolve]

theorem method? (h : SameLookups r.classes r'.classes) (c : Class) (name : String) :
    c.method? r name = c.method? r' name := by
  rw [Class.method?, Class.method?, h.sources c]

theorem allMethods (h : SameLookups r.classes r'.classes) (c : Class) :
    c.allMethods r = c.allMethods r' := by
  rw [Class.allMethods, Class.allMethods, h.sources c]

theorem implements (h : SameLookups r.classes r'.classes) (c : Class) (name : String) :
    c.implements r name = c.implements r' name := by
  rw [Class.implements, Class.implements, h.allInterfaceNames c]

/-- Where a method comes from depends on the parent and on what the parent has. -/
theorem originIn (h : SameLookups r.classes r'.classes) (m : Method) (c : Class) :
    m.originIn c r = m.originIn c r' := by
  have hparent : c.parent? r = c.parent? r' :=
    congrArg c.parentName.bind (funext (h.resolve? c))
  have hmethod : (fun p : Class => p.hasMethod r m.name) = fun p => p.hasMethod r' m.name := by
    funext p
    rw [Class.hasMethod, Class.hasMethod, h.method? p]
  rw [Method.originIn, Method.originIn, hparent, hmethod]

theorem methodOrigin? (h : SameLookups r.classes r'.classes) (c : Class) (name : String) :
    c.methodOrigin? r name = c.methodOrigin? r' name := by
  have horigin : (fun p : Class × Method => p.2.originIn c r) = fun p => p.2.originIn c r' :=
    funext fun p => h.originIn p.2 c
  unfold Class.methodOrigin?
  rw [h.method? c name]
  exact congrArg (Option.map · _) horigin

theorem isInstantiable (h : SameLookups r.classes r'.classes) (c : Class) :
    c.isInstantiable r = c.isInstantiable r' := by
  unfold Class.isInstantiable
  rw [h.allMethods c]

theorem isSubclassOf (h : SameLookups r.classes r'.classes) (c : Class) (name : String) :
    c.isSubclassOf r name = c.isSubclassOf r' name := by
  -- the names along the chain are walked without the class itself, and only if it is linked
  have hnames : Class.parentNames c.parentName (if c.linked then c.pool r else [])
      = Class.parentNames c.parentName (if c.linked then c.pool r' else []) := by
    split
    · exact (h.withoutKey c.key).parentNames _
    · rfl
  rw [Class.isSubclassOf, Class.isSubclassOf, hnames, h.implements c]

/-- **Registries that agree on lookups answer alike,** whatever class is asked. -/
theorem answers (h : SameLookups r.classes r'.classes) (c : Class) : c.SameAnswers r r' := by
  -- references carry the name they follow and what is found under it
  have hfollow : c.follow r = c.follow r' := by
    funext name
    rw [Class.follow, Class.follow, h.resolve? c]
  exact
    { parent := by rw [Class.parentReference, Class.parentReference, hfollow]
      ancestors := h.ancestors c
      interfaceNames := h.allInterfaceNames c
      interfaces := by rw [h.allInterfaceNames c, hfollow]
      method := h.method? c
      methods := h.allMethods c
      property := fun name => by rw [Class.property?, Class.property?, h.ancestors c]
      properties := by rw [Class.allProperties, Class.allProperties, h.ancestors c]
      constant := fun name => by rw [Class.constant?, Class.constant?, h.sources c]
      constants := by rw [Class.allConstants, Class.allConstants, h.sources c]
      methodOrigin := h.methodOrigin? c
      implements := h.implements c
      isSubclassOf := h.isSubclassOf c
      isInstantiable := h.isInstantiable c }

end SameLookups

end Introspect
