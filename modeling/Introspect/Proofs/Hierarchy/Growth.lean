import Introspect.Proofs.Hierarchy.Lookups

/-!
# Hierarchies grow with the registry

Registering a class takes nothing away: what was found under a key is still found, and where nothing
was found there may be something now. `Grows` says this of two lists of classes, and this module
says what it means for what a class inherits. Nothing is assumed of the classes: a new one may close
a circle, continue a chain of parents, or be the interface that a name was waiting for.

* `Grows.chain`, `Grows.parentNames`: the two walks along the parents take the same way and may go
  on where they ended;
* `Reached` are the names to which declared interfaces lead, and `Class.mem_keys_discover_iff` says
  that exactly these are discovered. The order of discovery may change with the registry, but what
  is reached stays reached (`Reached.mono`);
* `Registry.binding_monotone` collects what a class still answers after any registrations. It does
  not promise the method that an interface declares: an ancestor found later may hide it.
-/

namespace Introspect

/-- **Growth.** Whatever is found in one list of classes is found in the other one as well. -/
def Grows (classes classes' : List Class) : Prop :=
  ∀ key c, findClass classes key = some c → findClass classes' key = some c

/-- Registrations only add. -/
theorem Registry.grows_registerAll (r : Registry) (cs : List Class) :
    Grows r.classes (r.registerAll cs).classes := by
  intro key c h
  rw [Registry.findClass_registerAll, h, Option.some_or]

section Walks

variable {pool pool' : List Class}

theorem Grows.withoutKey (h : Grows pool pool') (taken : String) :
    Grows (withoutKey pool taken) (withoutKey pool' taken) := by
  intro key c hc
  rw [findClass_withoutKey] at hc ⊢
  split at hc
  · cases hc
  · next hkey =>
    rw [if_neg hkey]
    exact h key c hc

/-- A pool grows out of what is left of it. -/
theorem grows_of_withoutKey (pool : List Class) (taken : String) :
    Grows (Introspect.withoutKey pool taken) pool := by
  intro key c hc
  rw [findClass_withoutKey] at hc
  split at hc
  · cases hc
  · exact hc

/-! ### Chains of parents -/

theorem Grows.parentIn? (h : Grows pool pool') {c p : Class} (hp : c.parentIn? pool = some p) :
    c.parentIn? pool' = some p := by
  unfold Class.parentIn? at hp ⊢
  split at hp
  · next hlinked =>
    obtain ⟨name, hname, hfound⟩ := Option.bind_eq_some_iff.mp hp
    rw [if_pos hlinked]
    exact Option.bind_eq_some_iff.mpr ⟨name, hname, h _ _ hfound⟩
  · cases hp

/-- **The chain of parents** is a prefix of the later one: it ends at a circle, where the later one
ends as well, or at a parent that was missing. -/
theorem Grows.chain (h : Grows pool pool') (c : Class) : c.chain pool <+: c.chain pool' := by
  -- on the length of the pool, which the walk shortens
  induction hn : pool.length using Nat.strongRecOn generalizing c pool pool' with
  | ind n ih =>
    cases hp : c.parentIn? pool with
    | none =>
      rw [Class.chain_of_none hp]
      exact List.nil_prefix
    | some p =>
      have hless := Class.length_withoutKey_of_parentIn? hp
      rw [Class.chain_of_some hp, Class.chain_of_some (h.parentIn? hp), List.cons_prefix_cons]
      exact ⟨rfl, ih _ (hn ▸ hless) (h.withoutKey p.key) p rfl⟩

theorem Class.parentNames_of_some {name : String} {p : Class}
    (h : findClass pool (Name.lookupKey name) = some p) :
    Class.parentNames (some name) pool
      = name :: Class.parentNames p.parentName
          (Introspect.withoutKey pool (Name.lookupKey name)) := by
  rw [Class.parentNames]
  split
  · next hnone => exact absurd (h.symm.trans hnone) (by simp)
  · next q hq =>
    obtain rfl : p = q := Option.some.inj (h.symm.trans hq)
    rfl

/-- A name counts whether or not anything is found under it. -/
theorem Class.singleton_prefix_parentNames (name : String) (pool : List Class) :
    [name] <+: Class.parentNames (some name) pool := by
  rw [Class.parentNames]
  split
  · exact List.prefix_refl _
  · exact List.cons_prefix_cons.mpr ⟨rfl, List.nil_prefix⟩

/-- The names along it are a prefix of the later ones. -/
theorem Grows.parentNames (h : Grows pool pool') (name : Option String) :
    Class.parentNames name pool <+: Class.parentNames name pool' := by
  fun_induction Class.parentNames name pool generalizing pool' with
  | case1 pool => exact List.nil_prefix
  | case2 pool name hnone => exact Class.singleton_prefix_parentNames name pool'
  | case3 pool name p hp ih =>
    rw [Class.parentNames_of_some (h _ _ hp), List.cons_prefix_cons]
    exact ⟨rfl, ih (h.withoutKey _)⟩

end Walks

/-! ### Names reached through interfaces -/

/-- The keys of names. -/
def keys (names : List String) : List String := names.map Name.lookupKey

theorem keys_append (names names' : List String) :
    keys (names ++ names') = keys names ++ keys names' :=
  List.map_append

theorem mem_keys {names : List String} {name : String} (h : name ∈ names) :
    Name.lookupKey name ∈ keys names :=
  List.mem_map_of_mem h

theorem keys_subset {names names' : List String} (h : names ⊆ names') : keys names ⊆ keys names' :=
  List.map_subset Name.lookupKey h

theorem any_lookupKey_iff {names : List String} {key : String} :
    (names.any (Name.lookupKey · == key)) = true ↔ key ∈ keys names := by
  simp [keys]

/-- **Reached names.** The names of a list, and the interfaces that are declared by what is found
under a reached name. -/
inductive Reached (classes : List Class) (names : List String) : String → Prop
  | listed {name : String} (h : name ∈ names) : Reached classes names name
  | declared {name next : String} {i : Class} (h : Reached classes names name)
      (hi : findClass classes (Name.lookupKey name) = some i) (hnext : next ∈ i.interfaceNames) :
      Reached classes names next

/-- What is reached stays reached when there are more classes, and from names that are reached
themselves. -/
theorem Reached.mono {classes classes' : List Class} {names names' : List String} {name : String}
    (hclasses : Grows classes classes') (hnames : ∀ n ∈ names, Reached classes' names' n)
    (h : Reached classes names name) : Reached classes' names' name := by
  induction h with
  | listed hmem => exact hnames _ hmem
  | declared _ hi hnext ih => exact ih.declared (hclasses _ _ hi) hnext

/-- **Closed names.** What is found under them declares no interface beyond others. -/
def Closed (classes : List Class) (names others : List String) : Prop :=
  ∀ name ∈ names, ∀ i, findClass classes (Name.lookupKey name) = some i →
    ∀ next ∈ i.interfaceNames, Name.lookupKey next ∈ keys others

/-- Where a list is closed in itself and has the names from which we start, it has all keys that are
reached from them. -/
theorem Reached.key_mem {classes : List Class} {names all : List String} {name : String}
    (h : Reached classes names name) (hall : Closed classes all all)
    (hnames : keys names ⊆ keys all) : Name.lookupKey name ∈ keys all := by
  induction h with
  | listed hmem => exact hnames (mem_keys hmem)
  | declared _ hi hnext ih =>
    -- under the same key the same interface is found
    obtain ⟨same, hsame, hkey⟩ := List.mem_map.mp ih
    rw [← hkey] at hi
    exact hall same hsame _ hi _ hnext

/-- A pending name is found. What it leads to is pending from now on. -/
theorem Closed.find {classes : List Class} {found pending : List String} {name : String}
    (h : Closed classes found (found ++ name :: pending)) (next : List String)
    (hnext : ∀ i, findClass classes (Name.lookupKey name) = some i → i.interfaceNames ⊆ next) :
    Closed classes (found ++ [name]) ((found ++ [name]) ++ (next ++ pending)) := by
  have hsub : found ++ name :: pending ⊆ (found ++ [name]) ++ (next ++ pending) := by
    intro n
    simp only [List.mem_append, List.mem_cons]
    grind
  intro m hm i hi n hn
  rcases List.mem_append.mp hm with hm | hm
  · exact keys_subset hsub (h m hm i hi n hn)
  · -- what the name leads to has just been put there
    rw [List.mem_singleton.mp hm] at hi
    exact mem_keys (List.mem_append_right _ (List.mem_append_left _ (hnext i hi hn)))

namespace Class

section Discover

variable {classes pool : List Class} {found pending : List String} {name : String}

/-- Every discovered name was there before or is reached from the pending ones. -/
theorem reached_of_mem_discover (h : name ∈ discover pool found pending) :
    name ∈ found ∨ Reached pool pending name := by
  fun_induction discover pool found pending with
  | case1 pool found => exact Or.inl h
  | case2 pool found n pending hfound ih =>
    refine (ih h).imp_right (Reached.mono (fun _ _ => id) fun m hm => ?_)
    exact .listed (List.mem_cons_of_mem n hm)
  | case3 pool found n pending hfound hnone ih =>
    rcases ih h with hmem | hreached
    · rcases List.mem_append.mp hmem with hmem | hmem
      · exact Or.inl hmem
      · exact Or.inr (.listed (List.mem_singleton.mp hmem ▸ List.mem_cons_self))
    · exact Or.inr (hreached.mono (fun _ _ => id) fun m hm => .listed (List.mem_cons_of_mem n hm))
  -- the interface leaves the pool, and its own interfaces are pending
  | case4 pool found n pending hfound i hi ih =>
    have hn : Reached pool (n :: pending) n := .listed List.mem_cons_self
    rcases ih h with hmem | hreached
    · rcases List.mem_append.mp hmem with hmem | hmem
      · exact Or.inl hmem
      · exact Or.inr (List.mem_singleton.mp hmem ▸ hn)
    · refine Or.inr (hreached.mono (grows_of_withoutKey pool _) fun m hm => ?_)
      rcases List.mem_append.mp hm with hm | hm
      · exact hn.declared hi hm
      · exact .listed (List.mem_cons_of_mem n hm)

/-- **Discovery is complete.** It runs over the classes under whose keys nothing has been found;
what is found so far leads to nothing that is neither found nor pending. In the end nothing is
pending, so that all that is found leads to nothing new. -/
theorem closed_discover
    (hpool : ∀ key, key ∉ keys found → findClass pool key = findClass classes key)
    (hclosed : Closed classes found (found ++ pending)) :
    keys (found ++ pending) ⊆ keys (discover pool found pending) ∧
      Closed classes (discover pool found pending) (discover pool found pending) := by
  fun_induction discover pool found pending with
  | case1 pool found =>
    rw [List.append_nil] at hclosed ⊢
    exact ⟨List.Subset.refl _, hclosed⟩
  | case2 pool found n pending hfound ih =>
    have hn := any_lookupKey_iff.mp hfound
    -- the name adds no key
    have hsub : keys (found ++ n :: pending) ⊆ keys (found ++ pending) := by
      rw [keys_append, keys_append]
      exact List.append_subset.mpr ⟨List.subset_append_left _ _,
        List.cons_subset.mpr ⟨List.mem_append_left _ hn, List.subset_append_right _ _⟩⟩
    obtain ⟨hkeys, hall⟩ := ih hpool fun m hm i hi next hnext => hsub (hclosed m hm i hi next hnext)
    exact ⟨List.Subset.trans hsub hkeys, hall⟩
  | case3 pool found n pending hfound hnone ih =>
    have hn : findClass classes (Name.lookupKey n) = none := by
      rw [← hpool _ (mt any_lookupKey_iff.mpr hfound), hnone]
    have hfind := hclosed.find [] fun i hi => absurd (hn.symm.trans hi) (by simp)
    have hrest : ∀ key, key ∉ keys (found ++ [n]) → findClass pool key = findClass classes key := by
      intro key hkey
      rw [keys_append, List.mem_append, not_or] at hkey
      exact hpool key hkey.1
    obtain ⟨hkeys, hall⟩ := ih hrest hfind
    rw [List.append_assoc] at hkeys
    exact ⟨hkeys, hall⟩
  | case4 pool found n pending hfound i hi ih =>
    have hn : findClass classes (Name.lookupKey n) = some i := by
      rw [← hpool _ (mt any_lookupKey_iff.mpr hfound), hi]
    have hfind := hclosed.find i.interfaceNames fun j hj => by
      rw [Option.some.inj (hj.symm.trans hn)]
      exact List.Subset.refl _
    have hrest : ∀ key, key ∉ keys (found ++ [n]) →
        findClass (withoutKey pool (Name.lookupKey n)) key = findClass classes key := by
      intro key hkey
      rw [keys_append, List.mem_append, not_or] at hkey
      rw [findClass_withoutKey, if_neg fun heq => hkey.2 (List.mem_singleton.mpr heq)]
      exact hpool key hkey.1
    obtain ⟨hkeys, hall⟩ := ih hrest hfind
    refine ⟨List.Subset.trans (keys_subset fun m => ?_) hkeys, hall⟩
    simp only [List.mem_append, List.mem_cons]
    grind

/-- **Discovered names.** Exactly what is reached is discovered, up to keys. -/
theorem mem_keys_discover_iff {names : List String} {key : String} :
    key ∈ keys (discover classes [] names)
      ↔ ∃ n, Reached classes names n ∧ Name.lookupKey n = key := by
  constructor
  · intro h
    obtain ⟨n, hn, hkey⟩ := List.mem_map.mp h
    exact ⟨n, (reached_of_mem_discover hn).resolve_left List.not_mem_nil, hkey⟩
  · rintro ⟨n, hn, rfl⟩
    -- at the beginning nothing is found and the pool holds all classes
    have hpool : ∀ key, key ∉ keys [] → findClass classes key = findClass classes key :=
      fun _ _ => rfl
    have hclosed : Closed classes [] ([] ++ names) := fun _ h => absurd h List.not_mem_nil
    obtain ⟨hnames, hall⟩ := closed_discover hpool hclosed
    exact hn.key_mem hall hnames

end Discover

end Class

/-- What is discovered from more names among more classes has all keys that were discovered. -/
theorem Grows.discover {classes classes' : List Class} {names names' : List String}
    (h : Grows classes classes') (hnames : names ⊆ names') :
    keys (Class.discover classes [] names) ⊆ keys (Class.discover classes' [] names') := by
  intro key hkey
  obtain ⟨n, hn, heq⟩ := Class.mem_keys_discover_iff.mp hkey
  exact Class.mem_keys_discover_iff.mpr ⟨n, hn.mono h fun _ hm => .listed (hnames hm), heq⟩

/-! ### Answers -/

section Answers

variable {r r' : Registry}

theorem Grows.resolve? (h : Grows r.classes r'.classes) {c d : Class} {name : String}
    (hd : c.resolve? r name = some d) : c.resolve? r' name = some d := by
  unfold Class.resolve? at hd ⊢
  split at hd
  · next hlinked =>
    rw [if_pos hlinked]
    exact h _ _ hd
  · cases hd

/-- **Ancestors** are a prefix of the later ones. -/
theorem Grows.ancestors (h : Grows r.classes r'.classes) (c : Class) :
    c.ancestors r <+: c.ancestors r' :=
  (h.withoutKey c.key).chain c

/-- **Interfaces** stay, up to the spelling of their names. -/
theorem Grows.allInterfaceNames (h : Grows r.classes r'.classes) (c : Class) :
    keys (c.allInterfaceNames r) ⊆ keys (c.allInterfaceNames r') := by
  have hlisted : (c.ancestors r).flatMap (·.interfaceNames)
      ⊆ (c.ancestors r').flatMap (·.interfaceNames) := by
    obtain ⟨more, hmore⟩ := h.ancestors c
    rw [← hmore, List.flatMap_append]
    exact List.subset_append_left _ _
  unfold Class.allInterfaceNames
  refine Grows.discover ?_ (List.append_subset.mpr
    ⟨List.subset_append_left _ _, List.Subset.trans hlisted (List.subset_append_right _ _)⟩)
  split
  · exact h
  · exact fun _ _ hc => hc

theorem Grows.implements (h : Grows r.classes r'.classes) {c : Class} {name : String}
    (hc : c.implements r name = true) : c.implements r' name = true :=
  any_lookupKey_iff.mpr (h.allInterfaceNames c (any_lookupKey_iff.mp hc))

theorem Grows.isSubclassOf (h : Grows r.classes r'.classes) {c : Class} {name : String}
    (hc : c.isSubclassOf r name = true) : c.isSubclassOf r' name = true := by
  have hnames : Class.parentNames c.parentName (if c.linked then c.pool r else [])
      <+: Class.parentNames c.parentName (if c.linked then c.pool r' else []) := by
    split
    · exact (h.withoutKey c.key).parentNames _
    · exact List.prefix_refl _
  unfold Class.isSubclassOf at hc ⊢
  simp only [Bool.and_eq_true, Bool.or_eq_true, any_lookupKey_iff] at hc ⊢
  obtain ⟨hne, hc⟩ := hc
  exact ⟨hne, hc.imp (fun hkey => keys_subset hnames.subset hkey) h.implements⟩

/-- What members are inherited from stays. -/
theorem Grows.sources (h : Grows r.classes r'.classes) (c : Class) :
    c.sources r ⊆ c.sources r' := by
  unfold Class.sources
  refine List.append_subset.mpr
    ⟨List.Subset.trans (h.ancestors c).subset (List.subset_append_left _ _), fun d hd => ?_⟩
  obtain ⟨name, hname, hd⟩ := List.mem_filterMap.mp hd
  -- the later name may be another spelling, under which the same class is found
  obtain ⟨name', hname', hkey⟩ := List.mem_map.mp (h.allInterfaceNames c (mem_keys hname))
  have hsame : c.resolve? r' name' = c.resolve? r' name := by
    rw [Class.resolve?, Class.resolve?, Registry.get?, Registry.get?, hkey]
  exact List.mem_append_right _
    (List.mem_filterMap.mpr ⟨name', hname', hsame.trans (h.resolve? hd)⟩)

/-- A search through all sources that succeeds will succeed later. -/
theorem Grows.findSome?_sources {α : Type} (h : Grows r.classes r'.classes) (c : Class)
    {f : Class → Option α} (hf : ((c.sources r).findSome? f).isSome = true) :
    ((c.sources r').findSome? f).isSome = true := by
  obtain ⟨d, hd, hsome⟩ := List.findSome?_isSome_iff.mp hf
  exact List.findSome?_isSome_iff.mpr ⟨d, h.sources c hd, hsome⟩

/-- A search through the ancestors that succeeds comes to the same end later. -/
theorem Grows.findSome?_ancestors {α : Type} (h : Grows r.classes r'.classes) (c : Class)
    {f : Class → Option α} {a : α} (hf : (c.ancestors r).findSome? f = some a) :
    (c.ancestors r').findSome? f = some a :=
  (h.ancestors c).findSome?_eq_some hf

/-- Whoever is said to declare a method does. -/
theorem Class.ownMethod?_of_method? {c d : Class} {m : Method} {name : String}
    (h : c.method? r name = some (d, m)) : d.ownMethod? name = some m := by
  unfold Class.method? at h
  split at h
  · next own hown =>
    obtain ⟨rfl, rfl⟩ := Prod.mk.inj (Option.some.inj h)
    exact hown
  · obtain ⟨e, -, he⟩ := List.exists_of_findSome?_eq_some h
    obtain ⟨own, hown, heq⟩ := Option.map_eq_some_iff.mp he
    obtain ⟨rfl, rfl⟩ := Prod.mk.inj heq
    exact hown

/-- **Methods** of the class itself or of an ancestor stay. -/
theorem Grows.method? (h : Grows r.classes r'.classes) {c d : Class} {m : Method} {name : String}
    (hm : c.method? r name = some (d, m)) (hd : d = c ∨ d ∈ c.ancestors r) :
    c.method? r' name = some (d, m) := by
  have hown := Class.ownMethod?_of_method? hm
  unfold Class.method? at hm ⊢
  cases hc : c.ownMethod? name with
  | some own =>
    rw [hc] at hm
    exact hm
  | none =>
    rw [hc] at hm
    rcases hd with rfl | hd
    · exact absurd (hc.symm.trans hown) (by simp)
    · -- an ancestor has it, and the ancestors come first
      dsimp only [Class.sources] at hm ⊢
      rw [List.findSome?_append] at hm ⊢
      cases hfirst : (c.ancestors r).findSome? fun d => (d.ownMethod? name).map fun m => (d, m) with
      | none =>
        have hnone := List.findSome?_eq_none_iff.mp hfirst d hd
        exact absurd (hown.symm.trans (Option.map_eq_none_iff.mp hnone)) (by simp)
      | some found =>
        rw [hfirst, Option.some_or] at hm
        rw [h.findSome?_ancestors c hfirst, Option.some_or, hm]

theorem Grows.hasMethod (h : Grows r.classes r'.classes) {c : Class} {name : String}
    (hc : c.hasMethod r name = true) : c.hasMethod r' name = true := by
  unfold Class.hasMethod Class.method? at hc ⊢
  split at hc
  · rfl
  · exact h.findSome?_sources c hc

/-- **Properties** stay: only ancestors leave them to the class. -/
theorem Grows.property? (h : Grows r.classes r'.classes) {c : Class} {name : String}
    {found : Class × Property} (hp : c.property? r name = some found) :
    c.property? r' name = some found := by
  unfold Class.property? at hp ⊢
  split at hp
  · exact hp
  · exact h.findSome?_ancestors c hp

theorem Grows.hasConstant (h : Grows r.classes r'.classes) {c : Class} {name : String}
    (hc : c.hasConstant r name = true) : c.hasConstant r' name = true := by
  unfold Class.hasConstant Class.constant? at hc ⊢
  split at hc
  · rfl
  · exact h.findSome?_sources c hc

end Answers

/-- **What stays.** Of the answers of a class in one registry, those that it also gives in another
one, or that only get longer there. -/
structure Class.Persists (c : Class) (r r' : Registry) : Prop where
  get : ∀ name d, r.get? name = some d → r'.get? name = some d
  ancestors : c.ancestors r <+: c.ancestors r'
  interfaceKeys : keys (c.allInterfaceNames r) ⊆ keys (c.allInterfaceNames r')
  implements : ∀ name, c.implements r name = true → c.implements r' name = true
  isSubclassOf : ∀ name, c.isSubclassOf r name = true → c.isSubclassOf r' name = true
  hasMethod : ∀ name, c.hasMethod r name = true → c.hasMethod r' name = true
  hasProperty : ∀ name, c.hasProperty r name = true → c.hasProperty r' name = true
  hasConstant : ∀ name, c.hasConstant r name = true → c.hasConstant r' name = true
  property : ∀ name found, c.property? r name = some found → c.property? r' name = some found
  /-- The method of an interface may give way to that of an ancestor which is registered later. -/
  method : ∀ name d m, c.method? r name = some (d, m) → (d = c ∨ d ∈ c.ancestors r) →
    c.method? r' name = some (d, m)

/-- **Binding is monotone.** Whatever is registered after a class was asked, it still gives these
answers. -/
theorem Registry.binding_monotone (r : Registry) (c : Class) (cs : List Class) :
    c.Persists r (r.registerAll cs) := by
  have h := r.grows_registerAll cs
  exact
    { get := fun _ => h _
      ancestors := h.ancestors c
      interfaceKeys := h.allInterfaceNames c
      implements := fun _ => h.implements
      isSubclassOf := fun _ => h.isSubclassOf
      hasMethod := fun _ => h.hasMethod
      hasProperty := fun name hp => by
        obtain ⟨found, hfound⟩ := Option.isSome_iff_exists.mp hp
        exact Option.isSome_iff_exists.mpr ⟨found, h.property? hfound⟩
      hasConstant := fun _ => h.hasConstant
      property := fun _ _ => h.property?
      method := fun _ _ _ => h.method? }

end Introspect
