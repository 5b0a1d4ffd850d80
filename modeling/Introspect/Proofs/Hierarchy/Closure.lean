import Introspect.Proofs.Hierarchy.Growth
import Mathlib.Order.Bounds.Basic

/-!
# The closure of interfaces

The interfaces of a class are discovered with one list of pending names: a name that is found puts
the names which its interface declares in front of those that wait. A name may wait several times,
and counts when it comes up first. This module compares the list with two descriptions in which
nothing is pending.

* **As a set.** `Class.HoldsInterfaces` says of a set of keys that it has what the class and its
  ancestors declare, and with a key also what is declared by the interface found under it. The keys
  of the discovered names are the least such set (`Class.isLeast_allInterfaceNames`).
* **As a walk.** `Preorder` is the recursive walk: it visits the names of a list one after the
  other, passes over what was visited before, and goes below a name right after visiting it, before
  it turns to the next one. It always comes to an end, it has no choices, and what it has visited in
  the end is the discovered list (`Class.preorder_iff`).

Nothing is assumed of the registry: interfaces may extend each other in a circle, and names may lead
nowhere. `Preorder.nodup` says that no key is visited twice.
-/

namespace Introspect

/-! ### The recursive walk -/

/-- **The walk.** `Preorder declared found names found'` says that the walk along `names`, with
`found` visited already, ends with `found'` visited. `declared` are the names directly below a name;
they are walked along right behind it. -/
inductive Preorder (declared : String → List String) :
    List String → List String → List String → Prop
  | done (found : List String) : Preorder declared found [] found
  | again {found names found' : List String} {name : String}
      (visited : Name.lookupKey name ∈ keys found) (rest : Preorder declared found names found') :
      Preorder declared found (name :: names) found'
  | visit {found names below found' : List String} {name : String}
      (fresh : Name.lookupKey name ∉ keys found)
      (down : Preorder declared (found ++ [name]) (declared name) below)
      (rest : Preorder declared below names found') :
      Preorder declared found (name :: names) found'

namespace Preorder

variable {declared : String → List String} {found names found' : List String}

/-- The walk has no choices. -/
theorem unique (h : Preorder declared found names found') {found'' : List String}
    (h' : Preorder declared found names found'') : found' = found'' := by
  induction h generalizing found'' with
  | done found =>
    cases h' with
    | done => rfl
  | again visited rest ih =>
    cases h' with
    | again _ rest' => exact ih rest'
    | visit fresh _ _ => exact absurd visited fresh
  | visit fresh down rest ihDown ihRest =>
    cases h' with
    | again visited _ => exact absurd visited fresh
    | visit _ down' rest' =>
      -- both walks come back from below with the same names
      obtain rfl := ihDown down'
      exact ihRest rest'

/-- A walk along two lists is a walk along the first and then one along the second. -/
theorem split {names' : List String} (h : Preorder declared found (names ++ names') found') :
    ∃ mid, Preorder declared found names mid ∧ Preorder declared mid names' found' := by
  induction names generalizing found with
  | nil => exact ⟨found, .done found, h⟩
  | cons name names ih =>
    cases h with
    | again visited rest =>
      obtain ⟨mid, hmid, hrest⟩ := ih rest
      exact ⟨mid, .again visited hmid, hrest⟩
    | visit fresh down rest =>
      obtain ⟨mid, hmid, hrest⟩ := ih rest
      exact ⟨mid, .visit fresh down hmid, hrest⟩

/-- No key is visited twice. -/
theorem nodup (h : Preorder declared found names found') (hfound : (keys found).Nodup) :
    (keys found').Nodup := by
  induction h with
  | done found => exact hfound
  | again _ _ ih => exact ih hfound
  | visit fresh _ _ ihDown ihRest =>
    apply ihRest
    apply ihDown
    rw [keys_append, List.nodup_append]
    refine ⟨hfound, List.pairwise_singleton _ _, fun key hkey key' hkey' heq => fresh ?_⟩
    rw [← List.mem_singleton.mp hkey', ← heq]
    exact hkey

end Preorder

namespace Class

/-! ### Discovery is the walk -/

/-- The classes in which a class looks names up. -/
def lookups (c : Class) (r : Registry) : List Class := if c.linked then r.classes else []

theorem resolve?_eq (c : Class) (r : Registry) (name : String) :
    c.resolve? r name = findClass (c.lookups r) (Name.lookupKey name) := by
  unfold resolve? lookups Registry.get?
  split <;> rfl

/-- The names that are declared by the interface of a name; none if there is no such interface. -/
def declaredBy (c : Class) (r : Registry) (name : String) : List String :=
  ((c.resolve? r name).map (·.interfaceNames)).getD []

/-- **Discovery is the walk.** The pending names are those that the walk has still to visit: first
what is below the name that was found last, then what waits further up. -/
theorem preorder_discover {c : Class} {r : Registry} {pool : List Class}
    {found pending : List String}
    (hpool : ∀ key, key ∉ keys found → findClass pool key = findClass (c.lookups r) key) :
    Preorder (c.declaredBy r) found pending (discover pool found pending) := by
  fun_induction discover pool found pending with
  | case1 pool found => exact .done found
  | case2 pool found name pending hfound ih =>
    exact .again (any_lookupKey_iff.mp hfound) (ih hpool)
  | case3 pool found name pending hfound hnone ih =>
    have hfresh := mt any_lookupKey_iff.mpr hfound
    -- nothing is below a name that leads nowhere
    have hbelow : c.declaredBy r name = [] := by
      rw [declaredBy, resolve?_eq, ← hpool _ hfresh, hnone]
      rfl
    have hdown : Preorder (c.declaredBy r) (found ++ [name]) (c.declaredBy r name)
        (found ++ [name]) := by
      rw [hbelow]
      exact .done _
    refine .visit hfresh hdown (ih fun key hkey => ?_)
    rw [keys_append, List.mem_append, not_or] at hkey
    exact hpool key hkey.1
  | case4 pool found name pending hfound i hi ih =>
    have hfresh := mt any_lookupKey_iff.mpr hfound
    have hbelow : c.declaredBy r name = i.interfaceNames := by
      rw [declaredBy, resolve?_eq, ← hpool _ hfresh, hi]
      rfl
    -- the interface has left the pool, but its key is found now
    have hwalk := ih fun key hkey => by
      rw [keys_append, List.mem_append, not_or] at hkey
      rw [findClass_withoutKey, if_neg fun heq => hkey.2 (List.mem_singleton.mpr heq)]
      exact hpool key hkey.1
    obtain ⟨below, hdown, hrest⟩ := hwalk.split
    exact .visit hfresh (hbelow ▸ hdown) hrest

/-- The names with which the search for interfaces begins: those of the class, and those of its
ancestors, nearest first. -/
def declaredInterfaces (c : Class) (r : Registry) : List String :=
  c.interfaceNames ++ (c.ancestors r).flatMap (·.interfaceNames)

/-- The walk from the declared names ends with the interfaces of the class. -/
theorem preorder_allInterfaceNames (c : Class) (r : Registry) :
    Preorder (c.declaredBy r) [] (c.declaredInterfaces r) (c.allInterfaceNames r) :=
  preorder_discover fun _ _ => rfl

/-- It ends with nothing else. -/
theorem preorder_iff (c : Class) (r : Registry) (names : List String) :
    Preorder (c.declaredBy r) [] (c.declaredInterfaces r) names ↔
      names = c.allInterfaceNames r := by
  constructor
  · intro h
    exact h.unique (c.preorder_allInterfaceNames r)
  · rintro rfl
    exact c.preorder_allInterfaceNames r

/-! ### The least set of keys -/

/-- **Sets of interfaces.** The set has the keys of all names that the class and its ancestors
declare, and with a key under which an interface is found also those of the names that this
interface declares. -/
structure HoldsInterfaces (c : Class) (r : Registry) (set : Set String) : Prop where
  own : ∀ name ∈ c.interfaceNames, Name.lookupKey name ∈ set
  inherited : ∀ d ∈ c.ancestors r, ∀ name ∈ d.interfaceNames, Name.lookupKey name ∈ set
  extended : ∀ name i, Name.lookupKey name ∈ set → c.resolve? r name = some i →
    ∀ next ∈ i.interfaceNames, Name.lookupKey next ∈ set

theorem mem_keys_allInterfaceNames_iff {c : Class} {r : Registry} {key : String} :
    key ∈ keys (c.allInterfaceNames r) ↔
      ∃ name, Reached (c.lookups r) (c.declaredInterfaces r) name ∧ Name.lookupKey name = key :=
  mem_keys_discover_iff

/-- A set of interfaces has the key of every name that is reached. -/
theorem HoldsInterfaces.mem_of_reached {c : Class} {r : Registry} {set : Set String}
    (h : c.HoldsInterfaces r set) {name : String}
    (hname : Reached (c.lookups r) (c.declaredInterfaces r) name) : Name.lookupKey name ∈ set := by
  induction hname with
  | listed hmem =>
    rcases List.mem_append.mp hmem with hown | hinherited
    · exact h.own _ hown
    · obtain ⟨d, hd, hname⟩ := List.mem_flatMap.mp hinherited
      exact h.inherited d hd _ hname
  | declared _ hi hnext ih => exact h.extended _ _ ih (c.resolve?_eq r _ ▸ hi) _ hnext

/-- **The least set.** What is discovered is a set of interfaces, and every such set has it. -/
theorem isLeast_allInterfaceNames (c : Class) (r : Registry) :
    IsLeast {set | c.HoldsInterfaces r set} {key | key ∈ keys (c.allInterfaceNames r)} := by
  constructor
  · refine ⟨fun name hname => ?_, fun d hd name hname => ?_, fun name i hmem hi next hnext => ?_⟩
    · exact mem_keys_allInterfaceNames_iff.mpr
        ⟨name, .listed (List.mem_append_left _ hname), rfl⟩
    · exact mem_keys_allInterfaceNames_iff.mpr
        ⟨name, .listed (List.mem_append_right _ (List.mem_flatMap.mpr ⟨d, hd, hname⟩)), rfl⟩
    · -- what was reached may be spelled otherwise, but the same interface is found under it
      obtain ⟨same, hsame, hkey⟩ := mem_keys_allInterfaceNames_iff.mp hmem
      rw [resolve?_eq, ← hkey] at hi
      exact mem_keys_allInterfaceNames_iff.mpr ⟨next, hsame.declared hi hnext, rfl⟩
  · intro set hset key hmem
    obtain ⟨name, hname, rfl⟩ := mem_keys_allInterfaceNames_iff.mp hmem
    exact HoldsInterfaces.mem_of_reached hset hname

/-- **The closure of interfaces.** The discovered names have different keys, these keys are the
least set that is closed under what interfaces declare, and the names stand in the order in which
the recursive walk visits them first. -/
structure InterfaceClosure (c : Class) (r : Registry) (names : List String) : Prop where
  distinct : (keys names).Nodup
  least : IsLeast {set | c.HoldsInterfaces r set} {key | key ∈ keys names}
  walk : ∀ names', Preorder (c.declaredBy r) [] (c.declaredInterfaces r) names' ↔ names' = names

/-- **Interfaces are closed,** in every registry, whatever circles it has and wherever its names
lead. -/
theorem interfaceClosure_allInterfaceNames (c : Class) (r : Registry) :
    c.InterfaceClosure r (c.allInterfaceNames r) where
  distinct := (c.preorder_allInterfaceNames r).nodup List.nodup_nil
  least := c.isLeast_allInterfaceNames r
  walk := c.preorder_iff r

end Class

end Introspect
