import Introspect.Declaration.Draft
import Introspect.Proofs.Hierarchy.Growth

/-!
# Lines of parents

Two walks follow the parents of a class, and they keep account in different ways. `Class.ancestors`
collects classes and stops where the key of a class comes up again; `Class.isSubclassOf` runs along
the **names** of parents, tests each of them before it looks it up, and counts a name also when
nothing is available under it. This module says what the two have in common.

* `Class.ParentLine c r ds` says that `ds` is a line of parents: the first one is the parent of `c`,
  every other one is the parent of the one before it, and no key occurs twice, that of `c` included;
* `Class.parentLine_ancestors` and `Class.ParentLine.prefix_ancestors`: the ancestors are such a
  line, and every such line is the beginning of them;
* `Class.parentNames_eq`: the names that `Class.isSubclassOf` runs along are those which the class
  and its ancestors declare, as long as these ancestors look names up as well;
* `Class.parent_walks_agree` puts this together. Its condition cannot be dropped: an ancestor that
  is not linked ends the ancestors, but the names go on behind it (`detached_ancestor_is_passed`).

The walks run over pools. What a walk has reached is taken out of its pool, so that a pool is known
by the keys it leaves out (`LeavesOut`), and this is the invariant that both inductions carry.
-/

namespace Introspect

/-- **Lines of parents.** Each class of the line is the parent of the one before it, the first one
that of `c`, and no key occurs twice. -/
structure Class.ParentLine (c : Class) (r : Registry) (ds : List Class) : Prop where
  bound : (c :: ds).IsChain fun d e => d.parent? r = some e
  distinct : ((c :: ds).map Class.key).Nodup

/-- **Pools of a walk.** The pool has the classes that are available, but for those under the keys
that are taken. -/
def LeavesOut (r : Registry) (taken : List String) (pool : List Class) : Prop :=
  ∀ key, findClass pool key = if key ∈ taken then none else findClass r.classes key

section Pools

variable {r : Registry} {taken : List String} {pool : List Class} {c : Class}

theorem leavesOut_pool (c : Class) (r : Registry) : LeavesOut r [c.key] (c.pool r) := by
  intro key
  rw [Class.pool, findClass_withoutKey]
  simp only [List.mem_singleton]

/-- A class that is reached is taken out, and its key is taken from then on. -/
theorem LeavesOut.withoutKey (h : LeavesOut r taken pool) (key : String) :
    LeavesOut r (key :: taken) (withoutKey pool key) := by
  intro k
  rw [findClass_withoutKey, h k]
  by_cases hk : k = key
  · rw [if_pos hk, if_pos (hk ▸ List.mem_cons_self)]
  · simp only [List.mem_cons, hk, if_false, false_or]

/-- Inside a pool a class reaches its parent unless the key of the parent is taken. -/
theorem LeavesOut.parentIn?_eq_some_iff (h : LeavesOut r taken pool) {p : Class} :
    c.parentIn? pool = some p ↔ c.parent? r = some p ∧ p.key ∉ taken := by
  unfold Class.parentIn? Class.parent? Class.resolve? Registry.get?
  cases hlinked : c.linked with
  | false => simp
  | true =>
    cases c.parentName with
    | none => simp
    | some name =>
      show findClass pool (Name.lookupKey name) = some p ↔
        findClass r.classes (Name.lookupKey name) = some p ∧ p.key ∉ taken
      rw [h]
      constructor
      · intro hp
        split at hp
        · cases hp
        · next hfree => exact ⟨hp, Registry.key_eq_of_findClass hp ▸ hfree⟩
      · rintro ⟨hp, hfree⟩
        rw [if_neg (Registry.key_eq_of_findClass hp ▸ hfree)]
        exact hp

end Pools

/-! ### Ancestors are the longest line -/

namespace Class

variable {r : Registry}

/-- **The chain in a pool** follows the parents, and reaches no key twice and none that is taken. -/
theorem chain_spec {c : Class} {pool : List Class} {taken : List String}
    (hpool : LeavesOut r taken pool) :
    (c :: c.chain pool).IsChain (fun d e => d.parent? r = some e) ∧
      ((c.chain pool).map key).Nodup ∧ ∀ d ∈ c.chain pool, d.key ∉ taken := by
  -- on the length of the pool, which the walk shortens
  induction hn : pool.length using Nat.strongRecOn generalizing c pool taken with
  | ind n ih =>
    cases hp : c.parentIn? pool with
    | none =>
      rw [chain_of_none hp]
      exact ⟨List.IsChain.singleton c, List.nodup_nil, fun d hd => absurd hd List.not_mem_nil⟩
    | some p =>
      obtain ⟨hparent, hfree⟩ := hpool.parentIn?_eq_some_iff.mp hp
      have hless : (withoutKey pool p.key).length < n := hn ▸ length_withoutKey_of_parentIn? hp
      obtain ⟨hbound, hnodup, hfresh⟩ := ih _ hless (c := p) (hpool.withoutKey p.key) rfl
      rw [chain_of_some hp]
      refine ⟨List.isChain_cons_cons.mpr ⟨hparent, hbound⟩, ?_, ?_⟩
      · -- behind the parent its key is taken
        rw [List.map_cons, List.nodup_cons]
        refine ⟨fun hmem => ?_, hnodup⟩
        obtain ⟨d, hd, hkey⟩ := List.mem_map.mp hmem
        refine hfresh d hd ?_
        rw [hkey]
        exact List.mem_cons_self
      · intro d hd
        rcases List.mem_cons.mp hd with rfl | hd
        · exact hfree
        · exact fun htaken => hfresh d hd (List.mem_cons_of_mem p.key htaken)

/-- **The chain in a pool is the longest:** whatever follows the parents without reaching a key
twice, or one that is taken, is the beginning of it. -/
theorem prefix_chain {c : Class} {ds pool : List Class} {taken : List String}
    (hpool : LeavesOut r taken pool) (hbound : (c :: ds).IsChain fun d e => d.parent? r = some e)
    (hnodup : (ds.map key).Nodup) (hfresh : ∀ d ∈ ds, d.key ∉ taken) : ds <+: c.chain pool := by
  induction ds generalizing c pool taken with
  | nil => exact List.nil_prefix
  | cons d ds ih =>
    obtain ⟨hparent, hbound⟩ := List.isChain_cons_cons.mp hbound
    rw [List.map_cons, List.nodup_cons] at hnodup
    obtain ⟨hd, hnodup⟩ := hnodup
    have hin : c.parentIn? pool = some d :=
      hpool.parentIn?_eq_some_iff.mpr ⟨hparent, hfresh d List.mem_cons_self⟩
    rw [chain_of_some hin, List.cons_prefix_cons]
    refine ⟨rfl, ih (hpool.withoutKey d.key) hbound hnodup fun e he htaken => ?_⟩
    rcases List.mem_cons.mp htaken with hkey | htaken
    · exact hd (List.mem_map.mpr ⟨e, he, hkey⟩)
    · exact hfresh e (List.mem_cons_of_mem d he) htaken

/-- The ancestors are a line of parents. -/
theorem parentLine_ancestors (c : Class) (r : Registry) : c.ParentLine r (c.ancestors r) := by
  obtain ⟨hbound, hnodup, hfresh⟩ := chain_spec (c := c) (leavesOut_pool c r)
  refine ⟨hbound, ?_⟩
  rw [List.map_cons, List.nodup_cons]
  refine ⟨fun hmem => ?_, hnodup⟩
  obtain ⟨d, hd, hkey⟩ := List.mem_map.mp hmem
  exact hfresh d hd (List.mem_singleton.mpr hkey)

/-- Every line of parents is the beginning of the ancestors. -/
theorem ParentLine.prefix_ancestors {c : Class} {ds : List Class} (h : c.ParentLine r ds) :
    ds <+: c.ancestors r := by
  have hdistinct := h.distinct
  rw [List.map_cons, List.nodup_cons] at hdistinct
  obtain ⟨hc, hnodup⟩ := hdistinct
  apply prefix_chain (leavesOut_pool c r) h.bound hnodup
  intro d hd htaken
  exact hc (List.mem_map.mpr ⟨d, hd, List.mem_singleton.mp htaken⟩)

/-! ### Names along the parents -/

/-- What a class and its chain of parents declare as their parents, available or not. -/
def parentNamesOf (cs : List Class) : List String := cs.filterMap (·.parentName)

theorem parentNames_of_none {name : String} {pool : List Class}
    (h : findClass pool (Name.lookupKey name) = none) : parentNames (some name) pool = [name] := by
  rw [parentNames]
  split
  · rfl
  · next p hp => exact absurd (h.symm.trans hp) (by simp)

/-- **Names along the chain.** Where all classes of a chain look names up, the names that are run
along inside a pool are those which the classes declare. -/
theorem parentNames_eq {c : Class} {pool : List Class} (hc : c.linked = true)
    (hall : ∀ d ∈ c.chain pool, d.linked = true) :
    parentNames c.parentName pool = parentNamesOf (c :: c.chain pool) := by
  induction hn : pool.length using Nat.strongRecOn generalizing c pool with
  | ind n ih =>
    cases hname : c.parentName with
    | none =>
      have hp : c.parentIn? pool = none := by rw [parentIn?, hname]; exact ite_self none
      rw [chain_of_none hp, parentNames, parentNamesOf, List.filterMap_cons_none hname]
      rfl
    | some name =>
      have hfind : c.parentIn? pool = findClass pool (Name.lookupKey name) := by
        rw [parentIn?, if_pos hc, hname]
        rfl
      cases hp : findClass pool (Name.lookupKey name) with
      | none =>
        -- a dangling name counts, and ends both walks
        rw [chain_of_none (hfind.trans hp), parentNames_of_none hp, parentNamesOf,
          List.filterMap_cons_some hname]
        rfl
      | some p =>
        have hin := hfind.trans hp
        have hless : (withoutKey pool p.key).length < n := hn ▸ length_withoutKey_of_parentIn? hin
        rw [chain_of_some hin] at hall ⊢
        have hp_linked := hall p List.mem_cons_self
        have hrest := ih _ hless hp_linked (fun d hd => hall d (List.mem_cons_of_mem p hd)) rfl
        rw [parentNames_of_some hp, ← Registry.key_eq_of_findClass hp, hrest, parentNamesOf,
          parentNamesOf, List.filterMap_cons_some hname]

/-- The names that a class runs along when it is asked for what it extends. -/
theorem parentNames_pool_eq (c : Class) (r : Registry)
    (hall : ∀ d ∈ c.ancestors r, d.linked = true) :
    parentNames c.parentName (if c.linked then c.pool r else [])
      = parentNamesOf (c :: c.ancestors r) := by
  cases hc : c.linked with
  | true => exact parentNames_eq hc hall
  | false =>
    -- a class that is not linked looks nothing up, and has no ancestors
    have hp : c.parentIn? (c.pool r) = none := by
      rw [parentIn?, hc]
      rfl
    have hnil : c.ancestors r = [] := chain_of_none hp
    rw [hnil, if_neg (by decide)]
    cases hname : c.parentName with
    | none =>
      rw [parentNames, parentNamesOf, List.filterMap_cons_none hname]
      rfl
    | some name =>
      have hnone : findClass [] (Name.lookupKey name) = none := rfl
      rw [parentNames_of_none hnone, parentNamesOf, List.filterMap_cons_some hname]
      rfl

/-! ### Agreement -/

/-- **Agreement of the two walks.** -/
structure ParentWalksAgree (c : Class) (r : Registry) : Prop where
  /-- The ancestors are a line of parents. -/
  line : c.ParentLine r (c.ancestors r)
  /-- Every line of parents is the beginning of them. -/
  longest : ∀ ds, c.ParentLine r ds → ds <+: c.ancestors r
  /-- What the class is a subclass of: what it and its ancestors declare as parents, available or
  not, and what it implements; but never itself. -/
  isSubclassOf_iff : (∀ d ∈ c.ancestors r, d.linked = true) → ∀ name,
    c.isSubclassOf r name = true ↔
      Name.lookupKey name ≠ c.key ∧
        (Name.lookupKey name ∈ keys (parentNamesOf (c :: c.ancestors r)) ∨
          c.implements r name = true)

/-- **The two walks along the parents agree,** whatever is registered: with circles of any length,
classes that extend themselves, missing parents, and classes that are not registered themselves but
whose key is taken by another one. -/
theorem parent_walks_agree (c : Class) (r : Registry) : c.ParentWalksAgree r where
  line := c.parentLine_ancestors r
  longest := fun _ h => h.prefix_ancestors
  isSubclassOf_iff := by
    intro hall name
    unfold isSubclassOf
    rw [parentNames_pool_eq c r hall]
    simp only [Bool.and_eq_true, Bool.or_eq_true, any_lookupKey_iff, decide_eq_true_eq]

end Class

/-! ### A class that is not linked among the ancestors -/

/-- A class with nothing but a name and a parent. -/
def Class.heir (name parent : String) (linked : Bool) : Class :=
  { ClassDraft.ofName name {} with parentName := some parent }.build linked

/-- `A` extends `B`, `B` extends `C` and `C` extends `D`, which is missing. `B` is linked or not. -/
def heirs (linked : Bool) : Registry :=
  Registry.empty.registerAll
    [Class.heir "A" "B" true, Class.heir "B" "C" linked, Class.heir "C" "D" true]

/-- **The condition is needed.** `B` is not linked and ends the ancestors of `A`, while the names of
parents go on behind it: `A` is a subclass of `D`, which neither `A` nor an ancestor of it names. -/
theorem detached_ancestor_is_passed :
    ¬ ((Class.heir "A" "B" true).isSubclassOf (heirs false) "D" = true ↔
      Name.lookupKey "D" ≠ (Class.heir "A" "B" true).key ∧
        (Name.lookupKey "D" ∈ keys (Class.parentNamesOf (Class.heir "A" "B" true ::
            (Class.heir "A" "B" true).ancestors (heirs false))) ∨
          (Class.heir "A" "B" true).implements (heirs false) "D" = true)) := by
  -- no interface is declared anywhere
  have hnone : (Class.heir "A" "B" true).interfaceNames ++
      ((Class.heir "A" "B" true).ancestors (heirs false)).flatMap (·.interfaceNames) = [] := by
    decide +kernel
  have himplements : (Class.heir "A" "B" true).implements (heirs false) "D" = false := by
    rw [Class.implements, Class.allInterfaceNames, hnone, Class.discover]
    rfl
  rw [himplements]
  decide +kernel

/-- With `B` linked, `D` is named by the ancestor `C`. -/
theorem parent_walks_agree_heirs :
    (∀ d ∈ (Class.heir "A" "B" true).ancestors (heirs true), d.linked = true) ∧
      ∀ name, (Class.heir "A" "B" true).isSubclassOf (heirs true) name = true ↔
        Name.lookupKey name ≠ (Class.heir "A" "B" true).key ∧
          (Name.lookupKey name ∈ keys (Class.parentNamesOf (Class.heir "A" "B" true ::
              (Class.heir "A" "B" true).ancestors (heirs true))) ∨
            (Class.heir "A" "B" true).implements (heirs true) name = true) := by
  have hall : ∀ d ∈ (Class.heir "A" "B" true).ancestors (heirs true), d.linked = true := by
    decide +kernel
  exact ⟨hall, (Class.parent_walks_agree _ _).isSubclassOf_iff hall⟩

end Introspect
