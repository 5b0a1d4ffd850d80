import Introspect.Proofs.Hierarchy.Closure
import Introspect.Proofs.Hierarchy.Lineage
import Mathlib.Data.List.Chain
import Mathlib.Data.List.Nodup

/-!
# Descent

A class descends from what it extends and from what it implements. `Class.isSubclassOf` answers with
two searches that know little of each other: one runs along the names of parents and is cut where a
key comes up again, the other one discovers interfaces, beginning with those of the class and its
ancestors. Two classes of one hierarchy are searched from different places and may be cut at
different ones. This module shows that the answers fit together all the same.

* `Class.parent_mem_line`: a registered class and its ancestors are closed under parents. Where the
  walk was cut, the next parent is one of them;
* `Class.line_subset`: whatever an ancestor has as an ancestor, the class has, or is;
* `Class.keys_allInterfaceNames_subset`: the interfaces of one class are among those of another one,
  if the search for the former begins with names that the latter reaches;
* `Class.isSubclassOf_trans` puts this together: descent is transitive. Interfaces have to be free
  of parents for that, because the search for interfaces does not follow parents.

The classes on the way have to look names up. One that is not linked ends the ancestors, and with
them the interfaces, while the names of parents go on behind it (`detached_parent_hides_interface`).
-/

namespace Introspect

namespace Registry

variable {r : Registry} {c d : Class}

/-- **Registered classes.** Under the name of the class the registry has the class itself. -/
def Holds (r : Registry) (c : Class) : Prop := r.get? c.name = some c

/-- **Interfaces without parents.** What is found under a declared interface names no parent. -/
def InterfacesRootless (r : Registry) : Prop :=
  ∀ d ∈ r.classes, ∀ name ∈ d.interfaceNames, ∀ i, r.get? name = some i → i.parentName = none

theorem Holds.mem (h : r.Holds c) : c ∈ r.classes := mem_of_findClass h

/-- Whatever is found under some name is found under its own. -/
theorem holds_of_findClass {key : String} (h : findClass r.classes key = some c) : r.Holds c := by
  rw [← key_eq_of_findClass h] at h
  exact h

/-- Registered classes are known by their keys. -/
theorem Holds.eq_of_key_eq (hc : r.Holds c) (hd : r.Holds d) (hkey : c.key = d.key) : c = d := by
  have hc : findClass r.classes c.key = some c := hc
  have hd : findClass r.classes d.key = some d := hd
  rw [hkey] at hc
  exact Option.some.inj (hc.symm.trans hd)

/-- Classes with different keys are all registered, one after the other. -/
theorem holds_registerAll {cs : List Class} (hkeys : (cs.map Class.key).Nodup) (hc : c ∈ cs) :
    (empty.registerAll cs).Holds c := by
  show findClass (empty.registerAll cs).classes c.key = some c
  rw [sameLookups_registerAll cs c.key]
  induction cs with
  | nil => cases hc
  | cons d cs ih =>
    rw [List.map_cons, List.nodup_cons] at hkeys
    rw [findClass_cons]
    rcases List.mem_cons.mp hc with rfl | hc
    · exact if_pos rfl
    · have hne : d.key ≠ c.key := by
        intro heq
        rw [heq] at hkeys
        exact hkeys.1 (List.mem_map_of_mem hc)
      rw [if_neg hne]
      exact ih hkeys.2 hc

end Registry

namespace Class

variable {r : Registry} {a b c d : Class}

/-! ### The line of a class -/

/-- Whatever a class finds is registered under the name. -/
theorem get?_of_resolve? {name : String} (h : c.resolve? r name = some d) :
    r.get? name = some d := by
  unfold resolve? at h
  split at h
  · exact h
  · cases h

theorem holds_of_parent? (h : c.parent? r = some d) : r.Holds d := by
  obtain ⟨name, -, hname⟩ := Option.bind_eq_some_iff.mp h
  exact Registry.holds_of_findClass (get?_of_resolve? hname)

/-- Ancestors are registered, whether or not the class itself is. -/
theorem holds_of_mem_ancestors (h : d ∈ c.ancestors r) : r.Holds d := by
  have hline := c.parentLine_ancestors r
  -- along the line, of which only the first class need not have been looked up
  have hlooked : d = c ∨ r.Holds d :=
    hline.bound.cons_induction (fun d => d = c ∨ r.Holds d) _
      (fun _ _ hparent _ => .inr (holds_of_parent? hparent)) (.inl rfl) d h
  apply hlooked.resolve_left
  rintro rfl
  have hdistinct := hline.distinct
  rw [List.map_cons, List.nodup_cons] at hdistinct
  exact hdistinct.1 (List.mem_map_of_mem h)

theorem holds_of_mem_line (ha : r.Holds a) (h : d ∈ a :: a.ancestors r) : r.Holds d := by
  rcases List.mem_cons.mp h with rfl | h
  · exact ha
  · exact holds_of_mem_ancestors h

/-- **Lines are closed.** The parent of a class of the line is on the line: it is the next one, or
the line has ended because its key had come up before. -/
theorem parent_mem_line (ha : r.Holds a) (hc : c ∈ a :: a.ancestors r)
    (hparent : c.parent? r = some d) : d ∈ a :: a.ancestors r := by
  by_contra hout
  have hline := a.parentLine_ancestors r
  obtain ⟨before, behind, hsplit⟩ := List.append_of_mem hc
  cases behind with
  | cons e behind =>
    have hbound := hline.bound
    rw [hsplit] at hbound
    obtain ⟨-, hnext, -⟩ := List.isChain_append_cons_cons.mp hbound
    -- behind the class on its line stands its parent
    obtain rfl : d = e := Option.some.inj (hparent.symm.trans hnext)
    apply hout
    rw [hsplit]
    exact List.mem_append_right before (List.mem_cons_of_mem c List.mem_cons_self)
  | nil =>
    -- otherwise the line could be continued, but it is the longest one
    have hlonger : a.ParentLine r (a.ancestors r ++ [d]) := by
      constructor
      · rw [← List.cons_append, List.isChain_append]
        refine ⟨hline.bound, List.IsChain.singleton d, ?_⟩
        intro last hlast next hnext
        rw [hsplit, List.getLast?_concat, Option.mem_some_iff] at hlast
        rw [List.head?_cons, Option.mem_some_iff] at hnext
        rw [← hlast, ← hnext]
        exact hparent
      · rw [← List.cons_append, List.map_append, List.nodup_append]
        refine ⟨hline.distinct, List.nodup_singleton _, ?_⟩
        intro key hkey key' hkey' heq
        obtain ⟨e, he, rfl⟩ := List.mem_map.mp hkey
        have hsame : e.key = d.key := heq.trans (List.mem_singleton.mp hkey')
        apply hout
        rw [← (holds_of_mem_line ha he).eq_of_key_eq (holds_of_parent? hparent) hsame]
        exact he
    have hlength := hlonger.prefix_ancestors.length_le
    rw [List.length_append, List.length_singleton] at hlength
    omega

/-- **Lines inside lines.** The line of an ancestor stays on the line of the class. It may run
around a circle and come back to the class itself, but it leads nowhere else. -/
theorem line_subset (ha : r.Holds a) (hb : b ∈ a :: a.ancestors r) :
    b :: b.ancestors r ⊆ a :: a.ancestors r := by
  intro d hd
  rcases List.mem_cons.mp hd with rfl | hd
  · exact hb
  · -- from class to parent, none of which leaves the line of the class
    exact (b.parentLine_ancestors r).bound.cons_induction (· ∈ a :: a.ancestors r) _
      (fun _ _ hparent hmem => parent_mem_line ha hmem hparent) hb d hd

/-! ### The interfaces of a class -/

/-- The search for interfaces begins with what is declared along the line. -/
theorem declaredInterfaces_eq (c : Class) (r : Registry) :
    c.declaredInterfaces r = (c :: c.ancestors r).flatMap (·.interfaceNames) := rfl

theorem grows_lookups (ha : a.linked = true) (b : Class) : Grows (b.lookups r) (a.lookups r) := by
  unfold lookups
  rw [if_pos ha]
  split
  · exact fun _ _ h => h
  · -- nothing is found by a class that is not linked
    intro key c h
    cases h

/-- **Inherited interfaces.** If one class begins its search for interfaces with names that are
reached from another one, it finds nothing that the other one does not find. -/
theorem keys_allInterfaceNames_subset (ha : a.linked = true)
    (hnames : ∀ name ∈ b.declaredInterfaces r,
      Reached (a.lookups r) (a.declaredInterfaces r) name) :
    keys (b.allInterfaceNames r) ⊆ keys (a.allInterfaceNames r) := by
  intro key hkey
  obtain ⟨name, hname, rfl⟩ := mem_keys_allInterfaceNames_iff.mp hkey
  exact mem_keys_allInterfaceNames_iff.mpr
    ⟨name, hname.mono (grows_lookups ha b) hnames, rfl⟩

/-- Every reached name is declared by a registered class. -/
theorem exists_declares_of_reached (ha : r.Holds a) {name : String}
    (h : Reached (a.lookups r) (a.declaredInterfaces r) name) :
    ∃ d ∈ r.classes, name ∈ d.interfaceNames := by
  induction h with
  | listed hmem =>
    rcases List.mem_append.mp hmem with hown | hinherited
    · exact ⟨a, ha.mem, hown⟩
    · obtain ⟨d, hd, hname⟩ := List.mem_flatMap.mp hinherited
      exact ⟨d, (holds_of_mem_ancestors hd).mem, hname⟩
  | @declared name next i _ hi hnext _ =>
    have hi : i ∈ r.classes := by
      unfold lookups at hi
      split at hi
      · exact Registry.mem_of_findClass hi
      · cases hi
    exact ⟨i, hi, hnext⟩

/-! ### Descent -/

/-- **What a class descends from,** where the ancestors look names up: the keys that are named as
parents along its line, and those of its interfaces. -/
theorem isSubclassOf_iff_exists (hall : ∀ d ∈ c.ancestors r, d.linked = true) {name : String} :
    c.isSubclassOf r name = true ↔
      Name.lookupKey name ≠ c.key ∧
        ((∃ d ∈ c :: c.ancestors r,
            d.parentName.map Name.lookupKey = some (Name.lookupKey name)) ∨
          Name.lookupKey name ∈ keys (c.allInterfaceNames r)) := by
  have hnamed : Name.lookupKey name ∈ keys (parentNamesOf (c :: c.ancestors r)) ↔
      ∃ d ∈ c :: c.ancestors r,
        d.parentName.map Name.lookupKey = some (Name.lookupKey name) := by
    simp only [keys, parentNamesOf, List.mem_map, List.mem_filterMap, Option.map_eq_some_iff]
    constructor
    · rintro ⟨n, ⟨d, hd, hn⟩, hkey⟩
      exact ⟨d, hd, n, hn, hkey⟩
    · rintro ⟨d, hd, n, hn, hkey⟩
      exact ⟨n, ⟨d, hd, hn⟩, hkey⟩
  unfold isSubclassOf implements
  rw [parentNames_pool_eq c r hall]
  simp only [Bool.and_eq_true, Bool.or_eq_true, any_lookupKey_iff, decide_eq_true_eq, hnamed]

/-- A registered class that is named as a parent along the line is on the line. -/
theorem mem_line_of_named (ha : r.Holds a) (hb : r.Holds b)
    (hlinked : ∀ d ∈ a :: a.ancestors r, d.linked = true) (hd : d ∈ a :: a.ancestors r)
    (hnamed : d.parentName.map Name.lookupKey = some b.key) : b ∈ a :: a.ancestors r := by
  obtain ⟨name, hname, hkey⟩ := Option.map_eq_some_iff.mp hnamed
  -- names with one key lead to the same class
  have hparent : d.parent? r = some b := by
    rw [parent?, hname, Option.bind_some, resolve?, if_pos (hlinked d hd), Registry.get?, hkey]
    exact hb
  exact parent_mem_line ha hd hparent

/-- **Through an ancestor.** Whatever an ancestor descends from, the class descends from. -/
theorem isSubclassOf_of_ancestor (ha : r.Holds a)
    (hlinked : ∀ d ∈ a :: a.ancestors r, d.linked = true) (hb : b ∈ a :: a.ancestors r)
    {name : String} (hname : Name.lookupKey name ≠ a.key) (h : b.isSubclassOf r name = true) :
    a.isSubclassOf r name = true := by
  have hsub := line_subset ha hb
  have hall : ∀ d ∈ b.ancestors r, d.linked = true := fun d hd =>
    hlinked d (hsub (List.mem_cons_of_mem b hd))
  obtain ⟨-, hnamed | hinterface⟩ := (isSubclassOf_iff_exists hall).mp h
  · -- who names the parent is on the longer line as well
    obtain ⟨d, hd, hparent⟩ := hnamed
    exact (isSubclassOf_iff_exists fun d hd => hlinked d (List.mem_cons_of_mem a hd)).mpr
      ⟨hname, .inl ⟨d, hsub hd, hparent⟩⟩
  · -- and so is who declares the interfaces with which the search begins
    have hnames : ∀ n ∈ b.declaredInterfaces r,
        Reached (a.lookups r) (a.declaredInterfaces r) n := by
      intro n hn
      apply Reached.listed
      rw [declaredInterfaces_eq] at hn ⊢
      obtain ⟨d, hd, hn⟩ := List.mem_flatMap.mp hn
      exact List.mem_flatMap.mpr ⟨d, hsub hd, hn⟩
    exact (isSubclassOf_iff_exists fun d hd => hlinked d (List.mem_cons_of_mem a hd)).mpr
      ⟨hname, .inr (keys_allInterfaceNames_subset (hlinked a List.mem_cons_self) hnames hinterface)⟩

/-- **Through an interface.** Whatever an interface without a parent descends from, a class with
this interface descends from. -/
theorem isSubclassOf_of_interface (hb : r.Holds b)
    (hlinked : ∀ d ∈ a :: a.ancestors r, d.linked = true) (hroot : b.parentName = none)
    (hinterface : b.key ∈ keys (a.allInterfaceNames r)) {name : String}
    (hname : Name.lookupKey name ≠ a.key) (h : b.isSubclassOf r name = true) :
    a.isSubclassOf r name = true := by
  have hnil : b.ancestors r = [] := by
    apply chain_of_none
    rw [parentIn?, hroot]
    exact ite_self none
  have hall : ∀ d ∈ b.ancestors r, d.linked = true := by
    rw [hnil]
    exact fun d hd => absurd hd List.not_mem_nil
  obtain ⟨-, ⟨d, hd, hnamed⟩ | hkey⟩ := (isSubclassOf_iff_exists hall).mp h
  · -- no parent is named, neither by the interface nor by an ancestor
    rw [hnil, List.mem_singleton] at hd
    rw [hd, hroot] at hnamed
    cases hnamed
  · -- the interface itself is reached from the class, and with it all that it declares
    obtain ⟨same, hsame, heq⟩ := mem_keys_allInterfaceNames_iff.mp hinterface
    have ha := hlinked a List.mem_cons_self
    have hfound : findClass (a.lookups r) (Name.lookupKey same) = some b := by
      rw [heq, lookups, if_pos ha]
      exact hb
    have hnames : ∀ n ∈ b.declaredInterfaces r,
        Reached (a.lookups r) (a.declaredInterfaces r) n := by
      intro n hn
      rw [declaredInterfaces, hnil, List.flatMap_nil, List.append_nil] at hn
      exact hsame.declared hfound hn
    exact (isSubclassOf_iff_exists fun d hd => hlinked d (List.mem_cons_of_mem a hd)).mpr
      ⟨hname, .inr (keys_allInterfaceNames_subset ha hnames hkey)⟩

/-- **Descent is transitive.** Parents and interfaces may run in circles or lead nowhere. The
interfaces name no parents, and the class and its ancestors look names up; of the class in the
middle nothing is asked but that it is registered. -/
theorem isSubclassOf_trans (hrootless : r.InterfacesRootless) (ha : r.Holds a) (hb : r.Holds b)
    (hlinked : ∀ d ∈ a :: a.ancestors r, d.linked = true) {name : String}
    (hname : Name.lookupKey name ≠ a.key) (hab : a.isSubclassOf r b.name = true)
    (hbc : b.isSubclassOf r name = true) : a.isSubclassOf r name = true := by
  have hall : ∀ d ∈ a.ancestors r, d.linked = true := fun d hd =>
    hlinked d (List.mem_cons_of_mem a hd)
  obtain ⟨-, ⟨d, hd, hnamed⟩ | hinterface⟩ := (isSubclassOf_iff_exists hall).mp hab
  · have hmem : b ∈ a :: a.ancestors r := mem_line_of_named ha hb hlinked hd hnamed
    exact isSubclassOf_of_ancestor ha hlinked hmem hname hbc
  · -- an interface is declared somewhere, so that it names no parent
    obtain ⟨same, hsame, hkey⟩ := mem_keys_allInterfaceNames_iff.mp hinterface
    obtain ⟨d, hd, hdeclares⟩ := exists_declares_of_reached ha hsame
    have hfound : r.get? same = some b := by
      rw [Registry.get?, hkey]
      exact hb
    have hroot := hrootless d hd same hdeclares b hfound
    exact isSubclassOf_of_interface hb hlinked hroot hinterface hname hbc

end Class

/-! ### A parent that is not linked -/

namespace Class

variable {r : Registry} {c : Class}

/-- Without declared names no interface is found. -/
theorem implements_of_declaredInterfaces_nil {name : String} (h : c.declaredInterfaces r = []) :
    c.implements r name = false := by
  have hnone : c.allInterfaceNames r = [] := by
    show discover (c.lookups r) [] (c.declaredInterfaces r) = []
    rw [h, discover]
  rw [implements, hnone]
  rfl

theorem isSubclassOf_of_implements {name : String} (hname : Name.lookupKey name ≠ c.key)
    (h : Name.lookupKey name ∈ keys (c.allInterfaceNames r)) : c.isSubclassOf r name = true := by
  unfold isSubclassOf implements
  simp only [any_lookupKey_iff.mpr h, Bool.or_true, Bool.and_true, decide_eq_true_eq]
  exact hname

end Class

/-- `B` extends `A` and implements `I`. -/
def circleB : Class := { Class.heir "B" "A" true with interfaceNames := ["I"] }

/-- The interface `I` extends `J`. -/
def circleI : Class :=
  { ClassDraft.ofName "I" { hasInterface := true } with interfaceNames := ["J"] }.build true

/-- A circle: `A` extends `P`, `P` extends `B`, and `B` extends `A`. Behind `B` there are the
interface `I` and `J`, which is missing. `P` is linked or not. -/
def circle (linked : Bool) : Registry :=
  Registry.empty.registerAll
    [Class.heir "A" "P" true, Class.heir "P" "B" linked, circleB, circleI]

/-- The only interface of the circle that is found has no parent. -/
theorem interfacesRootless_circle (linked : Bool) : (circle linked).InterfacesRootless := by
  have hnone : ∀ linked, ∀ d ∈ (circle linked).classes, ∀ name ∈ d.interfaceNames,
      ((circle linked).get? name).all (·.parentName.isNone) = true := by
    decide +kernel
  intro d hd name hname i hi
  have hroot := hnone linked d hd name hname
  rw [hi] at hroot
  exact Option.isNone_iff_eq_none.mp hroot

theorem holds_circle (linked : Bool) {c : Class}
    (hc : c ∈ [Class.heir "A" "P" true, Class.heir "P" "B" linked, circleB, circleI]) :
    (circle linked).Holds c := by
  have hkeys : ∀ linked, ([Class.heir "A" "P" true, Class.heir "P" "B" linked, circleB,
      circleI].map Class.key).Nodup := by
    decide +kernel
  exact Registry.holds_registerAll (hkeys linked) hc

theorem circleB_isSubclassOf_J (linked : Bool) :
    circleB.isSubclassOf (circle linked) "J" = true := by
  have hI : Reached (circleB.lookups (circle linked)) (circleB.declaredInterfaces (circle linked))
      "I" := .listed (List.mem_append_left _ List.mem_cons_self)
  have hfound : findClass (circleB.lookups (circle linked)) (Name.lookupKey "I") = some circleI :=
    holds_circle linked (c := circleI) (by simp)
  have hJ := hI.declared hfound List.mem_cons_self
  exact Class.isSubclassOf_of_implements (by decide +kernel)
    (Class.mem_keys_allInterfaceNames_iff.mpr ⟨"J", hJ, rfl⟩)

/-- **The condition is needed.** `P` is not linked. `A` descends from `B` and `B` from `J`, but `A`
does not descend from `J`: its ancestors end with `P`, and the interfaces of `B` are not found. Nor
does `P` itself, which finds nothing at all. -/
theorem detached_parent_hides_interface :
    (circle false).InterfacesRootless ∧
      (circle false).Holds (Class.heir "A" "P" true) ∧
      (circle false).Holds (Class.heir "P" "B" false) ∧ (circle false).Holds circleB ∧
      Name.lookupKey "J" ≠ (Class.heir "A" "P" true).key ∧
      Name.lookupKey "J" ≠ (Class.heir "P" "B" false).key ∧
      ¬ ((Class.heir "A" "P" true).isSubclassOf (circle false) circleB.name = true →
        circleB.isSubclassOf (circle false) "J" = true →
          (Class.heir "A" "P" true).isSubclassOf (circle false) "J" = true) ∧
      ¬ ((Class.heir "P" "B" false).isSubclassOf (circle false) circleB.name = true →
        circleB.isSubclassOf (circle false) "J" = true →
          (Class.heir "P" "B" false).isSubclassOf (circle false) "J" = true) := by
  -- neither class has an interface of its own, and the parent of the one is not asked
  have hA : (Class.heir "A" "P" true).implements (circle false) "J" = false :=
    Class.implements_of_declaredInterfaces_nil (by decide +kernel)
  have hP : (Class.heir "P" "B" false).implements (circle false) "J" = false :=
    Class.implements_of_declaredInterfaces_nil (by decide +kernel)
  refine ⟨interfacesRootless_circle false, holds_circle false (by simp),
    holds_circle false (by simp), holds_circle false (by simp), by decide +kernel,
    by decide +kernel, ?_, ?_⟩
  · intro htrans
    have hJ := htrans (by decide +kernel) (circleB_isSubclassOf_J false)
    rw [Class.isSubclassOf, hA] at hJ
    exact absurd hJ (by decide +kernel)
  · intro htrans
    have hJ := htrans (by decide +kernel) (circleB_isSubclassOf_J false)
    rw [Class.isSubclassOf, hP] at hJ
    exact absurd hJ (by decide +kernel)

/-- With `P` linked, `A` descends from `J` although the line of `B` comes back to `A`. -/
theorem isSubclassOf_trans_circle :
    (∀ d ∈ Class.heir "A" "P" true :: (Class.heir "A" "P" true).ancestors (circle true),
        d.linked = true) ∧
      (Class.heir "A" "P" true).isSubclassOf (circle true) circleB.name = true ∧
      circleB.isSubclassOf (circle true) "J" = true ∧
      (Class.heir "A" "P" true).isSubclassOf (circle true) "J" = true := by
  have hlinked : ∀ d ∈ Class.heir "A" "P" true :: (Class.heir "A" "P" true).ancestors (circle true),
      d.linked = true := by
    decide +kernel
  have hAB : (Class.heir "A" "P" true).isSubclassOf (circle true) circleB.name = true := by
    decide +kernel
  have hBJ := circleB_isSubclassOf_J true
  exact ⟨hlinked, hAB, hBJ, Class.isSubclassOf_trans (interfacesRootless_circle true)
    (holds_circle true (by simp)) (holds_circle true (by simp)) hlinked (by decide +kernel) hAB hBJ⟩

end Introspect
