import Introspect.Proofs.FileTree.Locating
import Introspect.Proofs.Hierarchy.Lookups
import Introspect.Proofs.Session.Cache

/-!
# The order of requests

Classes find each other by name, when they are asked and not when they are read. So a session may be
asked for its files in any order, as long as no two of them declare a class under the same key: the
first class under a key stays, and then it does matter which file comes first.

* `findClass_flatMap_eq_some_iff`: among files that share no keys, a class is found where one of the
  files declares it, wherever that file stands;
* `Session.parse_order_irrelevant`: a permutation of the requests has the same outcomes, leads to
  the same lookups, and all hierarchies look alike.
-/

namespace Introspect

/-! ### Lookups among files -/

section Files

variable {File : Type} {classes : File → List Class} {files files' : List File}

/-- **Files without common keys.** Two different ones declare no classes under the same key. -/
def KeysApart (classes : File → List Class) (files : List File) : Prop :=
  ∀ a ∈ files, ∀ b ∈ files, a ≠ b → ∀ c ∈ classes a, ∀ d ∈ classes b, c.key ≠ d.key

/-- Where files have no common keys, a class is found among all of them iff it is found in one. -/
theorem findClass_flatMap_eq_some_iff (h : KeysApart classes files) {key : String} {c : Class} :
    findClass (files.flatMap classes) key = some c
      ↔ ∃ a ∈ files, findClass (classes a) key = some c := by
  unfold findClass
  rw [List.find?_flatMap]
  constructor
  · exact List.exists_of_findSome?_eq_some
  · rintro ⟨a, ha, hc⟩
    -- the search stops at the first file that has the key, which is the only one
    cases hfound : files.findSome? fun b => (classes b).find? (·.key == key) with
    | none => exact absurd (hc.symm.trans (List.findSome?_eq_none_iff.mp hfound a ha)) (by simp)
    | some d =>
      obtain ⟨b, hb, hd⟩ := List.exists_of_findSome?_eq_some hfound
      by_cases hab : a = b
      · subst hab
        exact hd.symm.trans hc
      · -- both are found under the key, in different files
        have hkeys : c.key = d.key :=
          (Registry.key_eq_of_findClass hc).trans (Registry.key_eq_of_findClass hd).symm
        exact absurd hkeys
          (h a ha b hb hab c (Registry.mem_of_findClass hc) d (Registry.mem_of_findClass hd))

theorem KeysApart.of_mem_iff (h : KeysApart classes files) (hmem : ∀ a, a ∈ files ↔ a ∈ files') :
    KeysApart classes files' := by
  intro a ha b hb
  exact h a ((hmem a).mpr ha) b ((hmem b).mpr hb)

/-- The same files in another order, or more often: the same lookups. -/
theorem KeysApart.sameLookups (h : KeysApart classes files)
    (hmem : ∀ a, a ∈ files ↔ a ∈ files') :
    SameLookups (files.flatMap classes) (files'.flatMap classes) := by
  intro key
  refine Option.ext fun c => ?_
  rw [findClass_flatMap_eq_some_iff h, findClass_flatMap_eq_some_iff (h.of_mem_iff hmem)]
  exact exists_congr fun a => and_congr_left fun _ => hmem a

end Files

namespace Session

/-! ### Permuted requests -/

variable {tree : FileTree} {resolver : Resolver} {paths paths' : List String}

/-- The classes of the file at a location; none if it does not parse. -/
def declared (tree : FileTree) (resolver : Resolver) (location : Location) : List Class :=
  (Outcome.ofFile tree resolver location).classes

theorem mem_requested_iff_of_perm (h : paths.Perm paths') (l : Location) :
    l ∈ (requested tree paths).eraseDups ↔ l ∈ (requested tree paths').eraseDups := by
  rw [List.mem_eraseDups, List.mem_eraseDups]
  exact (h.filterMap _).mem_iff

/-- A run of permuted requests ends with the same lookups. -/
theorem sameLookups_parseAll (h : paths.Perm paths')
    (hkeys : KeysApart (declared tree resolver) (requested tree paths)) :
    SameLookups ((fresh resolver).parseAll tree paths).1.registry.classes
      ((fresh resolver).parseAll tree paths').1.registry.classes := by
  have hkeys : KeysApart (declared tree resolver) (requested tree paths).eraseDups :=
    hkeys.of_mem_iff fun _ => List.mem_eraseDups.symm
  intro key
  -- both registries are those of all classes in the order of the first loads
  rw [(serves_parseAll tree resolver paths).registry_eq,
    (serves_parseAll tree resolver paths').registry_eq,
    Registry.sameLookups_registerAll, Registry.sameLookups_registerAll]
  exact hkeys.sameLookups (mem_requested_iff_of_perm h) key

/-- **The same end.** Two runs of fresh sessions which end alike. -/
structure EndsAlike (tree : FileTree) (resolver : Resolver) (paths paths' : List String) :
    Prop where
  /-- What comes of a path is the same in both runs, at whatever places it stands. -/
  outcomes : ∀ (i j : Nat) (path : String), paths[i]? = some path → paths'[j]? = some path →
    ∃ outcome, ((fresh resolver).parseAll tree paths).2[i]? = some outcome ∧
      ((fresh resolver).parseAll tree paths').2[j]? = some outcome
  /-- Under every key the same class is registered, or none. -/
  lookups : SameLookups ((fresh resolver).parseAll tree paths).1.registry.classes
    ((fresh resolver).parseAll tree paths').1.registry.classes
  /-- All questions about hierarchies are answered alike. -/
  hierarchies : ∀ c : Class, c.SameAnswers ((fresh resolver).parseAll tree paths).1.registry
    ((fresh resolver).parseAll tree paths').1.registry

/-- **The order of requests does not matter,** as long as no two of the files that parse declare a
class under the same key. The paths need not lead to different files. -/
theorem parse_order_irrelevant (h : paths.Perm paths')
    (hkeys : KeysApart (declared tree resolver) (requested tree paths)) :
    EndsAlike tree resolver paths paths' := by
  have hlookups := sameLookups_parseAll h hkeys
  refine
    { outcomes := fun i j path hi hj => ⟨Outcome.ofPath tree resolver path, ?_, ?_⟩
      lookups := hlookups
      hierarchies := hlookups.answers }
  · rw [answers_parseAll, List.getElem?_map, hi, Option.map_some]
  · rw [answers_parseAll, List.getElem?_map, hj, Option.map_some]

/-- A directory with a class in one file, and its parent in the next one. -/
def familyTree : FileTree :=
  .leaf "child.php" (.file (some "<?php class B extends A \x7b\x7d".toUTF8.data.toList))
    (.leaf "parent.php" (.file (some "<?php class A \x7b\x7d".toUTF8.data.toList)) .empty)

/-- A plain name leads to the file of that name in the root. -/
theorem locate_of_file {name : String} {bytes? : Option (List UInt8)} (hname : Path.IsName name)
    (hfile : tree.at? [name] = some (.leaf (.file bytes?))) :
    tree.locate name = .ok [name] := by
  have hstay : ¬ (name = "" ∨ name = ".") := not_or.mpr ⟨hname.ne_empty, hname.ne_dot⟩
  refine Listing.locate_eq_ok_iff.mpr ⟨hname.no_zero, hname.ne_empty, ?_⟩
  rw [Path.steps_of_isName hname, Listing.follow_file hstay hname.ne_dots hfile, if_pos rfl,
    List.nil_append]

theorem requested_familyTree :
    requested familyTree ["child.php", "parent.php"] = [["child.php"], ["parent.php"]] := by
  have hchild : familyTree.locate "child.php" = .ok ["child.php"] :=
    locate_of_file (by decide) rfl
  have hparent : familyTree.locate "parent.php" = .ok ["parent.php"] :=
    locate_of_file (by decide) rfl
  rw [requested_of_ok hchild, requested_of_ok hparent]
  rfl

/-- The child may come first or last. -/
theorem endsAlike_familyTree :
    KeysApart (declared familyTree .namespaced) (requested familyTree ["child.php", "parent.php"]) ∧
      EndsAlike familyTree .namespaced ["child.php", "parent.php"] ["parent.php", "child.php"] := by
  have hkeys : ∀ a ∈ [["child.php"], ["parent.php"]], ∀ b ∈ [["child.php"], ["parent.php"]], a ≠ b →
      ∀ c ∈ declared familyTree .namespaced a, ∀ d ∈ declared familyTree .namespaced b,
        c.key ≠ d.key := by
    decide +kernel
  rw [← requested_familyTree] at hkeys
  exact ⟨hkeys, parse_order_irrelevant (List.Perm.swap _ _ _) hkeys⟩

end Session

end Introspect
