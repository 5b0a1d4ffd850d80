import Introspect.Proofs.Name.Resolution

/-!
# Words for relative classes among names

Inside a class the words `self` and `parent` stand for other classes, so neither is to be the name
of one. A resolver turns other names into them in two cases only: where the word is written behind a
separator, and where it is written behind the word `namespace`.

* `Name.IsRelative` and `Name.IsDisguised` are these words and the names that lead to them;
* `Scope.Safe` says of a scope that it holds neither word. `Scope.safe_enter` and
  `Scope.Safe.addImport` keep it so;
* `Resolver.not_isRelative_resolve` is about every name, and `Scope.Safe.not_isRelative_declare`
  about the names of declared classes.
-/

namespace Introspect

namespace Name

variable {name first rest word ns target : String}

/-- **Relative words.** The words that are replaced inside a class, in any letter case. -/
def IsRelative (name : String) : Prop := Text.foldCase name ∈ ["self", "parent"]

instance (name : String) : Decidable (IsRelative name) := inferInstanceAs (Decidable (_ ∈ _))

/-- **Disguised words.** Relative words behind a separator, or behind the word `namespace`: these
are names to a resolver. -/
def IsDisguised (name : String) : Prop :=
  Text.foldCase name ∈ ["\\self", "\\parent", "namespace\\self", "namespace\\parent"]

instance (name : String) : Decidable (IsDisguised name) := inferInstanceAs (Decidable (_ ∈ _))

theorem foldCase_behind (first rest : String) :
    Text.foldCase (behind first rest) = behind (Text.foldCase first) (Text.foldCase rest) := by
  apply String.toList_inj.mp
  simp [separator, Text.lowerChar]

theorem IsRelative.isDisguised_behind_empty (h : IsRelative rest) :
    IsDisguised (behind "" rest) := by
  rw [IsDisguised, foldCase_behind]
  rw [IsRelative, List.mem_pair] at h
  rcases h with h | h <;> rw [h] <;> decide

theorem IsRelative.isDisguised_behind (h : IsRelative rest)
    (hword : Text.foldCase word = "namespace") : IsDisguised (behind word rest) := by
  rw [IsDisguised, foldCase_behind, hword]
  rw [IsRelative, List.mem_pair] at h
  rcases h with h | h <;> rw [h] <;> decide

theorem IsRelative.ne_empty (h : IsRelative name) : name ≠ "" := by
  rintro rfl
  exact absurd h (by decide)

/-- The words are single segments. -/
theorem IsRelative.not_mem_separator (h : IsRelative name) : separator ∉ name.toList := by
  have hall : ∀ word ∈ ["self", "parent"], separator ∉ word.toList := by decide
  intro hmem
  refine hall _ h ?_
  rw [Text.toList_foldCase]
  exact List.mem_map.mpr ⟨separator, hmem, by decide⟩

theorem not_isRelative_behind (first rest : String) : ¬ IsRelative (behind first rest) := fun h =>
  h.not_mem_separator (by simp)

/-- In a namespace nothing is relative. -/
theorem not_isRelative_join (h : ns = "" → ¬ IsRelative name) : ¬ IsRelative (join ns name) := by
  unfold join
  split_ifs with hns
  · exact h hns
  · exact not_isRelative_behind ns name

/-- The separators in front of a name are those in front of its first part. -/
theorem relative_behind (hfirst : relative first ≠ "") :
    relative (behind first rest) = behind (relative first) rest := by
  have hsplit : (first.toList ++ separator :: rest.toList).dropWhile (· == separator)
      = first.toList.dropWhile (· == separator) ++ separator :: rest.toList := by
    rw [List.dropWhile_append]
    split
    · -- without a first part that is more than separators, there is nothing to keep
      next hnil =>
      refine absurd ?_ hfirst
      rw [relative, Text.dropLeading, List.isEmpty_iff.mp hnil]
    · rfl
  apply String.toList_inj.mp
  rw [toList_behind, relative, relative, Text.dropLeading, Text.dropLeading, toList_behind,
    String.toList_ofList, String.toList_ofList, hsplit]

end Name

/-! ### Safe scopes -/

namespace Scope

variable {s : Scope} {name target ns : String}

/-- **Safe scopes.** Nothing is imported that is a relative word, or nothing at all, and the
namespace has no separator in front. -/
structure Safe (s : Scope) : Prop where
  imports : ∀ p ∈ s.imports, p.2 ≠ "" ∧ ¬ Name.IsRelative p.2
  ns_head : s.ns.toList.head? ≠ some Name.separator

theorem safe_empty : empty.Safe := ⟨by simp [empty], by decide⟩

/-- A namespace that is entered has no separators around it. -/
theorem safe_enter (s : Scope) (ns : String) : (s.enter ns).Safe where
  imports := by simp [enter]
  ns_head := by
    intro h
    set inner := ns.toList.dropWhile (· == Name.separator) with hinner
    -- what is left in front is what was left of the beginning
    have hprefix : (inner.reverse.dropWhile (· == Name.separator)).reverse <+: inner := by
      rw [← List.reverse_suffix, List.reverse_reverse]
      exact List.dropWhile_suffix _
    rw [enter, Text.dropAround, String.toList_ofList] at h
    have hfirst : inner.head? = some Name.separator := by
      obtain ⟨t, ht⟩ := hprefix
      rw [← ht, List.head?_append, h]
      rfl
    have hhead := List.head?_dropWhile_not (· == Name.separator) ns.toList
    rw [← hinner, hfirst] at hhead
    exact absurd hhead (by simp)

theorem Safe.addImport (h : s.Safe) {aliasName : Option String} (hne : Name.relative target ≠ "")
    (htarget : ¬ Name.IsRelative (Name.relative target)) : (s.addImport target aliasName).Safe where
  imports := by
    intro p hp
    rcases List.mem_cons.mp hp with rfl | hp
    · exact ⟨hne, htarget⟩
    · exact h.imports p (List.mem_filter.mp hp).1
  ns_head := h.ns_head

/-- What is imported is no relative word. -/
theorem Safe.imported? {aliasName : String} (h : s.Safe)
    (hsome : s.imported? aliasName = some target) : target ≠ "" ∧ ¬ Name.IsRelative target := by
  obtain ⟨front, behind, heq, -⟩ := List.lookup_eq_some_iff.mp hsome
  exact h.imports (Text.foldCase aliasName, target) (heq ▸ by simp)

/-- A class that is declared in a safe scope is not named by a relative word. -/
theorem Safe.not_isRelative_declare (h : s.Safe) (hname : ¬ Name.IsRelative (Name.relative name)) :
    ¬ Name.IsRelative (Name.relative (s.declare name)) := by
  unfold declare Name.join
  split_ifs with hns
  · exact hname
  · have hrelative : Name.relative s.ns = s.ns := by
      cases hchars : s.ns.toList with
      | nil => exact absurd (String.toList_eq_nil_iff.mp hchars) hns
      -- no separator is in front of the namespace, so none is dropped
      | cons c cs =>
        have hc : c ≠ Name.separator := fun heq => h.ns_head (by rw [hchars, heq]; rfl)
        apply String.toList_inj.mp
        rw [Name.relative, Text.dropLeading, String.toList_ofList, hchars,
          List.dropWhile_cons_of_neg (by simpa using hc)]
    change ¬ Name.IsRelative (Name.relative (Name.behind s.ns name))
    rw [Name.relative_behind (hrelative.symm ▸ hns)]
    exact Name.not_isRelative_behind _ _

end Scope

/-- **Resolution** in a safe scope leads to no relative word but from one, or from one in
disguise. -/
theorem Resolver.not_isRelative_resolve {s : Scope} {name : String} (hs : s.Safe)
    (hname : ¬ Name.IsRelative name) (hdisguised : ¬ Name.IsDisguised name) :
    ¬ Name.IsRelative (Resolver.namespaced.resolve s name) := by
  by_cases hempty : name = ""
  · rw [hempty]
    exact fun h => h.ne_empty rfl
  have hdeclare : ¬ Name.IsRelative (s.declare name) := Name.not_isRelative_join fun _ => hname
  rcases Name.eq_of_ne_empty hempty with ⟨rest, rfl⟩ | hsegment | ⟨first, rest, hfirst, rfl⟩
  · rw [resolve_absolute]
    -- a word behind a separator stands for itself
    exact fun h => hdisguised h.isDisguised_behind_empty
  · rw [resolve_segment s hsegment]
    cases himport : s.imported? name with
    | some target => exact (hs.imported? himport).2
    | none =>
      rw [Option.getD_none]
      split_ifs
      · exact hname
      · exact hdeclare
  · by_cases hword : Text.foldCase first = "namespace"
    · rw [resolve_behindNamespace s hword]
      -- in a namespace a word is joined to its name, and outside of one it was disguised
      exact Name.not_isRelative_join fun _ h => hdisguised (h.isDisguised_behind hword)
    · rw [resolve_qualified s hfirst hword]
      cases himport : s.imported? first with
      | some target =>
        rw [Option.map_some, Option.getD_some]
        -- what is imported has a name, so the result has two parts
        exact Name.not_isRelative_join fun hnil => absurd hnil (hs.imported? himport).1
      | none => exact hdeclare

end Introspect
