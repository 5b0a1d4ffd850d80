import Introspect.Name
import Mathlib.Data.List.Basic
import Mathlib.Data.List.DropRight
import Mathlib.Data.List.TakeWhile

/-!
# What decides the meaning of a name

A file enters namespaces and imports names, again and again, and each of these changes is folded
into a scope. This module says what remains of such a history: the namespace that was entered last,
and for every alias the import that was made last under it in that namespace. Nothing else of it
has a part in what a name means.

* `Scope.InNamespace` and `Scope.LastImport` read both off a history, without a scope, and
  `Scope.inNamespace_iff` and `Scope.imported?_after` say that the scope behind the history holds
  just these;
* `Name.eq_of_ne_empty` takes a name apart, and `Resolver.resolve_absolute`,
  `Resolver.resolve_behindNamespace`, `Resolver.resolve_segment` and `Resolver.resolve_qualified`
  say what each of its forms means in a scope;
* `Scope.Resolution` gives the rules in terms of the history alone, and
  `Scope.resolution_of_last_changes` says that resolution follows them, so that whoever refers to
  what a namespace declares finds it;
* `Scope.imported_without_root`: the target of an import counts without its leading separators.
-/

namespace Introspect

/-! ### Names and their first segment -/

namespace Name

/-- A name of one segment. -/
def IsSegment (name : String) : Prop :=
  name ≠ "" ∧ separator ∉ name.toList

instance (name : String) : Decidable (IsSegment name) :=
  inferInstanceAs (Decidable (_ ∧ _))

/-- A name behind another one. -/
def behind (first rest : String) : String :=
  first ++ String.singleton separator ++ rest

@[simp] theorem toList_behind (first rest : String) :
    (behind first rest).toList = first.toList ++ separator :: rest.toList := by
  simp [behind]

theorem behind_ne_empty (first rest : String) : behind first rest ≠ "" := by
  intro h
  simpa using congrArg String.toList h

/-- The separators in front of a name are no part of its last segment. -/
theorem short_relative (name : String) : short (relative name) = short name := by
  unfold short relative Text.dropLeading
  congr 2
  rw [String.toList_ofList]
  -- the name is its leading separators and what is behind them, read from the end
  conv_rhs => rw [← List.takeWhile_append_dropWhile (p := (· == separator)) (l := name.toList)]
  rw [List.reverse_append, List.takeWhile_append]
  split
  · -- no separator is left, so the last segment ends at those that were dropped
    have hlead :
        (name.toList.takeWhile (· == separator)).reverse.takeWhile (· ≠ separator) = [] := by
      cases hchars : (name.toList.takeWhile (· == separator)).reverse with
      | nil => rfl
      | cons c cs =>
        have hmem : c ∈ name.toList.takeWhile (· == separator) := by
          rw [← List.mem_reverse, hchars]
          exact List.mem_cons_self
        have hc : c = separator := by simpa using List.mem_takeWhile_imp hmem
        simp [hc]
    rename_i hall
    rw [hlead, List.append_nil]
    exact List.IsPrefix.eq_of_length (List.takeWhile_prefix _) hall
  · rfl

/-- **The forms of a name.** A name is absolute, or one segment, or a segment with more behind
it. -/
theorem eq_of_ne_empty {name : String} (h : name ≠ "") :
    (∃ rest, name = behind "" rest) ∨ IsSegment name ∨
      ∃ first rest, IsSegment first ∧ name = behind first rest := by
  have hsplit := List.takeWhile_append_dropWhile (p := (· ≠ separator)) (l := name.toList)
  set first := name.toList.takeWhile (· ≠ separator) with hfirst
  have hclean : separator ∉ first := by
    intro hmem
    rw [hfirst] at hmem
    simpa using List.mem_takeWhile_imp hmem
  -- what is behind the first segment is nothing, or begins with a separator
  cases hrest : name.toList.dropWhile (· ≠ separator) with
  | nil =>
    rw [hrest, List.append_nil] at hsplit
    exact .inr (.inl ⟨h, hsplit ▸ hclean⟩)
  | cons c rest =>
    have hc : c = separator := by
      have hhead := List.head?_dropWhile_not (· ≠ separator) name.toList
      rw [hrest] at hhead
      simpa using hhead
    have hname : name = behind (String.ofList first) (String.ofList rest) := by
      apply String.toList_inj.mp
      rw [toList_behind, String.toList_ofList, String.toList_ofList, ← hsplit, hrest, hc]
    by_cases hempty : first = []
    · -- an empty first segment is the root
      exact .inl ⟨String.ofList rest, by simpa [hempty] using hname⟩
    · refine .inr (.inr ⟨_, _, ⟨?_, by simpa using hclean⟩, hname⟩)
      simpa [← String.toList_inj] using hempty

theorem splitFirst_segment {name : String} (h : IsSegment name) :
    splitFirst name = (name, none) := by
  have hall : name.toList.takeWhile (· ≠ separator) = name.toList :=
    List.takeWhile_eq_self_iff.mpr fun c hc => by
      simpa using fun heq : c = separator => h.2 (heq ▸ hc)
  simp only [splitFirst, hall, List.drop_length]

theorem splitFirst_behind {first : String} (h : IsSegment first) (rest : String) :
    splitFirst (behind first rest) = (first, some rest) := by
  have hall : ∀ c ∈ first.toList, decide (c ≠ separator) = true := fun c hc => by
    simpa using fun heq : c = separator => h.2 (heq ▸ hc)
  have hcut : (behind first rest).toList.takeWhile (· ≠ separator) = first.toList := by
    rw [toList_behind, List.takeWhile_append_of_pos hall]
    simp
  simp only [splitFirst, hcut]
  rw [toList_behind, List.drop_left]
  simp

theorem lowerChar_eq_separator {c : Char} (h : Text.lowerChar c = separator) : c = separator := by
  have hle : ∀ {a b : Char}, a ≤ b ↔ a.toNat ≤ b.toNat := UInt32.le_iff_toNat_le
  unfold Text.lowerChar at h
  split_ifs at h with hletter
  · -- the small letters lie behind the separator
    have hsmall : ∀ n < 26, Char.ofNat (65 + n + 32) ≠ separator := by decide
    obtain ⟨hlow, hhigh⟩ : 65 ≤ c.toNat ∧ c.toNat ≤ 90 := ⟨hle.mp hletter.1, hle.mp hletter.2⟩
    obtain ⟨n, hn⟩ := Nat.exists_eq_add_of_le hlow
    rw [hn] at h
    exact absurd h (hsmall n (by omega))
  · exact h

/-- The word `namespace`, in any letter case, in front of a separator. -/
theorem afterNamespaceWord?_eq_some_iff {name rest : String} :
    afterNamespaceWord? name = some rest ↔
      ∃ word, Text.foldCase word = "namespace" ∧ name = behind word rest := by
  have hlead : "namespace\\".toList = "namespace".toList ++ [separator] := rfl
  simp only [afterNamespaceWord?]
  constructor
  · intro h
    split_ifs at h with hword
    -- the ten characters are a word and one more, which folds to a separator only if it is one
    obtain ⟨front, back, hfront, hw, hs⟩ := List.map_eq_append_iff.mp (hword.trans hlead)
    obtain ⟨c, rfl, hc⟩ := List.map_eq_singleton_iff.mp hs
    obtain rfl : c = separator := lowerChar_eq_separator hc
    refine ⟨String.ofList front, ?_, ?_⟩
    · rw [Text.foldCase, String.toList_ofList, hw, String.ofList_toList]
    · apply String.toList_inj.mp
      rw [toList_behind, ← Option.some.inj h, String.toList_ofList, String.toList_ofList]
      have hchars := List.take_append_drop "namespace\\".toList.length name.toList
      rwa [hfront, List.append_assoc, eq_comm] at hchars
  · rintro ⟨word, hword, rfl⟩
    have hchars : word.toList.map Text.lowerChar = "namespace".toList := by
      rw [← Text.toList_foldCase, hword]
    have hten : (word.toList ++ [separator]).length = "namespace\\".toList.length := by
      simpa using congrArg List.length hchars
    have hsplit : (behind word rest).toList = (word.toList ++ [separator]) ++ rest.toList := by
      simp
    rw [hsplit, List.take_left' hten, List.drop_left' hten, List.map_append, hchars]
    simp [separator, Text.lowerChar]

theorem isSegment_of_foldCase_eq {word : String} (h : Text.foldCase word = "namespace") :
    IsSegment word := by
  constructor
  · rintro rfl
    exact absurd h (by decide)
  · intro hmem
    have hlower : Text.lowerChar separator ∈ (Text.foldCase word).toList := by
      rw [Text.toList_foldCase]
      exact List.mem_map_of_mem hmem
    rw [h] at hlower
    exact absurd hlower (by decide)

theorem head?_ne_separator {first : String} (h : IsSegment first) (cs : List Char) :
    (first.toList ++ cs).head? ≠ some separator := by
  cases hchars : first.toList with
  | nil => exact absurd (String.toList_eq_nil_iff.mp hchars) h.1
  | cons c cs =>
    have hmem : c ∈ first.toList := hchars ▸ List.mem_cons_self
    simpa using fun heq : c = separator => h.2 (heq ▸ hmem)

/-- The word `namespace` is the first segment of a name that it is in front of. -/
theorem afterNamespaceWord?_behind {first : String} (h : IsSegment first)
    (hword : Text.foldCase first ≠ "namespace") (rest : String) :
    afterNamespaceWord? (behind first rest) = none := by
  rw [Option.eq_none_iff_forall_ne_some]
  intro rest' hsome
  obtain ⟨word, hw, heq⟩ := afterNamespaceWord?_eq_some_iff.mp hsome
  have hsplit := splitFirst_behind h rest
  rw [heq, splitFirst_behind (isSegment_of_foldCase_eq hw), Prod.mk.injEq] at hsplit
  exact hword (hsplit.1 ▸ hw)

theorem afterNamespaceWord?_segment {name : String} (h : IsSegment name) :
    afterNamespaceWord? name = none := by
  rw [Option.eq_none_iff_forall_ne_some]
  intro rest hsome
  obtain ⟨word, -, rfl⟩ := afterNamespaceWord?_eq_some_iff.mp hsome
  exact h.2 (by simp)

/-- The words that stand for themselves. -/
def IsReservedType (name : String) : Prop :=
  TypeHint.isTypeWord name = true ∨ isRelativeWord name = true

instance (name : String) : Decidable (IsReservedType name) :=
  inferInstanceAs (Decidable (_ ∨ _))

end Name

/-! ### Resolution in a scope -/

namespace Resolver

variable {s : Scope} {name first rest word : String}

theorem resolve_absolute (s : Scope) (rest : String) :
    namespaced.resolve s (Name.behind "" rest) = rest := by
  simp only [resolve, if_neg (Name.behind_ne_empty _ _), Name.toList_behind]
  simp

theorem resolve_behindNamespace (s : Scope) (h : Text.foldCase word = "namespace") (rest : String) :
    namespaced.resolve s (Name.behind word rest) = Name.join s.ns rest := by
  have hhead : (Name.behind word rest).toList.head? ≠ some Name.separator := by
    rw [Name.toList_behind]
    exact Name.head?_ne_separator (Name.isSegment_of_foldCase_eq h) _
  simp only [resolve, if_neg (Name.behind_ne_empty _ _), if_neg hhead,
    Name.afterNamespaceWord?_eq_some_iff.mpr ⟨word, h, rfl⟩]

/-- A name of one segment is what is imported under it. If nothing is, it stands for itself if it is
a reserved word, and is a name of the current namespace otherwise. -/
theorem resolve_segment (s : Scope) (h : Name.IsSegment name) :
    namespaced.resolve s name =
      (s.imported? name).getD (if Name.IsReservedType name then name else s.declare name) := by
  have hhead : name.toList.head? ≠ some Name.separator := by
    simpa using Name.head?_ne_separator h []
  simp only [resolve, if_neg h.1, if_neg hhead, Name.afterNamespaceWord?_segment h,
    Name.splitFirst_segment h, Scope.declare]
  cases s.imported? name with
  | some target => rfl
  | none =>
    by_cases hword : Name.IsReservedType name
    · exact (if_pos ⟨rfl, hword⟩).trans (if_pos hword).symm
    · exact (if_neg fun h => hword h.2).trans (if_neg hword).symm

/-- A name of several segments continues what is imported under the first one, or else the current
namespace. -/
theorem resolve_qualified (s : Scope) (h : Name.IsSegment first)
    (hword : Text.foldCase first ≠ "namespace") (rest : String) :
    namespaced.resolve s (Name.behind first rest) =
      ((s.imported? first).map (Name.join · rest)).getD (s.declare (Name.behind first rest)) := by
  have hhead : (Name.behind first rest).toList.head? ≠ some Name.separator := by
    rw [Name.toList_behind]
    exact Name.head?_ne_separator h _
  simp only [resolve, if_neg (Name.behind_ne_empty _ _), if_neg hhead,
    Name.afterNamespaceWord?_behind h hword, Name.splitFirst_behind h, Scope.declare]
  cases s.imported? first with
  | none => simp
  | some target => rfl

end Resolver

/-! ### Histories of a scope -/

namespace Scope

/-- A change of a scope. -/
inductive Change where
  /-- A namespace is entered. -/
  | enter (ns : String)
  /-- A name is imported, under its last segment if no alias is given. -/
  | addImport (target : String) (aliasName : Option String)
  deriving DecidableEq, Repr

namespace Change

/-- Whether a namespace is entered. -/
def isEnter : Change → Bool
  | enter _ => true
  | addImport _ _ => false

/-- Whether something is imported under `aliasName`, in any letter case. -/
def isImportOf (aliasName : String) : Change → Bool
  | enter _ => false
  | addImport target explicit =>
    Text.eqIgnoringCase (explicit.getD (Name.short target)) aliasName

end Change

/-- The scope behind a change. -/
def apply (s : Scope) : Change → Scope
  | .enter ns => s.enter ns
  | .addImport target aliasName => s.addImport target aliasName

/-- The scope behind a history of changes, oldest first. -/
def after (history : List Change) : Scope :=
  history.foldl apply empty

/-- **The namespace of a history** is the one entered last, without separators around it. -/
inductive InNamespace : List Change → String → Prop where
  | never {history : List Change} (h : ∀ c ∈ history, c.isEnter = false) : InNamespace history ""
  | last {earlier later : List Change} {ns : String} (h : ∀ c ∈ later, c.isEnter = false) :
      InNamespace (earlier ++ .enter ns :: later) (Text.dropAround Name.separator ns)

/-- **The import of an alias** is the last one under it, and no namespace is entered behind it. -/
inductive LastImport : List Change → String → String → Prop where
  | last {earlier later : List Change} {target aliasName : String} {explicit : Option String}
      (himport : (Change.addImport target explicit).isImportOf aliasName = true)
      (hlater : ∀ c ∈ later, c.isEnter = false ∧ c.isImportOf aliasName = false) :
      LastImport (earlier ++ .addImport target explicit :: later) aliasName target

variable {history : List Change} {c : Change} {ns aliasName target : String}

theorem after_append_cons (earlier later : List Change) (c : Change) :
    after (earlier ++ c :: later) = later.foldl apply ((after earlier).apply c) := by
  simp [after]

/-- A list is cut at the last of its elements with a property. -/
theorem forall_or_exists_last {α : Type} (p : α → Bool) (l : List α) :
    (∀ a ∈ l, p a = false) ∨
      ∃ earlier a later, l = earlier ++ a :: later ∧ p a = true ∧ ∀ b ∈ later, p b = false := by
  induction l with
  | nil => exact .inl (by simp)
  | cons a l ih =>
    rcases ih with hnone | ⟨earlier, b, later, rfl, hb, hlater⟩
    · cases ha : p a with
      | false => exact .inl (List.forall_mem_cons.mpr ⟨ha, hnone⟩)
      | true => exact .inr ⟨[], a, l, rfl, ha, hnone⟩
    · exact .inr ⟨a :: earlier, b, later, rfl, hb, hlater⟩

/-- Imports leave the namespace. -/
theorem ns_apply_of_not_isEnter (s : Scope) (h : c.isEnter = false) : (s.apply c).ns = s.ns := by
  cases c with
  | enter ns => cases h
  | addImport target explicit => rfl

theorem ns_foldl_of_not_isEnter {later : List Change} (h : ∀ c ∈ later, c.isEnter = false)
    (s : Scope) : (later.foldl apply s).ns = s.ns := by
  induction later generalizing s with
  | nil => rfl
  | cons c later ih =>
    rw [List.forall_mem_cons] at h
    rw [List.foldl_cons, ih h.2, ns_apply_of_not_isEnter s h.1]

/-- The scope behind a history is in the namespace of the history. -/
theorem inNamespace_iff : InNamespace history ns ↔ ns = (after history).ns := by
  constructor
  · intro h
    cases h with
    | never h => exact (ns_foldl_of_not_isEnter h empty).symm
    | last h =>
      rw [after_append_cons, ns_foldl_of_not_isEnter h]
      rfl
  · rintro rfl
    -- the history is cut where a namespace is entered last
    rcases forall_or_exists_last Change.isEnter history with
      hnone | ⟨earlier, c, later, rfl, hc, hlater⟩
    · rw [after, ns_foldl_of_not_isEnter hnone]
      exact .never hnone
    · cases c with
      | addImport target explicit => cases hc
      | enter ns =>
        rw [after_append_cons, ns_foldl_of_not_isEnter hlater]
        exact .last hlater

theorem lookup_filter_ne {key key' : String} (h : key' ≠ key) (l : List (String × String)) :
    (l.filter (·.1 ≠ key)).lookup key' = l.lookup key' := by
  induction l with
  | nil => rfl
  | cons p l ih =>
    by_cases hp : p.1 = key
    · rw [List.filter_cons_of_neg (by simpa using hp), ih, List.lookup_cons, hp,
        beq_false_of_ne h]
    · rw [List.filter_cons_of_pos (by simpa using hp), List.lookup_cons, List.lookup_cons, ih]

/-- What an alias stands for behind one more import. -/
theorem imported?_addImport (s : Scope) (target : String) (explicit : Option String)
    (aliasName : String) :
    (s.addImport target explicit).imported? aliasName =
      if (Change.addImport target explicit).isImportOf aliasName then some (Name.relative target)
      else s.imported? aliasName := by
  simp only [addImport, imported?, Name.short_relative, Change.isImportOf, Text.eqIgnoringCase_iff]
  split_ifs with h
  · -- the new import is in front of all others
    rw [h, List.lookup_cons_self]
  · rw [List.lookup_cons, beq_false_of_ne (Ne.symm h)]
    exact lookup_filter_ne (Ne.symm h) s.imports

theorem imported?_foldl_of_not_isImportOf {later : List Change}
    (h : ∀ c ∈ later, c.isEnter = false ∧ c.isImportOf aliasName = false) (s : Scope) :
    (later.foldl apply s).imported? aliasName = s.imported? aliasName := by
  induction later generalizing s with
  | nil => rfl
  | cons c later ih =>
    rw [List.forall_mem_cons] at h
    rw [List.foldl_cons, ih h.2]
    cases c with
    | enter ns => cases h.1.1
    | addImport target explicit =>
      rw [apply, imported?_addImport, h.1.2]
      rfl

theorem LastImport.imported?_eq (h : LastImport history aliasName target) :
    (after history).imported? aliasName = some (Name.relative target) := by
  cases h with
  | last himport hlater =>
    rw [after_append_cons, imported?_foldl_of_not_isImportOf hlater, apply, imported?_addImport,
      if_pos himport]

/-- The scope behind a history holds the last import of each alias, without the separators in front
of it. -/
theorem imported?_after {stored : String} :
    (after history).imported? aliasName = some stored ↔
      ∃ target, LastImport history aliasName target ∧ stored = Name.relative target := by
  constructor
  · intro h
    -- the history is cut at the last change that has to do with the alias; behind a namespace that
    -- is entered there, nothing is imported yet
    rcases forall_or_exists_last (fun c => c.isEnter || c.isImportOf aliasName) history with
      hnone | ⟨earlier, c, later, rfl, hc, hlater⟩
    · simp only [Bool.or_eq_false_iff] at hnone
      rw [after, imported?_foldl_of_not_isImportOf hnone] at h
      cases h
    · simp only [Bool.or_eq_false_iff] at hlater
      cases c with
      | enter ns =>
        rw [after_append_cons, imported?_foldl_of_not_isImportOf hlater] at h
        cases h
      | addImport target explicit =>
        have hlast : LastImport (earlier ++ .addImport target explicit :: later) aliasName target :=
          .last hc hlater
        exact ⟨target, hlast, Option.some.inj (h.symm.trans hlast.imported?_eq)⟩
  · rintro ⟨target, hlast, rfl⟩
    exact hlast.imported?_eq

theorem imported?_after_eq_none_iff :
    (after history).imported? aliasName = none ↔
      ∀ target, ¬ LastImport history aliasName target := by
  rw [Option.eq_none_iff_forall_ne_some]
  constructor
  · exact fun h target hlast => h _ hlast.imported?_eq
  · intro h stored hstored
    obtain ⟨target, hlast, -⟩ := imported?_after.mp hstored
    exact h target hlast

/-! ### The rules, in terms of the history -/

/-- **What a name means behind a history.** Each form of a name has its own rules, so that at most
one of them applies. -/
inductive Resolution (history : List Change) : String → String → Prop where
  | absolute {rest : String} : Resolution history (Name.behind "" rest) rest
  | inNamespace {word rest ns : String} (hword : Text.foldCase word = "namespace")
      (hns : InNamespace history ns) :
      Resolution history (Name.behind word rest) (Name.join ns rest)
  | imported {name target : String} (hname : Name.IsSegment name)
      (himport : LastImport history name target) :
      Resolution history name (Name.relative target)
  | belowImport {first rest target : String} (hfirst : Name.IsSegment first)
      (hword : Text.foldCase first ≠ "namespace") (himport : LastImport history first target) :
      Resolution history (Name.behind first rest) (Name.join (Name.relative target) rest)
  | reserved {name : String} (hname : Name.IsSegment name)
      (himport : ∀ target, ¬ LastImport history name target) (hword : Name.IsReservedType name) :
      Resolution history name name
  | segment {name ns : String} (hname : Name.IsSegment name)
      (himport : ∀ target, ¬ LastImport history name target) (hword : ¬ Name.IsReservedType name)
      (hns : InNamespace history ns) :
      Resolution history name (Name.join ns name)
  | qualified {first rest ns : String} (hfirst : Name.IsSegment first)
      (hword : Text.foldCase first ≠ "namespace")
      (himport : ∀ target, ¬ LastImport history first target) (hns : InNamespace history ns) :
      Resolution history (Name.behind first rest) (Name.join ns (Name.behind first rest))

/-- What the rules give is what resolution gives. -/
theorem Resolution.resolve_eq {name meaning : String} (h : Resolution history name meaning) :
    Resolver.namespaced.resolve (after history) name = meaning := by
  cases h with
  -- one lemma for each form of a name; what it asks of the scope is read off the history
  | absolute => exact Resolver.resolve_absolute _ _
  | inNamespace hword hns => rw [Resolver.resolve_behindNamespace _ hword, inNamespace_iff.mp hns]
  | imported hname himport =>
    rw [Resolver.resolve_segment _ hname, himport.imported?_eq, Option.getD_some]
  | belowImport hfirst hword himport =>
    rw [Resolver.resolve_qualified _ hfirst hword, himport.imported?_eq, Option.map_some,
      Option.getD_some]
  | reserved hname himport hword =>
    rw [Resolver.resolve_segment _ hname, imported?_after_eq_none_iff.mpr himport, Option.getD_none,
      if_pos hword]
  | segment hname himport hword hns =>
    rw [Resolver.resolve_segment _ hname, imported?_after_eq_none_iff.mpr himport, Option.getD_none,
      if_neg hword, declare, inNamespace_iff.mp hns]
  | qualified hfirst hword himport hns =>
    rw [Resolver.resolve_qualified _ hfirst hword, imported?_after_eq_none_iff.mpr himport,
      Option.map_none, Option.getD_none, declare, inNamespace_iff.mp hns]

/-- Some rule applies to every name. -/
theorem exists_resolution (history : List Change) {name : String} (h : name ≠ "") :
    ∃ meaning, Resolution history name meaning := by
  have hns : InNamespace history (after history).ns := inNamespace_iff.mpr rfl
  -- by the form of the name, and then by what is imported under its first segment
  rcases Name.eq_of_ne_empty h with ⟨rest, rfl⟩ | hname | ⟨first, rest, hfirst, rfl⟩
  · exact ⟨_, .absolute⟩
  · by_cases himport : ∃ target, LastImport history name target
    · obtain ⟨target, himport⟩ := himport
      exact ⟨_, .imported hname himport⟩
    · rw [not_exists] at himport
      by_cases hword : Name.IsReservedType name
      · exact ⟨_, .reserved hname himport hword⟩
      · exact ⟨_, .segment hname himport hword hns⟩
  · by_cases hword : Text.foldCase first = "namespace"
    · exact ⟨_, .inNamespace hword hns⟩
    · by_cases himport : ∃ target, LastImport history first target
      · obtain ⟨target, himport⟩ := himport
        exact ⟨_, .belowImport hfirst hword himport⟩
      · rw [not_exists] at himport
        exact ⟨_, .qualified hfirst hword himport hns⟩

/-- **Resolution behind a history.** -/
structure FollowsRules (history : List Change) : Prop where
  /-- What a name means is what the rules say. -/
  resolve_eq_iff : ∀ name meaning, name ≠ "" →
    (Resolver.namespaced.resolve (after history) name = meaning ↔ Resolution history name meaning)
  /-- What is declared under a segment that is neither imported nor reserved is found by it, by the
  segment behind the word `namespace`, and by its full name. -/
  finds_declared : ∀ name, Name.IsSegment name → (∀ target, ¬ LastImport history name target) →
    ¬ Name.IsReservedType name → ∀ reference,
      (reference = name ∨ (∃ word, Text.foldCase word = "namespace" ∧
          reference = Name.behind word name) ∨
        reference = Name.behind "" ((after history).declare name)) →
      Resolver.namespaced.resolve (after history) reference = (after history).declare name

/-- **The last changes decide.** Whatever was entered and imported, a name means what the namespace
entered last and the last imports in it say. -/
theorem resolution_of_last_changes (history : List Change) : FollowsRules history where
  resolve_eq_iff name meaning hname := by
    refine ⟨?_, Resolution.resolve_eq⟩
    rintro rfl
    obtain ⟨meaning, h⟩ := exists_resolution history hname
    rwa [h.resolve_eq]
  finds_declared name hname himport hword reference hreference := by
    have hns : InNamespace history (after history).ns := inNamespace_iff.mpr rfl
    rcases hreference with rfl | ⟨word, hw, rfl⟩ | rfl
    · -- each way to refer to it is a form of its own, and all rules come to the same name
      exact (Resolution.segment hname himport hword hns).resolve_eq
    · exact (Resolution.inNamespace hw hns).resolve_eq
    · exact Resolver.resolve_absolute _ _

/-- The target of an import does not count as it is written: the separators in front of it are
dropped. -/
theorem imported_without_root :
    LastImport [.addImport "\\A\\B" none] "B" "\\A\\B" ∧
      Resolver.namespaced.resolve (after [.addImport "\\A\\B" none]) "B" ≠ "\\A\\B" :=
  ⟨@LastImport.last [] [] _ _ _ (by decide) (by simp), by decide⟩

end Scope
end Introspect
