import Introspect.Proofs.Text
import Introspect.Reading.Type

/-!
# Generic arguments of documented types

A tag may write a type with arguments in angle brackets, of which only the type in front of them is
to count. The reader of a type word looks at bars first, and only then at the angle bracket in each
of the pieces. So the arguments are dropped as long as there is no bar among them, whatever else
they are (`Frame.docSingleType?_generic`). A bar among them is taken for one between types: the word
falls into pieces at it, and what comes out is the union of the pieces or nothing, never the type in
front of the arguments.

* `Frame.docType?_of_no_bar` and `Frame.docType?_of_bar`: a word without a bar is a single type, and
  with bars it is the union of its pieces;
* `Frame.docSingleType?_ne_union`: a single type is never a union;
* `Frame.docType?_generic`: what becomes of a type with arguments, and `union_argument_not_dropped`:
  a bar among the arguments.
-/

namespace Introspect

namespace Reading.Frame

variable {f : Frame} {scope : Scope} {s b a : String}

/-! ### Words and their pieces -/

/-- A type word without a bar is a single type. -/
theorem docType?_of_no_bar (hblank : ∀ c ∈ s.toList, Text.isBlank c = false)
    (hnull : s.toList.head? ≠ some '?') (hbar : '|' ∉ s.toList) :
    f.docType? scope s = f.docSingleType? scope s := by
  unfold docType?
  rw [Text.trim_of_no_blank hblank]
  dsimp only
  split
  · next inner hs => simp [hs] at hnull
  · rw [Text.split_of_not_mem hbar]
    simp only [List.mapM_cons, List.mapM_nil]
    cases f.docSingleType? scope s <;> rfl

/-- A type word with bars is the union of its pieces, if all of these are types. -/
theorem docType?_of_bar (hblank : ∀ c ∈ s.toList, Text.isBlank c = false)
    (hnull : s.toList.head? ≠ some '?') (hbar : '|' ∈ s.toList) :
    f.docType? scope s
      = ((Text.split '|' s).mapM (f.docSingleType? scope)).map TypeHint.union := by
  unfold docType?
  rw [Text.trim_of_no_blank hblank]
  dsimp only
  split
  · next inner hs => simp [hs] at hnull
  · obtain ⟨p, q, ps, hsplit⟩ := Text.exists_split_of_mem hbar
    rw [hsplit, List.mapM_cons, List.mapM_cons]
    -- there are two types at least, or none
    cases f.docSingleType? scope p with
    | none => rfl
    | some hint =>
      cases f.docSingleType? scope q with
      | none => rfl
      | some hint' => cases ps.mapM (f.docSingleType? scope) <;> rfl

/-! ### Single types -/

theorem typeOfName_ne_union (f : Frame) (scope : Scope) (name : String) (hints : List TypeHint) :
    f.typeOfName scope TypeHint.ofDocWord? name ≠ .union hints := by
  -- no word stands for a union, neither a reserved one nor one of doc comments
  have hword : ∀ hint, TypeHint.ofWord? name = some hint → hint ≠ .union hints := by
    intro hint h
    unfold TypeHint.ofWord? at h
    dsimp only at h
    split_ifs at h <;> cases h <;> exact nofun
  have hdoc : ∀ hint, TypeHint.ofDocWord? name = some hint → hint ≠ .union hints := by
    intro hint h
    unfold TypeHint.ofDocWord? at h
    split at h
    · next hint' hof =>
      cases h
      exact hword _ hof
    · dsimp only at h
      split_ifs at h
      cases h
      exact nofun
  unfold typeOfName
  dsimp only
  split_ifs
  · exact nofun
  · cases hof : TypeHint.ofDocWord? name with
    | none => exact nofun
    | some hint => exact hdoc hint hof

/-- A single type is never a union. -/
theorem docSingleType?_ne_union (f : Frame) (scope : Scope) (s : String) (hints : List TypeHint) :
    f.docSingleType? scope s ≠ some (.union hints) := by
  unfold docSingleType?
  dsimp only
  split
  · exact nofun
  split
  · exact nofun
  split
  case h_4 => cases f.parentName <;> exact nofun
  case h_8 =>
    split
    · exact nofun
    · exact fun h => typeOfName_ne_union f scope _ hints (Option.some.inj h)
  all_goals exact nofun

/-- **Words for single types.** No mark of a type that is made from others, and no blank. -/
def IsSingleWord (b : String) : Prop :=
  ∀ c ∈ b.toList, c ∉ ['?', '|', '<', '['] ∧ Text.isBlank c = false

instance : Decidable (IsSingleWord b) := List.decidableBAll _ _

theorem IsSingleWord.no_blank (hb : IsSingleWord b) : ∀ c ∈ b.toList, Text.isBlank c = false :=
  fun c hc => (hb c hc).2

theorem toList_generic (b a : String) :
    (b ++ "<" ++ a ++ ">").toList = b.toList ++ '<' :: (a.toList ++ ['>']) := by
  simp [String.toList_append]

theorem no_blank_generic (hb : IsSingleWord b) (ha : ∀ c ∈ a.toList, Text.isBlank c = false) :
    ∀ c ∈ (b ++ "<" ++ a ++ ">").toList, Text.isBlank c = false := by
  intro c hc
  rw [toList_generic, List.mem_append, List.mem_cons, List.mem_append, List.mem_singleton] at hc
  obtain hc | rfl | hc | rfl := hc
  · exact hb.no_blank c hc
  · decide
  · exact ha c hc
  · decide

/-- A single type is the same with arguments and without, whatever the arguments are. -/
theorem docSingleType?_generic (hb : IsSingleWord b)
    (ha : ∀ c ∈ a.toList, Text.isBlank c = false) :
    f.docSingleType? scope (b ++ "<" ++ a ++ ">") = f.docSingleType? scope b := by
  -- the word ends in neither case like a list, and is the same up to the angle bracket
  have hlist : "[]".toList.isSuffixOf (b ++ "<" ++ a ++ ">").toList = false := by
    rw [toList_generic, Bool.eq_false_iff, ne_eq, List.isSuffixOf_iff_suffix]
    intro hsuffix
    have hlast := hsuffix.getLast (by decide)
    rw [List.getLast_append_of_ne_nil _ (by simp), List.getLast_cons (by simp),
      List.getLast_append_of_ne_nil _ (by simp)] at hlast
    exact absurd hlast (by decide)
  have hlist' : "[]".toList.isSuffixOf b.toList = false := by
    rw [Bool.eq_false_iff, ne_eq, List.isSuffixOf_iff_suffix]
    exact fun hsuffix => absurd (hb '[' (hsuffix.subset (by decide))).1 (by decide)
  have hbase : (b ++ "<" ++ a ++ ">").toList.takeWhile (· ≠ '<')
      = b.toList.takeWhile (· ≠ '<') := by
    have hb' : ∀ c ∈ b.toList, decide (c ≠ '<') = true := fun c hc => by
      have := (hb c hc).1
      simp_all
    rw [toList_generic, List.takeWhile_append_of_pos hb', List.takeWhile_cons_of_neg (by simp),
      List.append_nil, List.takeWhile_eq_self_iff.mpr hb']
  unfold docSingleType?
  dsimp only
  rw [Text.trim_of_no_blank (no_blank_generic hb ha), Text.trim_of_no_blank hb.no_blank, hlist,
    hlist', hbase]

/-! ### Types with arguments -/

/-- No blank in a word, as a search that can be run. -/
theorem no_blank_iff_any (s : String) :
    (∀ c ∈ s.toList, Text.isBlank c = false) ↔ s.toList.any Text.isBlank = false := by
  simp

/-- **Generic arguments of documented types.** Arguments without a bar are dropped, whatever else
they are. With a bar among them the word falls into pieces at every bar, of which each has to be a
type; so a documented type never stays what it is without them. -/
theorem docType?_generic (hb : IsSingleWord b) (ha : ∀ c ∈ a.toList, Text.isBlank c = false) :
    ('|' ∉ a.toList → f.docType? scope (b ++ "<" ++ a ++ ">") = f.docType? scope b) ∧
    ('|' ∈ a.toList →
      f.docType? scope (b ++ "<" ++ a ++ ">")
        = ((Text.split '|' (b ++ "<" ++ a ++ ">")).mapM (f.docSingleType? scope)).map .union ∧
      (f.docType? scope b ≠ none →
        f.docType? scope (b ++ "<" ++ a ++ ">") ≠ f.docType? scope b)) := by
  have hblank := no_blank_generic hb ha
  have hnull : b.toList.head? ≠ some '?' := fun h =>
    absurd (hb '?' (List.mem_of_mem_head? h)).1 (by decide)
  have hnull' : (b ++ "<" ++ a ++ ">").toList.head? ≠ some '?' := by
    rw [toList_generic]
    cases hcs : b.toList with
    | nil => simp
    | cons c cs => simpa [hcs] using hnull
  have hbar : '|' ∉ b.toList := fun h => absurd (hb '|' h).1 (by decide)
  have hmem : '|' ∈ (b ++ "<" ++ a ++ ">").toList ↔ '|' ∈ a.toList := by
    simp [hbar]
  have hsingle : f.docType? scope b = f.docSingleType? scope b :=
    docType?_of_no_bar hb.no_blank hnull hbar
  refine ⟨fun hno => ?_, fun hyes => ?_⟩
  · rw [docType?_of_no_bar hblank hnull' (mt hmem.mp hno), hsingle, docSingleType?_generic hb ha]
  · have hunion : f.docType? scope (b ++ "<" ++ a ++ ">") = _ :=
      docType?_of_bar hblank hnull' (hmem.mpr hyes)
    refine ⟨hunion, fun hsome heq => ?_⟩
    -- a union on the one side, a single type on the other
    rw [hunion, hsingle] at heq
    cases hpieces : (Text.split '|' (b ++ "<" ++ a ++ ">")).mapM (f.docSingleType? scope) with
    | none => exact hsome (by rw [hsingle, ← heq, hpieces]; rfl)
    | some hints =>
      rw [hpieces] at heq
      exact docSingleType?_ne_union f scope b hints heq.symm

/-- The arguments of a map, and a union of lists, which is read as a union of two types. -/
theorem docType?_generic_arrays :
    IsSingleWord "array" ∧ (∀ c ∈ "int,list<Foo>".toList, Text.isBlank c = false) ∧
      (∀ c ∈ "int[]|list<Foo>".toList, Text.isBlank c = false) ∧
      (default : Frame).docType? default ("array" ++ "<" ++ "int,list<Foo>" ++ ">")
        = (default : Frame).docType? default "array" ∧
      (default : Frame).docType? default ("array" ++ "<" ++ "int[]|list<Foo>" ++ ">")
        ≠ (default : Frame).docType? default "array" := by
  have hb : IsSingleWord "array" := by decide
  have hmap := (no_blank_iff_any "int,list<Foo>").mpr (by decide)
  have hlists := (no_blank_iff_any "int[]|list<Foo>").mpr (by decide)
  have hword : (default : Frame).docType? default "array" ≠ none := by
    rw [ne_eq, ← Option.isNone_iff_eq_none]
    decide +kernel
  exact ⟨hb, hmap, hlists, (docType?_generic hb hmap).1 (by decide),
    ((docType?_generic hb hlists).2 (by decide)).2 hword⟩

/-- A bar among the arguments leaves no type at all. -/
theorem union_argument_not_dropped :
    ¬ ∀ (f : Frame) (scope : Scope) (b a : String), IsSingleWord b →
      (∀ c ∈ a.toList, Text.isBlank c = false) →
      f.docType? scope (b ++ "<" ++ a ++ ">") = f.docType? scope b := by
  intro h
  have hword : ((default : Frame).docType? default "array").isNone = false := by decide +kernel
  have hunion : ((default : Frame).docType? default "array<int|string>").isNone = true := by
    decide +kernel
  have heq := h default default "array" "int|string" (by decide)
    ((no_blank_iff_any _).mpr (by decide))
  have hsame : ("array" ++ "<" ++ "int|string" ++ ">" : String) = "array<int|string>" := by decide
  rw [hsame] at heq
  rw [heq, hword] at hunion
  exact absurd hunion (by decide)

end Reading.Frame

end Introspect
