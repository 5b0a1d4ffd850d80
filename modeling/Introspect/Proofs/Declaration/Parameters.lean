import Introspect.Declaration.Draft
import Mathlib.Data.List.Induction
import Mathlib.Tactic.Common

/-!
# Required parameters come first

Whether a parameter may be left out of a call is not its own affair: arguments are passed in order,
so a parameter with a default value is required all the same if a later one cannot do without its
argument. Building a method settles this for the whole list at once, by one number
(`ParameterDraft.requiredCount`), which it finds from the end of the list.

* `Needed` parameters have no default value and are not variadic, and `LastNeeded` names the place
  of the last of them in a list, without any search;
* `lt_requiredCount_iff`: the positions below the number are those with a needed parameter there or
  behind. The induction is from the end of the list, as the search is;
* `requiredCount_eq_succ_iff` and `requiredCount_eq_zero_iff` say the same with `LastNeeded`;
* `MethodDraft.requiredFirst_build` is about every method that is built: its parameters are the
  drafted ones, and the required ones form a prefix, which ends at the last needed parameter.
-/

namespace Introspect

namespace ParameterDraft

variable {d : ParameterDraft} {ds : List ParameterDraft} {i k : Nat}

/-- **Needed parameters** have no default value and are not variadic. -/
def Needed (d : ParameterDraft) : Prop := d.defaultValue = none ∧ d.variadic = false

instance : DecidablePred Needed := fun d =>
  inferInstanceAs (Decidable (d.defaultValue = none ∧ d.variadic = false))

theorem omittable_eq_false_iff : d.omittable = false ↔ d.Needed := by
  rw [omittable, Bool.or_eq_false_iff, Option.isSome_eq_false_iff, Option.isNone_iff_eq_none,
    Needed, and_comm]

/-- **The last needed parameter** of the list has position `k`. -/
structure LastNeeded (ds : List ParameterDraft) (k : Nat) : Prop where
  needed : ∃ d, ds[k]? = some d ∧ d.Needed
  last : ∀ j d, ds[j]? = some d → d.Needed → j ≤ k

/-! ### The number of required parameters -/

@[simp] theorem requiredCount_nil : requiredCount [] = 0 := rfl

/-- A parameter at the end counts, and all in front of it do, exactly if it is needed. -/
theorem requiredCount_concat (ds : List ParameterDraft) (d : ParameterDraft) :
    requiredCount (ds ++ [d]) = if d.Needed then ds.length + 1 else requiredCount ds := by
  rw [requiredCount, List.reverse_concat, List.dropWhile_cons]
  by_cases hd : d.Needed
  · rw [if_pos hd, omittable_eq_false_iff.mpr hd, if_neg Bool.false_ne_true, List.length_cons,
      List.length_reverse]
  · have hom : d.omittable = true := by
      rwa [← omittable_eq_false_iff, Bool.not_eq_false] at hd
    rw [if_neg hd, hom, if_pos rfl, requiredCount]

/-- **What is required.** Up to its number stand the parameters that are needed or have a needed one
behind them. -/
theorem lt_requiredCount_iff :
    i < requiredCount ds ↔ ∃ j d, i ≤ j ∧ ds[j]? = some d ∧ d.Needed := by
  induction ds using List.reverseRecOn with
  | nil => simp
  | append_singleton ds d ih =>
    rw [requiredCount_concat]
    by_cases hd : d.Needed
    · -- the last parameter is needed, and so everything up to it is required
      rw [if_pos hd]
      constructor
      · intro hi
        exact ⟨ds.length, d, Nat.le_of_lt_succ hi, List.getElem?_concat_length, hd⟩
      · rintro ⟨j, e, hij, hj, -⟩
        have hlt := (List.getElem?_eq_some_iff.mp hj).1
        rw [List.length_append, List.length_singleton] at hlt
        omega
    · -- the last parameter is not needed, so a needed one stands in front of it
      rw [if_neg hd, ih]
      constructor
      · rintro ⟨j, e, hij, hj, he⟩
        have hlt := (List.getElem?_eq_some_iff.mp hj).1
        exact ⟨j, e, hij, (List.getElem?_append_left hlt).trans hj, he⟩
      · rintro ⟨j, e, hij, hj, he⟩
        rw [List.getElem?_append] at hj
        split_ifs at hj with hlt
        · exact ⟨j, e, hij, hj, he⟩
        · obtain rfl := List.mem_singleton.mp (List.mem_of_getElem? hj)
          exact absurd he hd

theorem requiredCount_le (ds : List ParameterDraft) : requiredCount ds ≤ ds.length := by
  by_contra hlt
  obtain ⟨j, d, hj, hd, -⟩ := lt_requiredCount_iff.mp (Nat.lt_of_not_le hlt)
  exact absurd (List.getElem?_eq_some_iff.mp hd).1 (Nat.not_lt_of_le hj)

/-- The number is one plus the position of the last needed parameter. -/
theorem requiredCount_eq_succ_iff : requiredCount ds = k + 1 ↔ LastNeeded ds k := by
  constructor
  · intro hcount
    have hlast : ∀ j d, ds[j]? = some d → d.Needed → j ≤ k := by
      intro j d hj hd
      have hlt : j < requiredCount ds := lt_requiredCount_iff.mpr ⟨j, d, Nat.le_refl j, hj, hd⟩
      omega
    -- behind `k` there is none, so the one that makes `k` required stands there
    have hlt : k < requiredCount ds := hcount.symm ▸ Nat.lt_succ_self k
    obtain ⟨j, d, hkj, hj, hd⟩ := lt_requiredCount_iff.mp hlt
    obtain rfl : j = k := Nat.le_antisymm (hlast j d hj hd) hkj
    exact ⟨⟨d, hj, hd⟩, hlast⟩
  · rintro ⟨⟨d, hk, hd⟩, hlast⟩
    have hlt : k < requiredCount ds := lt_requiredCount_iff.mpr ⟨k, d, Nat.le_refl k, hk, hd⟩
    have hle : ¬ k + 1 < requiredCount ds := by
      intro hmore
      obtain ⟨j, e, hkj, hj, he⟩ := lt_requiredCount_iff.mp hmore
      exact absurd (hlast j e hj he) (Nat.not_le_of_lt hkj)
    omega

/-- The number is zero if no parameter is needed. -/
theorem requiredCount_eq_zero_iff : requiredCount ds = 0 ↔ ∀ d ∈ ds, ¬ d.Needed := by
  constructor
  · intro hzero d hd hneeded
    obtain ⟨j, hj⟩ := List.mem_iff_getElem?.mp hd
    have hlt : j < requiredCount ds := lt_requiredCount_iff.mpr ⟨j, d, Nat.le_refl j, hj, hneeded⟩
    omega
  · intro hnone
    by_contra hne
    obtain ⟨j, d, -, hj, hd⟩ := lt_requiredCount_iff.mp (Nat.pos_of_ne_zero hne)
    exact hnone d (List.mem_of_getElem? hj) hd

/-- What is required stands up to the last needed parameter, and there is one. -/
theorem lt_requiredCount_iff_last : i < requiredCount ds ↔ ∃ k, LastNeeded ds k ∧ i ≤ k := by
  constructor
  · intro hi
    obtain ⟨k, hk⟩ := Nat.exists_eq_succ_of_ne_zero (Nat.ne_zero_of_lt hi)
    exact ⟨k, requiredCount_eq_succ_iff.mp hk, Nat.le_of_lt_succ (hk ▸ hi)⟩
  · rintro ⟨k, hk, hik⟩
    rw [requiredCount_eq_succ_iff.mpr hk]
    exact Nat.lt_succ_of_le hik

/-! ### The built parameters -/

/-- A built parameter is the draft at its position, which knows that position and how many are
required. -/
theorem exists_of_getElem?_buildAll {p : Parameter} (h : (buildAll ds)[i]? = some p) :
    ∃ d, ds[i]? = some d ∧ p = d.build i (requiredCount ds) := by
  rw [buildAll, List.getElem?_map, List.getElem?_zipIdx, Option.map_map] at h
  obtain ⟨d, hd, rfl⟩ := Option.map_eq_some_iff.mp h
  refine ⟨d, hd, ?_⟩
  simp only [Function.comp_apply, Nat.zero_add]

/-- Parameters are built in order, each with its position. -/
theorem position_of_getElem?_buildAll {p : Parameter} (h : (buildAll ds)[i]? = some p) :
    p.position = i := by
  obtain ⟨d, -, rfl⟩ := exists_of_getElem?_buildAll h
  rfl

/-- A parameter is required exactly if its position is below the number of those that are. -/
theorem optional_of_getElem?_buildAll {p : Parameter} (h : (buildAll ds)[i]? = some p) :
    p.optional = false ↔ i < requiredCount ds := by
  obtain ⟨d, -, rfl⟩ := exists_of_getElem?_buildAll h
  simp [build]

theorem countP_range_lt (n m : Nat) :
    (List.range m).countP (fun i => decide (i < n)) = min n m := by
  induction m with
  | zero => simp
  | succ m ih =>
    rw [List.range_succ, List.countP_append, ih, List.countP_singleton]
    simp only [decide_eq_true_eq]
    split <;> omega

/-- Of the built parameters, as many are required as the number says. -/
theorem countP_buildAll (ds : List ParameterDraft) :
    (buildAll ds).countP (! ·.optional) = requiredCount ds := by
  calc (buildAll ds).countP (! ·.optional)
      = (ds.zipIdx.map Prod.snd).countP fun i => decide (i < requiredCount ds) := by
        rw [buildAll, List.countP_map, List.countP_map]
        refine List.countP_congr fun p _ => ?_
        simp [build]
    _ = (List.range ds.length).countP fun i => decide (i < requiredCount ds) := by
        rw [List.zipIdx_map_snd, List.range_eq_range']
    _ = requiredCount ds := by
        rw [countP_range_lt, Nat.min_eq_left (requiredCount_le ds)]

end ParameterDraft

/-- What a parameter was drafted as: all of it but its position and whether it may be left out. -/
def Parameter.draft (p : Parameter) : ParameterDraft where
  name := p.name
  typeHint := p.typeHint
  defaultValue := p.defaultValue
  byReference := p.byReference
  variadic := p.variadic
  promoted := p.promoted

/-- Building loses nothing that was drafted. -/
theorem ParameterDraft.map_draft_buildAll (ds : List ParameterDraft) :
    (buildAll ds).map Parameter.draft = ds := by
  rw [buildAll, List.map_map]
  exact List.zipIdx_map_fst 0 ds

/-! ### Methods -/

/-- **Required first.** The parameters of the method are the drafts `ds`, and the required ones are
a prefix of them. -/
structure Method.RequiredFirst (ds : List ParameterDraft) (m : Method) : Prop where
  /-- The parameters are those of the drafts, in their order, with their names and all else that was
  written to them. -/
  drafts_eq : m.parameters.map Parameter.draft = ds
  /-- Each of them stands at its position. -/
  position_eq : ∀ (i : Nat) (p : Parameter), m.parameters[i]? = some p → p.position = i
  /-- Required are those up to the last needed one, and no others. -/
  optional_eq_false_iff : ∀ (i : Nat) (p : Parameter), m.parameters[i]? = some p →
    (p.optional = false ↔ ∃ k, ParameterDraft.LastNeeded ds k ∧ i ≤ k)
  /-- Behind an optional parameter all are optional. -/
  optional_mono : ∀ (i j : Nat) (p q : Parameter), i ≤ j → m.parameters[i]? = some p →
    m.parameters[j]? = some q → p.optional = true → q.optional = true
  /-- As many are required as stand up to the last needed one, -/
  requiredCount_of_last : ∀ k, ParameterDraft.LastNeeded ds k → m.requiredCount = k + 1
  /-- and none if no parameter is needed. -/
  requiredCount_of_none : (∀ d ∈ ds, ¬ d.Needed) → m.requiredCount = 0
  /-- A parameter without a default value that is not variadic is required. -/
  required_of_needed : ∀ p ∈ m.parameters, p.defaultValue = none → p.variadic = false →
    p.optional = false

/-- **Required parameters form a prefix** of the parameters of every method that is built, whatever
was drafted for them; a draft to which no parameters were written has the empty list. -/
theorem MethodDraft.requiredFirst_build (d : MethodDraft) :
    d.build.RequiredFirst (d.parameters.getD []) := by
  have hrequired : ∀ (i : Nat) (p : Parameter), d.build.parameters[i]? = some p →
      (p.optional = false ↔ i < ParameterDraft.requiredCount (d.parameters.getD [])) :=
    fun _ _ h => ParameterDraft.optional_of_getElem?_buildAll h
  have hcount : d.build.requiredCount = ParameterDraft.requiredCount (d.parameters.getD []) :=
    ParameterDraft.countP_buildAll _
  constructor
  case drafts_eq => exact ParameterDraft.map_draft_buildAll _
  case position_eq => exact fun i p h => ParameterDraft.position_of_getElem?_buildAll h
  case optional_eq_false_iff =>
    intro i p h
    rw [hrequired i p h, ParameterDraft.lt_requiredCount_iff_last]
  case optional_mono =>
    intro i j p q hij hi hj hp
    -- if `q` were required, so would be `p` in front of it
    by_contra hq
    rw [Bool.not_eq_true, hrequired j q hj] at hq
    exact absurd hp (by simp [(hrequired i p hi).mpr (Nat.lt_of_le_of_lt hij hq)])
  case requiredCount_of_last =>
    intro k hk
    rw [hcount, ParameterDraft.requiredCount_eq_succ_iff]
    exact hk
  case requiredCount_of_none =>
    intro hnone
    rw [hcount, ParameterDraft.requiredCount_eq_zero_iff]
    exact hnone
  case required_of_needed =>
    intro p hp hdefault hvariadic
    obtain ⟨i, hi⟩ := List.mem_iff_getElem?.mp hp
    obtain ⟨e, he, rfl⟩ := ParameterDraft.exists_of_getElem?_buildAll hi
    rw [hrequired i _ hi, ParameterDraft.lt_requiredCount_iff]
    exact ⟨i, e, Nat.le_refl i, he, hdefault, hvariadic⟩

/-- A default value in front of a needed parameter makes nothing optional. -/
example : (({ MethodDraft.ofName "run" {} false with
      parameters := some [{ name := "a", defaultValue := some "1" }, { name := "b" },
        { name := "c", defaultValue := some "1" }] } : MethodDraft).build.parameters.map
      (·.optional)) = [false, false, true] := by
  decide

end Introspect
