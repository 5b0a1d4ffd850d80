import Introspect.Hierarchy
import Introspect.Proofs.Declaration.WriteOnce
import Mathlib.Data.List.Basic

/-!
# First occurrences

`distinctBy` keeps the first of all elements with one key. Who searches a list by key finds the
first element with the key, so the search does not tell the list from what is kept of it.

* `find?_distinctBy`: the search;
* `mem_distinctBy_iff`: an element is kept if the search for its key finds it;
* `distinctBy_append`: behind other elements, those are kept whose keys are new, and so is one more
  element (`distinctBy_concat_of_find?_none`, `distinctBy_concat_of_find?_some`);
* `find?_eq_some_iff_mem`: where all keys are different, the search finds every element.
-/

namespace Introspect

variable {α : Type} {key : α → String} {l l' : List α} {a : α}

theorem distinctBy_sublist (key : α → String) (l : List α) : (distinctBy key l).Sublist l := by
  induction l with
  | nil => exact List.Sublist.slnil
  | cons a l ih =>
    rw [distinctBy]
    exact (List.filter_sublist.trans ih).cons_cons a

/-- No key is kept twice. -/
theorem pairwise_distinctBy (key : α → String) (l : List α) :
    (distinctBy key l).Pairwise fun a b => key a ≠ key b := by
  induction l with
  | nil => exact List.Pairwise.nil
  | cons a l ih =>
    rw [distinctBy, List.pairwise_cons]
    constructor
    · -- what is kept behind `a` has another key
      intro b hb heq
      have hne := (List.mem_filter.mp hb).2
      rw [heq] at hne
      simp at hne
    · exact ih.filter _

/-- A search by key finds the first element with the key, which is kept. -/
theorem find?_distinctBy (key : α → String) (l : List α) (k : String) :
    (distinctBy key l).find? (key · == k) = l.find? (key · == k) := by
  induction l with
  | nil => rfl
  | cons a l ih =>
    rw [distinctBy]
    by_cases ha : key a = k
    · rw [List.find?_cons_of_pos (by simpa using ha), List.find?_cons_of_pos (by simpa using ha)]
    · rw [List.find?_cons_of_neg (by simpa using ha), List.find?_cons_of_neg (by simpa using ha),
        List.find?_filter, ← ih]
      -- what is dropped behind `a` has the key of `a`, and is not searched for
      congr 1
      funext b
      by_cases hb : key b = k
      · simp [hb, Ne.symm ha]
      · simp [hb]

/-- In a list of elements with different keys, exactly the elements are found. -/
theorem find?_eq_some_iff_mem (h : l.Pairwise fun a b => key a ≠ key b) {k : String} :
    l.find? (key · == k) = some a ↔ a ∈ l ∧ key a = k := by
  constructor
  · intro hfind
    have ha := List.mem_of_find?_eq_some hfind
    exact ⟨ha, (ClassDraft.find?_eq_some_iff_of_distinct h ha k).mp hfind⟩
  · rintro ⟨ha, hk⟩
    exact (ClassDraft.find?_eq_some_iff_of_distinct h ha k).mpr hk

/-- **First occurrences.** What is kept is what is found under its own key. -/
theorem mem_distinctBy_iff : a ∈ distinctBy key l ↔ l.find? (key · == key a) = some a := by
  rw [← find?_distinctBy, find?_eq_some_iff_mem (pairwise_distinctBy key l)]
  exact (and_iff_left rfl).symm

/-- A search by key, in terms of what is kept. -/
theorem find?_eq_some_iff_mem_distinctBy (key : α → String) {k : String} :
    l.find? (key · == k) = some a ↔ a ∈ distinctBy key l ∧ key a = k := by
  rw [← find?_distinctBy, find?_eq_some_iff_mem (pairwise_distinctBy key l)]

/-- Behind other elements those are kept whose keys are new. -/
theorem distinctBy_append (key : α → String) (l l' : List α) :
    distinctBy key (l ++ l')
      = distinctBy key l ++ (distinctBy key l').filter fun b => ∀ a ∈ l, key b ≠ key a := by
  induction l with
  | nil =>
    rw [List.nil_append, distinctBy, List.nil_append]
    exact (List.filter_eq_self.mpr fun b _ => by simp).symm
  | cons a l ih =>
    rw [List.cons_append, distinctBy, distinctBy, ih, List.filter_append, List.filter_filter,
      List.cons_append]
    congr 3
    funext b
    simp

theorem distinctBy_concat_of_find?_none (h : l.find? (key · == key a) = none) :
    distinctBy key (l ++ [a]) = distinctBy key l ++ [a] := by
  -- the key is new, so the filter keeps the element
  have hnew : ∀ b ∈ l, key a ≠ key b := by
    intro b hb heq
    exact List.find?_eq_none.mp h b hb (beq_iff_eq.mpr heq.symm)
  rw [distinctBy_append]
  simp only [distinctBy, List.filter_nil, List.filter_cons, decide_eq_true hnew, if_true]

theorem distinctBy_concat_of_find?_some {first : α} (h : l.find? (key · == key a) = some first) :
    distinctBy key (l ++ [a]) = distinctBy key l := by
  -- the key has come up before, so the filter drops the element
  have hold : ¬ ∀ b ∈ l, key a ≠ key b := by
    intro hnew
    have hkey : key first = key a := beq_iff_eq.mp (List.find?_some (p := (key · == key a)) h)
    exact hnew first (List.mem_of_find?_eq_some h) hkey.symm
  rw [distinctBy_append]
  simp only [distinctBy, List.filter_nil, List.filter_cons, decide_eq_false hold,
    Bool.false_eq_true, if_false, List.append_nil]

/-- Of elements with different keys all are kept. -/
theorem distinctBy_of_pairwise (h : l.Pairwise fun a b => key a ≠ key b) :
    distinctBy key l = l := by
  induction l with
  | nil => rfl
  | cons a l ih =>
    obtain ⟨ha, hl⟩ := List.pairwise_cons.mp h
    rw [distinctBy, ih hl]
    congr 1
    rw [List.filter_eq_self]
    intro b hb
    simpa using (ha b hb).symm

end Introspect
