import Introspect.Text.Blank
import Mathlib.Data.List.TakeWhile
import Mathlib.Tactic.Common

/-!
# Pieces, words and trimmed text

* A text is cut at every separator that stands in it (`Text.cutAt_append_sep`), and only there
  (`Text.cutAt_of_forall_not`);
* the lines of a text are said by what stands between line feeds (`Text.isLines_iff`);
* a trimmed text is said by what is taken away at its ends (`Text.trims_iff`). A text without blanks
  is its own trimmed text (`Text.trim_of_no_blank`), and trimming leaves the words
  (`Text.words_trim`).
-/

namespace Introspect.Text

variable {s : String}

/-! ### Pieces -/

theorem extendFirst_append (c : Char) {ps : List (List Char)} (qs : List (List Char))
    (h : ps ≠ []) : extendFirst c (ps ++ qs) = extendFirst c ps ++ qs := by
  cases ps with
  | nil => exact absurd rfl h
  | cons p ps => rfl

/-- A text is cut at a separator that stands in it. -/
theorem cutAt_append_sep {sep : Char → Bool} {c : Char} (hc : sep c = true) (cs ds : List Char) :
    cutAt sep (cs ++ c :: ds) = cutAt sep cs ++ cutAt sep ds := by
  induction cs with
  | nil =>
    rw [List.nil_append, cutAt.eq_2, if_pos hc]
    rfl
  | cons a cs ih =>
    rw [List.cons_append, cutAt, cutAt, ih]
    split
    · rfl
    · -- the character goes to the first piece, which stands in front of the separator
      exact extendFirst_append a _ (cutAt_ne_nil sep cs)

/-- Without separators a text stays in one piece. -/
theorem cutAt_of_forall_not {sep : Char → Bool} {cs : List Char} (h : ∀ c ∈ cs, sep c = false) :
    cutAt sep cs = [cs] := by
  induction cs with
  | nil => rfl
  | cons c cs ih =>
    have hc : ¬ sep c = true := by simp [h c List.mem_cons_self]
    rw [cutAt, if_neg hc, ih fun a ha => h a (List.mem_cons_of_mem c ha)]
    rfl

/-- The last piece is empty only behind a separator. -/
theorem ends_of_getLast?_cutAt {sep : Char → Bool} {cs : List Char}
    (h : (cutAt sep cs).getLast? = some []) :
    cs = [] ∨ ∃ c, cs.getLast? = some c ∧ sep c = true := by
  induction cs with
  | nil => exact Or.inl rfl
  | cons c cs ih =>
    obtain ⟨p, ps, hcut⟩ := List.exists_cons_of_ne_nil (cutAt_ne_nil sep cs)
    rw [cutAt, hcut] at h
    rw [hcut] at ih
    refine Or.inr ?_
    split at h
    · next hc =>
      rw [List.getLast?_cons_cons] at h
      rcases ih h with rfl | ⟨d, hd, hsep⟩
      · exact ⟨c, rfl, hc⟩
      · exact ⟨d, by simp [List.getLast?_cons, hd], hsep⟩
    · -- the character stands in the first piece, which is the last one only if there is no other
      cases ps with
      | nil => simp [extendFirst] at h
      | cons q qs =>
        rw [extendFirst, List.getLast?_cons_cons] at h
        rw [List.getLast?_cons_cons] at ih
        rcases ih h with rfl | ⟨d, hd, hsep⟩
        · cases hcut
        · exact ⟨d, by simp [List.getLast?_cons, hd], hsep⟩

/-- No separator stands in a piece. -/
theorem forall_not_of_mem_cutAt {sep : Char → Bool} {cs p : List Char} (h : p ∈ cutAt sep cs) :
    ∀ c ∈ p, sep c = false := by
  induction cs generalizing p with
  | nil =>
    obtain rfl := List.mem_singleton.mp h
    exact List.forall_mem_nil _
  | cons a cs ih =>
    rw [cutAt] at h
    split at h
    · cases h with
      | head => exact List.forall_mem_nil _
      | tail _ h => exact ih h
    · next ha =>
      -- the character belongs to the first part of what is behind it
      obtain ⟨q, qs, hcut⟩ := List.exists_cons_of_ne_nil (cutAt_ne_nil sep cs)
      rw [hcut] at h ih
      cases h with
      | head =>
        intro c hc
        cases hc with
        | head => simpa using ha
        | tail _ hc => exact ih List.mem_cons_self c hc
      | tail _ h => exact ih (List.mem_cons_of_mem q h)

theorem mem_of_mem_dropReturn {cs : List Char} {c : Char} (h : c ∈ dropReturn cs) : c ∈ cs := by
  unfold dropReturn at h
  split at h
  · exact (List.dropLast_sublist cs).mem h
  · exact h

/-- Ending the lines puts no line feed into them. -/
theorem no_feed_of_mem_endLines {ps : List (List Char)} (hps : ∀ p ∈ ps, '\n' ∉ p) {l : List Char}
    (h : l ∈ endLines ps) : '\n' ∉ l := by
  induction ps with
  | nil => cases h
  | cons p ps ih =>
    cases ps with
    | nil =>
      -- the last piece is a line only if there is something in it, and then as it is
      rw [endLines] at h
      split at h
      · cases h
      · exact hps l h
    | cons q qs =>
      cases h with
      | head => exact mt mem_of_mem_dropReturn (hps p List.mem_cons_self)
      | tail _ h => exact ih (fun p' hp' => hps p' (List.mem_cons_of_mem p hp')) h

/-- No line feed stands in a line. -/
theorem no_feed_of_mem_lines {l : String} (h : l ∈ lines s) : '\n' ∉ l.toList := by
  obtain ⟨cs, hcs, rfl⟩ := List.mem_map.mp h
  rw [String.toList_ofList]
  -- the pieces of a text that is cut at line feeds hold none
  refine no_feed_of_mem_endLines (fun p hp hfeed => ?_) hcs
  simpa using forall_not_of_mem_cutAt hp _ hfeed

/-- What is a line of a text that ends with a line feed: one carriage return at its end is not. -/
inductive EndsLine : List Char → List Char → Prop
  | plain {l : List Char} (hl : l.getLast? ≠ some '\r') : EndsLine l l
  | withReturn (l : List Char) : EndsLine (l ++ ['\r']) l

/-- **Lines.** They go to the next line feed, and the last one to the end of the text, unless there
is nothing behind the last line feed. -/
inductive IsLines : List Char → List (List Char) → Prop
  | nil : IsLines [] []
  | last {l : List Char} (hne : l ≠ []) (hl : '\n' ∉ l) : IsLines l [l]
  | feed {p l rest : List Char} {ls : List (List Char)} (hp : '\n' ∉ p) (hl : EndsLine p l)
    (h : IsLines rest ls) : IsLines (p ++ '\n' :: rest) (l :: ls)

theorem endsLine_iff {p l : List Char} : EndsLine p l ↔ l = dropReturn p := by
  constructor
  · rintro (hl | l)
    · unfold dropReturn
      split
      · next hlast => exact absurd hlast hl
      · rfl
    · simp [dropReturn]
  · rintro rfl
    unfold dropReturn
    split
    · next hlast =>
      -- the carriage return stands behind what is kept
      obtain ⟨front, rfl⟩ := List.getLast?_eq_some_iff.mp hlast
      rw [List.dropLast_concat]
      exact .withReturn front
    · next hlast => exact .plain hlast

/-- A text falls at its first line feed into a line and the lines of the rest. -/
theorem endLines_cutAt_feed {p : List Char} (hp : '\n' ∉ p) (rest : List Char) :
    endLines (cutAt (· == '\n') (p ++ '\n' :: rest))
      = dropReturn p :: endLines (cutAt (· == '\n') rest) := by
  have hplain : ∀ c ∈ p, (c == '\n') = false := fun c hc => by
    simpa using fun heq : c = '\n' => hp (heq ▸ hc)
  rw [cutAt_append_sep (by decide), cutAt_of_forall_not hplain]
  obtain ⟨q, qs, hcut⟩ := List.exists_cons_of_ne_nil (cutAt_ne_nil (· == '\n') rest)
  rw [hcut]
  rfl

theorem endLines_cutAt_of_not_mem {l : List Char} (hl : '\n' ∉ l) :
    endLines (cutAt (· == '\n') l) = if l = [] then [] else [l] := by
  have hplain : ∀ c ∈ l, (c == '\n') = false := fun c hc => by
    simpa using fun heq : c = '\n' => hl (heq ▸ hc)
  rw [cutAt_of_forall_not hplain]
  rfl

/-- **Lines are told** by where the line feeds are. -/
theorem isLines_iff {cs : List Char} {ls : List (List Char)} :
    IsLines cs ls ↔ ls = endLines (cutAt (· == '\n') cs) := by
  constructor
  · intro h
    induction h with
    | nil => rfl
    | last hne hl => rw [endLines_cutAt_of_not_mem hl, if_neg hne]
    | feed hp hl _ ih => rw [endLines_cutAt_feed hp, ← ih, endsLine_iff.mp hl]
  · rintro rfl
    -- from line feed to line feed; what is behind one is shorter than the text
    induction hlen : cs.length using Nat.strongRecOn generalizing cs with
    | ind n ih =>
      by_cases hfeed : '\n' ∈ cs
      · obtain ⟨p, rest, rfl, hp⟩ := List.eq_append_cons_of_mem hfeed
        rw [endLines_cutAt_feed hp]
        exact .feed hp (endsLine_iff.mpr rfl) (ih _ (by simp at hlen; omega) rfl)
      · rw [endLines_cutAt_of_not_mem hfeed]
        split
        · next hnil => exact hnil ▸ .nil
        · next hne => exact .last hne hfeed

theorem split_of_not_mem {sep : Char} (h : sep ∉ s.toList) : split sep s = [s] := by
  have hsep : ∀ c ∈ s.toList, (c == sep) = false := fun c hc => by
    simpa using fun heq : c = sep => h (heq ▸ hc)
  rw [split, cutAt_of_forall_not hsep, List.map_singleton, String.ofList_toList]

/-- At a separator a text falls into two pieces at least. -/
theorem exists_split_of_mem {sep : Char} (h : sep ∈ s.toList) :
    ∃ p q ps, split sep s = p :: q :: ps := by
  -- there is a piece in front of the separator and one behind it
  obtain ⟨xs, ys, hs⟩ := List.append_of_mem h
  obtain ⟨p, ps, hxs⟩ := List.exists_cons_of_ne_nil (cutAt_ne_nil (· == sep) xs)
  obtain ⟨q, qs, hys⟩ := List.exists_cons_of_ne_nil (cutAt_ne_nil (· == sep) ys)
  rw [split, hs, cutAt_append_sep (by simp), hxs, hys]
  cases ps with
  | nil => exact ⟨_, _, _, rfl⟩
  | cons p' ps => exact ⟨_, _, _, rfl⟩

theorem split_append_sep (sep : Char) (s t : String) :
    split sep (s ++ String.singleton sep ++ t) = split sep s ++ split sep t := by
  have happend : (s ++ String.singleton sep ++ t).toList = s.toList ++ sep :: t.toList := by
    simp [String.toList_append]
  rw [split, happend, cutAt_append_sep (by simp), List.map_append, ← split, ← split]

/-- A run of elements of a kind, up to one of another kind, can be read off. -/
theorem run_unique {α : Type} {f : α → Bool} {p q rest rest' : List α} (hp : ∀ a ∈ p, f a = true)
    (hq : ∀ a ∈ q, f a = true) (hrest : ∀ a ∈ rest.head?, f a = false)
    (hrest' : ∀ a ∈ rest'.head?, f a = false) (h : p ++ rest = q ++ rest') :
    p = q ∧ rest = rest' := by
  have hstop : ∀ {r : List α}, (∀ a ∈ r.head?, f a = false) → r.takeWhile f = [] := by
    intro r hr
    cases r with
    | nil => rfl
    | cons a r => exact List.takeWhile_cons_of_neg (by simp [hr a rfl])
  -- the run is what can be taken from the front of the whole
  have hrun := congrArg (List.takeWhile f) h
  rw [List.takeWhile_append_of_pos hp, List.takeWhile_append_of_pos hq, hstop hrest, hstop hrest',
    List.append_nil, List.append_nil] at hrun
  subst hrun
  exact ⟨rfl, List.append_cancel_left h⟩

/-! ### Trimming -/

/-- **Trimming.** What is taken away at the two ends are blanks, and what is left has none there. -/
structure Trims (cs ds : List Char) : Prop where
  exists_ends : ∃ front back, cs = front ++ ds ++ back ∧ (∀ c ∈ front, isBlank c = true) ∧
    ∀ c ∈ back, isBlank c = true
  head_not_blank : ∀ c ∈ ds.head?, isBlank c = false
  last_not_blank : ∀ c ∈ ds.getLast?, isBlank c = false

theorem trimStart_of_blanks {front rest : List Char} (hfront : ∀ c ∈ front, isBlank c = true)
    (hrest : ∀ c ∈ rest.head?, isBlank c = false) : trimStart (front ++ rest) = rest := by
  rw [trimStart, List.dropWhile_append_of_pos hfront]
  cases rest with
  | nil => rfl
  | cons c rest => exact List.dropWhile_cons_of_neg (by simp [hrest c rfl])

theorem trimEnd_of_blanks {front back : List Char} (hback : ∀ c ∈ back, isBlank c = true)
    (hfront : ∀ c ∈ front.getLast?, isBlank c = false) : trimEnd (front ++ back) = front := by
  have hstart : trimStart (back.reverse ++ front.reverse) = front.reverse :=
    trimStart_of_blanks (fun c hc => hback c (List.mem_reverse.mp hc))
      (by rwa [List.head?_reverse])
  rw [trimEnd, List.reverse_append, ← trimStart, hstart, List.reverse_reverse]

theorem exists_trimStart (cs : List Char) :
    ∃ front, cs = front ++ trimStart cs ∧ (∀ c ∈ front, isBlank c = true) ∧
      ∀ c ∈ (trimStart cs).head?, isBlank c = false := by
  refine ⟨cs.takeWhile isBlank, List.takeWhile_append_dropWhile.symm,
    fun c hc => List.mem_takeWhile_imp hc, fun c hc => ?_⟩
  have hstop := List.head?_dropWhile_not isBlank cs
  rw [← trimStart, Option.mem_def.mp hc] at hstop
  simpa using hstop

theorem exists_trimEnd (cs : List Char) :
    ∃ back, cs = trimEnd cs ++ back ∧ (∀ c ∈ back, isBlank c = true) ∧
      ∀ c ∈ (trimEnd cs).getLast?, isBlank c = false := by
  obtain ⟨front, hcs, hfront, hhead⟩ := exists_trimStart cs.reverse
  refine ⟨front.reverse, ?_, fun c hc => hfront c (List.mem_reverse.mp hc), ?_⟩
  · rw [trimEnd, ← trimStart, ← List.reverse_append, ← hcs, List.reverse_reverse]
  · rwa [trimEnd, ← trimStart, List.getLast?_reverse]

/-- **A trimmed text is told** by what is taken away. -/
theorem trims_iff {cs ds : List Char} : Trims cs ds ↔ ds = trimEnd (trimStart cs) := by
  constructor
  · rintro ⟨⟨front, back, rfl, hfront, hback⟩, hhead, hlast⟩
    cases ds with
    | nil =>
      -- there are only blanks
      have hall : ∀ c ∈ front ++ [] ++ back, isBlank c = true := by
        simpa using fun c hc => hc.elim (hfront c) (hback c)
      rw [trimStart, List.dropWhile_eq_nil_iff.mpr hall]
      rfl
    | cons d ds =>
      have hstart : trimStart (front ++ (d :: ds ++ back)) = d :: ds ++ back :=
        trimStart_of_blanks hfront hhead
      rw [List.append_assoc, hstart, trimEnd_of_blanks hback hlast]
  · rintro rfl
    obtain ⟨front, hcs, hfront, hhead⟩ := exists_trimStart cs
    obtain ⟨back, hstart, hback, hlast⟩ := exists_trimEnd (trimStart cs)
    refine ⟨⟨front, back, ?_, hfront, hback⟩, fun c hc => hhead c ?_, hlast⟩
    · rw [List.append_assoc, ← hstart, ← hcs]
    · -- what is left begins as it did before its end was trimmed
      rw [hstart, Option.mem_def, List.head?_append, Option.mem_def.mp hc, Option.some_or]

theorem trim_eq (s : String) : trim s = String.ofList (trimEnd (trimStart s.toList)) := rfl

theorem Trims.trim_ofList {cs ds : List Char} (h : Trims cs ds) :
    trim (String.ofList cs) = String.ofList ds := by
  rw [trim_eq, String.toList_ofList, trims_iff.mp h]

theorem trim_of_no_blank (h : ∀ c ∈ s.toList, isBlank c = false) : trim s = s := by
  have hstart : ∀ cs : List Char, (∀ c ∈ cs, isBlank c = false) → cs.dropWhile isBlank = cs := by
    intro cs hcs
    cases cs with
    | nil => rfl
    | cons c cs => exact List.dropWhile_cons_of_neg (by simp [hcs c List.mem_cons_self])
  rw [trim, trimStart, hstart _ h, trimEnd, hstart _ fun c hc => h c (List.mem_reverse.mp hc),
    List.reverse_reverse, String.ofList_toList]

theorem mem_of_mem_trim {c : Char} (h : c ∈ (trim s).toList) : c ∈ s.toList := by
  rw [trim, String.toList_ofList, trimEnd, List.mem_reverse] at h
  exact (List.dropWhile_sublist _).mem
    (List.mem_reverse.mp ((List.dropWhile_sublist _).mem h))

/-! ### Words -/

/-- The words of a list of characters. -/
def wordLists (cs : List Char) : List (List Char) :=
  (cutAt isBlank cs).filter (· ≠ [])

theorem words_eq (s : String) : words s = (wordLists s.toList).map String.ofList := rfl

/-- A blank separates words. -/
theorem wordLists_append_blank {c : Char} (hc : isBlank c = true) (cs ds : List Char) :
    wordLists (cs ++ c :: ds) = wordLists cs ++ wordLists ds := by
  rw [wordLists, cutAt_append_sep hc, List.filter_append, wordLists, wordLists]

@[simp]
theorem wordLists_nil : wordLists [] = [] := rfl

theorem wordLists_cons_blank {c : Char} (hc : isBlank c = true) (cs : List Char) :
    wordLists (c :: cs) = wordLists cs := by
  rw [← List.nil_append (c :: cs), wordLists_append_blank hc, wordLists_nil, List.nil_append]

theorem wordLists_blanks_append {bs : List Char} (hbs : ∀ c ∈ bs, isBlank c = true)
    (cs : List Char) : wordLists (bs ++ cs) = wordLists cs := by
  induction bs with
  | nil => rfl
  | cons b bs ih =>
    rw [List.cons_append, wordLists_cons_blank (hbs b List.mem_cons_self),
      ih fun c hc => hbs c (List.mem_cons_of_mem b hc)]

theorem wordLists_append_blanks {bs : List Char} (hbs : ∀ c ∈ bs, isBlank c = true)
    (cs : List Char) : wordLists (cs ++ bs) = wordLists cs := by
  cases bs with
  | nil => rw [List.append_nil]
  | cons b bs =>
    have hempty : wordLists bs = [] := by
      rw [← List.append_nil bs,
        wordLists_blanks_append (fun c hc => hbs c (List.mem_cons_of_mem b hc)), wordLists_nil]
    rw [wordLists_append_blank (hbs b List.mem_cons_self), hempty, List.append_nil]

/-- Trimming leaves the words. -/
theorem words_trim (s : String) : words (trim s) = words s := by
  have hstart : wordLists (trimStart s.toList) = wordLists s.toList := by
    -- what trimming takes away are blanks in front, and then blanks behind
    conv_rhs => rw [← List.takeWhile_append_dropWhile (p := isBlank) (l := s.toList)]
    exact (wordLists_blanks_append (fun c hc => List.mem_takeWhile_imp hc) _).symm
  have hend (cs : List Char) : wordLists (trimEnd cs) = wordLists cs := by
    conv_rhs => rw [← List.reverse_reverse cs,
      ← List.takeWhile_append_dropWhile (p := isBlank) (l := cs.reverse), List.reverse_append]
    exact (wordLists_append_blanks
      (fun c hc => List.mem_takeWhile_imp (List.mem_reverse.mp hc)) _).symm
  rw [words_eq, words_eq, trim, String.toList_ofList, hend, hstart]

/-- Words joined by blanks are the words of the pieces. -/
theorem words_intercalate (pieces : List String) :
    words (" ".intercalate pieces) = pieces.flatMap words := by
  induction pieces with
  | nil => rfl
  | cons s pieces ih =>
    cases pieces with
    | nil => simp
    | cons s' pieces =>
      have hblank : (s ++ " " ++ " ".intercalate (s' :: pieces)).toList
          = s.toList ++ ' ' :: (" ".intercalate (s' :: pieces)).toList := by
        simp [String.toList_append]
      rw [String.intercalate_cons_cons, List.flatMap_cons, ← ih, words_eq, hblank,
        wordLists_append_blank (by decide), List.map_append, ← words_eq, ← words_eq]

theorem flatMap_words_filter (pieces : List String) :
    (pieces.filter (· ≠ "")).flatMap words = pieces.flatMap words := by
  induction pieces with
  | nil => rfl
  | cons l pieces ih =>
    rw [List.flatMap_cons, ← ih]
    by_cases hl : l = ""
    · rw [hl, List.filter_cons_of_neg (by simp)]
      rfl
    · rw [List.filter_cons_of_pos (by simpa using hl), List.flatMap_cons]

end Introspect.Text
