import Introspect.Proofs.Scan.Passthrough
import Introspect.Proofs.Scan.Spelling

/-!
# Pieces of a text that breaks off

What a recogniser finds inside of a text, it finds there too if the text breaks off behind it. This
is not so for every place at which a text can break off: a line comment in front of `?>` goes on if
the text ends between the two characters, and text outside of code ends at a tag only if all of the
tag is there. `codePiece?_cut` and `htmlPiece?_cut` say of whole pieces what is needed, which is
that the text does not break off inside of the next one. In all lemmas `u` is left of a text
`u ++ w`.

* `Steady` are lengths that do not change, for instance those of numbers and names;
* `HeredocHeader.cut`, `closeHeredoc_cut` and `heredocPiece?_cut` are about heredocs, the end of
  which is told by a whole line;
* `codePiece?_cut` follows the branches of `codePiece?`. A condition that looks ahead may fail where
  the text breaks off, but only if the piece would have gone on there (`Piece.Survives.ite_ahead`);
* `openTag?_cut`, `htmlLength_cut` and `htmlPiece?_cut` are about tags and text outside of code.
-/

namespace Introspect.Token

/-! ### Texts -/

/-- A text that begins with a character of a class. -/
theorem exists_cons_of_head?_any {f : Char → Bool} {cs : List Char}
    (h : cs.head?.any f = true) : ∃ c t, cs = c :: t ∧ f c = true := by
  cases cs with
  | nil => simp at h
  | cons c t => exact ⟨c, t, rfl, by simpa using h⟩

/-- What takes all of a text that breaks off takes nothing that is cut off. -/
theorem eq_nil_of_length_append_le {u w : List Char} (h : (u ++ w).length ≤ u.length) :
    w = [] := by
  rw [List.length_append] at h
  exact List.length_eq_zero_iff.mp (by omega)

/-- What stands behind a part of `u` goes on behind `u`. -/
theorem exists_append_of_length_le {a b u w : List Char} (h : u ++ w = a ++ b)
    (hle : a.length ≤ u.length) : ∃ b', u = a ++ b' ∧ b = b' ++ w := by
  have hbegins : a <+: u :=
    List.prefix_of_prefix_length_le ⟨b, h.symm⟩ (List.prefix_append u w) hle
  obtain ⟨b', rfl⟩ := hbegins
  rw [List.append_assoc] at h
  exact ⟨b', rfl, (List.append_cancel_left h).symm⟩

/-! ### Lengths -/

/-- **Steady lengths.** A length that stays inside of a text is the same where the text breaks
off. -/
def Steady (f : List Char → Nat) : Prop :=
  ∀ u w : List Char, f (u ++ w) ≤ u.length → f u = f (u ++ w)

/-- Where nothing is left, nothing is found; only texts with a first character matter. -/
theorem Steady.of_cons {f : List Char → Nat} (hnil : f [] = 0)
    (h : ∀ c u w, f (c :: (u ++ w)) ≤ u.length + 1 → f (c :: u) = f (c :: (u ++ w))) :
    Steady f := by
  intro u w hle
  cases u with
  | nil =>
    rw [List.nil_append, List.length_nil, Nat.le_zero] at hle
    rw [List.nil_append, hle, hnil]
  | cons c u => exact h c u w hle

theorem takeWhile_cut {f : Char → Bool} {u w : List Char}
    (h : ((u ++ w).takeWhile f).length ≤ u.length) : u.takeWhile f = (u ++ w).takeWhile f := by
  induction u with
  | nil => simpa using h
  | cons c u ih =>
    by_cases hc : f c = true
    · simp only [List.cons_append, List.takeWhile_cons, hc, if_true, List.length_cons] at h ⊢
      rw [ih (Nat.le_of_succ_le_succ h)]
    · simp [hc]

theorem steady_takeWhile (f : Char → Bool) : Steady fun cs => (cs.takeWhile f).length :=
  fun _ _ h => congrArg List.length (takeWhile_cut h)

theorem steady_lineBreakLength : Steady lineBreakLength := by
  refine .of_cons rfl fun a u w h => ?_
  match u with
  | [] =>
    cases w with
    | nil => rfl
    | cons b w =>
      -- a carriage return would be made longer by a line feed
      by_cases ha : a = '\r'
      · by_cases hb : b = '\n' <;> simp_all [lineBreakLength]
      · by_cases ha' : a = '\n' <;> simp_all [lineBreakLength]
  | b :: u =>
    rw [← lineBreakLength_take (a :: (b :: u ++ w)), ← lineBreakLength_take (a :: b :: u)]
    rfl

theorem steady_tagSpaceLength : Steady tagSpaceLength := by
  refine .of_cons rfl fun c u w h => ?_
  have hbreak : lineBreakLength (c :: u) = lineBreakLength (c :: (u ++ w)) := by
    -- a line break is a part of the white space, so it is inside of `u` too
    refine steady_lineBreakLength (c :: u) w (Nat.le_trans ?_ h)
    show lineBreakLength (c :: (u ++ w)) ≤ _
    unfold tagSpaceLength
    split <;> omega
  unfold tagSpaceLength
  rw [hbreak]
  rfl

/-! ### Numbers and names -/

theorem steady_digitsLength : Steady digitsLength := steady_takeWhile _

theorem digitsLength_pos {c : Char} (hc : Text.isDigit c = true) (cs : List Char) :
    0 < digitsLength (c :: cs) := by
  simp [digitsLength, hc]

theorem steady_fractionLength : Steady fractionLength := by
  refine .of_cons rfl fun c u w h => ?_
  by_cases hc : c = '.'
  · subst hc
    match u, w with
    | [], [] => rfl
    | [], d :: w =>
      -- a digit behind the point would belong to the fraction
      rw [List.nil_append, fractionLength] at h ⊢
      split at h
      · next hd =>
        have hpos := digitsLength_pos hd w
        simp only [List.length_nil] at h
        omega
      · next hd =>
        rw [if_neg hd]
        rfl
    | d :: u, w =>
      rw [List.cons_append, fractionLength] at h ⊢
      rw [fractionLength]
      -- the character behind the point is in `u`, so both texts have a fraction there or none has
      by_cases hd : Text.isDigit d = true
      · rw [if_pos hd] at h ⊢
        rw [if_pos hd, steady_digitsLength (d :: u) w]
        · rfl
        · show digitsLength (d :: (u ++ w)) ≤ u.length + 1
          simp only [List.length_cons] at h
          omega
      · rw [if_neg hd, if_neg hd]
  · simp [fractionLength, hc]

theorem steady_exponentLength : Steady exponentLength := by
  refine .of_cons rfl fun e u w h => ?_
  by_cases he : e = 'e' ∨ e = 'E'
  · have hsign : ∀ s : Char, s = '+' ∨ s = '-' → Text.isDigit s = false := by
      rintro s (rfl | rfl) <;> decide
    match u, w with
    | [], [] => rfl
    | [], [d] =>
      simp only [List.nil_append, exponentLength, he, if_true, List.length_nil] at h ⊢
      split_ifs at h ⊢ <;> omega
    -- behind the letter nothing is left: a sign and a digit there would be cut off
    | [], s :: d :: w =>
      have hpos := fun hd => digitsLength_pos (c := d) hd w
      have hpos' := fun hs => digitsLength_pos (c := s) hs (d :: w)
      simp only [List.nil_append, exponentLength, he, if_true, List.length_nil] at h ⊢
      split_ifs at h ⊢ <;> grind
    | [s], [] => rfl
    -- one character is left: a digit behind it would be cut off
    | [s], d :: w =>
      have hpos := fun hd => digitsLength_pos (c := d) hd w
      have hsteady := steady_digitsLength [s] (d :: w)
      simp only [List.cons_append, List.nil_append, exponentLength, he, if_true, List.length_cons,
        List.length_nil] at h hsteady ⊢
      by_cases hs : s = '+' ∨ s = '-'
      · simp only [hs, if_true, hsign s hs] at h ⊢
        split_ifs at h ⊢ <;> grind
      · simp only [hs, if_false] at h ⊢
        by_cases hd : Text.isDigit s = true
        · have hone : digitsLength [s] = 1 := by simp [digitsLength, hd]
          simp only [hd, if_true] at h ⊢
          omega
        · simp [hd]
    -- sign and digit are in `u`, and from either of them on the digits are steady
    | s :: d :: u, w =>
      have hsteady := steady_digitsLength (d :: u) w
      have hsteady' := steady_digitsLength (s :: d :: u) w
      simp only [List.cons_append, List.length_cons] at hsteady hsteady'
      simp only [List.cons_append, exponentLength, he, if_true, List.length_cons] at h ⊢
      split_ifs at h ⊢ <;> omega
  · simp [exponentLength, he]

theorem steady_nameLength : Steady nameLength := by
  intro u w h
  induction u with
  | nil =>
    rw [List.nil_append, List.length_nil, Nat.le_zero] at h
    rw [List.nil_append, h]
    rfl
  | cons c u ih =>
    rw [List.cons_append, List.length_cons, nameLength] at h
    rw [List.cons_append, nameLength, nameLength]
    by_cases hpart : Text.isNamePart c = true
    · rw [if_pos hpart] at h
      rw [if_pos hpart, if_pos hpart, ih (Nat.le_of_succ_le_succ h)]
    · rw [if_neg hpart] at h
      rw [if_neg hpart, if_neg hpart]
      cases u with
      | nil =>
        -- a name that goes on behind a backslash goes on by a character at least
        have hstop : ¬ (c = '\\' ∧ (([] : List Char) ++ w).head?.any Text.isNameStart = true) := by
          intro hgo
          rw [if_pos hgo] at h
          obtain ⟨d, ds, rfl, hstart⟩ := exists_cons_of_head?_any hgo.2
          have hd : Text.isNamePart d = true := Text.isNamePart_of_isNameStart hstart
          rw [List.nil_append, nameLength, if_pos hd] at h
          simp at h
        rw [if_neg hstop]
        simp
      | cons d u =>
        rw [List.head?_append_of_ne_nil _ (List.cons_ne_nil d u)] at h ⊢
        split_ifs at h ⊢ with hgo
        · rw [ih (Nat.le_of_succ_le_succ h)]
        · rfl

theorem decimal_cut {u w : List Char} (h : (numberPiece.decimal (u ++ w)).length ≤ u.length) :
    numberPiece.decimal u = numberPiece.decimal (u ++ w) := by
  -- whole part, fraction and exponent, each from where the last one ends
  have hlength : digitsLength (u ++ w) + fractionLength ((u ++ w).drop (digitsLength (u ++ w)))
      + exponentLength ((u ++ w).drop (digitsLength (u ++ w)
        + fractionLength ((u ++ w).drop (digitsLength (u ++ w))))) ≤ u.length :=
    Nat.le_trans (Nat.le_max_right _ _) h
  have hwhole : digitsLength u = digitsLength (u ++ w) := steady_digitsLength u w (by omega)
  have hdrop : ∀ n ≤ u.length, (u ++ w).drop n = u.drop n ++ w :=
    fun _ hn => List.drop_append_of_le_length hn
  have hfraction : fractionLength (u.drop (digitsLength (u ++ w)))
      = fractionLength ((u ++ w).drop (digitsLength (u ++ w))) := by
    rw [hdrop _ (by omega)] at hlength ⊢
    exact steady_fractionLength _ w (by rw [List.length_drop]; omega)
  have hexponent : ∀ n, n + exponentLength ((u ++ w).drop n) ≤ u.length →
      exponentLength (u.drop n) = exponentLength ((u ++ w).drop n) := by
    intro n hn
    rw [hdrop _ (by omega)] at hn ⊢
    exact steady_exponentLength _ w (by rw [List.length_drop]; omega)
  simp only [numberPiece.decimal, hwhole, hfraction, hexponent _ hlength]

theorem numberPiece_cut {u w : List Char} (hne : u ≠ [])
    (h : (numberPiece (u ++ w)).length ≤ u.length) : numberPiece u = numberPiece (u ++ w) := by
  obtain ⟨c, u, rfl⟩ := List.exists_cons_of_ne_nil hne
  by_cases hc : c = '0'
  · subst hc
    match u, w with
    | [], [] => rfl
    | [], r :: w =>
      cases hr : radixOf r with
      | none =>
        have hdecimal :
            numberPiece (['0'] ++ r :: w) = numberPiece.decimal (['0'] ++ r :: w) := by
          simp only [List.singleton_append, numberPiece, hr]
        rw [hdecimal] at h ⊢
        exact decimal_cut h
      | some radix =>
        -- the letter of a radix would belong to the number
        simp only [List.singleton_append, numberPiece, hr, List.length_singleton] at h
        split at h
        · simp at h
        · dsimp only at h
          omega
    | r :: u, w =>
      cases hr : radixOf r with
      | none =>
        have hdecimal : ∀ cs,
            numberPiece ('0' :: r :: cs) = numberPiece.decimal ('0' :: r :: cs) := by
          intro cs
          simp only [numberPiece, hr]
        simp only [List.cons_append, hdecimal] at h ⊢
        exact decimal_cut h
      | some radix =>
        -- behind the letter of a radix the number goes on as long as a class of characters does
        have hdigits : (u.takeWhile fun c => c == '_' || Text.isDigitIn radix c)
            = (u ++ w).takeWhile fun c => c == '_' || Text.isDigitIn radix c := by
          refine takeWhile_cut ?_
          simp only [List.cons_append, numberPiece, hr, List.length_cons] at h
          split at h
          · next hzero =>
            rw [hzero]
            exact Nat.zero_le _
          · dsimp only at h
            omega
        simp only [List.cons_append, numberPiece, hr, hdigits]
  · simp only [List.cons_append, numberPiece_of_ne hc] at h ⊢
    exact decimal_cut h

/-! ### Punctuation -/

theorem isPrefixOf_of_isPrefixOf {text u : List Char} (h : text.isPrefixOf u = true)
    (w : List Char) : text.isPrefixOf (u ++ w) = true := by
  rw [List.isPrefixOf_iff_prefix] at h ⊢
  exact h.trans (List.prefix_append u w)

theorem length_punctuationPiece {c : Char} {cs : List Char} {entry : List Char × Kind}
    (h : (punctuation.find? fun entry => entry.1.isPrefixOf (c :: cs)) = some entry) :
    (punctuationPiece c cs).length = max 1 entry.1.length := by
  unfold punctuationPiece
  split
  · next text kind hfind =>
    obtain rfl := Option.some.inj (h.symm.trans hfind)
    rfl
  · next hfind => exact absurd (h.symm.trans hfind) (by simp)

theorem punctuationPiece_cut {c : Char} {u w : List Char}
    (h : (punctuationPiece c (u ++ w)).length ≤ u.length + 1) :
    punctuationPiece c u = punctuationPiece c (u ++ w) := by
  have hfind : (punctuation.find? fun entry => entry.1.isPrefixOf (c :: u))
      = punctuation.find? fun entry => entry.1.isPrefixOf (c :: (u ++ w)) := by
    cases hlong : punctuation.find? fun entry => entry.1.isPrefixOf (c :: (u ++ w)) with
    | none =>
      -- an entry with which the shorter text begins is one with which the longer one does
      rw [List.find?_eq_none] at hlong ⊢
      intro entry hentry hbegins
      exact hlong entry hentry (isPrefixOf_of_isPrefixOf hbegins w)
    | some entry =>
      rw [length_punctuationPiece hlong] at h
      have hlength : entry.1.length ≤ (c :: u).length := Nat.le_trans (Nat.le_max_right _ _) h
      -- what begins the shorter text begins the longer one, so no other entry comes first
      obtain ⟨hbegins, before, behind, hsplit, hbefore⟩ := List.find?_eq_some_iff_append.mp hlong
      refine List.find?_eq_some_iff_append.mpr ⟨?_, before, behind, hsplit, ?_⟩
      · exact (isPrefixOf_append hlength w).symm.trans hbegins
      · intro other hother
        have hnot := hbefore other hother
        rw [Bool.not_eq_true'] at hnot ⊢
        by_contra hshort
        have hlong := isPrefixOf_of_isPrefixOf (Bool.eq_true_of_not_eq_false hshort) w
        exact absurd (hlong.symm.trans hnot) (by decide)
  unfold punctuationPiece
  congr 1

/-! ### Heredocs -/

/-- A class of characters is left where a character follows that is not in it. -/
theorem takeWhile_append_eq {f : Char → Bool} {u w : List Char} (hu : ∀ c ∈ u, f c = true)
    (hw : w.head?.any f = false) : (u ++ w).takeWhile f = u := by
  rw [List.takeWhile_append_of_pos hu]
  cases w with
  | nil => simp
  | cons c w =>
    have hc : f c = false := by simpa using hw
    simp [hc]

/-- A line break begins with no part of a name. -/
theorem isNamePart_head_of_lineBreak {tail : List Char} (h : lineBreakLength tail ≠ 0) :
    tail.head?.any Text.isNamePart = false := by
  unfold lineBreakLength at h
  split at h
  · rfl
  · rfl
  · rfl
  · exact absurd rfl h

theorem isIndent_of_isNameStart {c : Char} (hc : Text.isNameStart c = true) :
    Text.isIndent c = false := by
  simp [Text.isIndent, ne_of_isNameStart hc (by decide : Text.isNameStart ' ' = false),
    ne_of_isNameStart hc (by decide : Text.isNameStart '\t' = false)]

/-- Every header is found. -/
theorem HeredocHeader.heredocHeader?_eq {cs label : List Char} {n : Nat}
    (h : HeredocHeader cs label n) : heredocHeader? cs = some (label, n) := by
  obtain @⟨indent, label, tail, quote, hindent, hquote, hstart, hparts, hbreak⟩ := h
  obtain ⟨c, label, rfl, hc⟩ := exists_cons_of_head?_any hstart
  have hcindent := isIndent_of_isNameStart hc
  have htail := isNamePart_head_of_lineBreak hbreak
  cases quote with
  | none =>
    -- a label does not begin with a quote
    have hfilter : (some c).filter (fun c => c == '"' || c == '\'') = none := by
      simp [Option.filter, ne_of_isNameStart hc (by decide : Text.isNameStart '"' = false),
        ne_of_isNameStart hc (by decide : Text.isNameStart '\'' = false)]
    have hindentEq : (indent ++ c :: (label ++ tail)).takeWhile Text.isIndent = indent :=
      takeWhile_append_eq hindent (by simpa using hcindent)
    have hlabelEq : (c :: (label ++ tail)).takeWhile Text.isNamePart = c :: label :=
      takeWhile_append_eq (u := c :: label) hparts htail
    obtain ⟨k, hk⟩ := Nat.exists_eq_succ_of_ne_zero hbreak
    simp [heredocHeader?, hindentEq, hlabelEq, hfilter, hc, hk]
  | some q =>
    have hq : Text.isIndent q = false ∧ Text.isNamePart q = false ∧
        (some q).filter (fun c => c == '"' || c == '\'') = some q := by
      rcases hquote q rfl with rfl | rfl <;> decide
    obtain ⟨hqindent, hqpart, hfilter⟩ := hq
    have hindentEq : (indent ++ q :: c :: (label ++ q :: tail)).takeWhile Text.isIndent = indent :=
      takeWhile_append_eq hindent (by simpa using hqindent)
    have hlabelEq : (c :: (label ++ q :: tail)).takeWhile Text.isNamePart = c :: label :=
      takeWhile_append_eq (u := c :: label) hparts (by simpa using hqpart)
    obtain ⟨k, hk⟩ := Nat.exists_eq_succ_of_ne_zero hbreak
    simp [heredocHeader?, hindentEq, hlabelEq, hfilter, hc, hk]

/-- The label of a header is a name. -/
theorem HeredocHeader.label {cs label : List Char} {n : Nat} (h : HeredocHeader cs label n) :
    label.head?.any Text.isNameStart = true ∧ ∀ c ∈ label, Text.isNamePart c = true := by
  obtain ⟨-, -, hstart, hparts, -⟩ := h
  exact ⟨hstart, hparts⟩

theorem lineBreakLength_append_ne_zero {tail : List Char} (h : lineBreakLength tail ≠ 0)
    (w : List Char) : lineBreakLength (tail ++ w) ≠ 0 := by
  intro hzero
  have hsteady := steady_lineBreakLength tail w (by rw [hzero]; exact Nat.zero_le _)
  exact h (hsteady.trans hzero)

/-- A header is one whatever follows, though its line break may get longer. -/
theorem HeredocHeader.append {u label : List Char} {n : Nat} (h : HeredocHeader u label n)
    (w : List Char) : ∃ m, HeredocHeader (u ++ w) label m := by
  obtain @⟨indent, label, tail, quote, hindent, hquote, hstart, hparts, hbreak⟩ := h
  simp only [List.append_assoc]
  exact ⟨_, .mk hindent hquote hstart hparts (lineBreakLength_append_ne_zero hbreak w)⟩

/-- A header inside of a text that breaks off. -/
theorem HeredocHeader.cut {u w label : List Char} {n : Nat} (h : HeredocHeader (u ++ w) label n)
    (hn : n ≤ u.length) : HeredocHeader u label n := by
  -- a header is made of parts, so the text gets a name before it is taken apart
  generalize hcs : u ++ w = cs at h
  obtain @⟨indent, label, tail, quote, hindent, hquote, hstart, hparts, hbreak⟩ := h
  -- all but the line break lies in `u`
  have hfront : u ++ w = (indent ++ (quote.toList ++ (label ++ quote.toList))) ++ tail := by
    rw [hcs]
    simp only [List.append_assoc]
  obtain ⟨tail', rfl, rfl⟩ := exists_append_of_length_le hfront (by
    simp only [List.length_append]
    omega)
  simp only [List.length_append] at hn
  have hsteady := steady_lineBreakLength tail' w (by omega)
  simp only [List.append_assoc]
  rw [← hsteady]
  exact .mk hindent hquote hstart hparts (by rwa [hsteady])

/-- **Closing lines:** blanks and the label, which does not go on. -/
inductive ClosingLine (label : List Char) : List Char → Nat → Prop where
  | mk {indent behind : List Char} (hindent : ∀ c ∈ indent, Text.isIndent c = true)
      (hbehind : behind.head?.any Text.isNamePart = false) :
      ClosingLine label (indent ++ (label ++ behind)) (indent.length + label.length)

theorem closingLine?_eq_some_iff {label line : List Char} {k : Nat}
    (hstart : label.head?.any Text.isNameStart = true) :
    closingLine? label line = some k ↔ ClosingLine label line k := by
  constructor
  · intro h
    -- in front of the label stand all the blanks that there are
    have hindent : ∀ c ∈ line.takeWhile Text.isIndent, Text.isIndent c = true :=
      fun c hc => List.mem_takeWhile_imp hc
    have hline := List.prefix_iff_eq_append.mp (List.takeWhile_prefix (l := line) Text.isIndent)
    unfold closingLine? at h
    dsimp only at h
    generalize line.takeWhile Text.isIndent = indent at h hindent hline
    split_ifs at h with hclose
    obtain rfl := Option.some.inj h
    rw [List.isPrefixOf_iff_prefix, List.prefix_iff_eq_append, Bool.not_eq_true] at hclose
    rw [← hline, ← hclose.1]
    exact .mk hindent hclose.2
  · rintro @⟨indent, behind, hindent, hbehind⟩
    -- a label does not begin with a blank, so the blanks end in front of it
    have hhead : (label ++ behind).head?.any Text.isIndent = false := by
      obtain ⟨c, label, rfl, hc⟩ := exists_cons_of_head?_any hstart
      exact isIndent_of_isNameStart hc
    have hindentEq := takeWhile_append_eq hindent hhead
    unfold closingLine?
    dsimp only
    rw [hindentEq, List.drop_left, List.drop_left, if_pos]
    exact ⟨by simp, by simp [hbehind]⟩

/-- A closing line inside of a text that breaks off. -/
theorem ClosingLine.cut {label u w : List Char} {k : Nat} (h : ClosingLine label (u ++ w) k)
    (hk : k ≤ u.length) : ClosingLine label u k := by
  generalize hline : u ++ w = line at h
  obtain @⟨indent, behind, hindent, hbehind⟩ := h
  rw [← List.append_assoc] at hline
  obtain ⟨behind', rfl, rfl⟩ := exists_append_of_length_le hline (by simpa using hk)
  rw [List.append_assoc]
  refine .mk hindent ?_
  cases behind' with
  | nil => rfl
  | cons c cs => exact hbehind

/-- A closing line is one whatever follows, unless it ends the text. Then it has no line feed. -/
theorem ClosingLine.append {label u : List Char} {k : Nat}
    (hparts : ∀ c ∈ label, Text.isNamePart c = true) (h : ClosingLine label u k) (w : List Char) :
    ClosingLine label (u ++ w) k ∨ '\n' ∉ u := by
  obtain @⟨indent, behind, hindent, hbehind⟩ := h
  cases behind with
  | nil =>
    -- nothing stands behind the label, and neither blanks nor names have line feeds
    refine .inr fun hmem => ?_
    rw [List.append_nil, List.mem_append] at hmem
    rcases hmem with hmem | hmem
    · exact absurd (hindent _ hmem) (by decide)
    · exact absurd (hparts _ hmem) (by decide)
  | cons c behind =>
    refine .inl ?_
    simp only [List.append_assoc]
    exact .mk hindent hbehind

theorem closeHeredoc_mem {label cs : List Char} {n : Nat}
    (h : closeHeredoc label false cs = some n) : '\n' ∈ cs.take n := by
  induction cs generalizing n with
  | nil => exact absurd h (by simp [closeHeredoc])
  | cons c cs ih =>
    rw [closeHeredoc_cons] at h
    obtain ⟨m, hm, rfl⟩ := Option.map_eq_some_iff.mp h
    rw [List.take_succ_cons]
    -- a line begins behind a line feed, and behind other characters the search is where it was
    by_cases hc : c = '\n'
    · rw [hc]
      exact List.mem_cons_self
    · rw [beq_eq_false_iff_ne.mpr hc] at hm
      exact List.mem_cons_of_mem _ (ih hm)

theorem pos_of_closeHeredoc {label : List Char} (hstart : label.head?.any Text.isNameStart = true)
    {lineStart : Bool} {cs : List Char} {n : Nat} (h : closeHeredoc label lineStart cs = some n) :
    0 < n := by
  rw [closeHeredoc.eq_def] at h
  split at h
  · next m hline =>
    obtain rfl := Option.some.inj h
    split_ifs at hline
    obtain ⟨-, -⟩ := (closingLine?_eq_some_iff hstart).mp hline
    obtain ⟨c, label, rfl, -⟩ := exists_cons_of_head?_any hstart
    exact Nat.succ_pos _
  · split at h
    · exact absurd h (by simp)
    · obtain ⟨m, -, rfl⟩ := Option.map_eq_some_iff.mp h
      exact Nat.succ_pos m

/-- The end of a heredoc inside of a text that breaks off. -/
theorem closeHeredoc_cut {label : List Char} (hstart : label.head?.any Text.isNameStart = true)
    (hparts : ∀ c ∈ label, Text.isNamePart c = true) {lineStart : Bool} {u w : List Char} {n : Nat}
    (h : closeHeredoc label lineStart (u ++ w) = some n) (hn : n ≤ u.length) :
    closeHeredoc label lineStart u = some n := by
  -- whether a line begins is told by the character in front, so it is left open
  induction u generalizing lineStart n with
  | nil => exact absurd (pos_of_closeHeredoc hstart h) (by simpa using hn)
  | cons c u ih =>
    rw [List.cons_append, closeHeredoc_cons] at h
    rw [closeHeredoc_cons]
    have hline : ∀ k line, closingLine? label line = some k ↔ ClosingLine label line k :=
      fun _ _ => closingLine?_eq_some_iff hstart
    cases hclose : (if lineStart then closingLine? label (c :: (u ++ w)) else none) with
    | some k =>
      rw [hclose, Option.some_or] at h
      obtain rfl := Option.some.inj h
      split_ifs at hclose with hs
      rw [if_pos hs, (hline _ _).mpr (((hline _ _).mp hclose).cut hn), Option.some_or]
    | none =>
      rw [hclose, Option.none_or] at h
      obtain ⟨m, hm, rfl⟩ := Option.map_eq_some_iff.mp h
      have hmle : m ≤ u.length := Nat.le_of_succ_le_succ hn
      -- a line that closes the shorter text has no line feed, but the heredoc goes on to one
      have hnone : (if lineStart then closingLine? label (c :: u) else none) = none := by
        split_ifs at hclose ⊢ with hs
        · by_contra hsome
          obtain ⟨k, hk⟩ := Option.ne_none_iff_exists'.mp hsome
          rcases ((hline _ _).mp hk).append hparts w with happend | hfeed
          · rw [List.cons_append, ← hline, hclose] at happend
            exact absurd happend (by simp)
          · rw [List.mem_cons, not_or] at hfeed
            rw [beq_eq_false_iff_ne.mpr (Ne.symm hfeed.1)] at hm
            have hmem := closeHeredoc_mem hm
            rw [List.take_append_of_le_length hmle] at hmem
            exact hfeed.2 (List.mem_of_mem_take hmem)
        · rfl
      rw [hnone, ih hm hmle]
      rfl

/-- Where no heredoc begins, none begins where the text breaks off. -/
theorem heredocPiece?_eq_none {u w : List Char} (h : heredocPiece? (u ++ w) = none) :
    heredocPiece? u = none := by
  have hheader : ∀ {cs : List Char}, heredocPiece? cs = none ↔ heredocHeader? cs = none := by
    intro cs
    unfold heredocPiece?
    cases heredocHeader? cs with
    | none => simp
    | some r =>
      simp only [reduceCtorEq, iff_false]
      split <;> simp
  rw [hheader] at h ⊢
  by_contra hsome
  obtain ⟨⟨label, n⟩, hn⟩ := Option.ne_none_iff_exists'.mp hsome
  obtain ⟨m, hm⟩ := (heredocHeader?_spec hn).append w
  rw [hm.heredocHeader?_eq] at h
  exact absurd h (by simp)

/-- A heredoc inside of a text that breaks off; `u` begins behind its three angle brackets. -/
theorem heredocPiece?_cut {u w : List Char} {p : Piece} (h : heredocPiece? (u ++ w) = some p)
    (hp : p.length ≤ u.length + 3) : heredocPiece? u = some p := by
  unfold heredocPiece? at h
  cases hheader : heredocHeader? (u ++ w) with
  | none =>
    rw [hheader] at h
    exact absurd h (by simp)
  | some r =>
    obtain ⟨label, n⟩ := r
    have hspec := heredocHeader?_spec hheader
    rw [hheader] at h
    dsimp only at h
    cases hclose : closeHeredoc label true ((u ++ w).drop n) with
    | none =>
      -- a heredoc that is never closed takes all of the text, so nothing is cut off
      rw [hclose] at h
      obtain rfl := Option.some.inj h
      dsimp only at hp
      obtain rfl := eq_nil_of_length_append_le (by omega : (u ++ w).length ≤ u.length)
      rw [List.append_nil] at hheader hclose ⊢
      simp only [heredocPiece?, hheader, hclose]
    | some m =>
      rw [hclose] at h
      obtain rfl := Option.some.inj h
      dsimp only at hp
      -- the header is inside of `u`, and the end is searched for in what of `u` is behind it
      obtain ⟨hstart, hparts⟩ := hspec.label
      have hn : n ≤ u.length := by omega
      rw [List.drop_append_of_le_length hn] at hclose
      have hcut := closeHeredoc_cut hstart hparts hclose (by rw [List.length_drop]; omega)
      simp only [heredocPiece?, (hspec.cut hn).heredocHeader?_eq, hcut]

/-! ### Comments and strings -/

/-- A line comment goes on if the text breaks off inside of the close tag behind it, and only
then. -/
theorem lineCommentLength_cut {u w : List Char} (h : lineCommentLength (u ++ w) ≤ u.length)
    (hmark : ¬ (u.drop (lineCommentLength (u ++ w)) = ['?'] ∧ w.head? = some '>')) :
    lineCommentLength u = lineCommentLength (u ++ w) := by
  induction u with
  | nil =>
    rw [List.nil_append, List.length_nil, Nat.le_zero] at h
    rw [List.nil_append, h]
    rfl
  | cons c u ih =>
    rw [List.cons_append, lineCommentLength] at h hmark
    rw [List.cons_append, lineCommentLength, lineCommentLength]
    cases u with
    | nil =>
      simp only [List.nil_append, List.head?_nil, reduceCtorEq, and_false, or_false] at h hmark ⊢
      -- this is the last character of `u`: a close tag that it begins would be cut off
      by_cases hc : c = '\n'
      · simp [hc]
      · by_cases hclose : c = '?' ∧ w.head? = some '>'
        · exact absurd ⟨by simp [hclose], hclose.2⟩ hmark
        · simp only [hc, hclose, or_self, if_false, List.length_singleton] at h ⊢
          simp only [lineCommentLength]
          omega
    | cons d u =>
      rw [List.head?_append_of_ne_nil _ (List.cons_ne_nil d u)] at h hmark ⊢
      split_ifs at h hmark ⊢ with hstop
      · rfl
      · rw [List.drop_succ_cons] at hmark
        rw [ih (Nat.le_of_succ_le_succ h) hmark]

theorem quotedPiece_cut {quote : Char} {kind : Kind} {u w : List Char}
    (h : (quotedPiece quote kind (u ++ w)).length ≤ u.length + 1) :
    quotedPiece quote kind u = quotedPiece quote kind (u ++ w) := by
  unfold quotedPiece at h ⊢
  cases hclose : closeQuote quote (u ++ w) with
  | none =>
    -- a string that is never closed takes all of the text, so nothing is cut off
    rw [hclose] at h
    obtain rfl := eq_nil_of_length_append_le (Nat.le_of_add_le_add_right h)
    rw [List.append_nil] at hclose ⊢
    rw [hclose]
  | some n =>
    rw [hclose] at h
    -- the quote is found in `u`, whatever stands behind
    have hcut := closeQuote_append hclose (Nat.le_of_succ_le_succ h) []
    rw [List.append_nil] at hcut
    rw [hcut]

theorem commentPiece_cut {u w : List Char}
    (h : (commentPiece (u ++ w)).length ≤ u.length + 2) :
    commentPiece u = commentPiece (u ++ w) := by
  unfold commentPiece at h ⊢
  cases hclose : closeComment (u ++ w) with
  | none =>
    rw [hclose] at h
    obtain rfl := eq_nil_of_length_append_le (Nat.le_of_add_le_add_right h)
    rw [List.append_nil] at hclose ⊢
    rw [hclose]
  | some n =>
    rw [hclose] at h
    have hn : n ≤ u.length := Nat.le_of_add_le_add_right h
    have htwo := two_le_of_closeComment hclose
    have hcut := closeComment_append hclose hn []
    rw [List.append_nil] at hcut
    -- whether it is a doc comment is told by the first two characters, which are in `u`
    match u with
    | [] | [_] =>
      simp only [List.length_nil, List.length_singleton] at hn
      omega
    | c :: d :: u =>
      rw [hcut]
      rfl

/-! ### Code -/

/-- **Inside of a text that breaks off.** The piece ends in `u`, and if it is trivia, `u` does not
break off inside of a close tag behind it. -/
def Piece.Inside (u w : List Char) (p : Piece) : Prop :=
  p.length ≤ u.length ∧
    (p.verdict = .trivia → ¬ (u.drop p.length = ['?'] ∧ w.head? = some '>'))

/-- The second piece is the first one if that is inside of the text. -/
def Piece.Survives (u w : List Char) (p q : Piece) : Prop := p.Inside u w → q = p

section Survives

variable {u w : List Char} {p q p' q' : Piece} {c c' : Prop} [Decidable c] [Decidable c']

theorem Piece.Survives.some_eq {r : Piece} (h : p.Survives u w q) (hp : some p = some r)
    (hr : r.Inside u w) : some q = some r := by
  obtain rfl := Option.some.inj hp
  rw [h hr]

theorem Piece.Survives.ite (hp : c → p.Survives u w p') (hq : ¬ c → q.Survives u w q') :
    (if c then p else q).Survives u w (if c then p' else q') := by
  by_cases hc : c
  · rw [if_pos hc, if_pos hc]
    exact hp hc
  · rw [if_neg hc, if_neg hc]
    exact hq hc

/-- A condition that looks ahead may fail where the text breaks off, but then the piece does not end
there. -/
theorem Piece.Survives.ite_ahead (hc : c' → c) (hp : c → p.Inside u w → c' ∧ p' = p)
    (hq : ¬ c → q.Survives u w q') :
    (if c then p else q).Survives u w (if c' then p' else q') := by
  by_cases h : c
  · rw [if_pos h]
    intro hinside
    obtain ⟨h', heq⟩ := hp h hinside
    rw [if_pos h', heq]
  · rw [if_neg h, if_neg (mt hc h)]
    exact hq h

end Survives

theorem head?_append_of_head? {u w : List Char} {c : Char} (h : u.head? = some c) :
    (u ++ w).head? = some c := by
  rw [List.head?_append, h]
  rfl

theorem head?_any_append {f : Char → Bool} {u w : List Char} (h : u.head?.any f = true) :
    (u ++ w).head?.any f = true := by
  obtain ⟨c, u, rfl, -⟩ := exists_cons_of_head?_any h
  exact h

/-- Three angle brackets that open no heredoc begin with an operator of two. -/
theorem length_punctuationPiece_angles (rest : List Char) :
    (punctuationPiece '<' ('<' :: '<' :: rest)).length = 2 := rfl

theorem three_le_of_heredocPiece? {rest : List Char} {p : Piece}
    (h : heredocPiece? rest = some p) : 3 ≤ p.length := by
  unfold heredocPiece? at h
  split at h
  · exact absurd h (by simp)
  · split at h <;> obtain rfl := Option.some.inj h <;> dsimp only <;> omega

theorem two_le_commentPiece (rest : List Char) : 2 ≤ (commentPiece rest).length := by
  unfold commentPiece
  split <;> exact Nat.le_add_left 2 _

theorem pos_takeWhile_isNamePart {cs : List Char} (h : cs.head?.any Text.isNameStart = true) :
    0 < (cs.takeWhile Text.isNamePart).length := by
  obtain ⟨c, cs, rfl, hc⟩ := exists_cons_of_head?_any h
  simp [Text.isNamePart_of_isNameStart hc]

theorem pos_nameLength {cs : List Char} (h : cs.head?.any Text.isNameStart = true) :
    0 < nameLength cs := by
  obtain ⟨c, cs, rfl, hc⟩ := exists_cons_of_head?_any h
  simp [nameLength, Text.isNamePart_of_isNameStart hc]

/-- A number that begins with a point has a digit behind it. -/
theorem two_le_numberPiece {cs : List Char} (h : cs.head?.any Text.isDigit = true) :
    2 ≤ (numberPiece ('.' :: cs)).length := by
  obtain ⟨d, cs, rfl, hd⟩ := exists_cons_of_head?_any h
  have hpos := digitsLength_pos hd cs
  -- the point is no digit, so the whole part is empty
  have hpoint : digitsLength ('.' :: d :: cs) = 0 := by
    have hdot : Text.isDigit '.' = false := by decide
    simp [digitsLength, hdot]
  rw [numberPiece_of_ne (by decide)]
  simp only [numberPiece.decimal, hpoint, List.drop_zero, fractionLength, hd, if_true]
  omega

/-- Three angle brackets. If the text breaks off behind two of them, they are an operator, as they
are where no heredoc begins; `otherwise` is what stands for fewer than three. -/
theorem heredoc_survives {u w : List Char} {otherwise : Piece}
    (hangles : ['<', '<'].isPrefixOf (u ++ w) = true)
    (htwo : u = ['<'] → otherwise = punctuationPiece '<' ['<']) :
    ((heredocPiece? ((u ++ w).drop 2)).getD (punctuationPiece '<' (u ++ w))).Survives ('<' :: u) w
      (if ['<', '<'].isPrefixOf u = true then
        (heredocPiece? (u.drop 2)).getD (punctuationPiece '<' u) else otherwise) := by
  intro hin
  have hlen := hin.1
  obtain ⟨rest, hrest⟩ := List.isPrefixOf_iff_prefix.mp hangles
  match u with
  | [] =>
    -- neither of the two pieces is of one character
    rw [List.nil_append] at hlen hrest
    rw [← hrest] at hlen
    cases hheredoc : heredocPiece? rest with
    | none => exact absurd hlen (by simp [hheredoc, length_punctuationPiece_angles])
    | some p =>
      have hthree := three_le_of_heredocPiece? hheredoc
      simp only [List.cons_append, List.nil_append, List.drop_succ_cons, List.drop_zero, hheredoc,
        Option.getD_some, List.length_singleton] at hlen
      omega
  | [d] =>
    -- two brackets are left: a heredoc would be longer, and the operator is the same
    obtain ⟨rfl, -⟩ := List.cons.inj hrest
    cases hheredoc : heredocPiece? ((['<'] ++ w).drop 2) with
    | none =>
      rw [hheredoc] at hlen
      exact (htwo rfl).trans (punctuationPiece_cut hlen)
    | some p =>
      rw [hheredoc, Option.getD_some] at hlen
      exact absurd (Nat.le_trans (three_le_of_heredocPiece? hheredoc) hlen) (by simp)
  | d :: e :: t =>
    obtain ⟨rfl, hrest'⟩ := List.cons.inj hrest
    obtain ⟨rfl, -⟩ := List.cons.inj hrest'
    simp only [List.cons_append, List.drop_succ_cons, List.drop_zero, List.length_cons] at hlen ⊢
    rw [if_pos (by rfl)]
    cases hheredoc : heredocPiece? (t ++ w) with
    | none =>
      rw [hheredoc, Option.getD_none] at hlen
      rw [heredocPiece?_eq_none hheredoc]
      exact punctuationPiece_cut (u := '<' :: '<' :: t) hlen
    | some p =>
      rw [hheredoc, Option.getD_some] at hlen
      rw [heredocPiece?_cut hheredoc hlen]
      rfl

/-- A piece of two characters at least leaves one of them behind the first. -/
theorem exists_cons_of_two_le {c : Char} {u : List Char} {n : Nat} (hn : n ≤ (c :: u).length)
    (htwo : 2 ≤ n) : ∃ d t, u = d :: t := by
  rw [List.length_cons] at hn
  exact List.exists_cons_of_ne_nil (List.ne_nil_of_length_pos (by omega))

section Branches

variable {c d : Char} {u w : List Char}

/-- A close tag and the line break behind it. -/
theorem closeTag_cut (hd : (u ++ w).head? = some d)
    (hlen : 2 + lineBreakLength ((u ++ w).drop 1) ≤ (c :: u).length) :
    u.head? = some d ∧ lineBreakLength (u.drop 1) = lineBreakLength ((u ++ w).drop 1) := by
  obtain ⟨e, t, rfl⟩ := exists_cons_of_two_le hlen (Nat.le_add_right 2 _)
  simp only [List.cons_append, List.drop_succ_cons, List.drop_zero, List.length_cons] at hlen
  exact ⟨hd, steady_lineBreakLength t w (by omega)⟩

/-- A comment behind two characters. -/
theorem lineComment_cut (hd : (u ++ w).head? = some d)
    (hlen : lineCommentLength ((u ++ w).drop 1) + 2 ≤ (c :: u).length)
    (hmark : ¬ ((c :: u).drop (lineCommentLength ((u ++ w).drop 1) + 2) = ['?'] ∧
      w.head? = some '>')) :
    u.head? = some d ∧ lineCommentLength (u.drop 1) = lineCommentLength ((u ++ w).drop 1) := by
  obtain ⟨e, t, rfl⟩ := exists_cons_of_two_le hlen (Nat.le_add_left 2 _)
  exact ⟨hd, lineCommentLength_cut (Nat.le_of_succ_le_succ (Nat.le_of_succ_le_succ hlen)) hmark⟩

/-- A name that begins with a letter, or with a separator and a letter behind it. -/
theorem name_cut
    (hc : Text.isNameStart c = true ∨ (c = '\\' ∧ (u ++ w).head?.any Text.isNameStart = true))
    (hlen : nameLength (u ++ w) + 1 ≤ (c :: u).length) :
    (Text.isNameStart c = true ∨ (c = '\\' ∧ u.head?.any Text.isNameStart = true)) ∧
      nameLength u = nameLength (u ++ w) := by
  refine ⟨hc.imp_right fun hroot => ⟨hroot.1, ?_⟩,
    steady_nameLength u w (Nat.le_of_succ_le_succ hlen)⟩
  obtain ⟨e, t, rfl⟩ := exists_cons_of_two_le hlen (Nat.succ_le_succ (pos_nameLength hroot.2))
  exact hroot.2

end Branches

/-- **Code.** A piece of code inside of a text that breaks off. -/
theorem codePiece?_cut {memberPosition atStart : Bool} {u w : List Char} {p : Piece}
    (h : codePiece? memberPosition atStart (u ++ w) = some p) (hp : p.Inside u w) :
    codePiece? memberPosition atStart u = some p := by
  cases u with
  | nil => exact absurd p.length_pos (Nat.not_lt_of_le hp.1)
  | cons c u =>
    rw [List.cons_append, codePiece?] at h
    rw [codePiece?]
    refine Piece.Survives.some_eq ?_ h hp
    -- the byte order mark and white space
    refine .ite (fun _ _ => rfl) fun _ => ?_
    refine .ite (fun _ hin => ?_) fun _ => ?_
    · have hspace := takeWhile_cut (Nat.le_of_succ_le_succ hin.1)
      simp only [hspace]
    -- a close tag
    refine .ite_ahead (fun hc => ⟨hc.1, head?_append_of_head? hc.2⟩) (fun hc hin => ?_) fun _ => ?_
    · obtain ⟨hhead, hbreak⟩ := closeTag_cut hc.2 hin.1
      refine ⟨⟨hc.1, hhead⟩, ?_⟩
      simp only [hbreak]
    -- comments
    refine .ite (fun _ => ?_) fun _ => ?_
    · refine .ite_ahead head?_append_of_head? (fun hc hin => ?_) fun _ hin => ?_
      · obtain ⟨d, t, rfl⟩ := exists_cons_of_two_le hin.1 (Nat.le_refl 2)
        exact ⟨hc, rfl⟩
      · have hline := lineCommentLength_cut (Nat.le_of_succ_le_succ hin.1) (hin.2 rfl)
        simp only [hline]
    refine .ite_ahead (fun hc => ⟨hc.1, head?_append_of_head? hc.2⟩) (fun hc hin => ?_) fun _ => ?_
    · obtain ⟨hhead, hline⟩ := lineComment_cut hc.2 hin.1 (hin.2 rfl)
      refine ⟨⟨hc.1, hhead⟩, ?_⟩
      simp only [hline]
    refine .ite_ahead (fun hc => ⟨hc.1, head?_append_of_head? hc.2⟩) (fun hc hin => ?_) fun _ => ?_
    · obtain ⟨d, t, rfl⟩ := exists_cons_of_two_le hin.1 (two_le_commentPiece _)
      exact ⟨hc, commentPiece_cut hin.1⟩
    -- strings and heredocs
    refine .ite (fun _ hin => quotedPiece_cut hin.1) fun _ => ?_
    refine .ite (fun _ hin => quotedPiece_cut hin.1) fun _ => ?_
    by_cases hangles : c = '<' ∧ ['<', '<'].isPrefixOf (u ++ w) = true
    · obtain ⟨rfl, hangles⟩ := hangles
      simp only [hangles, true_and, if_true]
      refine heredoc_survives hangles ?_
      rintro rfl
      rfl
    refine .ite_ahead (fun hc => ⟨hc.1, isPrefixOf_of_isPrefixOf hc.2 w⟩)
      (fun hc => absurd hc hangles) fun _ => ?_
    -- variables and numbers
    refine .ite_ahead (fun hc => ⟨hc.1, head?_any_append hc.2⟩) (fun hc hin => ?_) fun _ => ?_
    · have hparts := takeWhile_cut (Nat.le_of_succ_le_succ hin.1)
      obtain ⟨d, t, rfl⟩ := exists_cons_of_two_le hin.1
        (Nat.succ_le_succ (pos_takeWhile_isNamePart hc.2))
      refine ⟨hc, ?_⟩
      simp only [hparts]
    refine .ite_ahead (Or.imp_right fun hc => ⟨hc.1, head?_any_append hc.2⟩) (fun hc hin => ?_)
      fun _ => ?_
    · refine ⟨?_, numberPiece_cut (List.cons_ne_nil c u) hin.1⟩
      refine hc.imp_right fun hpoint => ?_
      obtain ⟨rfl, hdigit⟩ := hpoint
      obtain ⟨d, t, rfl⟩ := exists_cons_of_two_le hin.1 (two_le_numberPiece hdigit)
      exact ⟨rfl, hdigit⟩
    -- names, whose kind depends on their text, and punctuation
    refine .ite_ahead (Or.imp_right fun hc => ⟨hc.1, head?_any_append hc.2⟩) (fun hc hin => ?_)
      fun _ hin => punctuationPiece_cut hin.1
    obtain ⟨hbegins, hname⟩ := name_cut hc hin.1
    have htake : (c :: (u ++ w)).take (nameLength (u ++ w) + 1)
        = (c :: u).take (nameLength (u ++ w) + 1) := List.take_append_of_le_length hin.1
    refine ⟨hbegins, ?_⟩
    simp only [hname, htake]

/-- Only a byte order mark is read in another way where nothing precedes it. -/
theorem codePiece?_of_head?_ne {cs : List Char} (h : cs.head? ≠ some '\uFEFF')
    (memberPosition atStart atStart' : Bool) :
    codePiece? memberPosition atStart cs = codePiece? memberPosition atStart' cs := by
  cases cs with
  | nil => rfl
  | cons c cs =>
    have hc : c ≠ '\uFEFF' := fun hc => h (congrArg some hc)
    simp only [codePiece?, hc, false_and, if_false]

/-! ### Tags and text outside of code -/

theorem lowerChar_ne_of_isBlank {c : Char} (h : Text.isBlank c = true) :
    Text.lowerChar c ≠ 'p' := by
  unfold Text.lowerChar
  split
  · next hletter =>
    -- no capital letter is blank
    have hlow : 65 ≤ c.toNat := hletter.1
    have hhigh : c.toNat ≤ 90 := hletter.2
    simp only [Text.isBlank, Text.blankRanges, List.any_cons, List.any_nil, Bool.or_eq_true,
      Bool.and_eq_true, decide_eq_true_eq, Bool.or_false] at h
    omega
  · rintro rfl
    exact absurd h (by decide)

theorem two_le_of_openTag? {cs : List Char} {kind : Kind} {n : Nat}
    (h : openTag? cs = some (kind, n)) : 2 ≤ n := by
  unfold openTag? at h
  split at h
  · dsimp only at h
    split_ifs at h <;> obtain ⟨-, rfl⟩ := Prod.mk.inj (Option.some.inj h) <;> omega
  · exact absurd h (by simp)

/-- An open tag inside of a text that breaks off. -/
theorem openTag?_cut {u w : List Char} {kind : Kind} {n : Nat}
    (h : openTag? (u ++ w) = some (kind, n)) (hn : n ≤ u.length) : openTag? u = some (kind, n) := by
  -- a tag has two characters at least, so `u` begins as the tag does
  obtain ⟨t, rfl⟩ : ∃ t, u = '<' :: '?' :: t := by
    obtain ⟨t, ht⟩ := exists_cons_cons_of_openTag? (by rw [h]; rfl)
    obtain ⟨t', ht', -⟩ := exists_append_of_length_le (a := ['<', '?']) ht
      (Nat.le_trans (two_le_of_openTag? h) hn)
    exact ⟨t', ht'⟩
  rw [List.cons_append, List.cons_append, openTag?_cons] at h
  rw [openTag?_cons]
  -- the character behind `<?` tells the other two forms from the long one
  have hword : ∀ {c : Char} {cs : List Char}, Text.lowerChar c ≠ 'p' →
      ¬ (((c :: cs).take 3).map Text.lowerChar = ['p', 'h', 'p'] ∧
        endsWord ((c :: cs).drop 3) = true) := by
    rintro c cs hc ⟨hword, -⟩
    exact hc (List.cons.inj hword).1
  split_ifs at h with hlong hecho hshort
  · obtain ⟨rfl, rfl⟩ := Prod.mk.inj (Option.some.inj h)
    simp only [List.length_cons] at hn
    -- the three letters are in `t`; if nothing of it stands behind them, its end ends the word
    have hlen : 3 ≤ t.length := by omega
    rw [List.take_append_of_le_length hlen, List.drop_append_of_le_length hlen] at hlong
    rw [List.drop_append_of_le_length hlen] at hn ⊢
    have hspace := steady_tagSpaceLength (t.drop 3) w (by rw [List.length_drop]; omega)
    have hends : endsWord (t.drop 3) = true := by
      cases hdrop : t.drop 3 with
      | nil => rfl
      | cons c cs =>
        rw [hdrop] at hlong
        exact hlong.2
    rw [if_pos ⟨hlong.1, hends⟩, hspace]
  · obtain ⟨rfl, rfl⟩ := Prod.mk.inj (Option.some.inj h)
    cases t with
    | nil => exact absurd hn (by simp)
    | cons c t =>
      obtain rfl : c = '=' := Option.some.inj hecho
      rw [if_neg (hword (by decide)), if_pos (by rfl)]
  · obtain ⟨rfl, rfl⟩ := Prod.mk.inj (Option.some.inj h)
    cases t with
    | nil => rfl
    | cons c t =>
      rw [if_neg (hword (lowerChar_ne_of_isBlank hshort)), if_neg (by simpa using hecho),
        if_pos (by exact hshort)]

/-- What is an open tag where the text breaks off is one where it goes on, if there is a further
angle bracket. -/
theorem isSome_openTag?_append {c : Char} {u : List Char} (h : (openTag? (c :: u)).isSome = true)
    (hangle : '<' ∈ u) (w : List Char) : (openTag? (c :: u ++ w)).isSome = true := by
  obtain ⟨t, ht⟩ := exists_cons_cons_of_openTag? h
  obtain ⟨rfl, rfl⟩ := List.cons.inj ht
  have hmem : '<' ∈ t := by simpa using hangle
  have hne : t ≠ [] := List.ne_nil_of_mem hmem
  rw [openTag?_cons] at h
  rw [List.cons_append, List.cons_append, openTag?_cons, List.head?_append_of_ne_nil _ hne,
    endsWord_append hne]
  by_cases hecho : t.head? = some '='
  · split_ifs <;> rfl
  · by_cases hshort : endsWord t = true
    · split_ifs <;> rfl
    · -- the tag is a long one, and does not end the text
      rw [if_neg hecho, if_neg hshort] at h
      split_ifs at h with hlong
      · have hdrop : t.drop 3 ≠ [] := by
          intro hnil
          have htake : t.take 3 = t := List.take_of_length_le (List.drop_eq_nil_iff.mp hnil)
          have hlower := List.mem_map_of_mem (f := Text.lowerChar) hmem
          rw [htake] at hlong
          rw [hlong.1] at hlower
          exact absurd hlower (by decide)
        have hlen : 3 ≤ t.length := by
          rw [ne_eq, List.drop_eq_nil_iff] at hdrop
          omega
        rw [List.take_append_of_le_length hlen, List.drop_append_of_le_length hlen,
          endsWord_append hdrop, if_pos hlong]
        rfl
      · exact absurd h (by simp)

theorem mem_of_openTag?_append {u w : List Char} {kind : Kind} {n : Nat}
    (h : openTag? (u ++ w) = some (kind, n)) (hn : n ≤ u.length) : '<' ∈ u := by
  have hcut := openTag?_cut h hn
  obtain ⟨t, rfl⟩ := exists_cons_cons_of_openTag? (by rw [hcut]; rfl)
  exact List.mem_cons_self

/-- Text outside of code goes up to an open tag or to the end. -/
theorem drop_htmlLength (cs : List Char) :
    cs.drop (htmlLength cs) = [] ∨ (openTag? (cs.drop (htmlLength cs))).isSome = true := by
  induction cs with
  | nil => exact .inl rfl
  | cons c cs ih =>
    rw [htmlLength]
    split_ifs with htag
    · exact .inr htag
    · exact ih

/-- Text outside of code in front of an open tag, of which nothing is cut off. -/
theorem htmlLength_cut {u w : List Char} {kind : Kind} {n : Nat}
    (h : htmlLength (u ++ w) ≤ u.length)
    (htag : openTag? (u.drop (htmlLength (u ++ w)) ++ w) = some (kind, n))
    (hn : n ≤ (u.drop (htmlLength (u ++ w))).length) : htmlLength u = htmlLength (u ++ w) := by
  induction u with
  | nil =>
    rw [List.nil_append, List.length_nil, Nat.le_zero] at h
    rw [List.nil_append, h]
    rfl
  | cons c u ih =>
    rw [List.cons_append, htmlLength] at h htag hn
    rw [List.cons_append, htmlLength, htmlLength]
    by_cases hopen : (openTag? (c :: (u ++ w))).isSome = true
    · -- there is no text in front of the tag, and the tag is in `u`
      rw [if_pos hopen, List.drop_zero] at htag hn
      rw [if_pos hopen, openTag?_cut htag hn]
      rfl
    · rw [if_neg hopen] at h
      rw [if_neg hopen, List.drop_succ_cons] at htag hn
      -- the tag in front of which the text ends has an angle bracket
      have hangle : '<' ∈ u := List.mem_of_mem_drop (mem_of_openTag?_append htag hn)
      have hnot : ¬ (openTag? (c :: u)).isSome = true :=
        fun hsome => hopen (isSome_openTag?_append hsome hangle w)
      rw [if_neg hopen, if_neg hnot, ih (Nat.le_of_succ_le_succ h) htag hn]

/-- **Text outside of code.** A piece of it inside of a text that breaks off. If it is no tag, the
tag behind it is inside of the text too. -/
theorem htmlPiece?_cut {u w : List Char} {p : Piece} (h : htmlPiece? (u ++ w) = some p)
    (hp : p.length ≤ u.length)
    (htag : p.verdict = .token .inlineHtml → ∃ kind n,
      openTag? (u.drop p.length ++ w) = some (kind, n) ∧ n ≤ (u.drop p.length).length) :
    htmlPiece? u = some p := by
  cases u with
  | nil => exact absurd p.length_pos (Nat.not_lt_of_le hp)
  | cons c u =>
    unfold htmlPiece? at h
    split at h
    · next kind n hopen =>
      obtain rfl := Option.some.inj h
      unfold htmlPiece?
      rw [openTag?_cut hopen hp]
    · next hnone =>
      rw [List.cons_append] at h
      obtain rfl := Option.some.inj h
      obtain ⟨kind, n, hopen, hn⟩ := htag rfl
      dsimp only at hp hopen hn
      rw [List.drop_succ_cons] at hopen hn
      have hlength := htmlLength_cut (Nat.le_of_succ_le_succ hp) hopen hn
      -- the tag behind the text has an angle bracket, so a tag at its beginning would be one of the
      -- longer text
      have hangle : '<' ∈ u := List.mem_of_mem_drop (mem_of_openTag?_append hopen hn)
      have hnot : openTag? (c :: u) = none := by
        by_contra hsome
        have hlong := isSome_openTag?_append (Option.isSome_iff_ne_none.mpr hsome) hangle w
        obtain ⟨⟨kind, n⟩, htag⟩ := Option.isSome_iff_exists.mp hlong
        obtain ⟨m, rfl⟩ : ∃ m, n = m + 1 := by
          have htwo := two_le_of_openTag? htag
          exact ⟨n - 1, by omega⟩
        exact hnone kind m htag
      unfold htmlPiece?
      rw [hnot]
      simp only [hlength]

end Introspect.Token
