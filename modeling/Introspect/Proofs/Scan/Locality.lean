import Introspect.Proofs.Scan.Tiling
import Mathlib.Data.List.Find

/-!
# Pieces in front of a close tag

No recogniser looks past a close tag in front of which its piece ends: what it makes of the text up
to the mark `?>` is the same **whatever stands behind the mark**. The lemmas here say this one by
one, in one of two forms:

* where a recogniser never gets past the mark, its value on `u ++ '?' :: '>' :: v` is its value on
  `u ++ ['?', '>']`, for instance `openTag?_mark`, `heredocHeader?_mark`, `numberPiece_mark`;
* where it may, as a string or a comment does, a piece that is found to end inside of `u` is found
  there whatever follows, as in `closeQuote_append` and `closeHeredoc_mark`.

`Scanner.piece?_mark` puts them together.
-/

namespace Introspect.Token

section Mark

variable (u v w : List Char)

/-! ### Lists with a mark -/

theorem takeWhile_append_mark {f : Char → Bool} (hf : f '?' = false) :
    (u ++ '?' :: w).takeWhile f = u.takeWhile f := by
  induction u with
  | nil => simp [hf]
  | cons c u ih => by_cases hc : f c = true <;> simp [hc, ih]

theorem take_append_mark {n : Nat} (hn : n ≤ u.length + 2) :
    (u ++ '?' :: '>' :: v).take n = (u ++ ['?', '>']).take n := by
  rw [show u ++ '?' :: '>' :: v = (u ++ ['?', '>']) ++ v by simp]
  exact List.take_append_of_le_length (by simpa using hn)

theorem head?_append_mark : (u ++ '?' :: '>' :: v).head? = (u ++ ['?', '>']).head? := by
  cases u <;> rfl

theorem isPrefixOf_append {text u : List Char} (h : text.length ≤ u.length) (w : List Char) :
    text.isPrefixOf (u ++ w) = text.isPrefixOf u := by
  induction text generalizing u with
  | nil => simp
  | cons c text ih =>
    cases u with
    | nil => exact absurd h (by simp)
    | cons d u =>
      have htail := ih (Nat.le_of_succ_le_succ h)
      simp [List.isPrefixOf, htail]

theorem isPrefixOf_append_mark {text : List Char} (h : text.length ≤ u.length + 2) :
    text.isPrefixOf (u ++ '?' :: '>' :: v) = text.isPrefixOf (u ++ ['?', '>']) := by
  rw [show u ++ '?' :: '>' :: v = (u ++ ['?', '>']) ++ v by simp]
  exact isPrefixOf_append (by simpa using h) v

theorem isPrefixOf_mark {label : List Char} (hlabel : '?' ∉ label) :
    label.isPrefixOf (u ++ '?' :: w) = label.isPrefixOf u := by
  induction label generalizing u with
  | nil => simp
  | cons c label ih =>
    rw [List.mem_cons, not_or] at hlabel
    cases u with
    | nil =>
      -- the label would have to begin with the mark
      simp [List.isPrefixOf, Ne.symm hlabel.1]
    | cons d u => simp [List.isPrefixOf, ih u hlabel.2]

/-- Text in which a character does not stand ends in front of the first one behind it. -/
theorem length_le_of_not_mem {c : Char} {u w text rest : List Char}
    (h : u ++ c :: w = text ++ rest) (hmark : c ∉ text) : text.length ≤ u.length := by
  rcases List.append_eq_append_iff.mp h with ⟨a, rfl, ha⟩ | ⟨a, rfl, -⟩
  · cases a with
    | nil => simp
    | cons d a =>
      -- `text` would go on behind `u`, with that character
      obtain rfl : c = d := (List.cons.inj ha).1
      exact absurd (List.mem_append_right u List.mem_cons_self) hmark
  · simp

theorem exists_cons_of_head?_mark {u : List Char} {c : Char} (hc : c ≠ '?')
    (h : (u ++ ['?', '>']).head? = some c) : ∃ t, u = c :: t := by
  cases u with
  | nil => exact absurd (Option.some.inj h).symm hc
  | cons d t => exact ⟨t, by rw [Option.some.inj h]⟩

theorem exists_cons_cons_of_isPrefixOf_mark {u : List Char}
    (h : ['<', '<'].isPrefixOf (u ++ ['?', '>']) = true) : ∃ t, u = '<' :: '<' :: t := by
  match u with
  | [] => exact absurd h (by decide)
  | [c] => exact absurd h (by simp [List.isPrefixOf])
  | c :: d :: t =>
    obtain ⟨rfl, rfl⟩ : '<' = c ∧ '<' = d := by simpa [List.isPrefixOf] using h
    exact ⟨t, rfl⟩

/-! ### Tags and text outside of code -/

theorem lineBreakLength_take (cs : List Char) :
    lineBreakLength (cs.take 2) = lineBreakLength cs := by
  match cs with
  | [] | [_] => rfl
  | a :: b :: cs =>
    by_cases ha : a = '\r'
    · by_cases hb : b = '\n' <;> simp [lineBreakLength, ha, hb]
    · by_cases ha' : a = '\n' <;> simp [lineBreakLength, ha, ha']

theorem lineBreakLength_mark :
    lineBreakLength (u ++ '?' :: '>' :: v) = lineBreakLength (u ++ ['?', '>']) := by
  rw [← lineBreakLength_take, take_append_mark u v (by omega), lineBreakLength_take]

theorem tagSpaceLength_mark :
    tagSpaceLength (u ++ '?' :: '>' :: v) = tagSpaceLength (u ++ ['?', '>']) := by
  unfold tagSpaceLength
  rw [lineBreakLength_mark, take_append_mark u v (by omega)]

theorem endsWord_mark : endsWord (u ++ '?' :: '>' :: v) = endsWord (u ++ ['?', '>']) := by
  cases u <;> rfl

/-- Text that breaks off inside the word of a long tag is no long tag. -/
theorem map_lowerChar_take_ne {c : Char} (hc : Text.lowerChar c ≠ 'p' ∧ Text.lowerChar c ≠ 'h')
    {u : List Char} (hu : u.length < 3) (w : List Char) :
    ((u ++ c :: w).take 3).map Text.lowerChar ≠ ['p', 'h', 'p'] := by
  match u with
  | [] | [_] | [_, _] => simp [hc]
  | _ :: _ :: _ :: _ => exact absurd hu (by simp)

/-- Where no tag begins, there is none. -/
theorem openTag?_eq_none {cs : List Char} (h : ∀ t, cs ≠ '<' :: '?' :: t) : openTag? cs = none := by
  unfold openTag?
  split
  · exact absurd rfl (h _)
  · rfl

theorem openTag?_cons (t : List Char) :
    openTag? ('<' :: '?' :: t) =
      if (t.take 3).map Text.lowerChar = ['p', 'h', 'p'] ∧ endsWord (t.drop 3) = true then
        some (.openTag, 5 + tagSpaceLength (t.drop 3))
      else if t.head? = some '=' then some (.openTagWithEcho, 3)
      else if endsWord t = true then some (.openTag, 2)
      else none := rfl

theorem openTag?_mark : openTag? (u ++ '?' :: '>' :: v) = openTag? (u ++ ['?', '>']) := by
  -- behind `<?` a tag is decided by the next three characters and what follows them
  have hbehind : ∀ t, openTag? ('<' :: '?' :: (t ++ '?' :: '>' :: v))
      = openTag? ('<' :: '?' :: (t ++ ['?', '>'])) := by
    intro t
    rw [openTag?_cons, openTag?_cons, head?_append_mark, endsWord_mark]
    by_cases ht : 3 ≤ t.length
    · rw [take_append_mark t v (by omega), List.drop_append_of_le_length ht,
        List.drop_append_of_le_length ht, endsWord_mark, tagSpaceLength_mark]
    · -- the mark comes too early for the word of a long tag
      have hword := map_lowerChar_take_ne (c := '?') (by decide) (Nat.lt_of_not_le ht)
      simp only [hword, false_and, if_false]
  match u with
  | [] => rw [openTag?_eq_none (by simp), openTag?_eq_none (by simp)]
  | [c] =>
    by_cases hc : c = '<'
    · -- the question mark of the mark itself opens a tag, which ends at once
      rw [hc]
      rfl
    · rw [openTag?_eq_none (by simp [hc]), openTag?_eq_none (by simp [hc])]
  | c :: d :: t =>
    by_cases hcd : c = '<' ∧ d = '?'
    · rw [hcd.1, hcd.2]
      exact hbehind t
    · have hne : ∀ t' t'' : List Char, c :: d :: t' ≠ '<' :: '?' :: t'' := by
        intro t' t'' h
        simp only [List.cons.injEq] at h
        exact hcd ⟨h.1, h.2.1⟩
      rw [List.cons_append, List.cons_append, openTag?_eq_none (hne _), List.cons_append,
        List.cons_append, openTag?_eq_none (hne _)]

/-- Text outside of code that ends in front of the mark does not depend on what is behind it. -/
theorem htmlLength_mark {u v : List Char} (h : htmlLength (u ++ '?' :: '>' :: v) ≤ u.length)
    (v' : List Char) :
    htmlLength (u ++ '?' :: '>' :: v') = htmlLength (u ++ '?' :: '>' :: v) := by
  induction u with
  | nil =>
    -- the mark is no open tag, so the text would go on behind it
    rw [List.nil_append, htmlLength, openTag?_eq_none (by simp)] at h
    exact absurd h (by simp)
  | cons c u ih =>
    have htag := fun v => openTag?_mark (c :: u) v
    simp only [List.cons_append] at htag h ⊢
    rw [htmlLength] at h
    rw [htmlLength, htmlLength, htag v', htag v]
    rw [htag v] at h
    by_cases hopen : (openTag? (c :: (u ++ ['?', '>']))).isSome = true
    · rw [if_pos hopen, if_pos hopen]
    · rw [if_neg hopen] at h
      rw [if_neg hopen, if_neg hopen, ih (Nat.le_of_succ_le_succ h)]

/-- The end of a line comment is found in front of the mark. -/
theorem lineCommentLength_mark :
    lineCommentLength (u ++ '?' :: '>' :: v) = lineCommentLength (u ++ ['?', '>']) := by
  induction u with
  | nil => simp [lineCommentLength]
  | cons c u ih =>
    rw [List.cons_append, List.cons_append, lineCommentLength, lineCommentLength, ih,
      head?_append_mark]

/-! ### Literals -/

theorem two_le_of_closeComment {cs : List Char} {n : Nat} (h : closeComment cs = some n) :
    2 ≤ n := by
  obtain ⟨body, after, -, rfl, -⟩ := closeComment_spec h
  exact Nat.le_add_left 2 _

theorem closeQuote_escape (quote d : Char) (cs : List Char) :
    closeQuote quote ('\\' :: d :: cs) = (closeQuote quote cs).map (· + 2) := by
  rw [closeQuote, if_pos rfl]

theorem closeQuote_plain (quote : Char) {c : Char} (hc : c ≠ '\\') (cs : List Char) :
    closeQuote quote (c :: cs) =
      if c = quote then some 1 else (closeQuote quote cs).map (· + 1) := by
  rw [closeQuote.eq_def]
  exact if_neg hc

theorem pos_of_closeQuote {quote : Char} {cs : List Char} {n : Nat}
    (h : closeQuote quote cs = some n) : 0 < n := by
  unfold closeQuote at h
  split at h
  · exact absurd h (by simp)
  · split_ifs at h with hc hq
    · split at h
      · exact absurd h (by simp)
      · obtain ⟨m, -, rfl⟩ := Option.map_eq_some_iff.mp h
        exact Nat.succ_pos _
    · rw [← Option.some.inj h]
      exact Nat.one_pos
    · obtain ⟨m, -, rfl⟩ := Option.map_eq_some_iff.mp h
      exact Nat.succ_pos _

/-- The end of a block comment that lies in `u` does not depend on what is behind `u`. -/
theorem closeComment_append {u w : List Char} {n : Nat} (h : closeComment (u ++ w) = some n)
    (hn : n ≤ u.length) (w' : List Char) : closeComment (u ++ w') = some n := by
  induction u generalizing n with
  | nil => exact absurd (two_le_of_closeComment h) (by simp at hn; omega)
  | cons c u ih =>
    have htwo := two_le_of_closeComment h
    rw [List.length_cons] at hn
    -- the end of the comment takes two characters, so the one behind `c` is in `u` too
    have hne : u ≠ [] := List.ne_nil_of_length_pos (by omega)
    rw [List.cons_append, closeComment, List.head?_append_of_ne_nil _ hne] at h ⊢
    by_cases hc : c = '*' ∧ u.head? = some '/'
    · rw [if_pos hc] at h ⊢
      exact h
    · rw [if_neg hc] at h ⊢
      obtain ⟨m, hm, rfl⟩ := Option.map_eq_some_iff.mp h
      rw [ih hm (by omega), Option.map_some]

/-- The end of a string that lies in `u` does not depend on what is behind `u`. -/
theorem closeQuote_append {quote : Char} {u w : List Char} {n : Nat}
    (h : closeQuote quote (u ++ w) = some n) (hn : n ≤ u.length) (w' : List Char) :
    closeQuote quote (u ++ w') = some n := by
  -- an escape takes two characters at once, so the induction takes two steps
  induction u using List.twoStepInduction generalizing n with
  | nil => exact absurd (pos_of_closeQuote h) (by simpa using hn)
  | singleton c =>
    rw [List.length_singleton] at hn
    rw [List.singleton_append] at h ⊢
    by_cases hc : c = '\\'
    · -- the escaped character would be the first behind `c`
      subst hc
      cases w with
      | nil => exact absurd h (by simp [closeQuote])
      | cons d w =>
        rw [closeQuote_escape] at h
        obtain ⟨m, -, rfl⟩ := Option.map_eq_some_iff.mp h
        omega
    · rw [closeQuote_plain quote hc] at h ⊢
      by_cases hq : c = quote
      · rw [if_pos hq] at h ⊢
        exact h
      · -- the quote would stand behind `c`, out of `u`
        rw [if_neg hq] at h
        obtain ⟨m, hm, rfl⟩ := Option.map_eq_some_iff.mp h
        have hpos := pos_of_closeQuote hm
        omega
  | cons_cons c d u ih ih' =>
    rw [List.length_cons, List.length_cons] at hn
    rw [List.cons_append, List.cons_append] at h ⊢
    by_cases hc : c = '\\'
    · subst hc
      rw [closeQuote_escape] at h ⊢
      obtain ⟨m, hm, rfl⟩ := Option.map_eq_some_iff.mp h
      rw [ih hm (by omega), Option.map_some]
    · rw [closeQuote_plain quote hc] at h ⊢
      by_cases hq : c = quote
      · rw [if_pos hq] at h ⊢
        exact h
      · rw [if_neg hq] at h ⊢
        obtain ⟨m, hm, rfl⟩ := Option.map_eq_some_iff.mp h
        rw [← List.cons_append] at hm ⊢
        rw [ih' d hm (by simp; omega), Option.map_some]

/-! ### Heredocs -/

/-- A line break has no question mark. -/
theorem lineBreakLength_spec (cs : List Char) :
    ∃ rest, cs = cs.take (lineBreakLength cs) ++ rest ∧
      (cs.take (lineBreakLength cs)).length = lineBreakLength cs ∧
      '?' ∉ cs.take (lineBreakLength cs) := by
  unfold lineBreakLength
  split <;> simp

/-- The quote in front of a label, if there is one, and the text from the label on. -/
theorem eq_quote_append {body : List Char} {quote : Option Char}
    (h : (body.head?.filter fun c => c == '"' || c == '\'') = quote) :
    body = quote.toList ++ (if quote.isSome = true then body.drop 1 else body) ∧
      ∀ q ∈ quote, q = '"' ∨ q = '\'' := by
  cases quote with
  | none => exact ⟨rfl, by simp⟩
  | some q =>
    obtain ⟨hhead, hq⟩ := Option.filter_eq_some_iff.mp h
    obtain ⟨t, rfl⟩ := List.head?_eq_some_iff.mp hhead
    exact ⟨rfl, by simpa using hq⟩

/-- **Headers of heredocs:** blanks, a label, bare or in quotes of one sort, and a line break.
`HeredocHeader cs label n` says that `cs` begins with such a header of length `n`. -/
inductive HeredocHeader : List Char → List Char → Nat → Prop where
  | mk {indent label tail : List Char} {quote : Option Char}
      (hindent : ∀ c ∈ indent, Text.isIndent c = true) (hquote : ∀ q ∈ quote, q = '"' ∨ q = '\'')
      (hstart : label.head?.any Text.isNameStart = true)
      (hparts : ∀ c ∈ label, Text.isNamePart c = true) (hbreak : lineBreakLength tail ≠ 0) :
      HeredocHeader (indent ++ (quote.toList ++ (label ++ (quote.toList ++ tail)))) label
        (indent.length + 2 * quote.toList.length + label.length + lineBreakLength tail)

/-- What is found as a header is one. -/
theorem heredocHeader?_spec {cs label : List Char} {n : Nat}
    (h : heredocHeader? cs = some (label, n)) : HeredocHeader cs label n := by
  have hindent : ∀ c ∈ cs.takeWhile Text.isIndent, Text.isIndent c = true :=
    fun c hc => List.mem_takeWhile_imp hc
  have hcs := List.prefix_iff_eq_append.mp (List.takeWhile_prefix (l := cs) Text.isIndent)
  unfold heredocHeader? at h
  dsimp only at h
  -- `cs` is `indent`, `quote`, `word`, `quote` again and `tail`, which are cut off one by one
  generalize cs.takeWhile Text.isIndent = indent at h hindent hcs
  generalize cs.drop indent.length = body at h hcs
  generalize hquote : (body.head?.filter fun c => c == '"' || c == '\'') = quote at h
  obtain ⟨hbody, hmark⟩ := eq_quote_append hquote
  generalize (if quote.isSome = true then body.drop 1 else body) = b at h hbody
  cases b with
  | nil => exact absurd h (by simp)
  | cons c b =>
    have hparts : ∀ d ∈ (c :: b).takeWhile Text.isNamePart, Text.isNamePart d = true :=
      fun d hd => List.mem_takeWhile_imp hd
    have hb := List.prefix_iff_eq_append.mp (List.takeWhile_prefix (l := c :: b) Text.isNamePart)
    have hhead : Text.isNameStart c = true →
        ((c :: b).takeWhile Text.isNamePart).head?.any Text.isNameStart = true := by
      intro hc
      simp [Text.isNamePart_of_isNameStart hc, hc]
    dsimp only at h
    generalize (c :: b).takeWhile Text.isNamePart = word at h hparts hhead hb
    generalize (c :: b).drop word.length = behind at h hb
    split_ifs at h with hstart
    have hclosing : ∃ tail, behind = quote.toList ++ tail ∧ label = word ∧
        lineBreakLength tail ≠ 0 ∧
        n = indent.length + 2 * quote.toList.length + word.length + lineBreakLength tail := by
      cases quote with
      | none =>
        dsimp only at h
        split at h
        · exact absurd h (by simp)
        · next hbreak =>
          obtain ⟨rfl, rfl⟩ := Prod.mk.inj (Option.some.inj h)
          exact ⟨behind, rfl, rfl, hbreak, rfl⟩
      | some q =>
        dsimp only at h
        split_ifs at h with hclosed
        obtain ⟨tail, rfl⟩ := List.head?_eq_some_iff.mp hclosed
        simp only [List.drop_succ_cons, List.drop_zero] at h
        split at h
        · exact absurd h (by simp)
        · next hbreak =>
          obtain ⟨rfl, rfl⟩ := Prod.mk.inj (Option.some.inj h)
          exact ⟨tail, rfl, rfl, hbreak, rfl⟩
    obtain ⟨tail, rfl, rfl, hbreak, rfl⟩ := hclosing
    rw [← hcs, hbody, ← hb]
    exact .mk hindent hmark (hhead hstart) hparts hbreak

/-- A header has no question mark, nor has its label. -/
theorem HeredocHeader.not_mem {cs label : List Char} {n : Nat} (h : HeredocHeader cs label n) :
    ∃ header rest, cs = header ++ rest ∧ header.length = n ∧ '?' ∉ header ∧ '?' ∉ label := by
  obtain @⟨indent, label, tail, quote, hindent, hquote, -, hparts, -⟩ := h
  obtain ⟨rest, hrest, hlen, hnot⟩ := lineBreakLength_spec tail
  have hindentMark : '?' ∉ indent := fun hmem => absurd (hindent _ hmem) (by decide)
  have hlabelMark : '?' ∉ label := fun hmem => absurd (hparts _ hmem) (by decide)
  have hquoteMark : '?' ∉ quote.toList := by
    intro hmem
    exact absurd (hquote _ (Option.mem_toList.mp hmem)) (by decide)
  refine ⟨indent ++ (quote.toList ++ (label ++ (quote.toList ++ tail.take (lineBreakLength tail)))),
    rest, ?_, ?_, ?_, hlabelMark⟩
  · conv_lhs => rw [hrest]
    simp only [List.append_assoc]
  · simp only [List.length_append, hlen]
    omega
  · simp only [List.mem_append, not_or]
    exact ⟨hindentMark, hquoteMark, hlabelMark, hquoteMark, hnot⟩

/-- A quote is taken away, or not, in front of the mark. -/
theorem exists_drop_quote_mark {quote : Option Char}
    (hquote : ((u ++ ['?', '>']).head?.filter fun c => c == '"' || c == '\'') = quote) :
    ∃ t, ∀ v, (if quote.isSome = true then (u ++ '?' :: '>' :: v).drop 1
      else u ++ '?' :: '>' :: v) = t ++ '?' :: '>' :: v := by
  cases u with
  | nil =>
    -- the mark itself is no quote
    obtain rfl : none = quote := by
      rw [← hquote]
      decide
    exact ⟨[], fun v => rfl⟩
  | cons c u =>
    cases quote with
    | none => exact ⟨c :: u, fun v => rfl⟩
    | some q => exact ⟨u, fun v => rfl⟩

theorem lineBreakLength_drop_mark :
    lineBreakLength ((u ++ '?' :: '>' :: v).drop 1)
      = lineBreakLength ((u ++ ['?', '>']).drop 1) := by
  cases u with
  | nil => simp [lineBreakLength]
  | cons c u => exact lineBreakLength_mark u v

theorem heredocHeader?_mark :
    heredocHeader? (u ++ '?' :: '>' :: v) = heredocHeader? (u ++ ['?', '>']) := by
  have hindent : Text.isIndent '?' = false := by decide
  have hstart : Text.isNameStart '?' = false := by decide
  have hpart : Text.isNamePart '?' = false := by decide
  have hlen := (List.takeWhile_sublist (l := u) Text.isIndent).length_le
  unfold heredocHeader?
  rw [takeWhile_append_mark u _ hindent, takeWhile_append_mark u _ hindent]
  dsimp only
  rw [List.drop_append_of_le_length hlen, List.drop_append_of_le_length hlen, head?_append_mark]
  generalize u.drop (u.takeWhile Text.isIndent).length = body
  generalize hquote : ((body ++ ['?', '>']).head?.filter fun c => c == '"' || c == '\'') = quote
  -- `t` is the text from the label up to the mark
  obtain ⟨t, ht⟩ := exists_drop_quote_mark body hquote
  rw [ht v, ht []]
  cases t with
  | nil => simp [hstart]
  | cons c t =>
    have hlabel := fun v => takeWhile_append_mark (c :: t) ('>' :: v) hpart
    simp only [List.cons_append] at hlabel ⊢
    rw [hlabel v, hlabel []]
    have hle := (List.takeWhile_sublist (l := c :: t) Text.isNamePart).length_le
    have hdrop : ∀ v, (c :: (t ++ '?' :: '>' :: v)).drop ((c :: t).takeWhile Text.isNamePart).length
        = (c :: t).drop ((c :: t).takeWhile Text.isNamePart).length ++ '?' :: '>' :: v :=
      fun v => List.drop_append_of_le_length hle
    rw [hdrop v, hdrop [], head?_append_mark]
    generalize (c :: t).drop ((c :: t).takeWhile Text.isNamePart).length = behind
    cases quote with
    | none => simp only [lineBreakLength_mark behind v]
    | some q =>
      by_cases hq : (behind ++ ['?', '>']).head? = some q
      · simp only [hq, if_true, lineBreakLength_drop_mark behind v]
      · simp only [hq, if_false]

theorem closingLine?_mark {label : List Char} (hlabel : '?' ∉ label) :
    closingLine? label (u ++ '?' :: '>' :: v) = closingLine? label (u ++ ['?', '>']) := by
  have hindent : Text.isIndent '?' = false := by decide
  have hlen := (List.takeWhile_sublist (l := u) Text.isIndent).length_le
  unfold closingLine?
  rw [takeWhile_append_mark u _ hindent, takeWhile_append_mark u _ hindent]
  dsimp only
  rw [List.drop_append_of_le_length hlen, List.drop_append_of_le_length hlen]
  generalize u.drop (u.takeWhile Text.isIndent).length = body
  rw [isPrefixOf_mark body _ hlabel, isPrefixOf_mark body _ hlabel]
  by_cases hpre : label.isPrefixOf body = true
  · have hle := (List.isPrefixOf_iff_prefix.mp hpre).length_le
    rw [List.drop_append_of_le_length hle, List.drop_append_of_le_length hle, head?_append_mark]
  · simp [hpre]

theorem closeHeredoc_cons (label : List Char) (lineStart : Bool) (c : Char) (cs : List Char) :
    closeHeredoc label lineStart (c :: cs) =
      (if lineStart then closingLine? label (c :: cs) else none).or
        ((closeHeredoc label (c == '\n') cs).map (· + 1)) := by
  rw [closeHeredoc.eq_def]
  cases (if lineStart then closingLine? label (c :: cs) else none) <;> rfl

/-- The end of a heredoc that lies in front of the mark does not depend on what is behind it. -/
theorem closeHeredoc_mark {label : List Char} (hlabel : '?' ∉ label) {lineStart : Bool}
    {u v : List Char} {n : Nat} (h : closeHeredoc label lineStart (u ++ '?' :: '>' :: v) = some n)
    (hn : n ≤ u.length) (v' : List Char) :
    closeHeredoc label lineStart (u ++ '?' :: '>' :: v') = some n := by
  have hline := fun v => closingLine?_mark u v hlabel
  induction u generalizing lineStart n with
  | nil =>
    -- a heredoc that does not close in this line goes on behind the mark
    simp only [List.nil_append] at h hline ⊢
    rw [closeHeredoc_cons, hline v] at h
    rw [closeHeredoc_cons, hline v']
    cases hclose : (if lineStart then closingLine? label ['?', '>'] else none) with
    | some m =>
      rw [hclose] at h
      exact h
    | none =>
      rw [hclose] at h
      obtain ⟨m, -, rfl⟩ := Option.map_eq_some_iff.mp h
      exact absurd hn (by simp)
  | cons c u ih =>
    simp only [List.cons_append] at h hline ⊢
    rw [closeHeredoc_cons, hline v] at h
    rw [closeHeredoc_cons, hline v']
    cases hclose : (if lineStart then closingLine? label (c :: (u ++ ['?', '>'])) else none) with
    | some m =>
      rw [hclose] at h
      exact h
    | none =>
      rw [hclose] at h
      obtain ⟨m, hm, rfl⟩ := Option.map_eq_some_iff.mp h
      rw [ih hm (Nat.le_of_succ_le_succ hn) fun v => closingLine?_mark u v hlabel]
      rfl

/-! ### Numbers and names -/

theorem digitsLength_mark : digitsLength (u ++ '?' :: w) = digitsLength u := by
  unfold digitsLength
  rw [takeWhile_append_mark u w (by decide)]

theorem digitsLength_le (cs : List Char) : digitsLength cs ≤ cs.length :=
  (List.takeWhile_sublist _).length_le

theorem fractionLength_mark :
    fractionLength (u ++ '?' :: '>' :: v) = fractionLength (u ++ ['?', '>']) := by
  have hdigit : Text.isDigit '?' = false := by decide
  match u with
  | [] => rfl
  | [c] => by_cases hc : c = '.' <;> simp [fractionLength, hc, hdigit]
  | c :: d :: u =>
    by_cases hc : c = '.'
    · subst hc
      have hdigits := fun v => digitsLength_mark (d :: u) ('>' :: v)
      simp only [List.cons_append, fractionLength] at hdigits ⊢
      rw [hdigits v, hdigits []]
    · simp [fractionLength, hc]

/-- A fraction ends in front of the mark. -/
theorem fractionLength_mark_le : fractionLength (u ++ ['?', '>']) ≤ u.length := by
  have hdigit : Text.isDigit '?' = false := by decide
  match u with
  | [] => simp [fractionLength]
  | [c] => by_cases hc : c = '.' <;> simp [fractionLength, hc, hdigit]
  | c :: d :: u =>
    by_cases hc : c = '.'
    · subst hc
      have hdigits := digitsLength_mark (d :: u) ['>']
      have hle := digitsLength_le (d :: u)
      simp only [List.cons_append, fractionLength, List.length_cons] at hdigits hle ⊢
      rw [hdigits]
      split <;> omega
    · simp [fractionLength, hc]

theorem exponentLength_mark :
    exponentLength (u ++ '?' :: '>' :: v) = exponentLength (u ++ ['?', '>']) := by
  have hdigit : Text.isDigit '?' = false := by decide
  -- an exponent is told by up to three characters: the letter, a sign and the first digit
  match u with
  | [] => simp [exponentLength]
  | [e] => simp [exponentLength, hdigit]
  | [e, d] =>
    have hdigits := fun v => digitsLength_mark [d] ('>' :: v)
    simp only [List.cons_append, List.nil_append] at hdigits ⊢
    simp only [exponentLength, hdigit, hdigits, Bool.false_eq_true, if_false]
  | e :: s :: d :: u =>
    have hdigits := fun v => digitsLength_mark (d :: u) ('>' :: v)
    have hdigits' := fun v => digitsLength_mark (s :: d :: u) ('>' :: v)
    simp only [List.cons_append] at hdigits hdigits' ⊢
    simp only [exponentLength, hdigits, hdigits']

theorem decimal_mark :
    numberPiece.decimal (u ++ '?' :: '>' :: v) = numberPiece.decimal (u ++ ['?', '>']) := by
  have hwhole := digitsLength_le u
  have hfraction := fractionLength_mark_le (u.drop (digitsLength u))
  rw [List.length_drop] at hfraction
  have hdrop : ∀ n ≤ u.length, ∀ v, (u ++ '?' :: '>' :: v).drop n = u.drop n ++ '?' :: '>' :: v :=
    fun n hn v => List.drop_append_of_le_length hn
  -- whole part, fraction and exponent, each from where the last one ends in front of the mark
  simp only [numberPiece.decimal, digitsLength_mark, hdrop _ hwhole, fractionLength_mark]
  simp only [hdrop _ (by omega : digitsLength u
    + fractionLength (u.drop (digitsLength u) ++ ['?', '>']) ≤ u.length), exponentLength_mark]

theorem numberPiece_of_ne {c : Char} (hc : c ≠ '0') (cs : List Char) :
    numberPiece (c :: cs) = numberPiece.decimal (c :: cs) := by
  unfold numberPiece
  split
  · next h => exact absurd (List.cons.inj h).1 hc
  · rfl

theorem numberPiece_mark :
    numberPiece (u ++ '?' :: '>' :: v) = numberPiece (u ++ ['?', '>']) := by
  have hdecimal := decimal_mark u v
  match u with
  | [] => exact hdecimal
  | [c] =>
    by_cases hc : c = '0'
    · subst hc
      exact hdecimal
    · simp only [List.cons_append, List.nil_append] at hdecimal ⊢
      rw [numberPiece_of_ne hc, hdecimal, numberPiece_of_ne hc]
  | c :: r :: u =>
    simp only [List.cons_append] at hdecimal ⊢
    by_cases hc : c = '0'
    · -- `r` may be the letter of a radix, whose digits end in front of the mark
      subst hc
      cases hr : radixOf r with
      | none =>
        simp only [numberPiece, hr]
        exact hdecimal
      | some radix =>
        have hdigits : ∀ w, (u ++ '?' :: w).takeWhile (fun c => c == '_' || Text.isDigitIn radix c)
            = u.takeWhile fun c => c == '_' || Text.isDigitIn radix c := by
          intro w
          have hdigit : Text.isDigit '?' = false := by decide
          have hletter : Text.isLetter '?' = false := by decide
          exact takeWhile_append_mark u w (by simp [Text.isDigitIn, hdigit, hletter])
        simp only [numberPiece, hr, hdigits]
    · rw [numberPiece_of_ne hc, hdecimal, numberPiece_of_ne hc]

theorem nameLength_mark : nameLength (u ++ '?' :: '>' :: v) = nameLength (u ++ ['?', '>']) := by
  have hpart : Text.isNamePart '?' = false := by decide
  induction u with
  | nil => simp [nameLength, hpart]
  | cons c u ih =>
    rw [List.cons_append, List.cons_append, nameLength, nameLength, ih, head?_append_mark]

/-! ### Punctuation -/

theorem length_le_of_mem_punctuation :
    ∀ entry ∈ punctuation, entry.1.length ≤ 3 := by
  decide

theorem punctuationPiece_mark (c : Char) :
    punctuationPiece c (u ++ '?' :: '>' :: v) = punctuationPiece c (u ++ ['?', '>']) := by
  have hfind : ∀ entry ∈ punctuation, entry.1.isPrefixOf (c :: (u ++ '?' :: '>' :: v))
      = entry.1.isPrefixOf (c :: (u ++ ['?', '>'])) := by
    intro entry hentry
    have hlen := length_le_of_mem_punctuation entry hentry
    exact isPrefixOf_append_mark (c :: u) v (by simp; omega)
  unfold punctuationPiece
  rw [List.find?_congr hfind]

/-! ### Pieces -/

/-- **Agreement up to a length.** The second piece is the first one if that is not too long. -/
def Piece.Agrees (n : Nat) (p q : Piece) : Prop := p.length ≤ n → q = p

theorem Piece.Agrees.of_eq {n : Nat} {p q : Piece} (h : q = p) : p.Agrees n q := fun _ => h

theorem Piece.Agrees.some_eq {n : Nat} {p q r : Piece} (h : p.Agrees n q) (hp : some p = some r)
    (hr : r.length ≤ n) : some q = some r := by
  obtain rfl := Option.some.inj hp
  rw [h hr]

theorem Piece.Agrees.ite {n : Nat} {c : Prop} [Decidable c] {p p' q q' : Piece}
    (hp : c → p.Agrees n p') (hq : ¬ c → q.Agrees n q') :
    (if c then p else q).Agrees n (if c then p' else q') := by
  by_cases hc : c
  · rw [if_pos hc, if_pos hc]
    exact hp hc
  · rw [if_neg hc, if_neg hc]
    exact hq hc

variable (v' : List Char)

theorem quotedPiece_agrees (quote : Char) (kind : Kind) :
    (quotedPiece quote kind (u ++ '?' :: '>' :: v)).Agrees (u.length + 1)
      (quotedPiece quote kind (u ++ '?' :: '>' :: v')) := by
  intro hlen
  unfold quotedPiece at hlen ⊢
  cases hclose : closeQuote quote (u ++ '?' :: '>' :: v) with
  | none =>
    -- a string that is never closed takes all of the text, the mark included
    rw [hclose] at hlen
    exact absurd hlen (by simp)
  | some n =>
    rw [hclose] at hlen
    rw [closeQuote_append hclose (Nat.le_of_succ_le_succ hlen)]

theorem commentPiece_agrees :
    (commentPiece (u ++ '?' :: '>' :: v)).Agrees (u.length + 2)
      (commentPiece (u ++ '?' :: '>' :: v')) := by
  intro hlen
  unfold commentPiece at hlen ⊢
  cases hclose : closeComment (u ++ '?' :: '>' :: v) with
  | none =>
    rw [hclose] at hlen
    exact absurd hlen (by simp)
  | some n =>
    rw [hclose] at hlen
    have hn : n ≤ u.length := Nat.le_of_add_le_add_right hlen
    have htwo := two_le_of_closeComment hclose
    rw [closeComment_append hclose hn]
    -- whether it is a doc comment is told by the first two characters
    have hne : u ≠ [] := List.ne_nil_of_length_pos (by omega)
    obtain ⟨c, t, rfl⟩ := List.exists_cons_of_ne_nil hne
    simp only [List.cons_append, List.head?_cons, List.drop_succ_cons, List.drop_zero]
    rw [head?_append_mark t v, head?_append_mark t v']

theorem heredocPiece?_agrees (fallback : Piece) :
    ((heredocPiece? (u ++ '?' :: '>' :: v)).getD fallback).Agrees (u.length + 3)
      ((heredocPiece? (u ++ '?' :: '>' :: v')).getD fallback) := by
  intro hlen
  unfold heredocPiece? at hlen ⊢
  rw [heredocHeader?_mark u v] at hlen ⊢
  rw [heredocHeader?_mark u v']
  cases hheader : heredocHeader? (u ++ ['?', '>']) with
  | none => rfl
  | some r =>
    obtain ⟨label, n⟩ := r
    obtain ⟨header, rest, hsplit, rfl, hmark, hlabel⟩ := (heredocHeader?_spec hheader).not_mem
    -- the header has no question mark, so it lies in front of this one
    have hle := length_le_of_not_mem hsplit hmark
    rw [hheader] at hlen
    dsimp only at hlen ⊢
    rw [List.drop_append_of_le_length hle] at hlen ⊢
    rw [List.drop_append_of_le_length hle]
    cases hclose : closeHeredoc label true (u.drop header.length ++ '?' :: '>' :: v) with
    | none =>
      rw [hclose] at hlen
      exact absurd hlen (by simp; omega)
    | some m =>
      rw [hclose] at hlen
      have hm : m ≤ (u.drop header.length).length := by
        have hall : 3 + header.length + m ≤ u.length + 3 := hlen
        rw [List.length_drop]
        omega
      rw [closeHeredoc_mark hlabel hclose hm]

/-- **Code.** A piece of code that ends in front of the mark is the same whatever is behind it. -/
theorem codePiece?_mark {memberPosition atStart : Bool} {u v : List Char} {p : Piece}
    (h : codePiece? memberPosition atStart (u ++ '?' :: '>' :: v) = some p)
    (hp : p.length ≤ u.length) (v' : List Char) :
    codePiece? memberPosition atStart (u ++ '?' :: '>' :: v') = some p := by
  cases u with
  | nil => exact absurd p.length_pos (by simpa using hp)
  | cons c u =>
    rw [List.cons_append, codePiece?] at h ⊢
    refine Piece.Agrees.some_eq ?_ h hp
    -- all that the conditions look at is in front of the end of the mark
    rw [head?_append_mark u v, head?_append_mark u v', isPrefixOf_append_mark u v (by simp),
      isPrefixOf_append_mark u v' (by simp), punctuationPiece_mark u v, punctuationPiece_mark u v']
    -- the byte order mark and white space
    refine .ite (fun _ => .of_eq rfl) fun _ => ?_
    refine .ite (fun _ => .of_eq ?_) fun _ => ?_
    · simp only [takeWhile_append_mark u _ (by decide : Text.isSpace '?' = false)]
    -- an earlier close tag; the character behind `c` is none of the mark, so it is in `u`
    refine .ite (fun hc => .of_eq ?_) fun _ => ?_
    · obtain ⟨t, rfl⟩ := exists_cons_of_head?_mark (by decide) hc.2
      simp only [List.cons_append, List.drop_succ_cons, List.drop_zero, lineBreakLength_mark]
    -- comments
    refine .ite (fun _ => ?_) fun _ => ?_
    · refine .ite (fun _ => .of_eq rfl) fun _ => .of_eq ?_
      simp only [lineCommentLength_mark]
    refine .ite (fun hc => .of_eq ?_) fun _ => ?_
    · obtain ⟨t, rfl⟩ := exists_cons_of_head?_mark (by decide) hc.2
      simp only [List.cons_append, List.drop_succ_cons, List.drop_zero, lineCommentLength_mark]
    refine .ite (fun hc => ?_) fun _ => ?_
    · obtain ⟨t, rfl⟩ := exists_cons_of_head?_mark (by decide) hc.2
      exact commentPiece_agrees t v v'
    -- strings and heredocs, where the length of the piece matters
    refine .ite (fun _ => quotedPiece_agrees u v v' c _) fun _ => ?_
    refine .ite (fun _ => quotedPiece_agrees u v v' c _) fun _ => ?_
    refine .ite (fun hc => ?_) fun _ => ?_
    · obtain ⟨t, rfl⟩ := exists_cons_cons_of_isPrefixOf_mark hc.2
      exact heredocPiece?_agrees t v v' _
    -- variables and numbers
    refine .ite (fun _ => .of_eq ?_) fun _ => ?_
    · simp only [takeWhile_append_mark u _ (by decide : Text.isNamePart '?' = false)]
    refine .ite (fun _ => .of_eq ?_) fun _ => ?_
    · exact (numberPiece_mark (c :: u) v').trans (numberPiece_mark (c :: u) v).symm
    -- names, whose kind depends on their text
    refine .ite (fun _ => ?_) fun _ => .of_eq rfl
    intro hlen
    dsimp only at hlen ⊢
    rw [nameLength_mark u v] at hlen
    have htake : ∀ v, (c :: (u ++ '?' :: '>' :: v)).take (nameLength (u ++ ['?', '>']) + 1)
        = (c :: u).take (nameLength (u ++ ['?', '>']) + 1) :=
      fun v => List.take_append_of_le_length hlen
    simp only [nameLength_mark u v, nameLength_mark u v', htake]

/-- **Text outside of code.** A piece of it that ends in front of the mark is the same whatever is
behind it. -/
theorem htmlPiece?_mark {u v : List Char} {p : Piece}
    (h : htmlPiece? (u ++ '?' :: '>' :: v) = some p) (hp : p.length ≤ u.length) (v' : List Char) :
    htmlPiece? (u ++ '?' :: '>' :: v') = some p := by
  cases u with
  | nil => exact absurd p.length_pos (by simpa using hp)
  | cons c u =>
    unfold htmlPiece? at h ⊢
    rw [openTag?_mark (c :: u) v] at h
    rw [openTag?_mark (c :: u) v']
    split at h
    · exact h
    · next hnone =>
      simp only [List.cons_append] at h ⊢
      refine Piece.Agrees.some_eq (fun hlen => ?_) h hp
      have hhtml := htmlLength_mark (Nat.le_of_succ_le_succ hlen) v'
      simp only [hhtml]

end Mark

namespace Scanner

/-- **Locality.** A piece in front of a close tag does not depend on what stands behind the tag. -/
theorem piece?_mark {s : Scanner} {u v : List Char} {p : Piece} (h : s.piece? = some p)
    (hrest : s.rest = u ++ '?' :: '>' :: v) (hp : p.length ≤ u.length) (v' : List Char) :
    piece? { s with rest := u ++ '?' :: '>' :: v' } = some p := by
  cases hm : s.mode with
  | html =>
    rw [piece?_of_html hm, hrest] at h
    rw [← htmlPiece?_mark h hp v']
    exact piece?_of_html rfl
  | code =>
    rw [piece?_of_code hm, hrest] at h
    rw [← codePiece?_mark h hp v']
    exact piece?_of_code rfl

end Scanner

end Introspect.Token
