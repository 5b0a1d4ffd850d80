import Introspect.Proofs.Scan.Scopes
import Introspect.Proofs.Scan.Tiling
import Mathlib.Data.List.DropRight

/-!
# Exact positions

Lines and columns are kept while the text is read. This file says what they are without reading: the
line of a position is one more than the line feeds before it, and its column one more than the bytes
behind the last of them (`line_start_after`, `col_start_after`).

* `Span.Exact` says that a span lies in the source, cuts no character, and has the line and the
  column of its first byte;
* `Covers.exact`, `Covers.endLine_eq`: the token of a text has an exact span, and ends on the line
  of its last character, a line feed counting for the line it ends;
* `Tiles.endLine_le`: a token ends no later than on the line on which the next one starts;
* `Scanner.exact_of_mem_errors`: errors have the spans of tokens, so they are exact too;
* `Position.fits_start_after`: in a source that is not too long, every position fits into 32 bits.
-/

namespace Introspect

/-- **Exact spans.** The span lies inside the source and cuts no character, and its line and column
are those of the text before it. -/
structure Span.Exact (source : String) (span : Span) : Prop where
  stop_le : span.stop ≤ source.utf8ByteSize
  slice_isSome : (span.slice? source).isSome = true
  place : ∃ before, Text.takeBytes span.offset source.toList = some before ∧
    span.line = 1 + before.count '\n' ∧
    span.col = 1 + Text.byteLength (before.rtakeWhile (· ≠ '\n'))

/-- The parts of a position are numbers of 32 bits. -/
structure Position.Fits (p : Position) : Prop where
  offset_lt : p.offset < 2 ^ 32
  line_lt : p.line < 2 ^ 32
  col_lt : p.col < 2 ^ 32

namespace Token

/-! ### Lines and columns of a position -/

theorem after_concat (p : Position) (cs : List Char) (c : Char) :
    p.after (cs ++ [c]) = (p.after cs).advance c := by
  rw [Position.after_append]
  rfl

/-- The line is one more than the line feeds before it. -/
theorem line_start_after (cs : List Char) :
    (Position.start.after cs).line = 1 + cs.count '\n' := by
  -- from the end of the text, since a position is advanced there
  induction cs using List.reverseRecOn with
  | nil => rfl
  | append_singleton cs c ih =>
    rw [after_concat, List.count_append, Position.advance]
    split
    · next hc => simp [ih, hc, Nat.add_assoc]
    · next hc => simp [ih, hc]

/-- The column is one more than the bytes behind the last line feed before it. -/
theorem col_start_after (cs : List Char) :
    (Position.start.after cs).col = 1 + Text.byteLength (cs.rtakeWhile (· ≠ '\n')) := by
  induction cs using List.reverseRecOn with
  | nil => rfl
  | append_singleton cs c ih =>
    rw [after_concat, List.rtakeWhile_concat, Position.advance]
    by_cases hc : c = '\n'
    · -- a new line begins, with nothing behind the line feed yet
      simp [hc]
    · simp [hc, ih, Nat.add_assoc]

theorem line_start_after_append (cs ds : List Char) :
    (Position.start.after (cs ++ ds)).line
      = (Position.start.after cs).line + ds.count '\n' := by
  rw [line_start_after, line_start_after, List.count_append, Nat.add_assoc]

theorem count_le_byteLength (cs : List Char) : cs.count '\n' ≤ Text.byteLength cs := by
  induction cs with
  | nil => simp
  | cons c cs ih =>
    have hc := Char.utf8Size_pos c
    rw [List.count_cons, Text.byteLength_cons]
    split <;> omega

theorem byteLength_rtakeWhile_le (cs : List Char) (f : Char → Bool) :
    Text.byteLength (cs.rtakeWhile f) ≤ Text.byteLength cs := by
  obtain ⟨u, hu⟩ := cs.rtakeWhile_suffix f
  calc Text.byteLength (cs.rtakeWhile f)
      ≤ Text.byteLength u + Text.byteLength (cs.rtakeWhile f) := Nat.le_add_left _ _
    _ = Text.byteLength cs := by rw [← Text.byteLength_append, hu]

end Token

/-- **No overflow.** In a source of fewer than `2 ^ 32 - 1` bytes every position that reading can
come to fits into 32 bits. -/
theorem Position.fits_start_after {source : String} (hsize : source.utf8ByteSize < 2 ^ 32 - 1)
    {before : List Char} (h : before <+: source.toList) : (Position.start.after before).Fits := by
  obtain ⟨after, hafter⟩ := h
  have hle : Text.byteLength before ≤ source.utf8ByteSize := by
    rw [← Text.byteLength_toList, ← hafter, Text.byteLength_append]
    exact Nat.le_add_right _ _
  -- lines and columns count from one, which is what the bound leaves room for
  have hlines := Token.count_le_byteLength before
  have hcols := Token.byteLength_rtakeWhile_le before (· ≠ '\n')
  refine ⟨?_, ?_, ?_⟩
  · rw [Token.offset_start_after]
    omega
  · rw [Token.line_start_after]
    omega
  · rw [Token.col_start_after]
    omega

namespace Token

/-! ### Tokens -/

section Covers

variable {before text after : List Char} {t : Token}

theorem Covers.line_eq (h : Covers before text after t) :
    t.span.line = (Position.start.after before).line := by
  cases h with
  | token hkind htext =>
    unfold Scanner.tokenSpan
    dsimp only
    split <;> rfl
  | invalid htext => rfl
  | finish => rfl

theorem Covers.col_eq (h : Covers before text after t) :
    t.span.col = (Position.start.after before).col := by
  cases h with
  | token hkind htext =>
    unfold Scanner.tokenSpan
    dsimp only
    split <;> rfl
  | invalid htext => rfl
  | finish => rfl

/-- The token of a text has an exact span. -/
theorem Covers.exact {source : String} (h : Covers before text after t)
    (hsource : source.toList = before ++ (text ++ after)) : t.span.Exact source where
  stop_le := by
    rw [h.stop_eq, ← Text.byteLength_toList, hsource]
    simp only [Text.byteLength_append]
    omega
  slice_isSome := by rw [h.slice?_eq hsource]; rfl
  place := by
    refine ⟨before, ?_, ?_, ?_⟩
    · rw [h.offset_eq, hsource]
      exact Text.takeBytes_byteLength before (text ++ after)
    · rw [h.line_eq, line_start_after]
    · rw [h.col_eq, col_start_after]

/-- Text that ends with a line feed has one. -/
theorem count_pos_of_getLast? {cs : List Char} (h : cs.getLast? = some '\n') :
    0 < cs.count '\n' :=
  List.count_pos_iff.mpr (List.mem_of_getLast? h)

/-- A token ends on the line of its last character; a line feed there belongs to the line it
ends. -/
theorem Covers.endLine_eq (h : Covers before text after t) (hkind : t.kind ≠ .invalid) :
    t.span.endLine = t.span.line + t.lexeme.toList.count '\n'
      - (if t.lexeme.toList.getLast? = some '\n' then 1 else 0) := by
  rw [h.line_eq, h.lexeme_eq hkind, String.toList_ofList]
  cases h with
  | token hne htext =>
    have hline := line_start_after_append before text
    unfold Scanner.tokenSpan
    dsimp only [Span.between]
    by_cases hlast : text.getLast? = some '\n'
    · -- the line feed has moved the line on, which is the other condition of the correction
      have hpos := count_pos_of_getLast? hlast
      rw [if_pos ⟨hlast, by omega⟩, if_pos hlast, hline]
    · rw [if_neg fun hc => hlast hc.1, if_neg hlast]
      dsimp only
      omega
  | invalid htext => exact absurd rfl hkind
  | finish => rfl

/-- A token ends no later than on the line behind its text, and no earlier than it starts. -/
theorem Covers.endLine_le (h : Covers before text after t) :
    t.span.line ≤ t.span.endLine ∧
      t.span.endLine ≤ (Position.start.after (before ++ text)).line := by
  have hline := line_start_after_append before text
  cases h with
  | token hne htext =>
    unfold Scanner.tokenSpan
    dsimp only [Span.between]
    split
    · -- the correction is made only where it does not go back behind the start
      next hc => exact ⟨by dsimp only; omega, by dsimp only; omega⟩
    · exact ⟨by dsimp only; omega, by dsimp only; omega⟩
  | invalid htext => exact ⟨Nat.le_max_right _ _, by dsimp only [Span.between]; omega⟩
  | finish => exact ⟨Nat.le_refl _, by simp [Span.point]⟩

end Covers

/-! ### The stream -/

namespace Tiles

variable {entry : Mode} {before rest : List Char} {ts : List Token}

theorem line_le (h : Tiles entry before rest ts) {t : Token} (ht : t ∈ ts) :
    (Position.start.after before).line ≤ t.span.line := by
  obtain ⟨gap, text, after, -, hcovers⟩ := h.covers_of_mem ht
  rw [hcovers.line_eq, line_start_after_append]
  exact Nat.le_add_right _ _

/-- Every token starts on a line on which the tokens before it have ended. -/
theorem endLine_le (h : Tiles entry before rest ts) :
    ts.Pairwise fun t u => t.span.endLine ≤ u.span.line := by
  induction h with
  | last hgap hcovers hkind => exact List.pairwise_singleton _ _
  | cons hgap hcovers hkind htiles ih =>
    refine List.pairwise_cons.mpr ⟨?_, ih⟩
    intro u hu
    exact hcovers.endLine_le.2.trans (htiles.line_le hu)

end Tiles

namespace Scanner

/-- After any number of requests the scanner is at the position of a prefix of the source. -/
theorem exists_pos_behind_eq (entry : Mode) (source : String) (n : Nat) :
    ∃ before, before <+: source.toList ∧
      ((start entry source).behind n).pos = Position.start.after before := by
  -- the induction is on the number of requests; a gap and a text are added by each of them
  have hstands : ∃ before, Stands entry source.toList before ((start entry source).behind n) := by
    induction n with
    | zero => exact ⟨[], stands_start entry source⟩
    | succ n ih =>
      obtain ⟨before, h⟩ := ih
      obtain ⟨gap, text, -, -, -, hnext⟩ := h.next
      exact ⟨_, hnext⟩
  obtain ⟨before, h⟩ := hstands
  exact ⟨before, ⟨_, h.source_eq.symm⟩, h.pos_eq⟩

theorem exact_of_mem_tokens {entry : Mode} {source : String} {t : Token}
    (ht : t ∈ (start entry source).tokens) : t.span.Exact source := by
  obtain ⟨gap, text, after, hsource, hcovers⟩ :=
    (stands_start entry source).tiles.covers_of_mem ht
  exact hcovers.exact hsource

theorem exists_span_eq_of_mem_owed {depth : Nat} {ts : List Token} {x : Option LexicalFault × Span}
    (hx : x ∈ owed depth ts) : ∃ t ∈ ts, x.2 = t.span := by
  induction ts generalizing depth with
  | nil => exact absurd hx (by simp [owed])
  | cons t ts ih =>
    rcases List.mem_append.mp hx with hx | hx
    · refine ⟨t, List.mem_cons_self, ?_⟩
      unfold owedBy at hx
      split at hx
      · rw [List.mem_singleton.mp hx]
      · split_ifs at hx with hd
        · rw [List.mem_singleton.mp hx]
        · exact absurd hx (by simp)
      · exact absurd hx (by simp)
    · obtain ⟨u, hu, hspan⟩ := ih hx
      exact ⟨u, List.mem_cons_of_mem t hu, hspan⟩

/-- Every error has the span of a token, braces left open that of the last one. -/
theorem exists_span_eq_of_mem_errors {entry : Mode} {source : String} {e : LexicalError}
    (he : e ∈ (start entry source).run.2.errors) :
    ∃ t ∈ (start entry source).tokens, e.span = t.span := by
  obtain ⟨n, hend, hlast, -⟩ := (start entry source).run_eq
  obtain ⟨m, hend', htokens⟩ := (start entry source).tokens_eq
  obtain rfl : m = n := hend'.unique hend
  rw [hlast] at he
  have haccount := (accounted_start entry source).errors_eq m hend
  -- the account of the error is among what the tokens owe, and keeps its span
  have hmem : e.account ∈ owed 0 _ ++ owedAtEnd _ _ :=
    haccount ▸ List.mem_map_of_mem he
  rw [htokens, given_succ]
  rcases List.mem_append.mp hmem with hmem | hmem
  · obtain ⟨t, ht, hspan⟩ := exists_span_eq_of_mem_owed hmem
    exact ⟨t, List.mem_append_left _ ht, hspan⟩
  · refine ⟨_, List.mem_append_right _ (List.mem_singleton_self _), ?_⟩
    unfold owedAtEnd at hmem
    split_ifs at hmem with hd
    · exact absurd hmem (by simp)
    · exact congrArg Prod.snd (List.mem_singleton.mp hmem)

theorem exact_of_mem_errors {entry : Mode} {source : String} {e : LexicalError}
    (he : e ∈ (start entry source).run.2.errors) : e.span.Exact source := by
  obtain ⟨t, ht, hspan⟩ := exists_span_eq_of_mem_errors he
  rw [hspan]
  exact exact_of_mem_tokens ht

end Scanner

end Token

end Introspect
