import Introspect.Proofs.Scan.Excerpts
import Introspect.Proofs.Scan.Pieces
import Introspect.Proofs.Text

/-!
# Strings and heredocs

What a delimited literal is, is said here without the scanner: `IsQuoted` by escapes, from the
quote on to the first one that no backslash takes along, and `IsHeredoc` by lines, from the header
on to the first line that closes it. What begins such a literal and is not closed is left open, and
reported.

* `Escaped.closeQuote_append` and `exists_escaped_of_closeQuote` are the two directions between
  `closeQuote` and escaped text, `HeredocBody.closeHeredoc_append` and
  `exists_body_of_closeHeredoc` those between `closeHeredoc` and the lines of a body, for which
  there is an induction of its own (`line_induction`);
* `LiteralAt` lists the literals that stand at the head of a text, open ones included. In code the
  scanner takes nothing else for a literal (`literalAt_of_codePiece?`) and takes every one for what
  it is (`LiteralAt.exists_codePiece?`), so there is never more than one (`LiteralAt.unique`).
-/

namespace Introspect.Token

/-! ### Quoted text -/

/-- **Escaped text,** as it stands between two quotes: a backslash takes the character behind it
along, whichever that is, and every other character is neither the quote nor a backslash. -/
inductive Escaped (quote : Char) : List Char → Prop where
  | nil : Escaped quote []
  | escape (c : Char) {cs : List Char} (h : Escaped quote cs) : Escaped quote ('\\' :: c :: cs)
  | plain {c : Char} {cs : List Char} (hquote : c ≠ quote) (hslash : c ≠ '\\')
      (h : Escaped quote cs) : Escaped quote (c :: cs)

/-- **Quoted text** of a kind: a quote of that kind, escaped text, and the same quote again. -/
def IsQuoted (kind : Kind) (text : List Char) : Prop :=
  ∃ quote body, stringKind? quote = some kind ∧ Escaped quote body ∧
    text = quote :: (body ++ [quote])

theorem IsQuoted.kind_mem {kind : Kind} {text : List Char} (h : IsQuoted kind text) :
    kind ∈ [Kind.stringLiteral, Kind.interpolatedString] := by
  obtain ⟨quote, body, hkind, -, -⟩ := h
  unfold stringKind? at hkind
  split at hkind <;> cases hkind <;> decide

section Quotes

variable {quote : Char} {cs : List Char} {n : Nat}

/-- Escaped text is passed up to the first quote behind it. -/
theorem Escaped.closeQuote_append {body : List Char} (h : Escaped quote body)
    (hquote : quote ≠ '\\') (after : List Char) :
    closeQuote quote (body ++ quote :: after) = some (body.length + 1) := by
  induction h with
  -- no backslash is a quote, so what follows the last unit closes the text and escapes nothing
  | nil => rw [List.nil_append, closeQuote_plain quote hquote, if_pos rfl, List.length_nil]
  | escape c _ ih =>
    rw [List.cons_append, List.cons_append, closeQuote_escape, ih]
    simp
  | plain hne hslash _ ih =>
    rw [List.cons_append, closeQuote_plain quote hslash, if_neg hne, ih]
    simp

/-- Where a quote is found, the text in front of it is escaped. -/
theorem exists_escaped_of_closeQuote (h : closeQuote quote cs = some n) :
    ∃ body after, cs = body ++ quote :: after ∧ Escaped quote body ∧ n = body.length + 1 := by
  -- an escape takes two characters at once, as the recogniser does
  fun_induction closeQuote quote cs generalizing n with
  | case1 => exact absurd h (by simp)
  | case2 => exact absurd h (by simp)
  | case3 d ds ih =>
    obtain ⟨m, hm, rfl⟩ := Option.map_eq_some_iff.mp h
    obtain ⟨body, after, rfl, hbody, rfl⟩ := ih hm
    exact ⟨'\\' :: d :: body, after, rfl, .escape d hbody, rfl⟩
  | case4 ds hslash => exact ⟨[], ds, rfl, .nil, (Option.some.inj h).symm⟩
  | case5 c ds hslash hne ih =>
    obtain ⟨m, hm, rfl⟩ := Option.map_eq_some_iff.mp h
    obtain ⟨body, after, rfl, hbody, rfl⟩ := ih hm
    exact ⟨c :: body, after, rfl, .plain hne hslash hbody, rfl⟩

end Quotes

/-! ### Lines -/

/-- **Induction over lines.** Behind the last line no line feed stands. -/
@[elab_as_elim] theorem line_induction {motive : List Char → Prop}
    (last : ∀ line, '\n' ∉ line → motive line)
    (line : ∀ line rest, '\n' ∉ line → motive rest → motive (line ++ '\n' :: rest))
    (cs : List Char) : motive cs := by
  by_cases hfeed : '\n' ∈ cs
  · obtain ⟨l, rest, hcs, hl⟩ := List.eq_append_cons_of_mem hfeed
    have hlt : rest.length < cs.length := by
      rw [hcs, List.length_append, List.length_cons]
      omega
    rw [hcs]
    exact line l rest hl (line_induction last line rest)
  · exact last cs hfeed
termination_by cs.length

/-- A line that closes the heredoc with this label. It is given without its line feed, which would
not continue the label either. -/
def IsClosingLine (label line : List Char) : Prop := ∃ k, ClosingLine label line k

/-- **The body of a heredoc** with this label, and the text behind it: lines that do not close it,
each with its line feed, and at last blanks and the label, which does not go on. -/
inductive HeredocBody (label : List Char) : List Char → List Char → Prop where
  | close {blanks after : List Char} (hblanks : ∀ c ∈ blanks, Text.isIndent c = true)
      (hafter : after.head?.any Text.isNamePart = false) : HeredocBody label (blanks ++ label) after
  | line {line text after : List Char} (hfeed : '\n' ∉ line) (hline : ¬ IsClosingLine label line)
      (h : HeredocBody label text after) : HeredocBody label (line ++ '\n' :: text) after

section Lines

variable {label line : List Char}

/-- From within a line the recogniser goes on to the next one. -/
theorem closeHeredoc_false_append (hline : '\n' ∉ line) (rest : List Char) :
    closeHeredoc label false (line ++ '\n' :: rest) =
      (closeHeredoc label true rest).map (· + (line.length + 1)) := by
  induction line with
  | nil =>
    rw [List.nil_append, closeHeredoc_cons]
    simp
  | cons c line ih =>
    rw [List.mem_cons, not_or] at hline
    rw [List.cons_append, closeHeredoc_cons, beq_eq_false_iff_ne.mpr (Ne.symm hline.1),
      ih hline.2]
    simp [Option.map_map, Function.comp_def, Nat.add_assoc]

/-- A line closes the heredoc, or the next lines do. -/
theorem closeHeredoc_append (hline : '\n' ∉ line) (rest : List Char) :
    closeHeredoc label true (line ++ '\n' :: rest) =
      (closingLine? label (line ++ '\n' :: rest)).or
        ((closeHeredoc label true rest).map (· + (line.length + 1))) := by
  cases line with
  | nil =>
    rw [List.nil_append, closeHeredoc_cons]
    simp
  | cons c line =>
    -- only behind the line feed does a line begin again
    rw [List.mem_cons, not_or] at hline
    rw [List.cons_append, closeHeredoc_cons, beq_eq_false_iff_ne.mpr (Ne.symm hline.1),
      closeHeredoc_false_append hline.2]
    simp [Option.map_map, Function.comp_def, Nat.add_assoc]

/-- The last line closes the heredoc, or nothing does. -/
theorem closeHeredoc_of_not_mem (hline : '\n' ∉ line) :
    closeHeredoc label true line = closingLine? label line := by
  cases line with
  | nil =>
    rw [closeHeredoc.eq_def, if_pos rfl]
    cases closingLine? label [] <;> rfl
  | cons c line =>
    have hnone : closeHeredoc label false line = none := by
      by_contra hsome
      obtain ⟨n, hn⟩ := Option.ne_none_iff_exists'.mp hsome
      exact hline (List.mem_cons_of_mem c (List.mem_of_mem_take (closeHeredoc_mem hn)))
    rw [List.mem_cons, not_or] at hline
    rw [closeHeredoc_cons, beq_eq_false_iff_ne.mpr (Ne.symm hline.1), hnone]
    simp

/-- Whether a line closes a heredoc does not depend on the lines behind it. -/
theorem closingLine_append_iff (hlabel : isIdentifier label = true) (hline : '\n' ∉ line)
    (rest : List Char) {k : Nat} :
    ClosingLine label (line ++ '\n' :: rest) k ↔ ClosingLine label line k := by
  obtain ⟨-, hparts⟩ := isIdentifier_iff.mp hlabel
  constructor
  · intro h
    refine h.cut ?_
    generalize htext : line ++ '\n' :: rest = text at h
    obtain @⟨indent, behind, hindent, -⟩ := h
    -- neither the blanks nor the label have a line feed
    have hfeed : '\n' ∉ indent ++ label := by
      rw [List.mem_append, not_or]
      exact ⟨fun hmem => absurd (hindent _ hmem) (by decide),
        fun hmem => absurd (hparts _ hmem) (by decide)⟩
    rw [← List.append_assoc] at htext
    simpa using length_le_of_not_mem htext hfeed
  · rintro @⟨indent, behind, hindent, hbehind⟩
    simp only [List.append_assoc]
    refine .mk hindent ?_
    -- a label at the end of the line has the line feed behind it
    cases behind with
    | nil => exact (by decide : Text.isNamePart '\n' = false)
    | cons c behind => exact hbehind

theorem closingLine?_eq_none_iff (hlabel : isIdentifier label = true) :
    closingLine? label line = none ↔ ¬ IsClosingLine label line := by
  rw [Option.eq_none_iff_forall_ne_some, IsClosingLine, not_exists]
  exact forall_congr' fun k => not_congr (closingLine?_eq_some_iff (isIdentifier_iff.mp hlabel).1)

theorem isClosingLine_append_iff (hlabel : isIdentifier label = true) (hline : '\n' ∉ line)
    (rest : List Char) : IsClosingLine label (line ++ '\n' :: rest) ↔ IsClosingLine label line :=
  exists_congr fun _ => closingLine_append_iff hlabel hline rest

/-- **Open heredocs.** No end is found exactly if no line closes the heredoc. -/
theorem closeHeredoc_eq_none_iff (hlabel : isIdentifier label = true) {cs : List Char} :
    closeHeredoc label true cs = none ↔
      ∀ line ∈ Text.cutAt (· == '\n') cs, ¬ IsClosingLine label line := by
  have huncut : ∀ line : List Char, '\n' ∉ line → Text.cutAt (· == '\n') line = [line] :=
    fun line hline => Text.cutAt_of_forall_not fun c hc => beq_eq_false_iff_ne.mpr
      fun heq => hline (heq ▸ hc)
  induction cs using line_induction with
  | last line hline =>
    rw [closeHeredoc_of_not_mem hline, closingLine?_eq_none_iff hlabel, huncut line hline,
      List.forall_mem_singleton]
  | line line rest hline ih =>
    rw [closeHeredoc_append hline, Option.or_eq_none_iff, Option.map_eq_none_iff,
      closingLine?_eq_none_iff hlabel, isClosingLine_append_iff hlabel hline,
      Text.cutAt_append_sep (by simp), huncut line hline, List.singleton_append,
      List.forall_mem_cons]
    exact and_congr_right fun _ => ih

/-- Where an end is found, the body stands in front of it. -/
theorem exists_body_of_closeHeredoc (hlabel : isIdentifier label = true) {cs : List Char} {n : Nat}
    (h : closeHeredoc label true cs = some n) :
    ∃ body after, cs = body ++ after ∧ HeredocBody label body after ∧ n = body.length := by
  obtain ⟨hstart, -⟩ := isIdentifier_iff.mp hlabel
  -- the line that closes is the last one of the body, whatever follows
  have hclose : ∀ {cs : List Char} {k : Nat}, closingLine? label cs = some k →
      ∃ body after, cs = body ++ after ∧ HeredocBody label body after ∧ k = body.length := by
    intro cs k hk
    obtain @⟨indent, behind, hindent, hbehind⟩ := (closingLine?_eq_some_iff hstart).mp hk
    exact ⟨indent ++ label, behind, (List.append_assoc ..).symm, .close hindent hbehind,
      List.length_append.symm⟩
  induction cs using line_induction generalizing n with
  | last line hline =>
    rw [closeHeredoc_of_not_mem hline] at h
    exact hclose h
  | line line rest hline ih =>
    rw [closeHeredoc_append hline, Option.or_eq_some_iff] at h
    rcases h with hk | ⟨hnone, hrest⟩
    · exact hclose hk
    · obtain ⟨m, hm, rfl⟩ := Option.map_eq_some_iff.mp hrest
      obtain ⟨body, after, rfl, hbody, rfl⟩ := ih hm
      rw [closingLine?_eq_none_iff hlabel, isClosingLine_append_iff hlabel hline] at hnone
      refine ⟨line ++ '\n' :: body, after, by simp, .line hline hnone hbody, ?_⟩
      rw [List.length_append, List.length_cons]
      omega

/-- The end of every body is found. -/
theorem HeredocBody.closeHeredoc_append (hlabel : isIdentifier label = true)
    {body after : List Char} (h : HeredocBody label body after) :
    closeHeredoc label true (body ++ after) = some body.length := by
  obtain ⟨hstart, -⟩ := isIdentifier_iff.mp hlabel
  induction h with
  | @close blanks after hblanks hafter =>
    have hline : closingLine? label (blanks ++ label ++ after) = some (blanks ++ label).length := by
      rw [List.append_assoc, List.length_append]
      exact (closingLine?_eq_some_iff hstart).mpr (.mk hblanks hafter)
    rw [closeHeredoc.eq_def, if_pos rfl, hline]
  | @line line body after hfeed hline h ih =>
    rw [List.append_assoc, List.cons_append, Token.closeHeredoc_append hfeed, ih,
      (closingLine?_eq_none_iff hlabel).mpr (mt (isClosingLine_append_iff hlabel hfeed _).mp hline)]
    simp only [Option.map_some, Option.none_or, List.length_append, List.length_cons]
    congr 1
    omega

end Lines

/-! ### Heredocs -/

/-- A line break in front of a text: a line feed with or without a carriage return, or a carriage
return alone. -/
inductive LineBreak : List Char → List Char → Prop where
  | feed {after : List Char} : LineBreak ['\n'] after
  | returnFeed {after : List Char} : LineBreak ['\r', '\n'] after
  | carriageReturn {after : List Char} (h : after.head? ≠ some '\n') : LineBreak ['\r'] after

/-- **The header of a heredoc** with this label, and the text behind it: three angle brackets,
blanks, the label, bare or in quotes of one sort, and a line break. -/
inductive IsHeader (label : List Char) : List Char → List Char → Prop where
  | mk {blanks newline after : List Char} {quote : Option Char}
      (hblanks : ∀ c ∈ blanks, Text.isIndent c = true) (hquote : ∀ q ∈ quote, q = '"' ∨ q = '\'')
      (hlabel : isIdentifier label = true) (hnewline : LineBreak newline after) :
      IsHeader label (['<', '<', '<'] ++ (blanks ++ (quote.toList ++ (label ++
        (quote.toList ++ newline))))) after

/-- **Heredocs,** and the text behind them: a header and a body with the same label. -/
inductive IsHeredoc : List Char → List Char → Prop where
  | mk {label header body after : List Char} (hheader : IsHeader label header (body ++ after))
      (hbody : HeredocBody label body after) : IsHeredoc (header ++ body) after

theorem lineBreakLength_append_of_lineBreak {newline after : List Char}
    (h : LineBreak newline after) : lineBreakLength (newline ++ after) = newline.length := by
  cases h with
  | feed => rfl
  | returnFeed => rfl
  | carriageReturn h =>
    cases after with
    | nil => rfl
    | cons c after =>
      have hc : c ≠ '\n' := by simpa using h
      simp [lineBreakLength, hc]

theorem exists_lineBreak {tail : List Char} (h : lineBreakLength tail ≠ 0) :
    ∃ newline after, tail = newline ++ after ∧ LineBreak newline after := by
  unfold lineBreakLength at h
  split at h
  · exact ⟨_, _, rfl, .returnFeed⟩
  · exact ⟨_, _, rfl, .feed⟩
  · next cs hfeed =>
    refine ⟨['\r'], cs, rfl, .carriageReturn fun hhead => ?_⟩
    obtain ⟨ds, rfl⟩ := List.head?_eq_some_iff.mp hhead
    exact hfeed _ rfl
  · exact absurd rfl h

section Heredocs

variable {label header body : List Char}

theorem IsHeader.isIdentifier (h : IsHeader label header body) : isIdentifier label = true := by
  obtain ⟨-, -, hlabel, -⟩ := h
  exact hlabel

/-- Every header is found behind its angle brackets. -/
theorem IsHeader.exists_heredocHeader? (h : IsHeader label header body) :
    ∃ front, header = '<' :: '<' :: '<' :: front ∧
      heredocHeader? (front ++ body) = some (label, front.length) := by
  obtain @⟨blanks, newline, body, quote, hblanks, hquote, hlabel, hnewline⟩ := h
  obtain ⟨hstart, hparts⟩ := isIdentifier_iff.mp hlabel
  have hlength := lineBreakLength_append_of_lineBreak hnewline
  have hbreak : lineBreakLength (newline ++ body) ≠ 0 := by
    rw [hlength]
    cases hnewline <;> decide
  refine ⟨blanks ++ (quote.toList ++ (label ++ (quote.toList ++ newline))), rfl, ?_⟩
  simp only [List.append_assoc]
  rw [(HeredocHeader.mk hblanks hquote hstart hparts hbreak).heredocHeader?_eq, hlength]
  simp only [List.length_append, Option.some.injEq, Prod.mk.injEq, true_and]
  omega

/-- A header makes a heredoc, which is closed or left open. -/
theorem IsHeader.exists_heredocPiece? (h : IsHeader label header body) :
    ∃ rest p, header ++ body = '<' :: '<' :: '<' :: rest ∧ heredocPiece? rest = some p ∧
      (∀ n, closeHeredoc label true body = some n →
        p.verdict = .token .heredocLiteral ∧ p.length = header.length + n) ∧
      (closeHeredoc label true body = none →
        p.verdict = .broken (.unterminatedHeredoc (String.ofList label)) ∧
          p.length = (header ++ body).length) := by
  obtain ⟨front, rfl, hfound⟩ := h.exists_heredocHeader?
  refine ⟨front ++ body, ?_⟩
  unfold heredocPiece?
  rw [hfound]
  dsimp only
  rw [List.drop_left]
  cases closeHeredoc label true body with
  | none =>
    refine ⟨_, rfl, rfl, nofun, fun _ => ⟨rfl, ?_⟩⟩
    simp only [List.cons_append, List.length_cons]
    omega
  | some n =>
    refine ⟨_, rfl, rfl, fun m hm => ⟨rfl, ?_⟩, nofun⟩
    simp only [← Option.some.inj hm, List.length_cons]
    omega

/-- What is found behind three angle brackets makes a header with them. -/
theorem exists_header_of_heredocHeader? {cs : List Char} {n : Nat}
    (h : heredocHeader? cs = some (label, n)) :
    ∃ header body, '<' :: '<' :: '<' :: cs = header ++ body ∧ IsHeader label header body ∧
      header.length = n + 3 ∧ cs.drop n = body := by
  obtain @⟨indent, label, tail, quote, hindent, hquote, hstart, hparts, hbreak⟩ :=
    heredocHeader?_spec h
  obtain ⟨newline, body, rfl, hnewline⟩ := exists_lineBreak hbreak
  have hlabel : Token.isIdentifier label = true := isIdentifier_iff.mpr ⟨hstart, hparts⟩
  have hlength := lineBreakLength_append_of_lineBreak hnewline
  refine ⟨_, body, ?_, .mk hindent hquote hlabel hnewline, ?_, ?_⟩
  · simp only [List.append_assoc, List.cons_append, List.nil_append]
  · simp only [List.length_append, List.length_cons, List.length_nil, hlength]
    omega
  · -- the text is the header without its angle brackets, and the body
    rw [hlength]
    simp only [← List.append_assoc]
    refine List.drop_left' ?_
    simp only [List.length_append]
    omega

end Heredocs

/-! ### Literals in code -/

/-- Whether it is said of a string or a heredoc, or of one that is left open. -/
def Verdict.isLiteral : Verdict → Bool
  | .token kind => kind == .stringLiteral || kind == .interpolatedString || kind == .heredocLiteral
  | .broken .unterminatedString | .broken (.unterminatedHeredoc _) => true
  | _ => false

/-- **Literals** at the head of a text, with what is said of them and with their length. A string
that is left open begins with a quote, but with no quoted text. A heredoc that is left open is a
header with lines behind it that do not close it. Both take all that is left of the text. -/
inductive LiteralAt : List Char → Verdict → Nat → Prop where
  | quoted {kind : Kind} {text : List Char} (after : List Char) (h : IsQuoted kind text) :
      LiteralAt (text ++ after) (.token kind) text.length
  | unterminatedString {quote : Char} {rest : List Char}
      (hquote : (stringKind? quote).isSome = true)
      (h : ∀ kind text, IsQuoted kind text → ¬ text <+: quote :: rest) :
      LiteralAt (quote :: rest) (.broken .unterminatedString) (quote :: rest).length
  | heredoc {text after : List Char} (h : IsHeredoc text after) :
      LiteralAt (text ++ after) (.token .heredocLiteral) text.length
  | unterminatedHeredoc {label header body : List Char} (hheader : IsHeader label header body)
      (h : ∀ line ∈ Text.cutAt (· == '\n') body, ¬ IsClosingLine label line) :
      LiteralAt (header ++ body) (.broken (.unterminatedHeredoc (String.ofList label)))
        (header ++ body).length

section Recognisers

variable {quote : Char} {kind : Kind} {rest : List Char}

theorem ne_slash_of_stringKind? (h : stringKind? quote = some kind) : quote ≠ '\\' := by
  rintro rfl
  exact absurd h (by simp [stringKind?])

/-- Quoted text that begins with a quote is of the kind of the quote, and is closed where the
recogniser says. -/
theorem IsQuoted.closeQuote_eq {kind' : Kind} {text after : List Char}
    (h : IsQuoted kind' text) (htext : quote :: rest = text ++ after) :
    stringKind? quote = some kind' ∧ closeQuote quote rest = some (text.length - 1) := by
  obtain ⟨q, body, hkind, hbody, rfl⟩ := h
  obtain ⟨rfl, rfl⟩ := List.cons.inj htext
  refine ⟨hkind, ?_⟩
  have hclose := hbody.closeQuote_append (ne_slash_of_stringKind? hkind) after
  simpa using hclose

theorem quotedPiece_of_some (kind : Kind) {n : Nat} (h : closeQuote quote rest = some n) :
    (quotedPiece quote kind rest).verdict = .token kind ∧
      (quotedPiece quote kind rest).length = n + 1 := by
  unfold quotedPiece
  rw [h]
  exact ⟨rfl, rfl⟩

theorem quotedPiece_of_none (kind : Kind) (h : closeQuote quote rest = none) :
    (quotedPiece quote kind rest).verdict = .broken .unterminatedString ∧
      (quotedPiece quote kind rest).length = rest.length + 1 := by
  unfold quotedPiece
  rw [h]
  exact ⟨rfl, rfl⟩

/-- What a quote opens is a literal. -/
theorem literalAt_quotedPiece (h : stringKind? quote = some kind) :
    LiteralAt (quote :: rest) (quotedPiece quote kind rest).verdict
      (quotedPiece quote kind rest).length := by
  cases hclose : closeQuote quote rest with
  | some n =>
    obtain ⟨hv, hlength⟩ := quotedPiece_of_some kind hclose
    obtain ⟨body, after, rfl, hbody, rfl⟩ := exists_escaped_of_closeQuote hclose
    have hquoted := LiteralAt.quoted after ⟨quote, body, h, hbody, rfl⟩
    rw [hv, hlength]
    simpa using hquoted
  | none =>
    obtain ⟨hv, hlength⟩ := quotedPiece_of_none kind hclose
    rw [hv, hlength]
    refine .unterminatedString (by rw [h]; rfl) ?_
    rintro kind' text htext ⟨after, hafter⟩
    obtain ⟨-, hsome⟩ := htext.closeQuote_eq hafter.symm
    exact absurd (hclose.symm.trans hsome) (by simp)

/-- A heredoc is a literal, together with its angle brackets. -/
theorem literalAt_heredocPiece? {p : Piece} (h : heredocPiece? rest = some p) :
    LiteralAt ('<' :: '<' :: '<' :: rest) p.verdict p.length := by
  unfold heredocPiece? at h
  split at h
  · exact absurd h (by simp)
  · next label n hfound =>
    obtain ⟨header, body, htext, hheader, hlength, hbody⟩ := exists_header_of_heredocHeader? hfound
    have hlabel := hheader.isIdentifier
    rw [hbody] at h
    rw [htext]
    split at h <;> obtain rfl := Option.some.inj h
    · next m hclose =>
      obtain ⟨body, after, rfl, hend, rfl⟩ := exists_body_of_closeHeredoc hlabel hclose
      have hheredoc := LiteralAt.heredoc (.mk hheader hend)
      rw [List.append_assoc, List.length_append, hlength, Nat.add_comm n] at hheredoc
      exact hheredoc
    · next hopen =>
      have hliteral := LiteralAt.unterminatedHeredoc hheader
        ((closeHeredoc_eq_none_iff hlabel).mp hopen)
      -- an unterminated heredoc goes up to the end of the text
      have hcount : (header ++ body).length = 3 + rest.length := by
        rw [← htext]
        simp only [List.length_cons]
        omega
      rwa [hcount] at hliteral

end Recognisers

section Code

variable {memberPosition atStart : Bool} {cs : List Char}

/-- **Soundness.** What the scanner of code takes for a literal is one. -/
theorem literalAt_of_codePiece? {p : Piece} (h : codePiece? memberPosition atStart cs = some p)
    (hv : p.verdict.isLiteral = true) : LiteralAt cs p.verdict p.length := by
  -- most pieces come to no such verdict
  have hnot : ∀ {v : Verdict}, p.verdict = v → v.isLiteral = false →
      LiteralAt cs p.verdict p.length := by
    intro v hpv hfalse
    rw [hpv, hfalse] at hv
    exact absurd hv (by decide)
  cases codePiece?_cases h with
  | quoted hquote => exact literalAt_quotedPiece hquote
  | heredoc hheredoc => exact literalAt_heredocPiece? hheredoc
  | byteOrderMark _ hp | space _ hp | closeTag hp | attributeOpen hp | variableName _ hp =>
    exact hnot (congrArg Piece.verdict hp) rfl
  | lineComment lead rest _ hverdict _ => exact hnot hverdict rfl
  | @blockComment rest =>
    rcases commentPiece_cases rest with hc | hc | hc <;> exact hnot hc rfl
  | number =>
    rcases numberPiece_cases cs with hc | hc | ⟨detail, hc⟩ <;> exact hnot hc rfl
  | @name c rest _ _ hp =>
    refine hnot (congrArg Piece.verdict hp) ?_
    have hall : ∀ entry ∈ Kind.reservedWords, (Verdict.token entry.2).isLiteral = false := by decide
    rcases nameKind_cases memberPosition ((c :: rest).take (nameLength rest + 1)) with
      hk | ⟨word, hmem⟩
    · rw [hk]
      rfl
    · exact hall _ hmem
  | @punctuation c rest =>
    have hall : ∀ entry ∈ punctuation, (Verdict.token entry.2).isLiteral = false := by decide
    rcases punctuationPiece_cases c rest with ⟨text, kind, hmem, hc⟩ | hc
    · exact hnot hc (hall _ hmem)
    · exact hnot hc rfl

theorem codePiece?_quote {quote : Char} {kind : Kind} {rest : List Char}
    (h : stringKind? quote = some kind) :
    codePiece? memberPosition atStart (quote :: rest) = some (quotedPiece quote kind rest) := by
  -- none of the tests in front of those for quotes holds of a quote
  unfold stringKind? at h
  split at h <;> simp_all [codePiece?, Text.isSpace]

theorem codePiece?_angles {rest : List Char} {p : Piece} (h : heredocPiece? rest = some p) :
    codePiece? memberPosition atStart ('<' :: '<' :: '<' :: rest) = some p := by
  simp [codePiece?, Text.isSpace, List.isPrefixOf, h]

/-- **Completeness.** Every literal is taken for what it is. -/
theorem LiteralAt.exists_codePiece? {v : Verdict} {n : Nat} (h : LiteralAt cs v n)
    (memberPosition atStart : Bool) :
    ∃ p, codePiece? memberPosition atStart cs = some p ∧ p.verdict = v ∧ p.length = n := by
  cases h with
  | @quoted kind text after h =>
    obtain ⟨quote, body, hkind, -, rfl⟩ := id h
    have htext : quote :: (body ++ [quote] ++ after) = quote :: (body ++ [quote]) ++ after := rfl
    obtain ⟨-, hclose⟩ := h.closeQuote_eq htext
    exact ⟨_, codePiece?_quote hkind, quotedPiece_of_some kind hclose⟩
  | @unterminatedString quote rest hquote h =>
    obtain ⟨kind, hkind⟩ := Option.isSome_iff_exists.mp hquote
    -- a quote that closes would make a string of what is in front of it
    have hopen : closeQuote quote rest = none := by
      by_contra hsome
      obtain ⟨n, hn⟩ := Option.ne_none_iff_exists'.mp hsome
      obtain ⟨body, after, rfl, hbody, -⟩ := exists_escaped_of_closeQuote hn
      exact h kind _ ⟨quote, body, hkind, hbody, rfl⟩ ⟨after, by simp⟩
    exact ⟨_, codePiece?_quote hkind, quotedPiece_of_none kind hopen⟩
  | heredoc h =>
    obtain ⟨hheader, hbody⟩ := h
    obtain ⟨rest, p, htext, hp, hclosed, -⟩ := hheader.exists_heredocPiece?
    obtain ⟨hv, hlength⟩ := hclosed _ (hbody.closeHeredoc_append hheader.isIdentifier)
    rw [List.append_assoc, htext, List.length_append]
    exact ⟨p, codePiece?_angles hp, hv, hlength⟩
  | unterminatedHeredoc hheader h =>
    obtain ⟨rest, p, htext, hp, -, hopen⟩ := hheader.exists_heredocPiece?
    obtain ⟨hv, hlength⟩ := hopen ((closeHeredoc_eq_none_iff hheader.isIdentifier).mpr h)
    rw [htext] at hlength ⊢
    exact ⟨p, codePiece?_angles hp, hv, hlength⟩

/-- No text has two literals at its head. So the end of a literal is the only one it can have. -/
theorem LiteralAt.unique {v w : Verdict} {m n : Nat} (h : LiteralAt cs v m)
    (h' : LiteralAt cs w n) : v = w ∧ m = n := by
  -- the recogniser is a function of the text
  obtain ⟨p, hp, rfl, rfl⟩ := h.exists_codePiece? false false
  obtain ⟨q, hq, rfl, rfl⟩ := h'.exists_codePiece? false false
  obtain rfl := Option.some.inj (hp.symm.trans hq)
  exact ⟨rfl, rfl⟩

/-- A literal begins with a quote or with three angle brackets. -/
theorem LiteralAt.begins {v : Verdict} {n : Nat} (h : LiteralAt cs v n) :
    ∃ c rest, cs = c :: rest ∧ ((stringKind? c).isSome = true ∨ rest.head? = some '<') := by
  have hheader : ∀ {label header body : List Char}, IsHeader label header body →
      ∃ front, header = '<' :: '<' :: '<' :: front := fun h =>
    h.exists_heredocHeader?.imp fun _ h => h.1
  cases h with
  | quoted after h =>
    obtain ⟨quote, body, hkind, -, rfl⟩ := h
    exact ⟨quote, _, rfl, .inl (by rw [hkind]; rfl)⟩
  | unterminatedString hquote h => exact ⟨_, _, rfl, .inl hquote⟩
  | heredoc h =>
    obtain ⟨h, -⟩ := h
    obtain ⟨front, rfl⟩ := hheader h
    exact ⟨'<', _, rfl, .inr rfl⟩
  | unterminatedHeredoc h _ =>
    obtain ⟨front, rfl⟩ := hheader h
    exact ⟨'<', _, rfl, .inr rfl⟩

/-- No open tag begins as a literal does. -/
theorem LiteralAt.openTag?_eq_none {v : Verdict} {n : Nat} (h : LiteralAt cs v n) :
    openTag? cs = none := by
  obtain ⟨c, rest, rfl, hbegins⟩ := h.begins
  refine Token.openTag?_eq_none fun t heq => ?_
  obtain ⟨rfl, rfl⟩ := List.cons.inj heq
  rcases hbegins with hquote | hangle
  · exact absurd hquote (by decide)
  · exact absurd hangle (by simp)

end Code

end Introspect.Token
