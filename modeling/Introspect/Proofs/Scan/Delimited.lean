import Introspect.Proofs.Scan.Literals

/-!
# Literals end where they can

The strings and heredocs of a source are those texts in it that are literals and begin where a token
of code begins; and each of them has only one place where it can end. Where none can end, the source
has an error in place of a token. `LiteralsDelimited` says this of the tokens and errors of a
source, in terms of the source alone.

* `Scanner.mem_errors_run_iff`: of the errors that are not about braces a run finds those of the
  pieces that are refused on the way (`Scanner.Refuses`), and no others;
* `Scanner.exists_token_iff_literalAt` and `Scanner.exists_error_iff_literalAt` lead from tokens and
  errors to the literals at the head of what is left of the source, and back;
* `Scanner.literals_delimited` reads the six statements off the cases of `LiteralAt`.
-/

namespace Introspect.Token

/-- A token begins at the offset, and it is not text that is passed through. -/
def BeginsAt (ts : List Token) (o : Nat) : Prop :=
  ∃ t ∈ ts, t.kind ≠ .inlineHtml ∧ t.span.offset = o

/-- **Delimited literals.** In all of it, offsets are those at which tokens of code begin. -/
structure LiteralsDelimited (source : List Char) (ts : List Token) (errors : List LexicalError) :
    Prop where
  /-- The strings are the quoted texts, -/
  quoted_iff : ∀ kind ∈ [Kind.stringLiteral, Kind.interpolatedString], ∀ text o,
    (∃ t ∈ ts, t.kind = kind ∧ t.lexeme.toList = text ∧ t.span.offset = o) ↔
      BeginsAt ts o ∧ ∃ after, Text.dropBytes o source = some (text ++ after) ∧ IsQuoted kind text
  /-- and there is only one of these, so that none ends before. -/
  quoted_unique : ∀ t ∈ ts, t.kind ∈ [Kind.stringLiteral, Kind.interpolatedString] →
    ∀ kind text after, Text.dropBytes t.span.offset source = some (text ++ after) →
      IsQuoted kind text → t.lexeme.toList = text
  /-- A quote opens a string that is not terminated if no quoted text begins with it. -/
  unterminatedString_iff : ∀ o,
    (∃ e ∈ errors, e.fault = .unterminatedString ∧ e.span.offset = o) ↔
      BeginsAt ts o ∧ ∃ quote rest, Text.dropBytes o source = some (quote :: rest) ∧
        (stringKind? quote).isSome = true ∧
        ∀ kind text, IsQuoted kind text → ¬ text <+: quote :: rest
  /-- Heredoc literals are the heredocs, -/
  heredoc_iff : ∀ text o,
    (∃ t ∈ ts, t.kind = .heredocLiteral ∧ t.lexeme.toList = text ∧ t.span.offset = o) ↔
      BeginsAt ts o ∧ ∃ after, Text.dropBytes o source = some (text ++ after) ∧ IsHeredoc text after
  /-- of which there is only one as well. -/
  heredoc_unique : ∀ t ∈ ts, t.kind = .heredocLiteral → ∀ text after,
    Text.dropBytes t.span.offset source = some (text ++ after) → IsHeredoc text after →
      t.lexeme.toList = text
  /-- A header opens a heredoc that is not terminated if no line behind it is a closing line. -/
  unterminatedHeredoc_iff : ∀ label o,
    (∃ e ∈ errors, e.fault = .unterminatedHeredoc (String.ofList label) ∧ e.span.offset = o) ↔
      BeginsAt ts o ∧ ∃ header body, Text.dropBytes o source = some (header ++ body) ∧
        IsHeader label header body ∧
        ∀ line ∈ Text.cutAt (· == '\n') body, ¬ IsClosingLine label line

namespace Scanner

variable {s s' : Scanner} {t : Token} {ts : List Token} {e : LexicalError}

/-! ### Errors on the way -/

/-- **Refusing.** The piece in front of the scanner is broken, and this is the error. -/
def Refuses (s : Scanner) (e : LexicalError) : Prop :=
  ∃ p, s.piece? = some p ∧ p.verdict = .broken e.fault ∧
    e.span = (s.reject e.fault p.length).1.span

theorem mem_errors_enter_iff {kind : Kind} {span : Span} (hfault : e.fault.isScope = false) :
    e ∈ (s.enter kind span).errors ↔ e ∈ s.errors := by
  unfold Scanner.enter
  split <;> try rfl
  split
  · -- a closing brace reports a fault about braces
    have hne : e ≠ ⟨.unbalancedScope, span⟩ := by
      rintro rfl
      exact absurd hfault (by simp [LexicalFault.isScope])
    simp [report, hne]
  · rfl

/-- Of the errors that are not about braces, a token adds the one that its piece is refused for. -/
theorem Emits.mem_errors_iff (h : Emits s t s') (hfault : e.fault.isScope = false) :
    e ∈ s'.errors ↔ e ∈ s.errors ∨ Refuses s e := by
  cases h with
  | finish hr =>
    have hnot : ¬ Refuses s e := fun ⟨p, hp, _⟩ => rest_ne_nil_of_piece? hp hr
    rw [or_iff_left hnot]
    -- the one error of the end is that of an open scope
    have hne : e ≠ ⟨.unclosedScope s.depth, Span.point s.pos⟩ := by
      rintro rfl
      exact absurd hfault (by simp [LexicalFault.isScope])
    simp only [Scanner.finish, errors_remember]
    split_ifs
    · rfl
    · simp [report, hne]
  | @token p kind hp hv =>
    have hnot : ¬ Refuses s e := by
      rintro ⟨q, hq, hbroken, -⟩
      obtain rfl := Option.some.inj (hp.symm.trans hq)
      exact absurd (hv.symm.trans hbroken) (by simp)
    rw [or_iff_left hnot]
    simp only [Scanner.take, errors_remember, mem_errors_enter_iff hfault]
    rfl
  | @broken p fault hp hv =>
    -- there is one piece in front, so it is the one that is refused
    have hrefuses : Refuses s e ↔ e = ⟨fault, (s.reject fault p.length).1.span⟩ := by
      constructor
      · rintro ⟨q, hq, hbroken, hspan⟩
        obtain rfl := Option.some.inj (hp.symm.trans hq)
        obtain rfl := Verdict.broken.inj (hv.symm.trans hbroken)
        exact congrArg (LexicalError.mk e.fault) hspan
      · rintro rfl
        exact ⟨p, hp, hv, rfl⟩
    rw [hrefuses]
    simp [Scanner.reject, report, Scanner.skip]

theorem exists_passes_mem_errors_iff (s : Scanner) (hfault : e.fault.isScope = false) :
    ∃ s', Passes s s' ∧ Emits s' s.next.1 s.next.2 ∧
      (e ∈ s.next.2.errors ↔ e ∈ s.errors ∨ Refuses s' e) := by
  obtain ⟨s', hpass, hemit⟩ := s.next_spec
  refine ⟨s', hpass, hemit, ?_⟩
  rw [hemit.mem_errors_iff hfault]
  -- what is passed over reports nothing
  obtain ⟨n, rfl⟩ := hpass.exists_skip
  rfl

/-- An error that has been found remains. -/
theorem mem_errors_run (h : e ∈ s.errors) (hfault : e.fault.isScope = false) :
    e ∈ s.run.2.errors := by
  induction s using stream_induction with
  | last s hk =>
    obtain ⟨s', -, -, hiff⟩ := s.exists_passes_mem_errors_iff hfault
    rw [run_of_endOfText hk]
    exact hiff.mpr (.inl h)
  | step s hk ih =>
    obtain ⟨s', -, -, hiff⟩ := s.exists_passes_mem_errors_iff hfault
    rw [run_of_ne hk]
    exact ih (hiff.mpr (.inl h))

/-- A way leads to the errors of the whole run. -/
theorem Crosses.run_snd_eq (h : Crosses s ts s') : s.run.2 = s'.run.2 := by
  induction h with
  | refl s => rfl
  | pass hp hv h ih =>
    -- in front of trivia and behind it the next request gives the same
    rw [← ih]
    refine congrArg Prod.snd (run_congr ?_)
    rw [next_of_some hp, hv]
  | token hp hv h ih =>
    have hproper := piece?_proper hp
    have hnext := (Emits.token hp hv).next_eq
    rw [hv] at hproper
    rw [run_of_ne (by rw [hnext]; exact hproper.1), hnext, ih]
  | broken hp hv h ih =>
    have hnext := (Emits.broken hp hv).next_eq
    rw [run_of_ne (by rw [hnext]; exact Kind.noConfusion), hnext, ih]

/-- **The errors of a run** that are not about braces are those of the pieces that are refused on
the way. -/
theorem mem_errors_run_iff (hfault : e.fault.isScope = false) :
    e ∈ s.run.2.errors ↔ e ∈ s.errors ∨ ∃ ts s', Crosses s ts s' ∧ Refuses s' e := by
  constructor
  · -- an error of the run is found by the next request or by the ones behind it
    intro h
    induction s using stream_induction with
    | last s hk =>
      obtain ⟨s', hpass, -, hiff⟩ := s.exists_passes_mem_errors_iff hfault
      rw [run_of_endOfText hk] at h
      exact (hiff.mp h).imp_right fun hrefuses => ⟨[], s', hpass.crosses, hrefuses⟩
    | step s hk ih =>
      obtain ⟨s', hpass, hemit, hiff⟩ := s.exists_passes_mem_errors_iff hfault
      rw [run_of_ne hk] at h
      rcases ih h with hbehind | ⟨ts, s'', hcross, hrefuses⟩
      · exact (hiff.mp hbehind).imp_right fun hrefuses => ⟨[], s', hpass.crosses, hrefuses⟩
      · -- the way to the refused piece leads across the next token
        have hnext := hpass.crosses.trans (hemit.crosses hk)
        exact .inr ⟨_, s'', hnext.trans hcross, hrefuses⟩
  · rintro (h | ⟨ts, s', hcross, hrefuses⟩)
    · exact mem_errors_run h hfault
    · -- once it is found on the way, it remains
      obtain ⟨p, hp, hv, -⟩ := id hrefuses
      have hemit := Emits.broken hp hv
      rw [hcross.run_snd_eq, (Crosses.broken hp hv (.refl _)).run_snd_eq]
      exact mem_errors_run ((hemit.mem_errors_iff hfault).mpr (.inr hrefuses)) hfault

/-! ### From the source to its literals -/

/-- What is said of a literal is said in code, of a literal in front of the scanner. -/
theorem literalAt_of_piece? {p : Piece} (hp : s.piece? = some p)
    (hv : p.verdict.isLiteral = true) : LiteralAt s.rest p.verdict p.length := by
  cases hm : s.mode with
  | html =>
    rw [piece?_of_html hm] at hp
    rcases htmlPiece?_cases hp with hinline | ⟨kind, n, htag, hkind⟩
    · rw [hinline] at hv
      exact absurd hv (by decide)
    · rw [hkind] at hv
      rcases openTag?_kind htag with rfl | rfl <;> exact absurd hv (by decide)
  | code =>
    rw [piece?_of_code hm] at hp
    exact literalAt_of_codePiece? hp hv

/-- A literal in front of a token that is not passed through is the piece there. -/
theorem Emits.exists_piece? {v : Verdict} {n : Nat} (hemit : Emits s t s')
    (ht : t.kind ≠ .inlineHtml) (h : LiteralAt s.rest v n) :
    ∃ p, s.piece? = some p ∧ p.verdict = v ∧ p.length = n := by
  cases hm : s.mode with
  | code =>
    rw [piece?_of_code hm]
    exact h.exists_codePiece? _ _
  | html =>
    -- no tag begins here, so the text would be passed through
    have htoken : ∀ {p : Piece}, s.piece? = some p → p.verdict = .token .inlineHtml := by
      intro p hp
      rw [piece?_of_html hm] at hp
      refine (htmlPiece?_cases hp).resolve_right ?_
      rintro ⟨kind, n, htag, -⟩
      exact absurd (h.openTag?_eq_none.symm.trans htag) (by simp)
    cases hemit with
    | finish hr =>
      obtain ⟨c, rest, hrest, -⟩ := h.begins
      exact absurd (hr.symm.trans hrest) (by simp)
    | token hp hv => exact absurd (Verdict.token.inj (hv.symm.trans (htoken hp))) ht
    | broken hp hv => exact absurd (hv.symm.trans (htoken hp)) (by simp)

variable {entry : Mode} {source : String} {o n : Nat}

/-- What is emitted on the way begins where the scanner stands. -/
theorem Crosses.dropBytes_offset (hcross : Crosses (start entry source) ts s)
    (hemit : Emits s t s') : Text.dropBytes t.span.offset source.toList = some s.rest := by
  obtain ⟨before, hs⟩ := (stands_start entry source).crosses hcross
  obtain ⟨text, -, hcovers, -⟩ := hs.emits hemit
  rw [hcovers.offset_eq, hs.source_eq]
  exact Text.dropBytes_byteLength before s.rest

theorem exists_crosses_of_mem (ht : t ∈ (start entry source).tokens) :
    ∃ ts s s', Crosses (start entry source) ts s ∧ Emits s t s' ∧
      Text.dropBytes t.span.offset source.toList = some s.rest := by
  obtain ⟨ts, ts', htokens⟩ := List.append_of_mem ht
  obtain ⟨s, s', hcross, hemit, -⟩ := exists_crosses_emits htokens
  exact ⟨ts, s, s', hcross, hemit, hcross.dropBytes_offset hemit⟩

theorem Crosses.mem_tokens {s₁ s₂ : Scanner} (hcross : Crosses s ts s₁) (hemit : Emits s₁ t s₂) :
    t ∈ s.tokens := by
  have hnext := hemit.next_eq
  rw [hcross.tokens_eq]
  refine List.mem_append_right _ ?_
  by_cases hk : s₁.next.1.kind = .endOfText
  · rw [tokens_of_endOfText hk, hnext]
    exact List.mem_singleton_self _
  · rw [tokens_of_ne hk, hnext]
    exact List.mem_cons_self

/-- **The literals among the tokens** of a source are those that stand in it where a token begins
that is not passed through. -/
theorem exists_token_iff_literalAt {kind : Kind} (hkind : (Verdict.token kind).isLiteral = true)
    (text : List Char) :
    (∃ t ∈ (start entry source).tokens, t.kind = kind ∧ t.lexeme.toList = text ∧
        t.span.offset = o) ↔
      BeginsAt (start entry source).tokens o ∧ ∃ cs n, Text.dropBytes o source.toList = some cs ∧
        LiteralAt cs (.token kind) n ∧ text = cs.take n := by
  constructor
  · rintro ⟨t, ht, rfl, rfl, rfl⟩
    obtain ⟨ts, s, s', hcross, hemit, hrest⟩ := exists_crosses_of_mem ht
    refine ⟨⟨t, ht, ?_, rfl⟩, s.rest, ?_⟩
    · intro hinline
      rw [hinline] at hkind
      exact absurd hkind (by decide)
    cases hemit with
    | finish hr => exact absurd hkind (by simp [Scanner.finish, Verdict.isLiteral])
    | broken hp hv => exact absurd hkind (by simp [Scanner.reject, Verdict.isLiteral])
    | @token p kind hp hv =>
      have hliteral := literalAt_of_piece? hp (hv ▸ hkind)
      rw [hv] at hliteral
      exact ⟨p.length, hrest, hliteral, by simp [Scanner.take]⟩
  · rintro ⟨⟨t, ht, hinline, rfl⟩, cs, n, hcs, hliteral, rfl⟩
    obtain ⟨ts, s, s', hcross, hemit, hrest⟩ := exists_crosses_of_mem ht
    obtain rfl := Option.some.inj (hrest.symm.trans hcs)
    obtain ⟨p, hp, hv, rfl⟩ := hemit.exists_piece? hinline hliteral
    -- the token that begins here is the one that is taken for the piece
    have htake := (Emits.token hp hv).next_eq
    obtain rfl : t = (s.take kind p.length).1 :=
      congrArg Prod.fst (hemit.next_eq.symm.trans htake)
    exact ⟨_, ht, rfl, by simp [Scanner.take], rfl⟩

/-- **The literals that are left open** are reported where they stand in the source and a token
begins that is not passed through. -/
theorem exists_error_iff_literalAt {fault : LexicalFault}
    (hfault : (Verdict.broken fault).isLiteral = true) :
    (∃ e ∈ (start entry source).run.2.errors, e.fault = fault ∧ e.span.offset = o) ↔
      BeginsAt (start entry source).tokens o ∧ ∃ cs n, Text.dropBytes o source.toList = some cs ∧
        LiteralAt cs (.broken fault) n := by
  have hscope : fault.isScope = false := by
    cases fault <;> first | rfl | exact absurd hfault (by simp [Verdict.isLiteral])
  constructor
  · rintro ⟨e, he, rfl, rfl⟩
    obtain ⟨ts, s, hcross, p, hp, hv, hspan⟩ :=
      ((mem_errors_run_iff hscope).mp he).resolve_left List.not_mem_nil
    have hemit := Emits.broken hp hv
    have hliteral := literalAt_of_piece? hp (hv ▸ hfault)
    rw [hv] at hliteral
    rw [hspan]
    exact ⟨⟨_, hcross.mem_tokens hemit, Kind.noConfusion, rfl⟩, s.rest, p.length,
      hcross.dropBytes_offset hemit, hliteral⟩
  · rintro ⟨⟨t, ht, hinline, rfl⟩, cs, n, hcs, hliteral⟩
    obtain ⟨ts, s, s', hcross, hemit, hrest⟩ := exists_crosses_of_mem ht
    obtain rfl := Option.some.inj (hrest.symm.trans hcs)
    obtain ⟨p, hp, hv, rfl⟩ := hemit.exists_piece? hinline hliteral
    -- the token that begins here stands for the text that is refused
    have hreject := (Emits.broken hp hv).next_eq
    obtain rfl : t = (s.reject fault p.length).1 :=
      congrArg Prod.fst (hemit.next_eq.symm.trans hreject)
    refine ⟨⟨fault, (s.reject fault p.length).1.span⟩, ?_, rfl, rfl⟩
    exact (mem_errors_run_iff hscope).mpr (.inr ⟨ts, s, hcross, p, hp, hv, rfl⟩)

theorem lexeme_eq_of_literalAt {kind kind' : Kind} (hkind : (Verdict.token kind).isLiteral = true)
    (ht : t ∈ (start entry source).tokens) (htkind : t.kind = kind) {text after : List Char}
    (hcs : Text.dropBytes t.span.offset source.toList = some (text ++ after))
    (h : LiteralAt (text ++ after) (.token kind') text.length) : t.lexeme.toList = text := by
  obtain ⟨-, cs, n, hcs', h', hlexeme⟩ :=
    (exists_token_iff_literalAt hkind t.lexeme.toList).mp ⟨t, ht, htkind, rfl, rfl⟩
  obtain rfl := Option.some.inj (hcs.symm.trans hcs')
  obtain ⟨-, rfl⟩ := h.unique h'
  rw [hlexeme, List.take_left]

/-- **Literals end at the first place where they can end.** Of every source, in both modes, the
strings and heredocs among the tokens are those that stand in the source where tokens of code begin,
and those that are left open are reported. -/
theorem literals_delimited (entry : Mode) (source : String) :
    LiteralsDelimited source.toList (start entry source).tokens
      (start entry source).run.2.errors := by
  have hstring : ∀ kind ∈ [Kind.stringLiteral, Kind.interpolatedString],
      (Verdict.token kind).isLiteral = true ∧ kind ≠ .heredocLiteral := by decide
  constructor
  case quoted_iff =>
    intro kind hkind text o
    obtain ⟨hliteral, hne⟩ := hstring kind hkind
    rw [exists_token_iff_literalAt hliteral]
    refine and_congr_right fun _ => ⟨?_, ?_⟩
    · rintro ⟨cs, n, hcs, hat, rfl⟩
      cases hat with
      | quoted after h => exact ⟨after, by rw [List.take_left, hcs], by rwa [List.take_left]⟩
      | heredoc h => exact absurd rfl hne
    · rintro ⟨after, hcs, h⟩
      exact ⟨_, _, hcs, .quoted after h, List.take_left.symm⟩
  case quoted_unique =>
    intro t ht hkind kind text after hcs h
    exact lexeme_eq_of_literalAt (hstring _ hkind).1 ht rfl hcs (.quoted after h)
  case unterminatedString_iff =>
    intro o
    rw [exists_error_iff_literalAt rfl]
    refine and_congr_right fun _ => ⟨?_, ?_⟩
    · rintro ⟨cs, n, hcs, hat⟩
      cases hat with
      | unterminatedString hquote h => exact ⟨_, _, hcs, hquote, h⟩
    · rintro ⟨quote, rest, hcs, hquote, h⟩
      exact ⟨_, _, hcs, .unterminatedString hquote h⟩
  case heredoc_iff =>
    intro text o
    rw [exists_token_iff_literalAt rfl]
    refine and_congr_right fun _ => ⟨?_, ?_⟩
    · rintro ⟨cs, n, hcs, hat, rfl⟩
      cases hat with
      | quoted after h => exact absurd rfl (hstring _ h.kind_mem).2
      | heredoc h => exact ⟨_, by rw [List.take_left, hcs], by rwa [List.take_left]⟩
    · rintro ⟨after, hcs, h⟩
      exact ⟨_, _, hcs, .heredoc h, List.take_left.symm⟩
  case heredoc_unique =>
    intro t ht hkind text after hcs h
    exact lexeme_eq_of_literalAt rfl ht hkind hcs (.heredoc h)
  case unterminatedHeredoc_iff =>
    intro label o
    rw [exists_error_iff_literalAt rfl]
    refine and_congr_right fun _ => ⟨?_, ?_⟩
    · rintro ⟨cs, n, hcs, hat⟩
      -- the fault has the label as a string, so it is not the index of a case as it stands
      generalize hv : Verdict.broken (.unterminatedHeredoc (String.ofList label)) = v at hat
      cases hat with
      | quoted | unterminatedString | heredoc => cases hv
      | unterminatedHeredoc hheader h =>
        injection hv with hv
        injection hv with hlabel
        obtain rfl := String.ofList_injective hlabel
        exact ⟨_, _, hcs, hheader, h⟩
    · rintro ⟨header, body, hcs, hheader, h⟩
      exact ⟨_, _, hcs, .unterminatedHeredoc hheader h⟩

example : (ofCode "<<<A\n A1\n\tA; '\\'").tokens.map (·.lexeme) = ["<<<A\n A1\n\tA", ";", "", ""] ∧
    (ofCode "<<<A\n A1\n\tA; '\\'").run.2.errors.map (·.fault) = [.unterminatedString] := by
  decide +kernel

end Scanner

end Introspect.Token
