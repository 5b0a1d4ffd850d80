import Introspect.Proofs.Scan.Pieces
import Introspect.Token.Scanner

/-!
# The token stream

A scanner is asked for one token after the other. This file says once what a single request can do,
and what the sequence of all requests looks like; the statements about tiling, positions, scopes and
passed-through text are read off it.

* `Scanner.next_spec`: a request **passes over trivia** (`Scanner.Passes`) and then **emits**
  (`Scanner.Emits`) the end of the text, a token or invalid input, and does nothing else;
* `Scanner.piece?_proper`: the piece in front of a scanner is never the end of the text, never
  invalid input, and never a fault that is about braces. These three arise in one place each,
  `Scanner.finish`, `Scanner.reject` and `Scanner.enter`;
* `Scanner.behind` and `Scanner.tokenAt` are the scanner behind `n` requests and the token that the
  next one gives, and `Scanner.run_eq` says that `Scanner.run` collects these tokens up to the first
  end of the text, and that there is one;
* `Scanner.Settled` is a scanner that has seen the end. It gives the same token for ever and changes
  nothing that can be observed.
-/

namespace Introspect

/-- Whether the fault is about braces, and not about the text of a single token. -/
def LexicalFault.isScope : LexicalFault → Bool
  | .unbalancedScope | .unclosedScope _ => true
  | _ => false

namespace Token

/-! ### What a piece can be -/

/-- The kinds that pieces of a text have, but for the close tag. -/
def Kind.isPlain : Kind → Bool
  | .endOfText | .invalid | .closeTag => false
  | _ => true

/-- A verdict that leaves the end of the text, invalid input and scopes to the scanner. -/
def Verdict.Proper : Verdict → Prop
  | .trivia => True
  | .token kind => kind ≠ .endOfText ∧ kind ≠ .invalid
  | .broken fault => fault.isScope = false

/-- A proper verdict about something else than a close tag. -/
def Verdict.Plain : Verdict → Prop
  | .trivia => True
  | .token kind => kind.isPlain = true
  | .broken fault => fault.isScope = false

/-- A plain verdict about text that is not passed over. -/
def Verdict.Emitted (v : Verdict) : Prop := v ≠ .trivia ∧ v.Plain

theorem Verdict.emitted_token {kind : Kind} (h : kind.isPlain = true) :
    (Verdict.token kind).Emitted :=
  ⟨by simp, h⟩

theorem Verdict.emitted_broken {fault : LexicalFault} (h : fault.isScope = false) :
    (Verdict.broken fault).Emitted :=
  ⟨by simp, h⟩

theorem Verdict.Plain.proper {v : Verdict} (h : v.Plain) : v.Proper := by
  cases v with
  | trivia => trivial
  | broken fault => exact h
  | token kind =>
    -- `isPlain` is false for both of the kinds that are excluded
    have hplain : kind.isPlain = true := h
    constructor
    · rintro rfl
      exact absurd hplain (by decide)
    · rintro rfl
      exact absurd hplain (by decide)

theorem isPlain_nameKind (memberPosition : Bool) (text : List Char) :
    (nameKind memberPosition text).isPlain = true := by
  -- the table of reserved words is finite, so all of it is looked through
  have hall : ∀ entry ∈ Kind.reservedWords, entry.2.isPlain = true := by decide
  rcases nameKind_cases memberPosition text with h | ⟨word, hmem⟩
  · rw [h]
    rfl
  · exact hall _ hmem

theorem quotedPiece_emitted (quote : Char) {kind : Kind} (rest : List Char)
    (hkind : kind.isPlain = true) : (quotedPiece quote kind rest).verdict.Emitted := by
  rcases quotedPiece_cases quote kind rest with h | h <;> rw [h]
  · exact Verdict.emitted_token hkind
  · exact Verdict.emitted_broken rfl

theorem commentPiece_plain (rest : List Char) : (commentPiece rest).verdict.Plain := by
  rcases commentPiece_cases rest with h | h | h <;> rw [h]
  · trivial
  · rfl
  · rfl

theorem heredocPiece?_emitted {rest : List Char} {p : Piece} (h : heredocPiece? rest = some p) :
    p.verdict.Emitted := by
  rcases heredocPiece?_cases h with hv | ⟨label, hv⟩ <;> rw [hv]
  · exact Verdict.emitted_token rfl
  · exact Verdict.emitted_broken rfl

theorem numberPiece_emitted (cs : List Char) : (numberPiece cs).verdict.Emitted := by
  rcases numberPiece_cases cs with h | h | ⟨detail, h⟩ <;> rw [h]
  · exact Verdict.emitted_token rfl
  · exact Verdict.emitted_token rfl
  · exact Verdict.emitted_broken rfl

theorem punctuationPiece_emitted (c : Char) (cs : List Char) :
    (punctuationPiece c cs).verdict.Emitted := by
  have hall : ∀ entry ∈ punctuation, entry.2.isPlain = true := by decide
  rcases punctuationPiece_cases c cs with ⟨text, kind, hmem, h⟩ | h <;> rw [h]
  · exact Verdict.emitted_token (hall _ hmem)
  · exact Verdict.emitted_broken rfl

/-- Text outside of code has no trivia. -/
theorem htmlPiece?_emitted {cs : List Char} {p : Piece} (h : htmlPiece? cs = some p) :
    p.verdict.Emitted := by
  rcases htmlPiece?_cases h with hv | ⟨kind, n, htag, hv⟩ <;> rw [hv]
  · exact Verdict.emitted_token rfl
  · refine Verdict.emitted_token ?_
    rcases openTag?_kind htag with rfl | rfl <;> rfl

/-- A plain piece, or the close tag at the head of `cs` with the line break behind it. -/
def Piece.PlainOrClose (cs : List Char) (p : Piece) : Prop :=
  p.verdict.Plain ∨ ∃ rest, cs = '?' :: '>' :: rest ∧ p.verdict = .token .closeTag ∧
    p.length = 2 + lineBreakLength rest

theorem codePiece?_plainOrClose {memberPosition atStart : Bool} {cs : List Char} {p : Piece}
    (h : codePiece? memberPosition atStart cs = some p) : p.PlainOrClose cs := by
  cases codePiece?_cases h with
  | byteOrderMark _ hp | space _ hp => exact .inl (hp ▸ trivial)
  | @closeTag rest _ hp => exact .inr ⟨rest, rfl, hp ▸ rfl, hp ▸ rfl⟩
  | attributeOpen hp | variableName _ hp => exact .inl (hp ▸ rfl)
  | lineComment lead rest _ hverdict => exact .inl (hverdict ▸ trivial)
  | blockComment => exact .inl (commentPiece_plain _)
  | @quoted quote kind rest hquote =>
    refine .inl (quotedPiece_emitted _ _ ?_).2
    unfold stringKind? at hquote
    split at hquote <;> cases hquote <;> rfl
  | heredoc hheredoc => exact .inl (heredocPiece?_emitted hheredoc).2
  | number => exact .inl (numberPiece_emitted _).2
  | name _ hp => exact .inl (hp ▸ isPlain_nameKind _ _)
  | punctuation => exact .inl (punctuationPiece_emitted _ _).2

namespace Scanner

variable {s s' : Scanner}

theorem piece?_of_html (hm : s.mode = .html) : s.piece? = htmlPiece? s.rest := by
  unfold piece?
  rw [hm]

theorem piece?_of_code (hm : s.mode = .code) :
    s.piece? = codePiece? s.atMemberName (s.pos.offset == 0) s.rest := by
  unfold piece?
  rw [hm]

/-- **Pieces are proper.** The end of the text, invalid input and faults about braces are none of
the pieces of a text. -/
theorem piece?_proper {p : Piece} (h : s.piece? = some p) : p.verdict.Proper := by
  cases hm : s.mode with
  | html =>
    rw [piece?_of_html hm] at h
    exact (htmlPiece?_emitted h).2.proper
  | code =>
    rw [piece?_of_code hm] at h
    rcases codePiece?_plainOrClose h with hplain | ⟨rest, -, hv, -⟩
    · exact hplain.proper
    · -- a close tag is not plain, but it is proper
      rw [hv]
      exact ⟨by decide, by decide⟩

theorem piece?_eq_none_iff : s.piece? = none ↔ s.rest = [] := by
  unfold piece?
  cases hr : s.rest with
  | nil => cases s.mode <;> simp [htmlPiece?, openTag?, codePiece?]
  | cons c cs =>
    cases s.mode with
    | html =>
      simp only [htmlPiece?, reduceCtorEq, iff_false]
      split <;> simp
    | code => simp [codePiece?]

/-- A piece covers text. -/
theorem take_ne_nil {p : Piece} (h : s.piece? = some p) : s.rest.take p.length ≠ [] := by
  have hpos := p.length_pos
  have hrest := rest_ne_nil_of_piece? h
  simp only [ne_eq, List.take_eq_nil_iff, not_or]
  exact ⟨by omega, hrest⟩

/-! ### Text and place behind a token -/

@[simp] theorem pos_enter (s : Scanner) (kind : Kind) (span : Span) :
    (s.enter kind span).pos = s.pos := by
  unfold enter
  split <;> try rfl
  split <;> rfl

@[simp] theorem pos_remember (s : Scanner) (kind : Kind) : (s.remember kind).pos = s.pos := by
  unfold remember
  split <;> rfl

@[simp] theorem pos_take (s : Scanner) (kind : Kind) (n : Nat) :
    (s.take kind n).2.pos = s.pos.after (s.rest.take n) := by
  simp only [take, pos_remember, pos_enter]
  rfl

@[simp] theorem pos_finish (s : Scanner) : s.finish.2.pos = s.pos := by
  simp only [finish, pos_remember]
  split_ifs <;> rfl

@[simp] theorem rest_finish (s : Scanner) : s.finish.2.rest = s.rest := by
  simp only [finish, rest_remember]
  split_ifs <;> rfl

@[simp] theorem depth_finish (s : Scanner) : s.finish.2.depth = s.depth := by
  unfold finish remember
  dsimp only
  split_ifs <;> rfl

@[simp] theorem mode_finish (s : Scanner) : s.finish.2.mode = s.mode := by
  unfold finish remember
  dsimp only
  split_ifs <;> rfl

/-! ### One request -/

/-- **Passing over trivia.** `s'` is reached from `s` by passing over pieces of trivia alone. -/
inductive Passes : Scanner → Scanner → Prop where
  | refl (s : Scanner) : Passes s s
  | skip {s s' : Scanner} {p : Piece} (hp : s.piece? = some p) (hv : p.verdict = .trivia)
      (h : Passes (s.skip p.length) s') : Passes s s'

/-- **Emitting.** What is given where no trivia is in front: the end of the text, the token of a
piece, or invalid input. -/
inductive Emits : Scanner → Token → Scanner → Prop where
  | finish {s : Scanner} (hr : s.rest = []) : Emits s s.finish.1 s.finish.2
  | token {s : Scanner} {p : Piece} {kind : Kind} (hp : s.piece? = some p)
      (hv : p.verdict = .token kind) : Emits s (s.take kind p.length).1 (s.take kind p.length).2
  | broken {s : Scanner} {p : Piece} {fault : LexicalFault} (hp : s.piece? = some p)
      (hv : p.verdict = .broken fault) :
      Emits s (s.reject fault p.length).1 (s.reject fault p.length).2

/-- **One request** passes over trivia and then emits. -/
theorem next_spec (s : Scanner) : ∃ s', s.Passes s' ∧ s'.Emits s.next.1 s.next.2 := by
  -- the recursion of `next` is over the pieces of trivia in front of the token
  fun_induction next s with
  | case1 s hp => exact ⟨s, .refl s, .finish (piece?_eq_none_iff.mp hp)⟩
  | case2 s p hp hv ih =>
    obtain ⟨s', hpass, hemit⟩ := ih
    exact ⟨s', .skip hp hv hpass, hemit⟩
  | case3 s p hp kind hv => exact ⟨s, .refl s, .token hp hv⟩
  | case4 s p hp fault hv => exact ⟨s, .refl s, .broken hp hv⟩

/-- Passing over trivia moves the scanner and touches nothing else. -/
theorem Passes.exists_skip (h : Passes s s') : ∃ n, s' = s.skip n := by
  induction h with
  | refl s => exact ⟨0, by simp [Scanner.skip]⟩
  | @skip s s' p hp hv h ih =>
    obtain ⟨n, rfl⟩ := ih
    -- two steps of `p.length` and `n` characters are one of their sum
    refine ⟨p.length + n, ?_⟩
    simp only [Scanner.skip, List.drop_drop, List.take_add, Position.after_append]

theorem next_of_some {p : Piece} (hp : s.piece? = some p) :
    s.next = match p.verdict with
      | .trivia => (s.skip p.length).next
      | .token kind => s.take kind p.length
      | .broken fault => s.reject fault p.length := by
  rw [next]
  split
  · next hnone => exact absurd (hp.symm.trans hnone) (by simp)
  · next q hq =>
    obtain rfl : p = q := Option.some.inj (hp.symm.trans hq)
    rfl

/-- What is in front of a token has no part in it. -/
theorem Passes.next_eq (h : Passes s s') : s.next = s'.next := by
  induction h with
  | refl s => rfl
  | skip hp hv h ih => rw [next_of_some hp, hv, ih]

/-- What is emitted is the next token. -/
theorem Emits.next_eq {t : Token} (h : Emits s t s') : s.next = (t, s') := by
  cases h with
  | finish hr =>
    rw [next]
    split
    · rfl
    · next p hp => exact absurd hr (rest_ne_nil_of_piece? hp)
  | token hp hv => rw [next_of_some hp, hv]
  | broken hp hv => rw [next_of_some hp, hv]

theorem Passes.rest_suffix (h : Passes s s') : s'.rest <:+ s.rest := by
  obtain ⟨n, rfl⟩ := h.exists_skip
  exact List.drop_suffix _ _

theorem Emits.rest_suffix {t : Token} (h : Emits s t s') : s'.rest <:+ s.rest := by
  cases h with
  | finish hr => simp
  | token hp hv =>
    rw [rest_take]
    exact List.drop_suffix _ _
  | broken hp hv => exact List.drop_suffix _ _

theorem rest_next_suffix (s : Scanner) : s.next.2.rest <:+ s.rest := by
  obtain ⟨s', hpass, hemit⟩ := s.next_spec
  exact hemit.rest_suffix.trans hpass.rest_suffix

/-! ### All requests -/

/-- The scanner behind `n` requests. -/
def behind (s : Scanner) : Nat → Scanner
  | 0 => s
  | n + 1 => (s.behind n).next.2

/-- The token that request number `n` gives, counted from zero. -/
def tokenAt (s : Scanner) (n : Nat) : Token := (s.behind n).next.1

/-- The first `n` tokens. -/
def given (s : Scanner) (n : Nat) : List Token := (List.range n).map s.tokenAt

theorem given_succ (s : Scanner) (n : Nat) : s.given (n + 1) = s.given n ++ [s.tokenAt n] := by
  simp [given, List.range_succ]

@[simp] theorem behind_zero (s : Scanner) : s.behind 0 = s := rfl

theorem behind_succ (s : Scanner) (n : Nat) : s.behind (n + 1) = (s.behind n).next.2 := rfl

theorem behind_next (s : Scanner) (n : Nat) : s.next.2.behind n = s.behind (n + 1) := by
  induction n with
  | zero => rfl
  | succ n ih => rw [behind_succ, ih, ← behind_succ]

theorem tokenAt_next (s : Scanner) (n : Nat) : s.next.2.tokenAt n = s.tokenAt (n + 1) := by
  rw [tokenAt, behind_next, tokenAt]

/-- The end of the text is given by request number `n`, and by none before it. -/
def EndsAt (s : Scanner) (n : Nat) : Prop :=
  (s.tokenAt n).kind = .endOfText ∧ ∀ i < n, (s.tokenAt i).kind ≠ .endOfText

theorem EndsAt.unique {m n : Nat} (hm : s.EndsAt m) (hn : s.EndsAt n) : m = n := by
  rcases Nat.lt_trichotomy m n with h | h | h
  · exact absurd hm.1 (hn.2 m h)
  · exact h
  · exact absurd hn.1 (hm.2 n h)

theorem endsAt_zero_iff : s.EndsAt 0 ↔ s.next.1.kind = .endOfText := by
  simp [EndsAt, tokenAt]

theorem EndsAt.succ {n : Nat} (h : s.next.2.EndsAt n) (hk : s.next.1.kind ≠ .endOfText) :
    s.EndsAt (n + 1) := by
  constructor
  · rw [← tokenAt_next]
    exact h.1
  · intro i hi
    cases i with
    | zero => exact hk
    | succ i =>
      rw [← tokenAt_next]
      exact h.2 i (Nat.lt_of_succ_lt_succ hi)

/-- **Induction along a stream.** A stream is over, or it goes on behind its next token. It is over
at last, since every token in front of the end shortens the text. -/
@[elab_as_elim] theorem stream_induction {motive : Scanner → Prop}
    (last : ∀ s : Scanner, s.next.1.kind = .endOfText → motive s)
    (step : ∀ s : Scanner, s.next.1.kind ≠ .endOfText → motive s.next.2 → motive s)
    (s : Scanner) : motive s := by
  by_cases hk : s.next.1.kind = .endOfText
  · exact last s hk
  · exact step s hk (stream_induction last step s.next.2)
termination_by s.rest.length
decreasing_by exact next_rest_lt s hk

theorem run_of_endOfText (h : s.next.1.kind = .endOfText) :
    s.run = ([(s.next.1, s.next.2.depth)], s.next.2) := by
  rw [run]
  exact dif_pos h

theorem run_of_ne (h : s.next.1.kind ≠ .endOfText) :
    s.run = ((s.next.1, s.next.2.depth) :: s.next.2.run.1, s.next.2.run.2) := by
  rw [run]
  exact dif_neg h

theorem tokens_of_endOfText (h : s.next.1.kind = .endOfText) : s.tokens = [s.next.1] := by
  rw [tokens, run_of_endOfText h]
  rfl

theorem tokens_of_ne (h : s.next.1.kind ≠ .endOfText) :
    s.tokens = s.next.1 :: s.next.2.tokens := by
  rw [tokens, run_of_ne h]
  rfl

theorem tokens_ne_nil (s : Scanner) : s.tokens ≠ [] := by
  by_cases hk : s.next.1.kind = .endOfText
  · rw [tokens_of_endOfText hk]
    exact List.cons_ne_nil _ _
  · rw [tokens_of_ne hk]
    exact List.cons_ne_nil _ _

/-- **A run is a sequence of requests.** `Scanner.run` collects what is given up to the first end of
the text, and there is such an end: every request in front of it shortens the text. -/
theorem run_eq (s : Scanner) :
    ∃ n, s.EndsAt n ∧ s.run.2 = s.behind (n + 1) ∧
      s.run.1 = (List.range (n + 1)).map fun i => (s.tokenAt i, (s.behind (i + 1)).depth) := by
  induction s using stream_induction with
  | last s hk =>
    rw [run_of_endOfText hk]
    exact ⟨0, endsAt_zero_iff.mpr hk, rfl, rfl⟩
  | step s hk ih =>
    obtain ⟨n, hend, hlast, hrun⟩ := ih
    rw [run_of_ne hk]
    refine ⟨n + 1, hend.succ hk, ?_, ?_⟩
    · rw [← behind_next]
      exact hlast
    · -- request number `i` behind the first token is request number `i + 1` of all
      rw [List.range_succ_eq_map, List.map_cons, List.map_map]
      refine congrArg₂ _ rfl (hrun.trans (List.map_congr_left ?_))
      intro i _
      show (s.next.2.tokenAt i, _) = (s.tokenAt (i + 1), _)
      rw [tokenAt_next, behind_next]

/-- The tokens of a run, as given by the requests up to the end of the text. -/
theorem tokens_eq (s : Scanner) :
    ∃ n, s.EndsAt n ∧ s.tokens = s.given (n + 1) := by
  obtain ⟨n, hend, -, hrun⟩ := s.run_eq
  refine ⟨n, hend, ?_⟩
  rw [tokens, hrun, List.map_map]
  rfl

/-! ### Behind the end -/

/-- A scanner that has seen the end of the text. -/
structure Settled (s : Scanner) : Prop where
  rest_eq : s.rest = []
  finished_eq : s.finished = true

theorem settled_finish (hr : s.rest = []) : s.finish.2.Settled := by
  refine ⟨by rw [rest_finish, hr], ?_⟩
  unfold finish remember
  dsimp only
  split_ifs <;> rfl

/-- Only the end of the text is emitted as such. -/
theorem Emits.eq_finish {t : Token} (h : Emits s t s') (hk : t.kind = .endOfText) :
    s.rest = [] ∧ t = s.finish.1 ∧ s' = s.finish.2 := by
  cases h with
  | finish hr => exact ⟨hr, rfl, rfl⟩
  | @token p kind hp hv =>
    -- the kind of a piece is never the end of the text
    have hproper := piece?_proper hp
    rw [hv] at hproper
    exact absurd hk hproper.1
  | broken hp hv => exact absurd hk (by simp [reject])

theorem settled_next (hk : s.next.1.kind = .endOfText) : s.next.2.Settled := by
  obtain ⟨s', -, hemit⟩ := s.next_spec
  obtain ⟨hr, -, hs⟩ := hemit.eq_finish hk
  rw [hs]
  exact settled_finish hr

/-- The end of the text is given with the place where the scanner then stands. -/
theorem next_of_endOfText (hk : s.next.1.kind = .endOfText) :
    s.next.1 = ⟨.endOfText, "", Span.point s.next.2.pos⟩ := by
  obtain ⟨s', -, hemit⟩ := s.next_spec
  obtain ⟨-, ht, hs⟩ := hemit.eq_finish hk
  rw [ht, hs, pos_finish]
  rfl

/-- **Behind the end,** a request gives the end of the text where it is. Of the scanner it changes
no more than the kinds of the tokens before. -/
theorem Settled.next_eq (h : s.Settled) :
    s.next = (⟨.endOfText, "", Span.point s.pos⟩,
      { s with last := .endOfText, beforeLast := s.last }) := by
  rw [(Emits.finish h.rest_eq).next_eq]
  simp [finish, h.finished_eq, remember]

/-- However often it is asked, a settled scanner stays where it is, with its depths and errors. -/
theorem Settled.behind (h : s.Settled) (n : Nat) :
    ∃ last beforeLast, s.behind n = { s with last, beforeLast } := by
  induction n with
  | zero => exact ⟨s.last, s.beforeLast, rfl⟩
  | succ n ih =>
    obtain ⟨last, beforeLast, hn⟩ := ih
    have hsettled : (s.behind n).Settled := by
      rw [hn]
      exact ⟨h.rest_eq, h.finished_eq⟩
    rw [behind_succ, hsettled.next_eq, hn]
    exact ⟨_, _, rfl⟩

theorem Settled.tokenAt (h : s.Settled) (n : Nat) :
    s.tokenAt n = ⟨.endOfText, "", Span.point s.pos⟩ := by
  obtain ⟨last, beforeLast, hn⟩ := h.behind n
  have hsettled : (s.behind n).Settled := by
    rw [hn]
    exact ⟨h.rest_eq, h.finished_eq⟩
  rw [Scanner.tokenAt, hsettled.next_eq, hn]

theorem behind_add (s : Scanner) (n m : Nat) : s.behind (n + m) = (s.behind n).behind m := by
  induction m with
  | zero => rfl
  | succ m ih => rw [← Nat.add_assoc, behind_succ, ih, ← behind_succ]

/-- Every request behind the first end of the text gives that end again. -/
theorem EndsAt.tokenAt_add {n : Nat} (h : s.EndsAt n) (m : Nat) :
    s.tokenAt (n + m) = s.tokenAt n := by
  cases m with
  | zero => rfl
  | succ m =>
    have hsettled : (s.behind (n + 1)).Settled := settled_next h.1
    have hend : s.tokenAt n = _ := next_of_endOfText h.1
    rw [hend, show n + (m + 1) = (n + 1) + m by omega, Scanner.tokenAt, behind_add]
    exact hsettled.tokenAt m

/-- Behind the first end of the text, depths and errors are what they were there. -/
theorem EndsAt.behind_add {n : Nat} (h : s.EndsAt n) (m : Nat) :
    ∃ last beforeLast, s.behind (n + 1 + m) = { s.behind (n + 1) with last, beforeLast } := by
  have hsettled : (s.behind (n + 1)).Settled := settled_next h.1
  rw [Scanner.behind_add]
  exact hsettled.behind m

end Scanner

end Token

end Introspect
