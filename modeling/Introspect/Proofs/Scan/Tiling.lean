import Introspect.Proofs.Scan.Stream
import Mathlib.Data.List.Chain
import Mathlib.Data.List.TakeWhile

/-!
# Tokens and gaps tile the source

The tokens of a source text and the gaps between them append to the text. What may stand in a gap is
said here without the scanner: `Trivium` lists the pieces of trivia, each with the text behind it,
since a line comment runs up to a line feed or a close tag that is no part of it, and `Gap` is a
sequence of them.

* `Gap.of_codePiece?`: what the scanner passes over is a gap;
* `Scanner.Stands.next`: a request of a scanner that stands behind `before` passes over a gap and
  covers the text of its token, which is never empty;
* `Scanner.Stands.tiles`: by induction along the run, all of the text is tiled (`Tiles`);
* `Scanner.tokens_tile` reads the tiling in bytes: ranges are not empty, in order and disjoint,
  lexemes are slices of the source, the last token stands at the end, and between tokens there are
  gaps only.
-/

namespace Introspect.Token

/-! ### Trivia -/

/-- Where a line comment ends: at the end of the text, at a line feed or at a close tag. -/
def EndsLine (cs : List Char) : Prop :=
  cs = [] ∨ ['\n'] <+: cs ∨ ['?', '>'] <+: cs

/-- **Trivia.** `Trivium entry before text after` says that `text` is one piece of trivia between
`before` and `after`, in a source that is entered in the mode `entry`. -/
inductive Trivium (entry : Mode) (before : List Char) : List Char → List Char → Prop where
  | space {c : Char} {after : List Char} (h : Text.isSpace c = true) :
      Trivium entry before [c] after
  /-- Two slashes, or a number sign that opens no attribute, and the rest of the line. -/
  | lineComment {lead body after : List Char}
      (hlead : lead = ['/', '/'] ∨ (lead = ['#'] ∧ ¬ ['['] <+: body ++ after))
      (hbody : ∀ v, v <:+ body → v ≠ [] → ¬ EndsLine (v ++ after)) (hafter : EndsLine after) :
      Trivium entry before (lead ++ body) after
  /-- A block comment up to its first end. With a second star and white space behind it, it would
  be a doc comment. -/
  | blockComment {body after : List Char}
      (hbody : ∀ v, v <:+ body → v ≠ [] → ¬ ['*', '/'] <+: v ++ ['*', '/'])
      (hdoc : ∀ c, Text.isBlank c = true → ¬ ['*', c] <+: body) :
      Trivium entry before (['/', '*'] ++ (body ++ ['*', '/'])) after
  /-- A byte order mark in front of everything else, where the source is code from the start. -/
  | byteOrderMark {after : List Char} (hentry : entry = .code) (hbefore : before = []) :
      Trivium entry before ['\uFEFF'] after

/-- **Gaps.** A sequence of pieces of trivia between `before` and `after`. -/
inductive Gap (entry : Mode) : List Char → List Char → List Char → Prop where
  | nil {before after : List Char} : Gap entry before [] after
  | cons {before text gap after : List Char} (h : Trivium entry before text (gap ++ after))
      (hgap : Gap entry (before ++ text) gap after) : Gap entry before (text ++ gap) after

variable {entry : Mode}

theorem Trivium.gap {before text after : List Char} (h : Trivium entry before text after) :
    Gap entry before text after := by
  rw [← List.append_nil text]
  exact .cons h .nil

theorem Gap.append {before gap gap' after : List Char} (h : Gap entry before gap (gap' ++ after))
    (h' : Gap entry (before ++ gap) gap' after) : Gap entry before (gap ++ gap') after := by
  -- the induction is on the first gap, so what stands behind it must be a variable
  generalize ha : gap' ++ after = mid at h
  induction h with
  | nil => simpa using h'
  | @cons before text gap mid ht hgap ih =>
    subst ha
    rw [List.append_assoc]
    refine .cons (by simpa using ht) (ih ?_ rfl)
    simpa using h'

/-- White space is a gap, character by character. -/
theorem Gap.of_space {before gap after : List Char} (h : ∀ c ∈ gap, Text.isSpace c = true) :
    Gap entry before gap after := by
  induction gap generalizing before with
  | nil => exact .nil
  | cons c cs ih =>
    have hc : Text.isSpace c = true := h c List.mem_cons_self
    have hcs : ∀ d ∈ cs, Text.isSpace d = true := fun d hd => h d (List.mem_cons_of_mem c hd)
    exact .cons (.space hc) (ih hcs)

/-! ### What the recognisers of comments find -/

/-- A line comment stops where a line ends, and at no place before. -/
theorem lineCommentLength_spec (cs : List Char) :
    EndsLine (cs.drop (lineCommentLength cs)) ∧
      ∀ v, v <:+ cs.take (lineCommentLength cs) → v ≠ [] →
        ¬ EndsLine (v ++ cs.drop (lineCommentLength cs)) := by
  induction cs with
  | nil =>
    refine ⟨.inl rfl, ?_⟩
    intro v hv hne
    exact absurd (List.suffix_nil.mp hv) hne
  | cons c cs ih =>
    rw [lineCommentLength]
    split
    · -- the line ends here, at a line feed or a close tag, and the comment is empty
      next hstop =>
      constructor
      · rcases hstop with rfl | ⟨rfl, hhead⟩
        · exact .inr (.inl (by simp))
        · obtain ⟨ds, rfl⟩ := List.head?_eq_some_iff.mp hhead
          exact .inr (.inr (by simp))
      · intro v hv hne
        exact absurd (List.suffix_nil.mp hv) hne
    · -- the comment goes on behind `c`
      next hgo =>
      rw [List.take_succ_cons, List.drop_succ_cons]
      refine ⟨ih.1, ?_⟩
      intro v hv hne
      rcases List.suffix_cons_iff.mp hv with rfl | hv
      · -- the whole comment: its first character ends no line
        rw [List.cons_append, List.take_append_drop]
        rintro (h | h | h)
        · exact absurd h (by simp)
        · exact hgo (.inl (List.singleton_prefix_cons_iff.mp h).symm)
        · obtain ⟨hc, hhead⟩ := List.cons_prefix_cons.mp h
          exact hgo (.inr ⟨hc.symm, List.singleton_prefix_iff_head?_eq_some.mp hhead⟩)
      · exact ih.2 v hv hne

/-- A block comment is closed at the first star with a slash behind it. -/
theorem closeComment_spec {cs : List Char} {n : Nat} (h : closeComment cs = some n) :
    ∃ body after, cs = body ++ (['*', '/'] ++ after) ∧ n = body.length + 2 ∧
      ∀ v, v <:+ body → v ≠ [] → ¬ ['*', '/'] <+: v ++ ['*', '/'] := by
  induction cs generalizing n with
  | nil => simp [closeComment] at h
  | cons c cs ih =>
    rw [closeComment] at h
    split at h
    · next hstop =>
      obtain ⟨rfl, hhead⟩ := hstop
      obtain ⟨ds, rfl⟩ := List.head?_eq_some_iff.mp hhead
      refine ⟨[], ds, rfl, by simpa using h.symm, ?_⟩
      intro v hv hne
      exact absurd (List.suffix_nil.mp hv) hne
    · next hgo =>
      obtain ⟨m, hm, rfl⟩ := Option.map_eq_some_iff.mp h
      obtain ⟨body, after, rfl, rfl, hbody⟩ := ih hm
      refine ⟨c :: body, after, rfl, by simp, ?_⟩
      intro v hv hne hpre
      rcases List.suffix_cons_iff.mp hv with rfl | hv
      · -- the whole body: it would have to close at `c`, where the walk went on
        obtain ⟨hc, hhead⟩ := List.cons_prefix_cons.mp hpre
        refine hgo ⟨hc.symm, ?_⟩
        rw [← List.append_assoc]
        exact List.singleton_prefix_iff_head?_eq_some.mp (hhead.trans (List.prefix_append _ _))
      · exact hbody v hv hne hpre

/-- A closed comment that is no token is a piece of trivia. -/
theorem Gap.of_commentPiece {before rest : List Char} (h : (commentPiece rest).verdict = .trivia) :
    Gap entry before (('/' :: '*' :: rest).take (commentPiece rest).length)
      (('/' :: '*' :: rest).drop (commentPiece rest).length) := by
  unfold commentPiece at h ⊢
  cases hc : closeComment rest with
  | none => simp [hc] at h
  | some n =>
    obtain ⟨body, after, rfl, rfl, hbody⟩ := closeComment_spec hc
    simp only [hc] at h ⊢
    split at h
    · simp at h
    next hdoc =>
    have htext : ('/' :: '*' :: (body ++ (['*', '/'] ++ after)))
        = (['/', '*'] ++ (body ++ ['*', '/'])) ++ after := by simp
    have hlen : body.length + 2 + 2 = (['/', '*'] ++ (body ++ ['*', '/'])).length := by simp
    rw [htext, hlen, List.take_left, List.drop_left]
    have hplain : ∀ c, Text.isBlank c = true → ¬ ['*', c] <+: body := by
      -- a star and white space at the head of the body would make it a doc comment
      intro c hblank hpre
      obtain ⟨ds, rfl⟩ := hpre
      exact hdoc (by simp [hblank])
    exact (Trivium.blockComment hbody hplain).gap

/-- Two slashes, or a number sign without a bracket behind it, and the rest of the line. -/
theorem Gap.of_lineComment {before : List Char} (lead rest : List Char)
    (hlead : lead = ['/', '/'] ∨ (lead = ['#'] ∧ rest.head? ≠ some '[')) :
    Gap entry before ((lead ++ rest).take (lineCommentLength rest + lead.length))
      ((lead ++ rest).drop (lineCommentLength rest + lead.length)) := by
  obtain ⟨hafter, hbody⟩ := lineCommentLength_spec rest
  rw [Nat.add_comm, List.take_length_add_append, List.drop_length_add_append]
  refine (Trivium.lineComment ?_ hbody hafter).gap
  rcases hlead with hslashes | ⟨hsign, hhead⟩
  · exact .inl hslashes
  · refine .inr ⟨hsign, ?_⟩
    rw [List.take_append_drop, List.singleton_prefix_iff_head?_eq_some]
    exact hhead

/-- A piece is a gap between what stands before it and behind it, if it is trivia. -/
def Piece.Passable (entry : Mode) (before cs : List Char) (p : Piece) : Prop :=
  p.verdict = .trivia → Gap entry before (cs.take p.length) (cs.drop p.length)

/-- **Trivia in code is a gap.** The byte order mark needs a source that is code from its start. -/
theorem Gap.of_codePiece? {memberPosition atStart : Bool} {before cs : List Char} {p : Piece}
    (hstart : atStart = true → entry = .code ∧ before = [])
    (h : codePiece? memberPosition atStart cs = some p) : p.Passable entry before cs := by
  intro htrivia
  cases codePiece?_cases h with
  | byteOrderMark hatStart hp =>
    obtain ⟨hentry, hbefore⟩ := hstart hatStart
    exact hp ▸ (Trivium.byteOrderMark hentry hbefore).gap
  | @space c rest _ hspace hp =>
    -- white space is taken as far as it goes
    refine .of_space ?_
    intro d hd
    rw [hp, List.take_succ_cons, List.mem_cons] at hd
    rcases hd with rfl | hd
    · exact hspace
    · have htake : rest.take (rest.takeWhile Text.isSpace).length = rest.takeWhile Text.isSpace :=
        List.prefix_iff_eq_take.mp (List.takeWhile_prefix _) |>.symm
      rw [htake] at hd
      exact List.mem_takeWhile_imp hd
  | lineComment lead rest hlead _ hlength => exact hlength ▸ Gap.of_lineComment lead rest hlead
  | blockComment => exact Gap.of_commentPiece htrivia
  -- nothing else is passed over
  | closeTag hp | attributeOpen hp | variableName _ hp | name _ hp =>
    exact absurd (hp ▸ htrivia) (by simp)
  | @quoted quote kind rest =>
    rcases quotedPiece_cases quote kind rest with hv | hv <;>
      exact absurd (hv.symm.trans htrivia) (by simp)
  | heredoc hheredoc => exact absurd htrivia (heredocPiece?_emitted hheredoc).1
  | number => exact absurd htrivia (numberPiece_emitted _).1
  | punctuation => exact absurd htrivia (punctuationPiece_emitted _ _).1

/-! ### Where a scanner stands -/

/-- **A token in its place.** `Covers before text after t` says that `t` is the token of `text`
between `before` and `after`: a token with its lexeme, invalid input, or the end of the text. -/
inductive Covers (before : List Char) : List Char → List Char → Token → Prop where
  | token {text after : List Char} {kind : Kind} (hkind : kind ≠ .endOfText ∧ kind ≠ .invalid)
      (htext : text ≠ []) :
      Covers before text after ⟨kind, String.ofList text,
        Scanner.tokenSpan (Position.start.after before)
          (Position.start.after (before ++ text)) text⟩
  | invalid {text after : List Char} (htext : text ≠ []) :
      Covers before text after ⟨.invalid, "",
        Span.between (Position.start.after before) (Position.start.after (before ++ text))⟩
  | finish : Covers before [] [] ⟨.endOfText, "", Span.point (Position.start.after before)⟩

namespace Scanner

/-- **Where a scanner stands:** behind `before` in `source`. The mode is the one in which the source
was entered for as long as nothing has been read. -/
structure Stands (entry : Mode) (source before : List Char) (s : Scanner) : Prop where
  source_eq : source = before ++ s.rest
  pos_eq : s.pos = Position.start.after before
  mode_eq : before = [] → s.mode = entry

theorem stands_start (entry : Mode) (source : String) :
    Stands entry source.toList [] (start entry source) :=
  ⟨rfl, rfl, fun _ => rfl⟩

variable {source before : List Char} {s s' : Scanner}

/-- Passing over the next `n` characters. -/
theorem Stands.skip (h : Stands entry source before s) (n : Nat) :
    Stands entry source (before ++ s.rest.take n) (s.skip n) where
  source_eq := by rw [rest_skip, List.append_assoc, List.take_append_drop]; exact h.source_eq
  pos_eq := by rw [Position.after_append, ← h.pos_eq]; rfl
  mode_eq := fun hnil => h.mode_eq (List.append_eq_nil_iff.mp hnil).1

/-- Only at the very start of the source is the offset zero. -/
theorem Stands.before_eq_nil (h : Stands entry source before s) (h0 : s.pos.offset = 0) :
    before = [] := by
  rw [h.pos_eq, Position.offset_after] at h0
  have hbytes : Text.byteLength before = 0 := by simpa [Position.start] using h0
  exact Text.byteLength_eq_zero_iff.mp hbytes

/-- What a scanner passes over is a gap. -/
theorem Stands.gap {p : Piece} (h : Stands entry source before s) (hp : s.piece? = some p) :
    p.Passable entry before s.rest := by
  cases hm : s.mode with
  | html =>
    rw [piece?_of_html hm] at hp
    exact fun htrivia => absurd htrivia (htmlPiece?_emitted hp).1
  | code =>
    rw [piece?_of_code hm] at hp
    refine Gap.of_codePiece? ?_ hp
    -- at offset zero nothing has been read, so the mode is still that of the entry
    intro hstart
    have hbefore := h.before_eq_nil (by simpa using hstart)
    exact ⟨(h.mode_eq hbefore).symm.trans hm, hbefore⟩

/-- What is passed over in front of a token is one gap. -/
theorem Stands.passes (h : Stands entry source before s) (hpass : Passes s s') :
    ∃ gap, s.rest = gap ++ s'.rest ∧ Gap entry before gap s'.rest ∧
      Stands entry source (before ++ gap) s' := by
  induction hpass generalizing before with
  | refl s => exact ⟨[], rfl, .nil, by simpa using h⟩
  | @skip s s' p hp hv hpass ih =>
    obtain ⟨gap, hrest, hgap, hstands⟩ := ih (h.skip p.length)
    rw [rest_skip] at hrest
    -- the first piece is a gap in front of all that follows, trivia and rest
    have hfirst := h.gap hp hv
    rw [hrest] at hfirst
    refine ⟨s.rest.take p.length ++ gap, ?_, hfirst.append hgap, by simpa using hstands⟩
    rw [List.append_assoc, ← hrest, List.take_append_drop]

/-- What is emitted is the token of the text that is consumed. -/
theorem Stands.emits {t : Token} (h : Stands entry source before s) (hemit : Emits s t s') :
    ∃ text, s.rest = text ++ s'.rest ∧ Covers before text s'.rest t ∧
      Stands entry source (before ++ text) s' := by
  cases hemit with
  | finish hr =>
    refine ⟨[], by rw [rest_finish]; rfl, ?_, ?_⟩
    · rw [rest_finish, hr]
      simp only [Scanner.finish, h.pos_eq]
      exact .finish
    · -- the end moves nothing
      rw [List.append_nil]
      refine ⟨?_, ?_, ?_⟩
      · rw [rest_finish]
        exact h.source_eq
      · rw [pos_finish]
        exact h.pos_eq
      · rw [mode_finish]
        exact h.mode_eq
  | @token p kind hp hv =>
    have hskip := h.skip p.length
    have hproper := piece?_proper hp
    rw [hv] at hproper
    refine ⟨s.rest.take p.length, ?_, ?_, ?_⟩
    · rw [rest_take, List.take_append_drop]
    · have hcovers : Covers before (s.rest.take p.length) (s.rest.drop p.length) _ :=
        .token hproper (take_ne_nil hp)
      rw [← hskip.pos_eq, ← h.pos_eq] at hcovers
      rw [rest_take]
      exact hcovers
    · refine ⟨?_, ?_, ?_⟩
      · rw [rest_take]
        exact hskip.source_eq
      · rw [pos_take]
        exact hskip.pos_eq
      · -- a tag changes the mode, but then something has been read
        intro hnil
        exact absurd (List.append_eq_nil_iff.mp hnil).2 (take_ne_nil hp)
  | @broken p fault hp hv =>
    have hskip := h.skip p.length
    refine ⟨s.rest.take p.length, ?_, ?_, hskip.source_eq, hskip.pos_eq, hskip.mode_eq⟩
    · rw [rest_reject, List.take_append_drop]
    · have hcovers : Covers before (s.rest.take p.length) (s.rest.drop p.length) _ :=
        .invalid (take_ne_nil hp)
      rw [← hskip.pos_eq, ← h.pos_eq] at hcovers
      exact hcovers

/-- **One request** passes over a gap and covers the text of its token. -/
theorem Stands.next (h : Stands entry source before s) :
    ∃ gap text, s.rest = gap ++ (text ++ s.next.2.rest) ∧
      Gap entry before gap (text ++ s.next.2.rest) ∧
      Covers (before ++ gap) text s.next.2.rest s.next.1 ∧
      Stands entry source (before ++ gap ++ text) s.next.2 := by
  obtain ⟨s', hpass, hemit⟩ := s.next_spec
  obtain ⟨gap, hrest, hgap, hstands⟩ := h.passes hpass
  obtain ⟨text, hrest', hcovers, hstands'⟩ := hstands.emits hemit
  rw [hrest'] at hrest hgap
  exact ⟨gap, text, hrest, hgap, hcovers, hstands'⟩

end Scanner

/-! ### The tiling -/

/-- **Tiling.** `Tiles entry before rest ts` says that gaps and the tokens `ts` alternate in `rest`,
which stands behind `before`, and that nothing of `rest` is left over. -/
inductive Tiles (entry : Mode) : List Char → List Char → List Token → Prop where
  | last {before gap : List Char} {t : Token} (hgap : Gap entry before gap [])
      (hcovers : Covers (before ++ gap) [] [] t) (hkind : t.kind = .endOfText) :
      Tiles entry before gap [t]
  | cons {before gap text after : List Char} {t : Token} {ts : List Token}
      (hgap : Gap entry before gap (text ++ after)) (hcovers : Covers (before ++ gap) text after t)
      (hkind : t.kind ≠ .endOfText) (htiles : Tiles entry (before ++ gap ++ text) after ts) :
      Tiles entry before (gap ++ (text ++ after)) (t :: ts)

theorem Covers.eq_nil_iff {before text after : List Char} {t : Token}
    (h : Covers before text after t) : t.kind = .endOfText ↔ text = [] := by
  cases h with
  | token hkind htext => simp [htext, hkind.1]
  | invalid htext => simp [htext]
  | finish => simp

theorem Covers.after_eq_nil {before text after : List Char} {t : Token}
    (h : Covers before text after t) (hkind : t.kind = .endOfText) : after = [] := by
  cases h with
  | token hne htext => exact absurd hkind hne.1
  | invalid htext => exact absurd hkind (by simp)
  | finish => rfl

/-- **The tokens of a run tile the text.** The induction is along the run; what carries it is where
the scanner stands. -/
theorem Scanner.Stands.tiles {source before : List Char} {s : Scanner}
    (h : s.Stands entry source before) : Tiles entry before s.rest s.tokens := by
  induction s using Scanner.stream_induction generalizing before with
  | last s hk =>
    obtain ⟨gap, text, hrest, hgap, hcovers, -⟩ := h.next
    obtain rfl : text = [] := hcovers.eq_nil_iff.mp hk
    have hafter := hcovers.after_eq_nil hk
    rw [tokens_of_endOfText hk, hrest, hafter, List.append_nil, List.append_nil]
    rw [hafter] at hgap hcovers
    exact .last hgap hcovers hk
  | step s hk ih =>
    obtain ⟨gap, text, hrest, hgap, hcovers, hstands⟩ := h.next
    rw [tokens_of_ne hk, hrest]
    exact .cons hgap hcovers hk (ih hstands)

/-! ### The tiling in bytes -/

@[simp] theorem Scanner.offset_tokenSpan (p q : Position) (text : List Char) :
    (tokenSpan p q text).offset = p.offset := by
  unfold tokenSpan
  dsimp only
  split <;> rfl

@[simp] theorem Scanner.len_tokenSpan (p q : Position) (text : List Char) :
    (tokenSpan p q text).len = q.offset - p.offset := by
  unfold tokenSpan
  dsimp only
  split <;> rfl

theorem offset_start_after (cs : List Char) :
    (Position.start.after cs).offset = Text.byteLength cs := by
  rw [Position.offset_after]
  exact Nat.zero_add _

section Covers

variable {before text after : List Char} {t : Token}

theorem Covers.offset_eq (h : Covers before text after t) :
    t.span.offset = Text.byteLength before := by
  cases h with
  | token hkind htext => rw [Scanner.offset_tokenSpan, offset_start_after]
  | invalid htext => exact offset_start_after before
  | finish => exact offset_start_after before

theorem Covers.len_eq (h : Covers before text after t) : t.span.len = Text.byteLength text := by
  cases h with
  | token hkind htext => simp [offset_start_after]
  | invalid htext => simp [Span.between, offset_start_after]
  | finish => rfl

theorem Covers.stop_eq (h : Covers before text after t) :
    t.span.stop = Text.byteLength (before ++ text) := by
  rw [Span.stop, h.offset_eq, h.len_eq, Text.byteLength_append]

theorem Covers.lexeme_eq (h : Covers before text after t) (hkind : t.kind ≠ .invalid) :
    t.lexeme = String.ofList text := by
  cases h with
  | token hne htext => rfl
  | invalid htext => exact absurd rfl hkind
  | finish => rfl

theorem Covers.slice?_eq {source : String} (h : Covers before text after t)
    (hsource : source.toList = before ++ (text ++ after)) :
    t.span.slice? source = some (String.ofList text) := by
  rw [Span.slice?, h.offset_eq, h.len_eq, ← String.ofList_toList (s := source), hsource,
    ← List.append_assoc]
  exact Text.slice?_byteLength before text after

end Covers

/-- The text of the source between two byte offsets is a gap. -/
def GapBetween (entry : Mode) (source : String) (i j : Nat) : Prop :=
  ∃ before gap after, source.toList = before ++ (gap ++ after) ∧ Text.byteLength before = i ∧
    Text.byteLength (before ++ gap) = j ∧ Gap entry before gap after

/-- **A tiling in bytes** of a source by tokens, the last of which is the end of the text. -/
structure Tiling (entry : Mode) (source : String) (ts : List Token) : Prop where
  /-- Only the end of the text covers no byte. -/
  len_pos : ∀ t ∈ ts, t.kind ≠ .endOfText → 0 < t.span.len
  /-- Ranges of bytes are in order and do not overlap. -/
  ordered : ts.Pairwise fun t u =>
    t.span.offset < u.span.offset ∧ t.span.stop ≤ u.span.offset
  /-- A lexeme is the text that its span covers. -/
  lexeme_eq : ∀ t ∈ ts, t.kind ≠ .invalid → t.kind ≠ .endOfText →
    t.span.slice? source = some t.lexeme
  /-- The last token is the empty span behind the last byte. -/
  last_eq : ∃ t, ts.getLast? = some t ∧ t.kind = .endOfText ∧
    t.span.offset = source.utf8ByteSize ∧ t.span.len = 0
  /-- In front of the first token stands a gap. -/
  head_gap : ∀ t ∈ ts.head?, GapBetween entry source 0 t.span.offset
  /-- Between a token and the next one stands a gap. -/
  gaps : ts.IsChain fun t u => GapBetween entry source t.span.stop u.span.offset
  /-- A byte that no token covers lies in a gap that no token touches. -/
  covered : ∀ b < source.utf8ByteSize,
    (∃ t ∈ ts, t.span.offset ≤ b ∧ b < t.span.stop) ∨
      ∃ i j, i ≤ b ∧ b < j ∧ GapBetween entry source i j ∧
        ∀ t ∈ ts, t.span.stop ≤ i ∨ j ≤ t.span.offset

namespace Tiles

variable {before rest : List Char} {ts : List Token}

/-- Every token of a tiling stands in its place. -/
theorem covers_of_mem (h : Tiles entry before rest ts) {t : Token} (ht : t ∈ ts) :
    ∃ gap text after, rest = gap ++ (text ++ after) ∧ Covers (before ++ gap) text after t := by
  induction h with
  | @last before gap u hgap hcovers hkind =>
    obtain rfl := List.mem_singleton.mp ht
    exact ⟨gap, [], [], by simp, hcovers⟩
  | @cons before gap text after u ts hgap hcovers hkind htiles ih =>
    rcases List.mem_cons.mp ht with rfl | ht
    · exact ⟨gap, text, after, rfl, hcovers⟩
    · obtain ⟨gap', text', after', rfl, hcovers'⟩ := ih ht
      refine ⟨gap ++ text ++ gap', text', after', by simp, ?_⟩
      simpa [List.append_assoc] using hcovers'

theorem byteLength_le_offset (h : Tiles entry before rest ts) {t : Token} (ht : t ∈ ts) :
    Text.byteLength before ≤ t.span.offset := by
  obtain ⟨gap, text, after, -, hcovers⟩ := h.covers_of_mem ht
  rw [hcovers.offset_eq, Text.byteLength_append]
  omega

theorem ordered (h : Tiles entry before rest ts) :
    ts.Pairwise fun t u => t.span.offset < u.span.offset ∧ t.span.stop ≤ u.span.offset := by
  induction h with
  | last hgap hcovers hkind => exact List.pairwise_singleton _ _
  | @cons before gap text after t ts hgap hcovers hkind htiles ih =>
    refine List.pairwise_cons.mpr ⟨?_, ih⟩
    intro u hu
    have hle := htiles.byteLength_le_offset hu
    -- the text of `t` is not empty, so the first of the offsets is the smaller one
    have htext : 0 < Text.byteLength text :=
      Text.byteLength_pos fun hnil => hkind (hcovers.eq_nil_iff.mpr hnil)
    rw [hcovers.stop_eq, hcovers.offset_eq]
    refine ⟨?_, hle⟩
    rw [Text.byteLength_append] at hle
    omega

theorem last_eq (h : Tiles entry before rest ts) :
    ∃ t, ts.getLast? = some t ∧ t.kind = .endOfText ∧
      t.span.offset = Text.byteLength (before ++ rest) ∧ t.span.len = 0 := by
  induction h with
  | @last before gap t hgap hcovers hkind =>
    exact ⟨t, rfl, hkind, hcovers.offset_eq, hcovers.len_eq⟩
  | @cons before gap text after t ts hgap hcovers hkind htiles ih =>
    obtain ⟨u, hlast, hu⟩ := ih
    refine ⟨u, ?_, ?_⟩
    · rw [List.getLast?_cons, hlast]
      rfl
    · rwa [List.append_assoc, List.append_assoc] at hu

theorem gaps {source : String} (h : Tiles entry before rest ts)
    (hsource : source.toList = before ++ rest) :
    (∀ t ∈ ts.head?, GapBetween entry source (Text.byteLength before) t.span.offset) ∧
      ts.IsChain fun t u => GapBetween entry source t.span.stop u.span.offset := by
  induction h with
  | @last before gap t hgap hcovers hkind =>
    refine ⟨?_, List.IsChain.singleton t⟩
    intro u hu
    obtain rfl : t = u := by simpa using hu
    exact ⟨before, gap, [], by simpa using hsource, rfl, hcovers.offset_eq.symm, hgap⟩
  | @cons before gap text after t ts hgap hcovers hkind htiles ih =>
    obtain ⟨hhead, hchain⟩ := ih (by simpa using hsource)
    refine ⟨?_, List.isChain_cons.mpr ⟨?_, hchain⟩⟩
    · intro u hu
      obtain rfl : t = u := by simpa using hu
      exact ⟨before, gap, text ++ after, hsource, rfl, hcovers.offset_eq.symm, hgap⟩
    · -- what is the head of the rest for the induction stands behind `t` here
      intro u hu
      rw [hcovers.stop_eq]
      exact hhead u hu

/-- A byte behind `before` lies in a token or in a gap, and that gap lies behind `before` too. -/
theorem covered {source : String} (h : Tiles entry before rest ts)
    (hsource : source.toList = before ++ rest) {b : Nat} (hlow : Text.byteLength before ≤ b)
    (hhigh : b < Text.byteLength (before ++ rest)) :
    (∃ t ∈ ts, t.span.offset ≤ b ∧ b < t.span.stop) ∨
      ∃ i j, Text.byteLength before ≤ i ∧ i ≤ b ∧ b < j ∧ GapBetween entry source i j ∧
        ∀ t ∈ ts, t.span.stop ≤ i ∨ j ≤ t.span.offset := by
  induction h with
  | @last before gap t hgap hcovers hkind =>
    refine .inr ⟨_, _, Nat.le_refl _, hlow, hhigh, ⟨before, gap, [], ?_, rfl, rfl, hgap⟩, ?_⟩
    · simpa using hsource
    · intro u hu
      obtain rfl := List.mem_singleton.mp hu
      exact .inr hcovers.offset_eq.ge
  | @cons before gap text after t ts hgap hcovers hkind htiles ih =>
    have hoffset := hcovers.offset_eq
    have hstop := hcovers.stop_eq
    -- the byte is in the gap, in the token, or behind both
    by_cases hingap : b < Text.byteLength (before ++ gap)
    · refine .inr ⟨_, _, Nat.le_refl _, hlow, hingap, ⟨before, gap, _, hsource, rfl, rfl, hgap⟩, ?_⟩
      intro u hu
      rcases List.mem_cons.mp hu with rfl | hu
      · exact .inr hoffset.ge
      · have hle := htiles.byteLength_le_offset hu
        rw [Text.byteLength_append] at hle
        exact .inr (by omega)
    by_cases hintoken : b < Text.byteLength (before ++ gap ++ text)
    · exact .inl ⟨t, List.mem_cons_self, by omega, by omega⟩
    · -- behind both: the gap that is found there does not reach back to `t`
      rcases ih (by simpa using hsource) (by omega) (by simpa using hhigh) with
        ⟨u, hu, hb⟩ | ⟨i, j, hi, hib, hbj, hbetween, hdisjoint⟩
      · exact .inl ⟨u, List.mem_cons_of_mem _ hu, hb⟩
      · have hbefore : Text.byteLength before ≤ Text.byteLength (before ++ gap ++ text) := by
          simp only [Text.byteLength_append]
          omega
        refine .inr ⟨i, j, by omega, hib, hbj, hbetween, fun u hu => ?_⟩
        rcases List.mem_cons.mp hu with rfl | hu
        · exact .inl (by omega)
        · exact hdisjoint u hu

theorem tiling {source : String} (h : Tiles entry [] source.toList ts) :
    Tiling entry source ts where
  len_pos := by
    -- only the end of the text is empty
    intro t ht hkind
    obtain ⟨gap, text, after, -, hcovers⟩ := h.covers_of_mem ht
    rw [hcovers.len_eq]
    exact Text.byteLength_pos fun hnil => hkind (hcovers.eq_nil_iff.mpr hnil)
  ordered := h.ordered
  lexeme_eq := by
    intro t ht hkind _
    obtain ⟨gap, text, after, hsource, hcovers⟩ := h.covers_of_mem ht
    rw [hcovers.slice?_eq hsource, hcovers.lexeme_eq hkind]
  last_eq := by
    rw [← Text.byteLength_toList]
    exact h.last_eq
  head_gap := (h.gaps rfl).1
  gaps := (h.gaps rfl).2
  covered := by
    intro b hb
    rw [← Text.byteLength_toList] at hb
    rcases h.covered rfl (Nat.zero_le b) hb with htoken | ⟨i, j, -, hgap⟩
    · exact .inl htoken
    · exact .inr ⟨i, j, hgap⟩

end Tiles

/-- **Lossless tiling.** For every source and in both modes, asking for tokens comes to the end of
the text, the tokens up to there are those of the run, and they tile the source. -/
theorem Scanner.tokens_tile (entry : Mode) (source : String) :
    (∃ n, (start entry source).EndsAt n ∧
      (start entry source).tokens = (start entry source).given (n + 1)) ∧
    Tiling entry source (start entry source).tokens :=
  ⟨tokens_eq _, (stands_start entry source).tiles.tiling⟩

end Introspect.Token
