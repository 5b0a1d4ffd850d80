import Introspect.Proofs.Scan.Scopes

/-!
# Code that is spelled out

The tokens of a text whose pieces are known. `Spells` says piece by piece how a text is cut, blanks
being passed over, and `Spells.run` that a scanner at the head of such a text gives those pieces as
its tokens and finds no error. What a piece is depends on the tokens before it in one way only:
where the name of a member stands, reserved words are names. `Calm` leaves this out, for text in
which no such place is.

* `Cuts` says of one piece that it ends where the text behind it begins;
* `cuts_name`, `cuts_delimiter` and `cuts_joiner` for the pieces that types are written with;
* `Writes` for texts with which a type begins: `Writes.intercalate` for lists with a separator,
  which is a text that `Joins`, and `Writes.parenthesized` for lists in parentheses.
-/

namespace Introspect.Token

/-- The kind of a token and its text, but not its place. -/
def spelling (t : Token) : Kind × String := (t.kind, t.lexeme)

/-- Whether tokens of the kind stand in code and are more than trivia. -/
def Kind.isOrdinary : Kind → Bool
  | inlineHtml | openTag | openTagWithEcho | closeTag | docComment | invalid | endOfText => false
  | _ => true

/-- The first piece of the text is `lexeme`, a token of the kind, and `text` is left behind it. -/
def Cuts (member : Bool) (lexeme text : List Char) (kind : Kind) : Prop :=
  ∃ p, codePiece? member false (lexeme ++ text) = some p ∧ p.verdict = .token kind ∧
    p.length = lexeme.length

/-- **Spelled text.** The text is cut into the given words. `member` says whether the name of a
member would stand in front of it, `last` is the kind of the token in front of it, and `depth` the
number of braces that are open there. At the end of the text none is. -/
inductive Spells : Bool → Kind → Nat → List Char → List (Kind × String) → Prop where
  | done {member : Bool} {last : Kind} : Spells member last 0 [] []
  | blank {member : Bool} {last : Kind} {depth : Nat} {text : List Char}
      {words : List (Kind × String)} (hspace : text.head?.any Text.isSpace = false)
      (h : Spells member last depth text words) : Spells member last depth (' ' :: text) words
  | token {member : Bool} {last kind : Kind} {depth : Nat} (lexeme : List Char) {text : List Char}
      {words : List (Kind × String)} (hcuts : Cuts member lexeme text kind)
      (hkind : kind.isOrdinary = true) (hdepth : kind = .rightBrace → depth ≠ 0)
      (h : Spells (kind.opensMemberName || kind == .amp && last == .functionWord) kind
        (depthAfter depth kind) text words) :
      Spells member last depth (lexeme ++ text) ((kind, String.ofList lexeme) :: words)

namespace Scanner

/-- **Standing in code.** The scanner stands in front of the text, has found no error, and is as the
tokens in front of the text have left it. -/
structure InCode (s : Scanner) (member : Bool) (last : Kind) (depth : Nat) (text : List Char) :
    Prop where
  mode_eq : s.mode = .code
  rest_eq : s.rest = text
  offset_ne : s.pos.offset ≠ 0
  member_eq : s.atMemberName = member
  last_eq : s.last = last
  depth_eq : s.depth = depth
  errors_eq : s.errors = []
  finished_eq : s.finished = false

section InCode

variable {s : Scanner} {member : Bool} {last kind : Kind} {depth : Nat} {text : List Char}

theorem InCode.piece?_eq (h : s.InCode member last depth text) :
    s.piece? = codePiece? member false text := by
  rw [piece?_of_code h.mode_eq, h.member_eq, h.rest_eq]
  congr
  simpa using h.offset_ne

theorem InCode.skip (h : s.InCode member last depth text) (n : Nat) :
    (s.skip n).InCode member last depth (text.drop n) where
  mode_eq := h.mode_eq
  rest_eq := by rw [rest_skip, h.rest_eq]
  offset_ne := by
    have hne := h.offset_ne
    show (s.pos.after (s.rest.take n)).offset ≠ 0
    rw [Position.offset_after]
    omega
  member_eq := h.member_eq
  last_eq := h.last_eq
  depth_eq := h.depth_eq
  errors_eq := h.errors_eq
  finished_eq := h.finished_eq

theorem remember_of_isOrdinary (s : Scanner) (hkind : kind.isOrdinary = true) :
    s.remember kind = { s with last := kind, beforeLast := s.last } := by
  unfold remember
  split <;> first | rfl | exact absurd hkind (by decide)

/-- An ordinary token that closes no brace too many changes the depth alone. -/
theorem exists_enter_eq (s : Scanner) (span : Span) (hkind : kind.isOrdinary = true)
    (hdepth : kind = .rightBrace → s.depth ≠ 0) :
    ∃ m, s.enter kind span = { s with depth := depthAfter s.depth kind, maxDepth := m } := by
  unfold enter
  split
  · -- tags are no ordinary tokens
    exact absurd hkind (by decide)
  · exact absurd hkind (by decide)
  · exact absurd hkind (by decide)
  · exact ⟨_, rfl⟩
  · split
    · next hzero => exact absurd hzero (hdepth rfl)
    · next d hd => exact ⟨s.maxDepth, by simp [depthAfter, hd]⟩
  · next hl hr => exact ⟨s.maxDepth, by rw [depthAfter_of_ne s.depth hl hr]⟩

/-- Such a token leaves the scanner in code. -/
theorem InCode.take (h : s.InCode member last depth text) (hkind : kind.isOrdinary = true)
    (hdepth : kind = .rightBrace → depth ≠ 0) (n : Nat) :
    (s.take kind n).2.InCode (kind.opensMemberName || kind == .amp && last == .functionWord) kind
      (depthAfter depth kind) (text.drop n) := by
  have hskip := h.skip n
  have hbraces : kind = .rightBrace → (s.skip n).depth ≠ 0 := by
    rw [hskip.depth_eq]
    exact hdepth
  -- of the depths only the greatest is not told by the kind of the token
  obtain ⟨m, henter⟩ :=
    exists_enter_eq (s.skip n) (tokenSpan s.pos (s.skip n).pos (s.rest.take n)) hkind hbraces
  have htake : (s.take kind n).2 = { s.skip n with
      depth := depthAfter (s.skip n).depth kind, maxDepth := m, last := kind,
      beforeLast := (s.skip n).last } := by
    rw [Scanner.take]
    dsimp only
    rw [henter, remember_of_isOrdinary _ hkind]
  rw [htake]
  exact
    { hskip with
      member_eq := by rw [atMemberName, hskip.last_eq]
      last_eq := rfl
      depth_eq := by rw [hskip.depth_eq] }

end InCode

/-- A run is determined by its first request. -/
theorem run_congr {s s' : Scanner} (h : s.next = s'.next) : s.run = s'.run := by
  by_cases hk : s.next.1.kind = .endOfText
  · rw [run_of_endOfText hk, run_of_endOfText (s := s') (h ▸ hk), h]
  · rw [run_of_ne hk, run_of_ne (s := s') (h ▸ hk), h]

end Scanner

/-- **The tokens of spelled text** are its words, and then the end. There is no error. -/
theorem Spells.run {member : Bool} {last : Kind} {depth : Nat} {text : List Char}
    {words : List (Kind × String)} (h : Spells member last depth text words) {s : Scanner}
    (hs : s.InCode member last depth text) :
    s.tokens.map spelling = words ++ [(.endOfText, "")] ∧ s.run.2.errors = [] := by
  -- word by word; a scanner that stands in code in front of a text stands so behind a word
  induction h generalizing s with
  | done =>
    have hnext : s.next = s.finish := (Scanner.Emits.finish hs.rest_eq).next_eq
    have hend : s.next.1.kind = .endOfText := by rw [hnext]; rfl
    rw [Scanner.tokens_of_endOfText hend, Scanner.run_of_endOfText hend, hnext]
    refine ⟨rfl, ?_⟩
    simp [Scanner.finish, hs.depth_eq, hs.errors_eq]
  | @blank member last depth text words hspace _ ih =>
    have hpiece : s.piece? = some ⟨.trivia, 1, Nat.one_pos⟩ := by
      rw [hs.piece?_eq]
      cases text with
      | nil => rfl
      | cons c text =>
        have hc : Text.isSpace c = false := by simpa using hspace
        simp [codePiece?, hc, show Text.isSpace ' ' = true by decide]
    -- the blank is passed over, and the request is answered behind it
    have hrun : s.run = (s.skip 1).run :=
      Scanner.run_congr (by rw [Scanner.next_of_some hpiece])
    rw [Scanner.tokens, hrun]
    exact ih (hs.skip 1)
  | @token member last kind depth lexeme text words hcuts hkind hdepth _ ih =>
    obtain ⟨p, hp, hv, hlength⟩ := hcuts
    rw [← hs.piece?_eq] at hp
    -- the first request yields the word
    have hnext : s.next = s.take kind p.length := by rw [Scanner.next_of_some hp, hv]
    have hne : s.next.1.kind ≠ .endOfText := by
      rw [hnext]
      rintro rfl
      exact absurd hkind (by decide)
    have hbehind := hs.take hkind hdepth p.length
    rw [hlength, List.drop_left, ← hlength, ← hnext] at hbehind
    obtain ⟨htokens, herrors⟩ := ih hbehind
    rw [Scanner.tokens_of_ne hne, Scanner.run_of_ne hne, List.map_cons, htokens]
    refine ⟨?_, herrors⟩
    rw [List.cons_append, hnext, spelling, Scanner.take, hs.rest_eq, hlength, List.take_left]

theorem Spells.isOrdinary {member : Bool} {last : Kind} {depth : Nat} {text : List Char}
    {words : List (Kind × String)} (h : Spells member last depth text words) :
    ∀ w ∈ words, w.1.isOrdinary = true := by
  induction h with
  | done => exact nofun
  | blank _ _ ih => exact ih
  | token _ _ hkind _ _ ih =>
    intro w hw
    rcases List.mem_cons.mp hw with rfl | hw
    · exact hkind
    · exact ih w hw

/-- The same for a file that begins with a tag and a blank. -/
theorem Spells.ofFile {code : List Char} {words : List (Kind × String)}
    (h : Spells false .openTag 0 code words) {source : String}
    (hsource : source.toList = "<?php ".toList ++ code) :
    (Scanner.ofFile source).tokens.map spelling
        = (.openTag, "<?php ") :: words ++ [(.endOfText, "")] ∧
      (Scanner.ofFile source).run.2.errors = [] := by
  set s := Scanner.ofFile source with hs
  have hrest : s.rest = "<?php ".toList ++ code := hsource
  have hpiece : s.piece? = some ⟨.token .openTag, 6, by omega⟩ := by
    rw [Scanner.piece?_of_html rfl, hrest]
    rfl
  have hnext : s.next = s.take .openTag 6 := by rw [Scanner.next_of_some hpiece]
  have hne : s.next.1.kind ≠ .endOfText := by
    rw [hnext]
    exact nofun
  -- behind the tag the scanner stands in code, and no name of a member can follow
  have hcode : s.next.2.InCode false .openTag 0 code := by
    rw [hnext]
    exact
      { mode_eq := rfl
        rest_eq := by rw [Scanner.rest_take, hrest]; rfl
        offset_ne := by
          rw [Scanner.pos_take, hrest]
          exact nofun
        member_eq := rfl
        last_eq := rfl
        depth_eq := rfl
        errors_eq := rfl
        finished_eq := rfl }
  obtain ⟨htokens, herrors⟩ := h.run hcode
  rw [Scanner.tokens_of_ne hne, Scanner.run_of_ne hne, List.map_cons, htokens]
  refine ⟨?_, herrors⟩
  rw [hnext, spelling, Scanner.take, hrest]
  rfl

/-! ### Single pieces -/

/-- Whether a name ends in front of the text. -/
def endsName : List Char → Bool
  | [] => true
  | c :: _ => !Text.isNamePart c && c != '\\'

/-- Whether the text is an identifier. -/
def isIdentifier : List Char → Bool
  | [] => false
  | c :: cs => Text.isNameStart c && cs.all Text.isNamePart

theorem isIdentifier_iff {cs : List Char} : isIdentifier cs = true ↔
    cs.head?.any Text.isNameStart = true ∧ ∀ c ∈ cs, Text.isNamePart c = true := by
  cases cs with
  | nil => simp [isIdentifier]
  | cons c cs =>
    -- what begins an identifier may stand in it too
    have hpart := Text.isNamePart_of_isNameStart (c := c)
    simp only [isIdentifier, Bool.and_eq_true, List.all_eq_true, List.head?_cons, Option.any_some,
      List.forall_mem_cons]
    exact ⟨fun h => ⟨h.1, hpart h.1, h.2⟩, fun h => ⟨h.1, h.2.2⟩⟩

theorem nameLength_append {cs : List Char} (h : cs.all Text.isNamePart = true) (rest : List Char) :
    nameLength (cs ++ rest) = cs.length + nameLength rest := by
  induction cs with
  | nil => simp
  | cons c cs ih =>
    simp only [List.all_cons, Bool.and_eq_true] at h
    rw [List.cons_append, nameLength, if_pos h.1, ih h.2, List.length_cons]
    omega

theorem nameLength_of_endsName {rest : List Char} (h : endsName rest = true) :
    nameLength rest = 0 := by
  cases rest with
  | nil => rfl
  | cons c rest => simp_all [endsName, nameLength]

/-- Identifiers with backslashes between them begin a name, and are all of it if the text behind
them does not go on with it. -/
theorem exists_name {segments : List (List Char)} {rest : List Char} (hne : segments ≠ [])
    (h : ∀ l ∈ segments, isIdentifier l = true) (hrest : nameLength rest = 0) :
    ∃ c cs, ['\\'].intercalate segments = c :: cs ∧ Text.isNameStart c = true ∧
      nameLength (cs ++ rest) = cs.length := by
  induction segments with
  | nil => exact absurd rfl hne
  | cons l segments ih =>
    have hl := h l List.mem_cons_self
    cases l with
    | nil => simp [isIdentifier] at hl
    | cons c cs =>
      obtain ⟨hc, hcs⟩ : Text.isNameStart c = true ∧ cs.all Text.isNamePart = true := by
        simpa only [isIdentifier, Bool.and_eq_true] using hl
      cases segments with
      | nil =>
        refine ⟨c, cs, by simp [List.intercalate], hc, ?_⟩
        rw [nameLength_append hcs, hrest, Nat.add_zero]
      | cons l' segments =>
        obtain ⟨c', cs', heq, hc', hlength⟩ :=
          ih (List.cons_ne_nil _ _) fun l hl => h l (List.mem_cons_of_mem _ hl)
        refine ⟨c, cs ++ '\\' :: c' :: cs', ?_, hc, ?_⟩
        · rw [List.intercalate_cons_cons, heq]
          simp
        · -- the backslash counts, since an identifier begins behind it
          have hpart := Text.isNamePart_of_isNameStart hc'
          rw [List.append_assoc, nameLength_append hcs, List.cons_append, nameLength,
            if_neg (by decide), if_pos ⟨rfl, by simpa using hc'⟩, List.cons_append, nameLength,
            if_pos hpart, hlength]
          simp only [List.length_append, List.length_cons]

/-- A character that begins an identifier is none of those that begin something else. -/
theorem ne_of_isNameStart {c x : Char} (hc : Text.isNameStart c = true)
    (hx : Text.isNameStart x = false) : c ≠ x := by
  rintro rfl
  rw [hc] at hx
  exact absurd hx (by decide)

theorem isDigit_of_isNameStart {c : Char} (hc : Text.isNameStart c = true) :
    Text.isDigit c = false := by
  have hle : ∀ {a b : Char}, a ≤ b ↔ a.toNat ≤ b.toNat := UInt32.le_iff_toNat_le
  have hnine : '9'.toNat = 57 := rfl
  by_contra hdigit
  simp only [Text.isDigit, Bool.not_eq_false, Bool.and_eq_true, decide_eq_true_eq, hle] at hdigit
  simp only [Text.isNameStart, Text.isLetter, Bool.or_eq_true, Bool.and_eq_true,
    decide_eq_true_eq, beq_iff_eq, hle] at hc
  rcases hc with ((⟨hletter, -⟩ | ⟨hletter, -⟩) | rfl) | hbeyond
  · change 97 ≤ c.toNat at hletter
    omega
  · change 65 ≤ c.toNat at hletter
    omega
  · exact absurd hdigit (by decide)
  · omega

theorem isSpace_of_isNameStart {c : Char} (hc : Text.isNameStart c = true) :
    Text.isSpace c = false := by
  have hne : ∀ x, Text.isNameStart x = false → c ≠ x := fun _ => ne_of_isNameStart hc
  simp [Text.isSpace, hne ' ' (by decide), hne '\t' (by decide), hne '\n' (by decide),
    hne '\x0c' (by decide), hne '\r' (by decide)]

theorem codePiece?_of_isNameStart {c : Char} (hc : Text.isNameStart c = true) (member : Bool)
    (rest : List Char) :
    codePiece? member false (c :: rest) = some
      ⟨.token (nameKind member ((c :: rest).take (nameLength rest + 1))), nameLength rest + 1,
        Nat.succ_pos _⟩ := by
  -- no other piece begins with such a character
  have hne : ∀ x, Text.isNameStart x = false → c ≠ x := fun _ => ne_of_isNameStart hc
  simp [codePiece?, hc, isSpace_of_isNameStart hc, isDigit_of_isNameStart hc, hne '?' (by decide),
    hne '#' (by decide), hne '/' (by decide), hne '\'' (by decide), hne '"' (by decide),
    hne '\x60' (by decide), hne '<' (by decide), hne '$' (by decide), hne '.' (by decide)]

/-- **Names.** Identifiers with backslashes between them are cut as one piece. -/
theorem cuts_name {segments : List (List Char)} {rest : List Char} (hne : segments ≠ [])
    (h : ∀ l ∈ segments, isIdentifier l = true) (hrest : nameLength rest = 0) (member : Bool) :
    Cuts member (['\\'].intercalate segments) rest
      (nameKind member (['\\'].intercalate segments)) := by
  obtain ⟨c, cs, heq, hc, hlength⟩ := exists_name hne h hrest
  rw [heq]
  refine ⟨_, codePiece?_of_isNameStart hc member (cs ++ rest), ?_, ?_⟩
  · show Verdict.token (nameKind member ((c :: cs ++ rest).take _)) = _
    rw [hlength, ← List.length_cons (a := c), List.take_left]
  · exact congrArg (· + 1) hlength

/-- An identifier alone. -/
theorem cuts_identifier {name rest : List Char} (hname : isIdentifier name = true)
    (hrest : endsName rest = true) {member : Bool} {kind : Kind}
    (hkind : nameKind member name = kind) : Cuts member name rest kind := by
  have hcuts := cuts_name (List.cons_ne_nil name []) (by simpa using hname)
    (nameLength_of_endsName hrest) member
  simpa [List.intercalate, hkind] using hcuts

/-- A backslash in front of identifiers is part of the name. -/
theorem cuts_rootedName {segments : List (List Char)} {rest : List Char} (hne : segments ≠ [])
    (h : ∀ l ∈ segments, isIdentifier l = true) (hrest : nameLength rest = 0) (member : Bool) :
    Cuts member ('\\' :: ['\\'].intercalate segments) rest .name := by
  obtain ⟨c, cs, heq, hc, hlength⟩ := exists_name hne h hrest
  have hpart := Text.isNamePart_of_isNameStart hc
  have hbehind : nameLength (c :: (cs ++ rest)) = cs.length + 1 := by
    rw [nameLength, if_pos hpart, hlength]
  rw [heq]
  refine ⟨⟨.token .name, (c :: cs).length + 1, Nat.succ_pos _⟩, ?_, rfl, rfl⟩
  -- a backslash makes the piece a name, whatever the words in it are
  have hplain : Text.isSpace '\\' = false ∧ Text.isDigit '\\' = false := by decide
  simp [codePiece?, hc, hplain, hbehind, nameKind]

/-- **Brackets,** commas and semicolons are cut whatever follows. -/
theorem cuts_delimiter {c : Char} {kind : Kind}
    (h : (c, kind) ∈ [('(', Kind.leftParen), (')', .rightParen), ('\x7b', .leftBrace),
      ('\x7d', .rightBrace), (',', .comma), (';', .semicolon)]) (rest : List Char)
    (member : Bool) : Cuts member [c] rest kind := by
  simp only [List.mem_cons, Prod.mk.injEq, List.not_mem_nil, or_false] at h
  rcases h with ⟨rfl, rfl⟩ | ⟨rfl, rfl⟩ | ⟨rfl, rfl⟩ | ⟨rfl, rfl⟩ | ⟨rfl, rfl⟩ | ⟨rfl, rfl⟩ <;>
    exact ⟨_, rfl, rfl, rfl⟩

/-- Whether a type begins at the head of the text, an opening parenthesis included. -/
def beginsType : List Char → Bool
  | [] => false
  | c :: _ => Text.isNameStart c || c == '('

theorem isSpace_of_beginsType {c : Char} {rest : List Char} (h : beginsType (c :: rest) = true) :
    Text.isSpace c = false := by
  rcases Bool.or_eq_true_iff.mp h with hc | hc
  · exact isSpace_of_isNameStart hc
  · obtain rfl : c = '(' := by simpa using hc
    decide

/-- The marks between types and in front of them. -/
def typeMarks : List (Char × Kind) := [('|', .pipe), ('&', .amp), ('?', .question)]

/-- Such a mark is cut where a type follows. -/
theorem cuts_joiner {c : Char} {kind : Kind}
    (h : (c, kind) ∈ typeMarks) {rest : List Char}
    (hrest : beginsType rest = true) (member : Bool) : Cuts member [c] rest kind := by
  cases rest with
  | nil => simp [beginsType] at hrest
  | cons d rest =>
    -- no longer piece begins with the mark
    have hne : ∀ x, (Text.isNameStart x || x == '(') = false → x ≠ d := by
      rintro x hx rfl
      rw [beginsType, hx] at hrest
      exact absurd hrest (by decide)
    have hplain : ∀ c ∈ ['|', '&', '?'],
        Text.isSpace c = false ∧ Text.isDigit c = false ∧ Text.isNameStart c = false := by
      simp only [List.forall_mem_cons, List.not_mem_nil, false_implies, implies_true, and_true]
      decide
    simp only [typeMarks, List.mem_cons, Prod.mk.injEq, List.not_mem_nil, or_false] at h
    rcases h with ⟨rfl, rfl⟩ | ⟨rfl, rfl⟩ | ⟨rfl, rfl⟩
    · refine ⟨⟨.token .pipe, 1, Nat.one_pos⟩, ?_, rfl, rfl⟩
      simp [codePiece?, punctuationPiece, punctuation, hplain,
        hne '|' (by decide), hne '=' (by decide)]
    · refine ⟨⟨.token .amp, 1, Nat.one_pos⟩, ?_, rfl, rfl⟩
      simp [codePiece?, punctuationPiece, punctuation, hplain,
        hne '&' (by decide), hne '=' (by decide)]
    · refine ⟨⟨.token .question, 1, Nat.one_pos⟩, ?_, rfl, rfl⟩
      simp [codePiece?, punctuationPiece, punctuation, hplain,
        hne '?' (by decide), hne '-' (by decide), (hne '>' (by decide)).symm]

/-! ### Calm text -/

/-- Text that is cut into the words wherever no name of a member would stand. -/
def Calm (depth : Nat) (text : List Char) (words : List (Kind × String)) : Prop :=
  ∀ last : Kind, last.opensMemberName = false → Spells false last depth text words

section Calm

variable {depth : Nat} {text : List Char} {words : List (Kind × String)}

theorem Calm.token (lexeme : List Char) {kind : Kind} (hcuts : Cuts false lexeme text kind)
    (hkind : kind.isOrdinary = true) (hopens : kind.opensMemberName = false)
    (hdepth : kind = .rightBrace → depth ≠ 0) (h : Calm (depthAfter depth kind) text words) :
    Calm depth (lexeme ++ text) ((kind, String.ofList lexeme) :: words) := by
  intro last hlast
  refine .token lexeme hcuts hkind hdepth ?_
  have hword : (last == .functionWord) = false := by
    refine beq_eq_false_iff_ne.mpr ?_
    rintro rfl
    exact absurd hlast (by decide)
  rw [hopens, hword, Bool.and_false, Bool.or_false]
  exact h kind hopens

theorem Calm.blank (hspace : text.head?.any Text.isSpace = false) (h : Calm depth text words) :
    Calm depth (' ' :: text) words := fun last hlast => .blank hspace (h last hlast)

/-- **Written words.** The text is cut into the words if a name ends behind it, and a type begins
with it. -/
structure Writes (text : List Char) (words : List (Kind × String)) : Prop where
  begins : ∀ rest, beginsType (text ++ rest) = true
  calm : ∀ {depth : Nat} {rest : List Char} {more : List (Kind × String)}, endsName rest = true →
    Calm depth rest more → Calm depth (text ++ rest) (words ++ more)

/-- **Separators.** The text ends a name, and in front of written words it is cut into one word. -/
structure Joins (sep : List Char) (word : Kind × String) : Prop where
  ends : ∀ rest, endsName (sep ++ rest) = true
  calm : ∀ {depth : Nat} {rest : List Char} {more : List (Kind × String)}, beginsType rest = true →
    Calm depth rest more → Calm depth (sep ++ rest) (word :: more)

/-- The marks between types are separators. -/
theorem Joins.mark {c : Char} {kind : Kind} (hmark : (c, kind) ∈ typeMarks) :
    Joins [c] (kind, String.ofList [c]) where
  ends := by
    intro rest
    simp only [typeMarks, List.mem_cons, Prod.mk.injEq, List.not_mem_nil, or_false] at hmark
    rcases hmark with ⟨rfl, rfl⟩ | ⟨rfl, rfl⟩ | ⟨rfl, rfl⟩ <;> rfl
  calm := by
    intro depth rest more hrest hcalm
    have hcuts := cuts_joiner hmark hrest false
    simp only [typeMarks, List.mem_cons, Prod.mk.injEq, List.not_mem_nil, or_false] at hmark
    rcases hmark with ⟨rfl, rfl⟩ | ⟨rfl, rfl⟩ | ⟨rfl, rfl⟩ <;>
      exact .token _ hcuts rfl rfl nofun hcalm

/-- So is a comma with a blank behind it. -/
theorem Joins.comma : Joins [',', ' '] (.comma, ",") where
  ends := fun _ => rfl
  calm := by
    intro depth rest more hrest hcalm
    have hspace : rest.head?.any Text.isSpace = false := by
      cases rest with
      | nil => rfl
      | cons c rest => exact isSpace_of_beginsType hrest
    exact .token [','] (cuts_delimiter (by decide) _ false) rfl rfl nofun (.blank hspace hcalm)

/-- Lists with a separator between their items. -/
theorem Writes.intercalate {sep : List Char} {word : Kind × String} (hsep : Joins sep word)
    (items : List (List Char × List (Kind × String))) (hne : items ≠ [])
    (h : ∀ i ∈ items, Writes i.1 i.2) :
    Writes (sep.intercalate (items.map (·.1))) ([word].intercalate (items.map (·.2))) := by
  induction items with
  | nil => exact absurd rfl hne
  | cons i items ih =>
    have hi := h i List.mem_cons_self
    cases items with
    | nil => simpa [List.intercalate] using hi
    | cons i' items =>
      have htail := ih (List.cons_ne_nil _ _) fun i hi => h i (List.mem_cons_of_mem _ hi)
      simp only [List.map_cons] at htail ⊢
      rw [List.intercalate_cons_cons, List.intercalate_cons_cons]
      constructor
      · intro rest
        rw [List.append_assoc, List.append_assoc]
        exact hi.begins _
      · intro depth rest more hrest hcalm
        rw [List.append_assoc, List.append_assoc, List.append_assoc, List.append_assoc]
        -- an item, the separator behind it, and the other items
        refine hi.calm (hsep.ends _) ?_
        exact hsep.calm (htail.begins rest) (htail.calm hrest hcalm)

/-- What stands in parentheses. -/
theorem Writes.parenthesized (h : Writes text words) :
    Writes ('(' :: (text ++ [')']))
      ((.leftParen, String.ofList ['(']) :: (words ++ [(.rightParen, String.ofList [')'])])) where
  begins := fun _ => rfl
  calm := by
    intro depth rest more hrest hcalm
    have hclose : Calm depth ([')'] ++ rest) ((.rightParen, String.ofList [')']) :: more) :=
      .token _ (cuts_delimiter (by decide) rest false) rfl rfl nofun hcalm
    have hopen : Calm depth (['('] ++ (text ++ ([')'] ++ rest)))
        ((.leftParen, String.ofList ['(']) ::
          (words ++ (.rightParen, String.ofList [')']) :: more)) :=
      .token _ (cuts_delimiter (by decide) _ false) rfl rfl nofun (h.calm rfl hclose)
    simpa using hopen

end Calm

end Introspect.Token
