import Introspect.Token.Piece
import Mathlib.Tactic.Common

/-!
# The pieces of code

`codePiece?` tries one test after the other, and a piece is what the first test that holds says.
Here its answers are listed once, each with the text at whose head it is given
(`CodePiece`, `codePiece?_cases`), so that a statement about all pieces of code is a case for each
kind of piece. A test that came before is remembered only where later proofs need it.

The recognisers of single pieces are described by the verdicts that they can come to:
`commentPiece_cases`, `quotedPiece_cases`, `heredocPiece?_cases`, `numberPiece_cases`,
`nameKind_cases` and `punctuationPiece_cases`, and `htmlPiece?_cases` for text outside of code.
-/

namespace Introspect.Token

/-! ### Verdicts -/

theorem commentPiece_cases (rest : List Char) :
    (commentPiece rest).verdict = .trivia ∨ (commentPiece rest).verdict = .token .docComment ∨
      (commentPiece rest).verdict = .broken .unterminatedComment := by
  unfold commentPiece
  split
  · -- closed: a doc comment is a token, any other one is trivia
    dsimp only
    split
    · exact .inr (.inl rfl)
    · exact .inl rfl
  · exact .inr (.inr rfl)

theorem quotedPiece_cases (quote : Char) (kind : Kind) (rest : List Char) :
    (quotedPiece quote kind rest).verdict = .token kind ∨
      (quotedPiece quote kind rest).verdict = .broken .unterminatedString := by
  unfold quotedPiece
  split
  · exact .inl rfl
  · exact .inr rfl

theorem heredocPiece?_cases {rest : List Char} {p : Piece} (h : heredocPiece? rest = some p) :
    p.verdict = .token .heredocLiteral ∨
      ∃ label, p.verdict = .broken (.unterminatedHeredoc label) := by
  unfold heredocPiece? at h
  split at h
  · -- without a header there is no piece
    exact absurd h (by simp)
  · split at h <;> obtain rfl := Option.some.inj h
    · exact .inl rfl
    · exact .inr ⟨_, rfl⟩

theorem decimal_cases (cs : List Char) :
    (numberPiece.decimal cs).verdict = .token .intLiteral ∨
      (numberPiece.decimal cs).verdict = .token .floatLiteral := by
  unfold numberPiece.decimal
  dsimp only
  split
  · exact .inl rfl
  · exact .inr rfl

theorem numberPiece_cases (cs : List Char) :
    (numberPiece cs).verdict = .token .intLiteral ∨
      (numberPiece cs).verdict = .token .floatLiteral ∨
      ∃ detail, (numberPiece cs).verdict = .broken (.invalidNumber detail) := by
  have hdecimal : ∀ ds, (numberPiece.decimal ds).verdict = .token .intLiteral ∨
      (numberPiece.decimal ds).verdict = .token .floatLiteral ∨
      ∃ detail, (numberPiece.decimal ds).verdict = .broken (.invalidNumber detail) :=
    fun ds => (decimal_cases ds).imp_right .inl
  unfold numberPiece
  split
  · split
    · -- a radix is broken if no digit follows it
      split
      · exact .inr (.inr ⟨_, rfl⟩)
      · exact .inl rfl
    · exact hdecimal _
  · exact hdecimal _

theorem nameKind_cases (memberPosition : Bool) (text : List Char) :
    nameKind memberPosition text = .name ∨
      ∃ word, (word, nameKind memberPosition text) ∈ Kind.reservedWords := by
  unfold nameKind
  split
  · exact .inl rfl
  · -- no member position: a reserved word has its own kind
    cases h : Kind.ofWord? (String.ofList text) with
    | none => exact .inl rfl
    | some kind =>
      obtain ⟨l₁, l₂, hl, -⟩ := List.lookup_eq_some_iff.mp h
      exact .inr ⟨_, hl ▸ List.mem_append_right l₁ List.mem_cons_self⟩

theorem punctuationPiece_cases (c : Char) (cs : List Char) :
    (∃ text kind, (text, kind) ∈ punctuation ∧
        (punctuationPiece c cs).verdict = .token kind) ∨
      (punctuationPiece c cs).verdict = .broken (.unexpectedChar c) := by
  unfold punctuationPiece
  split
  · next text kind h => exact .inl ⟨text, kind, List.mem_of_find?_eq_some h, rfl⟩
  · exact .inr rfl

/-! ### Text outside of code -/

theorem openTag?_kind {cs : List Char} {kind : Kind} {n : Nat} (h : openTag? cs = some (kind, n)) :
    kind = .openTag ∨ kind = .openTagWithEcho := by
  unfold openTag? at h
  split at h
  · dsimp only at h
    split_ifs at h <;> simp_all
  · simp at h

/-- Outside of code there are open tags and the text between them. -/
theorem htmlPiece?_cases {cs : List Char} {p : Piece} (h : htmlPiece? cs = some p) :
    p.verdict = .token .inlineHtml ∨
      ∃ kind n, openTag? cs = some (kind, n) ∧ p.verdict = .token kind := by
  unfold htmlPiece? at h
  split at h
  · next kind n htag =>
    obtain rfl := Option.some.inj h
    exact .inr ⟨kind, _, htag, rfl⟩
  · split at h
    · exact absurd h (by simp)
    · obtain rfl := Option.some.inj h
      exact .inl rfl

/-! ### Pieces -/

/-- The kind of the string that a quote opens. -/
def stringKind? : Char → Option Kind
  | '\'' => some .stringLiteral
  | '"' | '\x60' => some .interpolatedString
  | _ => none

/-- Whether a written name begins at the head of the text. -/
def beginsName : List Char → Bool
  | [] => false
  | c :: rest => Text.isNameStart c || (c == '\\' && rest.head?.any Text.isNameStart)

/-- **The pieces of code,** each with the text at whose head it stands. -/
inductive CodePiece (memberPosition atStart : Bool) : List Char → Piece → Prop where
  | byteOrderMark {rest : List Char} {p : Piece} (h : atStart = true)
      (hp : p = ⟨.trivia, 1, Nat.one_pos⟩) :
      CodePiece memberPosition atStart ('\uFEFF' :: rest) p
  | space {c : Char} {rest : List Char} {p : Piece} (h : Text.isSpace c = true)
      (hp : p = ⟨.trivia, (rest.takeWhile Text.isSpace).length + 1, Nat.succ_pos _⟩) :
      CodePiece memberPosition atStart (c :: rest) p
  | closeTag {rest : List Char} {p : Piece}
      (hp : p = ⟨.token .closeTag, 2 + lineBreakLength rest, Nat.add_pos_left Nat.two_pos _⟩) :
      CodePiece memberPosition atStart ('?' :: '>' :: rest) p
  | attributeOpen {rest : List Char} {p : Piece}
      (hp : p = ⟨.token .attributeOpen, 2, Nat.two_pos⟩) :
      CodePiece memberPosition atStart ('#' :: '[' :: rest) p
  | lineComment (lead rest : List Char) {p : Piece}
      (hlead : lead = ['/', '/'] ∨ (lead = ['#'] ∧ rest.head? ≠ some '['))
      (hverdict : p.verdict = .trivia) (hlength : p.length = lineCommentLength rest + lead.length) :
      CodePiece memberPosition atStart (lead ++ rest) p
  | blockComment {rest : List Char} :
      CodePiece memberPosition atStart ('/' :: '*' :: rest) (commentPiece rest)
  | quoted {quote : Char} {kind : Kind} {rest : List Char} (h : stringKind? quote = some kind) :
      CodePiece memberPosition atStart (quote :: rest) (quotedPiece quote kind rest)
  | heredoc {rest : List Char} {p : Piece} (h : heredocPiece? rest = some p) :
      CodePiece memberPosition atStart ('<' :: '<' :: '<' :: rest) p
  | variableName {rest : List Char} {p : Piece} (h : rest.head?.any Text.isNameStart = true)
      (hp : p = ⟨.token .variableName, (rest.takeWhile Text.isNamePart).length + 1,
        Nat.succ_pos _⟩) :
      CodePiece memberPosition atStart ('$' :: rest) p
  | number {cs : List Char} : CodePiece memberPosition atStart cs (numberPiece cs)
  | name {c : Char} {rest : List Char} {p : Piece} (h : beginsName (c :: rest) = true)
      (hp : p = ⟨.token (nameKind memberPosition ((c :: rest).take (nameLength rest + 1))),
        nameLength rest + 1, Nat.succ_pos _⟩) :
      CodePiece memberPosition atStart (c :: rest) p
  | punctuation {c : Char} {rest : List Char} :
      CodePiece memberPosition atStart (c :: rest) (punctuationPiece c rest)

section Cases

variable {memberPosition atStart : Bool}

private theorem codePiece_ite {cs : List Char} {c : Prop} [Decidable c] {p q : Piece}
    (hp : c → CodePiece memberPosition atStart cs p)
    (hq : ¬ c → CodePiece memberPosition atStart cs q) :
    CodePiece memberPosition atStart cs (if c then p else q) :=
  iteInduction (motive := CodePiece memberPosition atStart cs) hp hq

/-- **What is found in code** is one of the pieces of code. -/
theorem codePiece?_cases {cs : List Char} {p : Piece}
    (h : codePiece? memberPosition atStart cs = some p) :
    CodePiece memberPosition atStart cs p := by
  cases cs with
  | nil => exact absurd h (by simp [codePiece?])
  | cons c rest =>
    rw [codePiece?, Option.some.injEq] at h
    subst h
    -- the tests of `codePiece?` in their order
    refine codePiece_ite (fun hmark => ?_) fun _ => ?_
    · obtain ⟨rfl, hstart⟩ := hmark
      exact .byteOrderMark hstart rfl
    refine codePiece_ite (fun hspace => .space hspace rfl) fun _ => ?_
    refine codePiece_ite (fun hclose => ?_) fun _ => ?_
    · obtain ⟨rfl, hhead⟩ := hclose
      obtain ⟨ds, rfl⟩ := List.head?_eq_some_iff.mp hhead
      exact .closeTag rfl
    refine codePiece_ite (fun hsign => ?_) fun _ => ?_
    · subst hsign
      refine codePiece_ite (fun hbracket => ?_) fun hbracket => ?_
      · obtain ⟨ds, rfl⟩ := List.head?_eq_some_iff.mp hbracket
        exact .attributeOpen rfl
      · exact .lineComment ['#'] rest (.inr ⟨rfl, hbracket⟩) rfl rfl
    refine codePiece_ite (fun hslashes => ?_) fun _ => ?_
    · obtain ⟨rfl, hhead⟩ := hslashes
      obtain ⟨ds, rfl⟩ := List.head?_eq_some_iff.mp hhead
      exact .lineComment ['/', '/'] ds (.inl rfl) rfl rfl
    refine codePiece_ite (fun hstar => ?_) fun _ => ?_
    · obtain ⟨rfl, hhead⟩ := hstar
      obtain ⟨ds, rfl⟩ := List.head?_eq_some_iff.mp hhead
      exact .blockComment
    refine codePiece_ite (fun hquote => ?_) fun _ => ?_
    · subst hquote
      exact .quoted rfl
    refine codePiece_ite (fun hquote => ?_) fun _ => ?_
    · rcases hquote with rfl | rfl <;> exact .quoted rfl
    refine codePiece_ite (fun hangles => ?_) fun _ => ?_
    · obtain ⟨rfl, hprefix⟩ := hangles
      obtain ⟨ds, rfl⟩ := List.isPrefixOf_iff_prefix.mp hprefix
      -- angle brackets that open no heredoc are punctuation
      cases hheredoc : heredocPiece? ds with
      | none =>
        simp only [List.cons_append, List.nil_append, List.drop_succ_cons, List.drop_zero, hheredoc]
        exact .punctuation
      | some p =>
        simp only [List.cons_append, List.nil_append, List.drop_succ_cons, List.drop_zero, hheredoc]
        exact .heredoc hheredoc
    refine codePiece_ite (fun hdollar => ?_) fun _ => ?_
    · obtain ⟨rfl, hhead⟩ := hdollar
      exact .variableName hhead rfl
    refine codePiece_ite (fun _ => .number) fun _ => ?_
    refine codePiece_ite (fun hname => .name ?_ rfl) fun _ => .punctuation
    simpa [beginsName] using hname

end Cases

end Introspect.Token
