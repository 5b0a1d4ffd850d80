import Introspect.Token.Piece

/-!
# The scanner

A `Scanner` stands at a position of a source text. `Scanner.next` passes over trivia and gives the
next token with the scanner behind it; at the end of the text it gives the token `endOfText`, again
and again. On the way the scanner keeps

* the **mode**: source text alternates between text that is passed through and code between tags;
* the **depth** of braces, which a stray closing brace leaves at zero, and the greatest depth so
  far;
* the kinds of the **two tokens before**, doc comments, passed-through text and invalid input aside,
  which decide whether a reserved word is the name of a member;
* the **errors** found so far, in the order of the text.

`Scanner.next_rest_lt` says that a token other than the last one consumes text, and `Scanner.run`
rests on it: it gives all tokens up to the end.
-/

namespace Introspect.Token

/-- The state of a scan. -/
structure Scanner where
  /-- The text that is still to be read. -/
  rest : List Char
  /-- Where that text begins. -/
  pos : Position
  mode : Mode
  /-- Braces that are open. -/
  depth : Nat
  /-- The most braces that were open at once. -/
  maxDepth : Nat
  /-- Kind of the last significant token. -/
  last : Kind
  /-- Kind of the significant token before the last one. -/
  beforeLast : Kind
  /-- Errors so far, in order. -/
  errors : List LexicalError
  /-- Whether the end of the text has been seen. -/
  finished : Bool
  deriving Repr, Inhabited

namespace Scanner

/-- A scanner at the beginning of `source`, in the given mode. -/
def start (mode : Mode) (source : String) : Scanner :=
  { rest := source.toList, pos := .start, mode, depth := 0, maxDepth := 0, last := .endOfText,
    beforeLast := .endOfText, errors := [], finished := false }

/-- A scanner for a source file: code begins at the first open tag. -/
def ofFile (source : String) : Scanner := start .html source

/-- A scanner for code alone. -/
def ofCode (source : String) : Scanner := start .code source

/-- Whether the next name is the name of a member: it stands behind an arrow, a double colon or the
word `function`, or behind `function` and an ampersand. -/
def atMemberName (s : Scanner) : Bool :=
  s.last.opensMemberName || (s.last == .amp && s.beforeLast == .functionWord)

/-- The piece at the head of the remaining text. -/
def piece? (s : Scanner) : Option Piece :=
  match s.mode with
  | .html => htmlPiece? s.rest
  | .code => codePiece? s.atMemberName (s.pos.offset == 0) s.rest

/-- The scanner behind the next `n` characters. -/
def skip (s : Scanner) (n : Nat) : Scanner :=
  { s with rest := s.rest.drop n, pos := s.pos.after (s.rest.take n) }

/-- Records a kind as that of the last token, if tokens of that kind are significant. -/
def remember (s : Scanner) (kind : Kind) : Scanner :=
  match kind with
  -- A comment between an arrow and a name does not change what the name is.
  | .docComment | .inlineHtml | .invalid => s
  | _ => { s with last := kind, beforeLast := s.last }

/-- Adds an error. -/
def report (s : Scanner) (fault : LexicalFault) (span : Span) : Scanner :=
  { s with errors := s.errors ++ [⟨fault, span⟩] }

/-- What a token of this kind does to mode and depth. A closing brace at depth zero is an error. -/
def enter (s : Scanner) (kind : Kind) (span : Span) : Scanner :=
  match kind with
  | .openTag | .openTagWithEcho => { s with mode := .code }
  | .closeTag => { s with mode := .html }
  | .leftBrace => { s with depth := s.depth + 1, maxDepth := max s.maxDepth (s.depth + 1) }
  | .rightBrace =>
    match s.depth with
    -- The depth stays at zero, so that the braces behind it still match.
    | 0 => s.report .unbalancedScope span
    | d + 1 => { s with depth := d }
  | _ => s

/-- The span of a token between two positions. A line feed at its end belongs to the line it
ends. -/
def tokenSpan (p q : Position) (text : List Char) : Span :=
  let span := Span.between p q
  if text.getLast? = some '\n' ∧ p.line < q.line then { span with endLine := q.line - 1 } else span

/-- The end of the text: the last token. Seen for the first time, it reports braces left open. -/
def finish (s : Scanner) : Token × Scanner :=
  let span := Span.point s.pos
  let s' := { s with finished := true }
  -- The end may be read again and again; it reports once.
  let s' := if s.finished ∨ s.depth = 0 then s' else s'.report (.unclosedScope s.depth) span
  (⟨.endOfText, "", span⟩, s'.remember .endOfText)

/-- The token of `n` characters at the head of the remaining text, and the scanner behind it. -/
def take (s : Scanner) (kind : Kind) (n : Nat) : Token × Scanner :=
  let text := s.rest.take n
  let s' := s.skip n
  let span := tokenSpan s.pos s'.pos text
  (⟨kind, String.ofList text, span⟩, (s'.enter kind span).remember kind)

/-- Text of `n` characters that is no token, and the scanner behind it. -/
def reject (s : Scanner) (fault : LexicalFault) (n : Nat) : Token × Scanner :=
  let s' := s.skip n
  let span := Span.between s.pos s'.pos
  (⟨.invalid, "", span⟩, s'.report fault span)

/-! ### Progress -/

@[simp] theorem rest_skip (s : Scanner) (n : Nat) : (s.skip n).rest = s.rest.drop n := rfl

@[simp] theorem rest_remember (s : Scanner) (kind : Kind) : (s.remember kind).rest = s.rest := by
  unfold remember
  split <;> rfl

@[simp] theorem rest_report (s : Scanner) (fault : LexicalFault) (span : Span) :
    (s.report fault span).rest = s.rest := rfl

@[simp] theorem rest_enter (s : Scanner) (kind : Kind) (span : Span) :
    (s.enter kind span).rest = s.rest := by
  unfold enter
  split <;> try rfl
  split <;> rfl

@[simp] theorem rest_take (s : Scanner) (kind : Kind) (n : Nat) :
    (s.take kind n).2.rest = s.rest.drop n := by
  simp [take]

@[simp] theorem rest_reject (s : Scanner) (fault : LexicalFault) (n : Nat) :
    (s.reject fault n).2.rest = s.rest.drop n := rfl

/-- Where a piece begins, there is text. -/
theorem rest_ne_nil_of_piece? {s : Scanner} {p : Piece} (h : s.piece? = some p) : s.rest ≠ [] := by
  intro hnil
  unfold piece? at h
  rw [hnil] at h
  cases hm : s.mode <;> rw [hm] at h <;> simp [htmlPiece?, openTag?, codePiece?] at h

/-- Passing over a piece shortens the text. -/
theorem length_drop_lt_of_piece? {s : Scanner} {p : Piece} (h : s.piece? = some p) :
    (s.rest.drop p.length).length < s.rest.length := by
  have hne := List.length_pos_iff.mpr (rest_ne_nil_of_piece? h)
  have hp := p.length_pos
  simp only [List.length_drop]
  omega

/-! ### Tokens -/

/-- **The next token,** and the scanner behind it. Trivia in front of the token is passed over. -/
def next (s : Scanner) : Token × Scanner :=
  match _hp : s.piece? with
  | none => s.finish
  | some p =>
    match p.verdict with
    | .trivia => next (s.skip p.length)
    | .token kind => s.take kind p.length
    | .broken fault => s.reject fault p.length
termination_by s.rest.length
decreasing_by exact length_drop_lt_of_piece? _hp

/-- A token other than the end of the text consumes text. -/
theorem next_rest_lt (s : Scanner) (h : s.next.1.kind ≠ .endOfText) :
    s.next.2.rest.length < s.rest.length := by
  fun_induction next s with
  | case1 s hp => simp [finish] at h
  | case2 s p hp hv ih => exact Nat.lt_trans (ih h) (length_drop_lt_of_piece? hp)
  | case3 s p hp kind hv => simpa using length_drop_lt_of_piece? hp
  | case4 s p hp fault hv => simpa using length_drop_lt_of_piece? hp

/-- **All tokens.** The tokens up to the end of the text, which is the last of them, each with the
depth behind it, and the scanner at the end. -/
def run (s : Scanner) : List (Token × Nat) × Scanner :=
  let r := s.next
  if _h : r.1.kind = .endOfText then ([(r.1, r.2.depth)], r.2)
  else
    let tail := run r.2
    ((r.1, r.2.depth) :: tail.1, tail.2)
termination_by s.rest.length
decreasing_by exact next_rest_lt s _h

/-- The tokens up to the end of the text, which is the last of them. -/
def tokens (s : Scanner) : List Token := s.run.1.map (·.1)

end Scanner

end Introspect.Token
