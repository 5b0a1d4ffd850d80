import Introspect.Text.Bytes

/-!
# Places in a source text

A `Position` is a point of a text: the number of bytes before it, its line and its column, lines
and columns counted from one and columns in bytes. A `Span` is a stretch of text: where it starts,
the line on which it ends and how many bytes it covers.

* `Position.after` moves a position over text: only a line feed begins a new line;
* `Span.merge` covers two spans, and starts where the earlier of them starts;
* `Span.slice?` is the text that a span covers.
-/

namespace Introspect

/-- A point of a source text. -/
structure Position where
  /-- Bytes before the point. -/
  offset : Nat
  /-- Line, counted from one. -/
  line : Nat
  /-- Column in bytes, counted from one. -/
  col : Nat
  deriving DecidableEq, Repr, Inhabited

namespace Position

/-- The beginning of a text. -/
def start : Position := ⟨0, 1, 1⟩

/-- The position behind one character. -/
def advance (p : Position) (c : Char) : Position :=
  if c = '\n' then ⟨p.offset + c.utf8Size, p.line + 1, 1⟩
  else ⟨p.offset + c.utf8Size, p.line, p.col + c.utf8Size⟩

/-- The position behind a piece of text. -/
def after (p : Position) (text : List Char) : Position :=
  text.foldl advance p

@[simp] theorem after_nil (p : Position) : p.after [] = p := rfl

@[simp] theorem after_cons (p : Position) (c : Char) (cs : List Char) :
    p.after (c :: cs) = (p.advance c).after cs := rfl

theorem after_append (p : Position) (cs ds : List Char) :
    p.after (cs ++ ds) = (p.after cs).after ds := by
  simp [after]

@[simp] theorem offset_advance (p : Position) (c : Char) :
    (p.advance c).offset = p.offset + c.utf8Size := by
  unfold advance
  split <;> rfl

theorem offset_after (p : Position) (cs : List Char) :
    (p.after cs).offset = p.offset + Text.byteLength cs := by
  induction cs generalizing p with
  | nil => simp
  | cons c cs ih => simp [ih, Nat.add_assoc]

end Position

/-- A stretch of source text. -/
structure Span where
  /-- Line of the first byte, counted from one. -/
  line : Nat
  /-- Line on which the stretch ends. -/
  endLine : Nat
  /-- Column of the first byte, counted from one. -/
  col : Nat
  /-- Bytes before the first byte. -/
  offset : Nat
  /-- Length in bytes. -/
  len : Nat
  deriving DecidableEq, Repr, Inhabited

namespace Span

/-- The empty span at a position. -/
def point (p : Position) : Span :=
  ⟨p.line, p.line, p.col, p.offset, 0⟩

/-- The span between two positions, the second of which is not before the first. -/
def between (p q : Position) : Span :=
  ⟨p.line, max q.line p.line, p.col, p.offset, q.offset - p.offset⟩

/-- Whether the span covers no byte. -/
def isEmpty (s : Span) : Bool := s.len == 0

/-- The offset behind the last byte. -/
def stop (s : Span) : Nat := s.offset + s.len

/-- **Merging.** The smallest span that covers both. Line and column are those of the span that
starts first, of the left one if they start together. -/
def merge (s t : Span) : Span :=
  let first := if s.offset ≤ t.offset then s else t
  { line := first.line, endLine := max s.endLine t.endLine, col := first.col,
    offset := first.offset, len := max s.stop t.stop - first.offset }

/-- The covered text, if the span lies inside `source` and cuts no character. -/
def slice? (s : Span) (source : String) : Option String :=
  Text.slice? source s.offset s.len

/-- Where the span starts, as `line:column`. -/
def text (s : Span) : String :=
  toString s.line ++ ":" ++ toString s.col

/-- Where the span starts, with the line on which it ends when that is another one. -/
def rangeText (s : Span) : String :=
  if s.endLine = s.line then s.text else s.text ++ "-" ++ toString s.endLine

@[simp] theorem stop_point (p : Position) : (point p).stop = p.offset := rfl

end Span

end Introspect
