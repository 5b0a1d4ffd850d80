import Introspect.Declaration.Draft
import Introspect.Reading.Buffer

/-!
# Routines that read tokens

A routine reads significant tokens from left to right. It yields a value or gives up with a
diagnostic; either way, what has been read stays read, and what has been reported stays reported.
`State` is where a routine stands: the tokens that remain, the scope of names and the diagnostics so
far.

* `peek`, `advance`, `eat`, `expect` look at and consume single tokens;
* `attempt` turns giving up into a value, which is how reading recovers;
* `iterate` repeats a step for as long as it consumes tokens, and `listOf` reads lists with it.
-/

namespace Introspect.Reading

/-- Where a routine stands. -/
structure State where
  /-- The tokens that remain; none at the end of the file. -/
  rest : List Entry
  /-- The token at the end of the file. -/
  eof : Token
  /-- Namespace and imports in effect. -/
  scope : Scope
  /-- What has been reported, in order. -/
  diagnostics : List Diagnostic
  deriving Repr, Inhabited

namespace State

/-- The token after `n` others; past the last one it is the end of the file. -/
def peekAt (s : State) (n : Nat) : Token :=
  (s.rest[n]?.map (·.token)).getD s.eof

/-- The next token. -/
def peek (s : State) : Token := s.peekAt 0

/-- Behind the next token. At the end of the file nothing moves. -/
def advance (s : State) : State := { s with rest := s.rest.tail }

/-- With one more diagnostic. -/
def report (s : State) (d : Diagnostic) : State :=
  { s with diagnostics := s.diagnostics ++ [d] }

@[simp] theorem rest_report (s : State) (d : Diagnostic) : (s.report d).rest = s.rest := rfl

@[simp] theorem rest_advance (s : State) : s.advance.rest = s.rest.tail := rfl

theorem peek_of_rest_nil {s : State} (h : s.rest = []) : s.peek = s.eof := by
  simp [peek, peekAt, h]

theorem peek_of_rest {s : State} {e : Entry} {es : List Entry} (h : s.rest = e :: es) :
    s.peek = e.token := by
  simp [peek, peekAt, h]

end State

/-- A routine that reads tokens and yields a value or gives up. -/
abbrev Routine (α : Type) := EStateM Diagnostic State α

/-! ### Repetition -/

/-- **Repetition.** Runs a step again and again with the value it yields, until it is done or gives
up. A step that yields without making the state smaller is the last one. -/
def iterate {ε σ β : Type} (size : σ → Nat) (step : β → EStateM ε σ (ForInStep β)) (b : β) :
    EStateM ε σ β := fun s =>
  match step b s with
  | .error e s' => .error e s'
  | .ok (.done b') s' => .ok b' s'
  -- The test is what the recursion rests on.
  | .ok (.yield b') s' => if size s' < size s then iterate size step b' s' else .ok b' s'
termination_by s => size s

/-- Runs a routine and yields what it yields or the diagnostic with which it gives up. -/
def attempt {ε σ α : Type} (r : EStateM ε σ α) : EStateM ε σ (Except ε α) := fun s =>
  match r s with
  | .ok a s' => .ok (.ok a) s'
  | .error e s' => .ok (.error e) s'

/-! ### Single tokens -/

/-- The next token. -/
def peek : Routine Token := do return (← get).peek

/-- The kind of the next token. -/
def peekKind : Routine Token.Kind := do return (← get).peek.kind

/-- Consumes and yields the next token. -/
def advance : Routine Token := do
  let s ← get
  set s.advance
  return s.peek

/-- Consumes the next token if it is of the kind. -/
def eat (kind : Token.Kind) : Routine (Option Token) := do
  if (← peekKind) = kind then return some (← advance) else return none

/-- Reports a diagnostic and goes on. -/
def report (d : Diagnostic) : Routine Unit := modify (·.report d)

/-- Gives up because something else was wanted than the next token. -/
def unexpected {α : Type} (wanted : String) : Routine α := do
  let found ← peek
  if found.kind = .endOfText then throw (.endOfFile found.span)
  else throw (.expected found.span wanted found.describe)

/-- Gives up because a name was wanted. -/
def unexpectedName {α : Type} : Routine α := do
  let found ← peek
  throw (.expectedName found.span found.describe)

/-- Consumes a token of the kind or gives up. -/
def expect (kind : Token.Kind) : Routine Token := do
  match ← eat kind with
  | some t => return t
  | none => unexpected kind.description

/-- Keeps a draft as it was if a write to it is refused, and reports that. -/
def write {α : Type} (span : Span) (draft : α) (f : α → Except DraftError α) : Routine α := do
  match f draft with
  | .ok draft' => return draft'
  | .error e =>
    report (.ofDraft e span)
    return draft

/-- Writes a field of a draft if there is a value for it. -/
def write? {α β : Type} (span : Span) (draft : α) (value : Option β)
    (f : α → β → Except DraftError α) : Routine α := do
  match value with
  | some v => write span draft (f · v)
  | none => return draft

/-- The number of tokens that remain. -/
def State.size (s : State) : Nat := s.rest.length

/-- One round of a list: an item behind those that have been read. -/
def listRound {α : Type} (item : Routine α) (more : Routine Bool) (items : List α) :
    Routine (ForInStep (List α)) := do
  let items := items ++ [← item]
  return if ← more then .yield items else .done items

/-- Reads items for as long as `more`, asked behind each of them, says so. -/
def listOf {α : Type} (item : Routine α) (more : Routine Bool) : Routine (List α) :=
  iterate State.size (listRound item more) []

/-- Whether a comma follows; it is consumed. -/
def comma : Routine Bool := do return (← eat .comma).isSome

/-- Whether a comma follows and behind it something else than `close`; the comma is consumed. -/
def commaBefore (close : Token.Kind) : Routine Bool := do
  if ← comma then return (← peekKind) ≠ close else return false

/-! ### Doc comments -/

/-- The last doc comment of a list of tokens. -/
def lastDoc (es : List Entry) : Option String :=
  es.reverse.findSome? (·.doc)

/-- **Doc comments.** The doc comment nearest to the next token, no further back than in front of
the first token of `start`, the tokens that remained at an earlier point. -/
def docSince (start : List Entry) : Routine (Option String) := do
  let rest := (← get).rest
  -- One more than has been consumed: a comment is held with the token behind it.
  return lastDoc (start.take (start.length - rest.length + 1))

end Introspect.Reading
