import Introspect.Proofs.Reading.Forward
import Mathlib.Data.Nat.PSub

/-!
# The counters of the walks

The walks over tokens count the brackets that are open, to tell where a block, an attribute, a
statement, the header of a function or a value ends. Their counts are natural numbers, of which a
machine with unsigned numbers could take too much. A `Counter` is a walk with such a number: where
the number would fall below zero, `Counter.walk` has no result.

* `Counter.block`, `Counter.bracket`, `Counter.statement`, `Counter.body` and
  `Counter.initializer` are the five walks that count;
* `closeBlock_counts`, `passAttributes_counts`, `statementEnd_counts`, `bodyStart_counts` and
  `splitInitializer_counts`: each of them has a result, and it is the tail at which the walk ends.

So what is never closed or closed too often is told by an end of the walk, not by the number.
-/

namespace Introspect.Reading

/-- **Counting walks.** What a walk does at a token, by the kind of the token and the count so
far. -/
structure Counter where
  /-- Whether the walk ends in front of the token. -/
  endsBefore : Token.Kind → Nat → Bool
  /-- The count behind the token, unless it would fall below zero. -/
  count : Token.Kind → Nat → Option Nat
  /-- Whether the walk ends with this count, behind a token. -/
  endsWith : Nat → Bool

namespace Counter

/-- **The walk** of a counter. Yields the last count and the tokens that remain, or nothing where
the count would fall below zero. -/
def walk (c : Counter) (n : Nat) : List Entry → Option (Nat × List Entry)
  | [] => some (n, [])
  | e :: es =>
    if c.endsBefore e.kind n then some (n, e :: es)
    else
      match c.count e.kind n with
      | none => none
      | some m => if c.endsWith m then some (m, es) else c.walk m es

/-- What opens counts up, what closes counts down. -/
def brackets (opening closing : List Token.Kind) (kind : Token.Kind) (n : Nat) : Option Nat :=
  if opening.contains kind then some (n + 1)
  else if closing.contains kind then n.ppred
  else some n

theorem brackets_of_not_mem {opening closing : List Token.Kind} {kind : Token.Kind} {n : Nat}
    (hopening : kind ∉ opening) (hclosing : kind ∉ closing) :
    brackets opening closing kind n = some n := by
  rw [brackets, if_neg (by simpa using hopening), if_neg (by simpa using hclosing)]

/-- From behind an opening token to behind what closes it. -/
def closer (opening closing : List Token.Kind) : Counter where
  endsBefore _ _ := false
  count := brackets opening closing
  endsWith n := n == 0

/-- From behind an opening brace to behind the brace that closes it. -/
def block : Counter := closer [.leftBrace] [.rightBrace]

/-- From behind the opening token of an attribute to behind its end. -/
def bracket : Counter := closer [.attributeOpen, .leftBracket] [.rightBracket]

/-- To the end of a statement. A bracket that was opened before the statement does not count. -/
def statement : Counter where
  endsBefore kind n := n == 0 && [Token.Kind.semicolon, .leftBrace, .rightBrace].contains kind
  count kind n :=
    if [Token.Kind.leftParen, .leftBracket].contains kind then some (n + 1)
    else if [Token.Kind.rightParen, .rightBracket].contains kind then some (n - 1)
    else some n
  endsWith _ := false

/-- To the body of a function. -/
def body : Counter where
  endsBefore kind n :=
    kind == .leftBrace || n == 0 && [Token.Kind.semicolon, .rightParen].contains kind
  count := brackets [.leftParen] [.rightParen]
  endsWith _ := false

/-- To the end of a value, in front of a token of a kind in `stops` or a closing bracket. -/
def initializer (stops : List Token.Kind) : Counter where
  endsBefore kind n :=
    n == 0 && (stops.contains kind
      || [Token.Kind.rightParen, .rightBracket, .rightBrace].contains kind)
  count := brackets [.leftParen, .leftBracket, .leftBrace] [.rightParen, .rightBracket, .rightBrace]
  endsWith _ := false

/-! ### One token -/

section Steps

variable {c : Counter} {n m : Nat} {e : Entry} {es : List Entry}

theorem walk_stop (h : c.endsBefore e.kind n = true) : c.walk n (e :: es) = some (n, e :: es) := by
  rw [walk, if_pos h]

theorem walk_end (h : c.endsBefore e.kind n = false) (hcount : c.count e.kind n = some m)
    (hm : c.endsWith m = true) : c.walk n (e :: es) = some (m, es) := by
  rw [walk, h, hcount]
  simp [hm]

theorem walk_pass (h : c.endsBefore e.kind n = false) (hcount : c.count e.kind n = some m)
    (hm : c.endsWith m = false) : c.walk n (e :: es) = c.walk m es := by
  rw [walk, h, hcount]
  simp [hm]

end Steps

end Counter

/-! ### The walks of the reader -/

/-- **Blocks.** The count is zero where the block is closed, and not before. -/
theorem closeBlock_counts (depth : Nat) (es : List Entry) :
    ∃ k, Counter.block.walk (depth + 1) es = some (k, ((closeBlock depth es).map (·.2)).getD []) ∧
      (k = 0 ↔ (closeBlock depth es).isSome = true) := by
  induction es generalizing depth with
  | nil => exact ⟨depth + 1, rfl, by simp [closeBlock]⟩
  | cons e es ih =>
    rw [closeBlock.eq_def]
    dsimp only
    split
    · next hk =>
      rw [Counter.walk_pass rfl (m := depth + 2) (by rw [hk]; rfl) rfl]
      exact ih (depth + 1)
    · next hk =>
      -- one of `depth + 1` braces that are open is closed, so there is one to take off
      cases depth with
      | zero =>
        rw [Counter.walk_end rfl (m := 0) (by rw [hk]; rfl) rfl]
        exact ⟨0, rfl, by simp⟩
      | succ d =>
        rw [Counter.walk_pass rfl (m := d + 1) (by rw [hk]; rfl) rfl]
        exact ih d
    · next hleft hright =>
      rw [Counter.walk_pass rfl (m := depth + 1)
        (Counter.brackets_of_not_mem (by simpa using hleft) (by simpa using hright)) rfl]
      exact ih depth

/-- **Attributes.** The count is zero where the attribute is closed, and the next one is looked for
from there. -/
theorem passAttributes_counts (opening : Token) (depth : Nat) (es : List Entry) :
    ∃ k rest, Counter.bracket.walk (depth + 1) es = some (k, rest) ∧
      passAttributes (some (opening, depth)) es
        = if k = 0 then passAttributes none rest else .error opening := by
  induction es generalizing depth with
  | nil => exact ⟨depth + 1, [], rfl, rfl⟩
  | cons e es ih =>
    rw [passAttributes.eq_def]
    dsimp only
    split
    case h_1 hk | h_2 hk =>
      rw [Counter.walk_pass rfl (m := depth + 2) (by rw [hk]; rfl) rfl]
      exact ih (depth + 1)
    -- `depth + 1` brackets are open, so there is one to take off
    case h_3 hk =>
      cases depth with
      | zero =>
        rw [Counter.walk_end rfl (m := 0) (by rw [hk]; rfl) rfl]
        exact ⟨0, es, rfl, rfl⟩
      | succ d =>
        rw [Counter.walk_pass rfl (m := d + 1) (by rw [hk]; rfl) rfl]
        exact ih d
    case h_4 hopen hleft hright =>
      rw [Counter.walk_pass rfl (m := depth + 1)
        (Counter.brackets_of_not_mem (by simpa using ⟨hopen, hleft⟩) (by simpa using hright)) rfl]
      exact ih depth

/-- **Statements.** A bracket too many leaves the count at zero, and the walk goes on. -/
theorem statementEnd_counts (nesting : Nat) (es : List Entry) :
    ∃ k, Counter.statement.walk nesting es = some (k, statementEnd nesting es) := by
  induction es generalizing nesting with
  | nil => exact ⟨nesting, rfl⟩
  | cons e es ih =>
    rw [statementEnd]
    split
    case h_1 hk | h_2 hk | h_3 hk =>
      split_ifs with hzero
      · exact ⟨nesting, Counter.walk_stop (by simp [Counter.statement, hk, hzero])⟩
      · rw [Counter.walk_pass (m := nesting) (by simp [Counter.statement, hzero])
          (by rw [hk]; rfl) rfl]
        exact ih nesting
    case h_4 hk | h_5 hk =>
      rw [Counter.walk_pass (m := nesting + 1) (by rw [hk]; simp [Counter.statement])
        (by rw [hk]; rfl) rfl]
      exact ih (nesting + 1)
    -- this count is cut off at zero where it would fall below
    case h_6 hk | h_7 hk =>
      rw [Counter.walk_pass (m := nesting - 1) (by rw [hk]; simp [Counter.statement])
        (by rw [hk]; rfl) rfl]
      exact ih (nesting - 1)
    case h_8 =>
      rw [Counter.walk_pass (m := nesting) (by grind [Counter.statement])
        (by grind [Counter.statement]) rfl]
      exact ih nesting

/-- **Headers of functions.** A parenthesis that was opened before ends the walk, so the count is
not taken down there. -/
theorem bodyStart_counts (parens : Nat) (es : List Entry) :
    ∃ k, Counter.body.walk parens es = some (k, bodyStart parens es) := by
  induction es generalizing parens with
  | nil => exact ⟨parens, rfl⟩
  | cons e es ih =>
    rw [bodyStart]
    split
    case h_1 hk => exact ⟨parens, Counter.walk_stop (by simp [Counter.body, hk])⟩
    case h_2 hk =>
      split_ifs with hzero
      · exact ⟨parens, Counter.walk_stop (by simp [Counter.body, hk, hzero])⟩
      · rw [Counter.walk_pass (m := parens) (by simp [Counter.body, hk, hzero])
          (by rw [hk]; rfl) rfl]
        exact ih parens
    case h_3 hk =>
      rw [Counter.walk_pass (m := parens + 1) (by simp [Counter.body, hk]) (by rw [hk]; rfl) rfl]
      exact ih (parens + 1)
    case h_4 hk =>
      cases parens with
      -- the walk ends in front of it
      | zero => exact ⟨0, Counter.walk_stop (by simp [Counter.body, hk])⟩
      | succ p =>
        rw [Counter.walk_pass (m := p) (by simp [Counter.body, hk]) (by rw [hk]; rfl) rfl]
        exact ih p
    case h_5 _ hopen hclose =>
      rw [Counter.walk_pass (m := parens) (by grind [Counter.body])
        (Counter.brackets_of_not_mem (by simpa using hopen) (by simpa using hclose)) rfl]
      exact ih parens

/-- A value counts as its counter does, and ends where the count would fall below zero. -/
theorem count_initializer (stops : List Token.Kind) (kind : Token.Kind) (n : Nat) :
    (Counter.initializer stops).count kind n = bracketsAfter kind n := by
  unfold bracketsAfter
  split
  case h_1 | h_2 | h_3 => rfl
  case h_4 | h_5 | h_6 => cases n <;> rfl
  case h_7 hparen hbracket hbrace hparen' hbracket' hbrace' =>
    exact Counter.brackets_of_not_mem (by simpa using ⟨hparen, hbracket, hbrace⟩)
      (by simpa using ⟨hparen', hbracket', hbrace'⟩)

theorem endsBefore_initializer (stops : List Token.Kind) (kind : Token.Kind) (n : Nat) :
    (Counter.initializer stops).endsBefore kind n = true
      ↔ (n = 0 ∧ stops.contains kind = true) ∨ bracketsAfter kind n = none := by
  unfold bracketsAfter
  split
  case h_1 | h_2 | h_3 => simp [Counter.initializer]
  case h_4 | h_5 | h_6 =>
    -- a closing bracket ends the value where none of its own is open
    cases n <;> simp [Counter.initializer]
  case h_7 hparen hbracket hbrace =>
    have hother : [Token.Kind.rightParen, .rightBracket, .rightBrace].contains kind = false := by
      simpa using ⟨hparen, hbracket, hbrace⟩
    simp only [Counter.initializer, hother, Bool.or_false, Bool.and_eq_true, beq_iff_eq,
      reduceCtorEq, or_false]

/-- **Values.** The count is taken down only for a bracket of the value itself, as a closing bracket
that was opened before ends the walk. -/
theorem splitInitializer_counts (stops : List Token.Kind) (nesting : Nat) (es : List Entry) :
    ∃ k, (Counter.initializer stops).walk nesting es
      = some (k, (splitInitializer stops nesting es).2) := by
  induction es generalizing nesting with
  | nil => exact ⟨nesting, rfl⟩
  | cons e es ih =>
    have hends := endsBefore_initializer stops e.kind nesting
    rw [splitInitializer]
    split_ifs with hstop
    · exact ⟨nesting, Counter.walk_stop (hends.mpr (.inl hstop))⟩
    · cases hcount : bracketsAfter e.kind nesting with
      | none => exact ⟨nesting, Counter.walk_stop (hends.mpr (.inr hcount))⟩
      | some n =>
        have hpass : (Counter.initializer stops).endsBefore e.kind nesting = false := by
          rw [← Bool.not_eq_true, hends, hcount]
          simpa using hstop
        rw [Counter.walk_pass hpass ((count_initializer _ _ _).trans hcount) rfl]
        exact ih n

end Introspect.Reading
