/-!
# Bytes as text

The bytes of a file are read as UTF-8. Bytes that are no UTF-8 do not make a file unreadable: each
longest run that begins a character and cannot be completed, and each byte that cannot begin one,
becomes the character U+FFFD.

The reader is a machine that takes one byte at a time. Between bytes it holds either nothing or a
character that is not complete (`Unfinished`), with the closed range in which the next byte has to
lie. The range is narrower than that of all continuation bytes where a wider one would admit
overlong forms, surrogates or code points beyond the last.

* `Utf8.step` takes a byte, `Utf8.decode` all of them.
-/

namespace Introspect.Text

namespace Utf8

/-- The character that stands for bytes that are no UTF-8. -/
def replacement : Char := '\uFFFD'

/-- A character of which some bytes are still to come. -/
structure Unfinished where
  /-- The value of the bits read so far. -/
  value : Nat
  /-- The number of bytes after the next one. -/
  owed : Nat
  /-- The least value of the next byte. -/
  least : Nat
  /-- The greatest value of the next byte. -/
  greatest : Nat
  deriving DecidableEq, Repr

/-- The character that a byte begins, if it begins one of several bytes. -/
def ofLead (b : Nat) : Option Unfinished :=
  if 0xC2 ≤ b ∧ b ≤ 0xDF then some ⟨b - 0xC0, 0, 0x80, 0xBF⟩
  else if b = 0xE0 then some ⟨0, 1, 0xA0, 0xBF⟩
  else if b = 0xED then some ⟨0xD, 1, 0x80, 0x9F⟩
  else if 0xE1 ≤ b ∧ b ≤ 0xEF then some ⟨b - 0xE0, 1, 0x80, 0xBF⟩
  else if b = 0xF0 then some ⟨0, 2, 0x90, 0xBF⟩
  else if 0xF1 ≤ b ∧ b ≤ 0xF3 then some ⟨b - 0xF0, 2, 0x80, 0xBF⟩
  else if b = 0xF4 then some ⟨4, 2, 0x80, 0x8F⟩
  else none

/-- A byte where a character has to begin. -/
def opening (b : Nat) : Option Unfinished × List Char :=
  if b < 0x80 then (none, [Char.ofNat b])
  else
    match ofLead b with
    | some u => (some u, [])
    | none => (none, [replacement])

/-- **One byte.** What the machine holds after it, and the characters that are complete. A byte that
does not continue the unfinished character ends it as a replacement and begins anew. -/
def step (held : Option Unfinished) (b : Nat) : Option Unfinished × List Char :=
  match held with
  | none => opening b
  | some u =>
    if u.least ≤ b ∧ b ≤ u.greatest then
      let value := u.value * 64 + b % 64
      match u.owed with
      | 0 => (none, [Char.ofNat value])
      | owed + 1 => (some ⟨value, owed, 0x80, 0xBF⟩, [])
    else
      -- The byte itself is not lost with the character that it does not continue.
      let (held, cs) := opening b
      (held, replacement :: cs)

/-- The characters of the bytes that follow on what the machine holds. -/
def decodeFrom (held : Option Unfinished) : List UInt8 → List Char
  | [] => if held.isSome then [replacement] else []
  | b :: bs =>
    let (held, cs) := step held b.toNat
    cs ++ decodeFrom held bs

/-- **Decoding.** The text of bytes. -/
def decode (bytes : List UInt8) : String :=
  String.ofList (decodeFrom none bytes)

end Utf8

end Introspect.Text
