/-!
# Measuring text in bytes

Offsets, lengths and columns count the bytes of the UTF-8 form of a text, while the library works
on characters. This module measures characters in bytes and cuts a text at byte offsets. A cut that
would fall inside a character, or beyond the end, is no cut at all.
-/

namespace Introspect.Text

/-- The length of the UTF-8 form, in bytes. -/
def byteLength : List Char → Nat
  | [] => 0
  | c :: cs => c.utf8Size + byteLength cs

@[simp] theorem byteLength_nil : byteLength [] = 0 := rfl

@[simp] theorem byteLength_cons (c : Char) (cs : List Char) :
    byteLength (c :: cs) = c.utf8Size + byteLength cs := rfl

@[simp] theorem byteLength_append (cs ds : List Char) :
    byteLength (cs ++ ds) = byteLength cs + byteLength ds := by
  induction cs with
  | nil => simp
  | cons c cs ih => simp [ih, Nat.add_assoc]

@[simp] theorem byteLength_eq_zero_iff {cs : List Char} : byteLength cs = 0 ↔ cs = [] := by
  cases cs with
  | nil => simp
  | cons c cs => simp [Nat.ne_of_gt (Char.utf8Size_pos c)]

theorem byteLength_pos {cs : List Char} (h : cs ≠ []) : 0 < byteLength cs :=
  Nat.pos_of_ne_zero fun h0 => h (byteLength_eq_zero_iff.mp h0)

/-- The bytes of a string are those of its characters. -/
theorem byteLength_toList (s : String) : byteLength s.toList = s.utf8ByteSize := by
  have hlist : ∀ cs : List Char, byteLength cs = (String.ofList cs).utf8ByteSize := by
    intro cs
    induction cs with
    | nil => rfl
    | cons c cs ih =>
      rw [byteLength_cons, ih, String.ofList_cons, String.utf8ByteSize_append,
        String.utf8ByteSize_singleton]
  rw [hlist, String.ofList_toList]

/-- The text after the first `n` bytes, if a character begins or the text ends there. -/
def dropBytes : Nat → List Char → Option (List Char)
  | 0, cs => some cs
  | _ + 1, [] => none
  | n + 1, c :: cs => if c.utf8Size ≤ n + 1 then dropBytes (n + 1 - c.utf8Size) cs else none

/-- The text of the first `n` bytes, if a character begins or the text ends after them. -/
def takeBytes : Nat → List Char → Option (List Char)
  | 0, _ => some []
  | _ + 1, [] => none
  | n + 1, c :: cs =>
    if c.utf8Size ≤ n + 1 then (takeBytes (n + 1 - c.utf8Size) cs).map (c :: ·) else none

/-- **Slices.** The text of `length` bytes from `offset` on, if both ends are character boundaries
inside the text. -/
def slice? (s : String) (offset length : Nat) : Option String := do
  let rest ← dropBytes offset s.toList
  let text ← takeBytes length rest
  pure (String.ofList text)

theorem dropBytes_byteLength (cs ds : List Char) :
    dropBytes (byteLength cs) (cs ++ ds) = some ds := by
  induction cs with
  | nil => simp [dropBytes]
  | cons c cs ih =>
    have hc : 0 < c.utf8Size := Char.utf8Size_pos c
    obtain ⟨k, hk⟩ : ∃ k, c.utf8Size + byteLength cs = k + 1 := ⟨_, (Nat.succ_pred (by omega)).symm⟩
    simp only [byteLength_cons, List.cons_append, hk, dropBytes]
    rw [if_pos (by omega), show k + 1 - c.utf8Size = byteLength cs by omega]
    exact ih

theorem takeBytes_byteLength (cs ds : List Char) :
    takeBytes (byteLength cs) (cs ++ ds) = some cs := by
  induction cs with
  | nil => simp [takeBytes]
  | cons c cs ih =>
    have hc : 0 < c.utf8Size := Char.utf8Size_pos c
    obtain ⟨k, hk⟩ : ∃ k, c.utf8Size + byteLength cs = k + 1 := ⟨_, (Nat.succ_pred (by omega)).symm⟩
    simp only [byteLength_cons, List.cons_append, hk, takeBytes]
    rw [if_pos (by omega), show k + 1 - c.utf8Size = byteLength cs by omega, ih]
    rfl

/-- A slice along character boundaries is the text between them. -/
theorem slice?_byteLength (before text after : List Char) :
    slice? (String.ofList (before ++ text ++ after)) (byteLength before) (byteLength text)
      = some (String.ofList text) := by
  simp [slice?, List.append_assoc, dropBytes_byteLength, takeBytes_byteLength]

end Introspect.Text
