/-!
# Modifiers

The modifiers of members and the flags of classes, as sets. `Modifiers.bits` and `ClassFlags.bits`
are the numbers by which reflection tools know these sets; bits without a meaning are dropped when a
set is read from its number.

A member without a declared visibility is public: `Modifiers.withVisibility` adds that, and
`Modifiers.visibility` answers it.
-/

namespace Introspect

/-- Who may use a member. -/
inductive Visibility where
  | everyone
  | heirs
  | owner
  deriving DecidableEq, Repr, Inhabited

/-- The word for a visibility. -/
def Visibility.word : Visibility → String
  | .everyone => "public"
  | .heirs => "protected"
  | .owner => "private"

/-- A set of member modifiers. -/
structure Modifiers where
  hasPublic : Bool := false
  hasProtected : Bool := false
  hasPrivate : Bool := false
  hasStatic : Bool := false
  hasFinal : Bool := false
  hasAbstract : Bool := false
  hasReadonly : Bool := false
  deriving DecidableEq, Repr, Inhabited

namespace Modifiers

/-- No modifier. -/
def empty : Modifiers := {}

/-- The set with the given bits. -/
def ofBits (n : Nat) : Modifiers where
  hasPublic := n.testBit 0
  hasProtected := n.testBit 1
  hasPrivate := n.testBit 2
  hasStatic := n.testBit 4
  hasFinal := n.testBit 5
  hasAbstract := n.testBit 6
  hasReadonly := n.testBit 7

/-- The number that stands for the set. -/
def bits (m : Modifiers) : Nat :=
  m.hasPublic.toNat + 2 * m.hasProtected.toNat + 4 * m.hasPrivate.toNat + 16 * m.hasStatic.toNat
    + 32 * m.hasFinal.toNat + 64 * m.hasAbstract.toNat + 128 * m.hasReadonly.toNat

/-- Reading the number of a set gives the set. -/
@[simp] theorem ofBits_bits (m : Modifiers) : ofBits m.bits = m := by
  rcases m with ⟨_ | _, _ | _, _ | _, _ | _, _ | _, _ | _, _ | _⟩ <;> decide

/-- All modifiers of both sets. -/
def union (m n : Modifiers) : Modifiers where
  hasPublic := m.hasPublic || n.hasPublic
  hasProtected := m.hasProtected || n.hasProtected
  hasPrivate := m.hasPrivate || n.hasPrivate
  hasStatic := m.hasStatic || n.hasStatic
  hasFinal := m.hasFinal || n.hasFinal
  hasAbstract := m.hasAbstract || n.hasAbstract
  hasReadonly := m.hasReadonly || n.hasReadonly

instance : Union Modifiers := ⟨union⟩

/-- Whether the set has no modifier. -/
def isEmpty (m : Modifiers) : Bool := m == empty

/-- Whether every modifier of `n` is in `m`. -/
def includes (m n : Modifiers) : Bool := m ∪ n == m

/-- Whether a visibility is declared. -/
def hasVisibility (m : Modifiers) : Bool :=
  m.hasPublic || m.hasProtected || m.hasPrivate

/-- The visibility: the strictest one declared, and public if none is. -/
def visibility (m : Modifiers) : Visibility :=
  if m.hasPrivate then .owner else if m.hasProtected then .heirs else .everyone

/-- **Default visibility.** The set with `public` added if it declares no visibility. -/
def withVisibility (m : Modifiers) : Modifiers :=
  if m.hasVisibility then m else { m with hasPublic := true }

/-- The words of the set in the order in which declarations write them, with the visibility. -/
def words (m : Modifiers) : List String :=
  (if m.hasAbstract then ["abstract"] else []) ++ (if m.hasFinal then ["final"] else [])
    ++ [m.visibility.word] ++ (if m.hasStatic then ["static"] else [])
    ++ (if m.hasReadonly then ["readonly"] else [])

end Modifiers

/-- A set of class flags. -/
structure ClassFlags where
  hasAbstract : Bool := false
  hasFinal : Bool := false
  hasInterface : Bool := false
  deriving DecidableEq, Repr, Inhabited

namespace ClassFlags

/-- The set with the given bits. -/
def ofBits (n : Nat) : ClassFlags where
  hasAbstract := n.testBit 0
  hasFinal := n.testBit 1
  hasInterface := n.testBit 2

/-- The number that stands for the set. -/
def bits (f : ClassFlags) : Nat :=
  f.hasAbstract.toNat + 2 * f.hasFinal.toNat + 4 * f.hasInterface.toNat

/-- Reading the number of a set gives the set. -/
@[simp] theorem ofBits_bits (f : ClassFlags) : ofBits f.bits = f := by
  rcases f with ⟨_ | _, _ | _, _ | _⟩ <;> decide

end ClassFlags

end Introspect
