import Introspect.Declaration.Draft
import Introspect.Hierarchy

/-!
# The workshop

A workshop keeps drafts under labels, builds classes from them, registers some of these classes, and
keeps single members of them. A built class stays as long as it is on its shelf or registered. A
kept member outlives its class: once the class is gone, the member still knows the name of it
(`Workshop.owner?`).

Every built class gets a **stamp** of its own, by which two classes of one name are told apart.
-/

namespace Introspect

/-- Things under labels. -/
abbrev Shelf (α : Type) := List (String × α)

namespace Shelf

/-- The thing under a label. -/
def get? {α : Type} (s : Shelf α) (label : String) : Option α := s.lookup label

/-- Takes away what is under a label. -/
def remove {α : Type} (s : Shelf α) (label : String) : Shelf α := s.filter (·.1 ≠ label)

/-- Puts a thing under a label, in place of what is there. -/
def put {α : Type} (s : Shelf α) (label : String) (a : α) : Shelf α := (label, a) :: s.remove label

/-- Writes to the thing under a label. If the write is refused nothing changes. -/
def edit {α ε : Type} (s : Shelf α) (label : String) (f : α → Except ε α) : Shelf α × Option ε :=
  match s.get? label with
  | none => (s, none)
  | some a =>
    match f a with
    | .ok a' => (s.put label a', none)
    | .error e => (s, some e)

end Shelf

/-- A class on the shelf and its stamp. -/
structure Built where
  stamp : Nat
  cls : Class
  deriving Repr, Inhabited

/-- A member that is kept, with the class that declares it. -/
structure Kept (α : Type) where
  member : α
  owner : Class
  /-- The stamp of the class, unless the member was found in a registered one. -/
  stamp : Option Nat
  deriving Repr

/-- Drafts, built classes and kept members under labels, and a registry. -/
structure Workshop where
  parameters : Shelf ParameterDraft := []
  methods : Shelf MethodDraft := []
  properties : Shelf PropertyDraft := []
  classes : Shelf ClassDraft := []
  registry : Registry := .empty
  built : Shelf Built := []
  keptMethods : Shelf (Kept Method) := []
  keptProperties : Shelf (Kept Property) := []
  /-- The stamps of the registered classes. -/
  registered : List Nat := []
  /-- The stamp of the next class. -/
  nextStamp : Nat := 0
  deriving Repr

namespace Workshop

/-- Builds the class drafted under a label and puts it on the shelf. The draft stays. -/
def build (w : Workshop) (label : String) (linked : Bool) : Workshop × Option Class :=
  match w.classes.get? label with
  | none => (w, none)
  | some d =>
    let c := d.build linked
    ({ w with built := w.built.put label ⟨w.nextStamp, c⟩, nextStamp := w.nextStamp + 1 }, some c)

/-- Registers a built class. Yields whether the registry took it. -/
def register (w : Workshop) (label : String) : Workshop × Bool :=
  match w.built.get? label with
  | none => (w, false)
  | some b =>
    if w.registry.contains b.cls.name then (w, false)
    else
      let registry := w.registry.register b.cls
      ({ w with registry, registered := b.stamp :: w.registered }, true)

/-- Keeps a member that was found in a class or in one from which it inherits. -/
def keep {α : Type} (b : Built) (isOwn : Bool) (found : Class × α) : Kept α :=
  ⟨found.2, found.1, if isOwn then some b.stamp else none⟩

/-- Keeps a method and a property of a built class, in place of those kept before. -/
def hold (w : Workshop) (label method property : String) : Workshop :=
  match w.built.get? label with
  | none => w
  | some b =>
    let m := (b.cls.method? w.registry method).map (keep b (b.cls.ownMethod? method).isSome)
    let p := (b.cls.property? w.registry property).map (keep b (b.cls.ownProperty? property).isSome)
    { w with
      keptMethods := (m.map (w.keptMethods.put label)).getD (w.keptMethods.remove label)
      keptProperties := (p.map (w.keptProperties.put label)).getD (w.keptProperties.remove label) }

/-- Takes a built class off the shelf. Yields whether there was one. -/
def discard (w : Workshop) (label : String) : Workshop × Bool :=
  ({ w with built := w.built.remove label }, (w.built.get? label).isSome)

/-- Whether the class of a stamp is still there: on the shelf or registered. -/
def isAlive (w : Workshop) (stamp : Nat) : Bool :=
  w.built.any (·.2.stamp == stamp) || w.registered.contains stamp

/-- **Owners.** The class that declares a kept member, as long as it is there. -/
def owner? {α : Type} (w : Workshop) (k : Kept α) : Option Class :=
  if k.stamp.all w.isAlive then some k.owner else none

end Workshop

end Introspect
