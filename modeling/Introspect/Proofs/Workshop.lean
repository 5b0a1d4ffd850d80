import Introspect.Proofs.Hierarchy.Constructors
import Introspect.Reference
import Introspect.Workshop

/-!
# Kept members

A member that is kept outlives its class. It has noted the name of the class, and for everything
else about the class it looks whether the class is still there. So a member could change what it
says when its class goes. It does so in one case.

* `Method.Answers` and `Property.Answers` are all that a member can be asked, the class that
  declares it among the rest;
* `Method.orphaned` and `Property.orphaned` compare the answers with and without the class. A method
  that is named as its class is `Method.IsDisplaced` if the class has a method with the name of
  constructors besides: such a method becomes a constructor when the class goes;
* `Workshop.Job` is what can be done in a workshop, `Workshop.Moves` what a job does to the built
  classes, and `Workshop.Sound` what all of it keeps. A class that is gone never comes back
  (`Workshop.isAlive_perform`), and a member that is kept stays until another one is kept in its
  place (`Workshop.get?_perform`);
* `Workshop.members_outlive` is about any work, with the class there at first and gone then.
-/

namespace Introspect

/-! ### What a member says -/

/-- The class that declares a member: the class itself, or nothing but its name. -/
def declaringClass (owner : Option Class) (className : String) : Reference :=
  (owner.map .known).getD (.missing className)

/-- **The answers of a parameter.** -/
structure Parameter.Answers where
  name : String
  position : Nat
  typeHint : Option TypeHint
  defaultValue : Option String
  byReference : Bool
  variadic : Bool
  promoted : Bool
  optional : Bool
  allowsNull : Bool
  isArray : Bool
  isCallable : Bool
  className? : Option String
  /-- The name of the method. -/
  methodName : String
  declaringClass : Reference

/-- **The answers of a method.** -/
structure Method.Answers where
  name : String
  modifiers : Modifiers
  visibility : Visibility
  docComment : Option String
  returnsReference : Bool
  returnType : Option TypeHint
  parameters : List Parameter.Answers
  count : Nat
  requiredCount : Nat
  startLine : Nat
  endLine : Nat
  className : String
  declaringClass : Reference
  isConstructor : Bool
  isDestructor : Bool

/-- **The answers of a property.** -/
structure Property.Answers where
  name : String
  modifiers : Modifiers
  visibility : Visibility
  docComment : Option String
  typeHint : Option TypeHint
  defaultValue : Option String
  startLine : Nat
  endLine : Nat
  className : String
  declaringClass : Reference

/-- What a parameter of a method says, `owner` being the class if it is there. -/
def Parameter.answers (p : Parameter) (m : Method) (owner : Option Class) : Parameter.Answers where
  name := p.name
  position := p.position
  typeHint := p.typeHint
  defaultValue := p.defaultValue
  byReference := p.byReference
  variadic := p.variadic
  promoted := p.promoted
  optional := p.optional
  allowsNull := p.allowsNull
  isArray := p.isArray
  isCallable := p.isCallable
  className? := p.className?
  methodName := m.name
  declaringClass := Introspect.declaringClass owner m.className

/-- What a method says, `owner` being the class if it is there. -/
def Method.answers (m : Method) (owner : Option Class) : Method.Answers where
  name := m.name
  modifiers := m.modifiers
  visibility := m.modifiers.visibility
  docComment := m.docComment
  returnsReference := m.returnsReference
  returnType := m.returnType
  parameters := m.parameters.map (·.answers m owner)
  count := m.parameters.length
  requiredCount := m.requiredCount
  startLine := m.startLine
  endLine := m.endLine
  className := m.className
  declaringClass := Introspect.declaringClass owner m.className
  isConstructor := m.isConstructor owner
  isDestructor := m.isDestructor

/-- What a property says, `owner` being the class if it is there. -/
def Property.answers (p : Property) (owner : Option Class) : Property.Answers where
  name := p.name
  modifiers := p.modifiers
  visibility := p.modifiers.visibility
  docComment := p.docComment
  typeHint := p.typeHint
  defaultValue := p.defaultValue
  startLine := p.startLine
  endLine := p.endLine
  className := p.className
  declaringClass := Introspect.declaringClass owner p.className

/-! ### With and without the class -/

/-- The answers of a parameter, of whose class nothing but the name is left. -/
def Parameter.Answers.withoutClass (a : Parameter.Answers) : Parameter.Answers :=
  { a with declaringClass := .missing a.declaringClass.name }

/-- The answers of a method, of whose class nothing but the name is left. -/
def Method.Answers.withoutClass (a : Method.Answers) : Method.Answers :=
  { a with
    declaringClass := .missing a.declaringClass.name
    parameters := a.parameters.map (·.withoutClass) }

/-- The answers of a property, of whose class nothing but the name is left. -/
def Property.Answers.withoutClass (a : Property.Answers) : Property.Answers :=
  { a with declaringClass := .missing a.declaringClass.name }

/-- **Displaced methods.** The method has the short name of its class and would be its constructor,
but for another method of the class with the name of constructors. -/
def Method.IsDisplaced (m : Method) (c : Class) : Prop :=
  m.modifiers.hasAbstract = false ∧
    Text.eqIgnoringCase m.name (Name.short c.name) = true ∧
    Text.eqIgnoringCase m.name Method.constructorName = false ∧
    c.declaresMethod Method.constructorName = true

/-- **Orphaned methods.** How what a method of `c` says as long as the class is there, and what it
says when the class is gone, compare. -/
structure Method.Orphaned (c : Class) (m : Method) (before behind : Method.Answers) : Prop where
  known : before.declaringClass = .known c
  missing : behind.declaringClass = .missing before.declaringClass.name
  /-- Every answer but one is the same, up to the class being gone. -/
  others : behind = { before.withoutClass with isConstructor := behind.isConstructor }
  /-- The one is the same as well, if the method is not displaced. -/
  constructor : ¬ m.IsDisplaced c → behind.isConstructor = before.isConstructor
  /-- A displaced method becomes a constructor. -/
  displaced : m.IsDisplaced c → before.isConstructor = false ∧ behind.isConstructor = true

/-- **Orphaned properties.** -/
structure Property.Orphaned (c : Class) (before behind : Property.Answers) : Prop where
  known : before.declaringClass = .known c
  missing : behind.declaringClass = .missing before.declaringClass.name
  others : behind = before.withoutClass

/-- Without its class, a method with the short name of the class says that it is a constructor. -/
theorem Method.isConstructor_none (m : Method) :
    m.isConstructor none = (!m.modifiers.hasAbstract &&
      (Text.eqIgnoringCase m.name constructorName ||
        Text.eqIgnoringCase m.name (Name.short m.className))) := by
  simp [isConstructor]

namespace Class

variable {c : Class} {m : Method} {p : Property}

theorem IsBuilt.property_className_eq (h : c.IsBuilt) (hp : p ∈ c.properties) :
    p.className = c.name := by
  obtain ⟨name, flags, es, linked, rfl⟩ := h
  have hcollects := ClassDraft.collects_ofName name flags es linked
  rw [hcollects.property_className p hp, hcollects.name_eq]

/-- **A method without its class** says what it said, unless it is displaced. -/
theorem IsBuilt.orphaned_method (h : c.IsBuilt) (hm : m ∈ c.methods) :
    Method.Orphaned c m (m.answers (some c)) (m.answers none) where
  known := rfl
  missing := congrArg Reference.missing (h.className_eq hm)
  others := by
    have hname : m.className = c.name := h.className_eq hm
    simp [Method.answers, Method.Answers.withoutClass, Parameter.answers,
      Parameter.Answers.withoutClass, declaringClass, Reference.name, hname, Function.comp_def]
  constructor := by
    intro hnot
    show m.isConstructor none = m.isConstructor (some c)
    rw [Method.isConstructor_none, Method.isConstructor, h.className_eq hm, Option.any_some]
    -- the two differ in one way only, and then the method is displaced
    cases habstract : m.modifiers.hasAbstract with
    | true => simp
    | false =>
      cases hnamed : Text.eqIgnoringCase m.name Method.constructorName with
      | true => simp
      | false =>
        cases hshort : Text.eqIgnoringCase m.name (Name.short c.name) with
        | false => simp
        | true =>
          cases hdeclares : c.declaresMethod Method.constructorName with
          | false => simp
          | true => exact absurd ⟨habstract, hshort, hnamed, hdeclares⟩ hnot
  displaced := by
    rintro ⟨habstract, hshort, hnamed, hdeclares⟩
    constructor
    · show m.isConstructor (some c) = false
      simp [Method.isConstructor, habstract, hnamed, hdeclares]
    · show m.isConstructor none = true
      rw [Method.isConstructor_none, h.className_eq hm, habstract, hshort]
      simp

theorem IsBuilt.orphaned_property (h : c.IsBuilt) (hp : p ∈ c.properties) :
    Property.Orphaned c (p.answers (some c)) (p.answers none) where
  known := rfl
  missing := congrArg Reference.missing (h.property_className_eq hp)
  others := by
    simp [Property.answers, Property.Answers.withoutClass, declaringClass, Reference.name,
      h.property_className_eq hp]

end Class

/-! ### Shelves -/

namespace Shelf

variable {α : Type} {s : Shelf α} {label other : String} {a : α}

theorem mem_of_get? (h : s.get? label = some a) : (label, a) ∈ s := by
  obtain ⟨l₁, l₂, hl, -⟩ := List.lookup_eq_some_iff.mp h
  rw [hl]
  simp

theorem get?_remove_of_ne (h : label ≠ other) : (s.remove other).get? label = s.get? label := by
  induction s with
  | nil => rfl
  | cons e s ih =>
    obtain ⟨key, b⟩ := e
    by_cases hkey : key = other
    · -- what is taken away is not under the label
      subst hkey
      rw [remove, List.filter_cons_of_neg (by simp), get?, get?, List.lookup_cons,
        beq_eq_false_iff_ne.mpr h]
      exact ih
    · rw [remove, List.filter_cons_of_pos (by simpa using hkey), get?, get?, List.lookup_cons,
        List.lookup_cons]
      cases label == key with
      | true => rfl
      | false => exact ih

theorem get?_put_self : (s.put label a).get? label = some a := by
  simp [put, get?]

theorem get?_put_of_ne (h : label ≠ other) : (s.put other a).get? label = s.get? label := by
  rw [put, get?, List.lookup_cons, beq_eq_false_iff_ne.mpr h]
  exact get?_remove_of_ne h

theorem mem_of_mem_remove {e : String × α} (h : e ∈ s.remove label) : e ∈ s :=
  List.mem_of_mem_filter h

theorem mem_put_cases {e : String × α} (h : e ∈ s.put label a) : e = (label, a) ∨ e ∈ s :=
  (List.mem_cons.mp h).imp id mem_of_mem_remove

end Shelf

/-! ### Work -/

namespace Workshop

/-- **Jobs.** What can be done in a workshop. -/
inductive Job where
  /-- Whatever is done to the drafts of parameters, methods and properties. -/
  | members (parameters : Shelf ParameterDraft) (methods : Shelf MethodDraft)
      (properties : Shelf PropertyDraft)
  /-- Begins the draft of a class. -/
  | draft (label name : String) (flags : ClassFlags)
  | edit (label : String) (e : ClassDraft.Edit)
  | build (label : String) (linked : Bool)
  | register (label : String)
  | hold (label method property : String)
  | discard (label : String)

/-- Whether members are kept under the label. -/
def Job.holdsUnder (label : String) : Job → Bool
  | .hold other _ _ => other == label
  | _ => false

/-- The workshop behind a job. -/
def perform (w : Workshop) : Job → Workshop
  | .members parameters methods properties => { w with parameters, methods, properties }
  | .draft label name flags => { w with classes := w.classes.put label (.ofName name flags) }
  | .edit label e => { w with classes := (w.classes.edit label (·.edit e)).1 }
  | .build label linked => (w.build label linked).1
  | .register label => (w.register label).1
  | .hold label method property => w.hold label method property
  | .discard label => (w.discard label).1

/-- The workshop behind some jobs. -/
def after (w : Workshop) (jobs : List Job) : Workshop := jobs.foldl perform w

/-- **Moves of classes.** What a job does to the built classes: it leaves them, puts a new one on
the shelf under a new stamp, registers one that is on the shelf, or takes what is under a label off
it. -/
inductive Moves (w w' : Workshop) : Prop
  | stay (hbuilt : w'.built = w.built) (hregistered : w'.registered = w.registered)
      (hnext : w'.nextStamp = w.nextStamp)
  | build {label : String} {d : ClassDraft} {linked : Bool} (hd : w.classes.get? label = some d)
      (hbuilt : w'.built = w.built.put label ⟨w.nextStamp, d.build linked⟩)
      (hregistered : w'.registered = w.registered) (hnext : w'.nextStamp = w.nextStamp + 1)
  | register {label : String} {b : Built} (hb : w.built.get? label = some b)
      (hbuilt : w'.built = w.built) (hregistered : w'.registered = b.stamp :: w.registered)
      (hnext : w'.nextStamp = w.nextStamp)
  | discard {label : String} (hbuilt : w'.built = w.built.remove label)
      (hregistered : w'.registered = w.registered) (hnext : w'.nextStamp = w.nextStamp)

theorem moves_perform (w : Workshop) (j : Job) : Moves w (w.perform j) := by
  cases j with
  | members parameters methods properties => exact .stay rfl rfl rfl
  | draft label name flags => exact .stay rfl rfl rfl
  | edit label edit => exact .stay rfl rfl rfl
  | build label linked =>
    simp only [perform, Workshop.build]
    split
    · exact .stay rfl rfl rfl
    · next d hd => exact .build hd rfl rfl rfl
  | register label =>
    simp only [perform, Workshop.register]
    split
    · exact .stay rfl rfl rfl
    · next b hb =>
      -- a name that has been registered is not registered again
      split
      · exact .stay rfl rfl rfl
      · exact .register hb rfl rfl rfl
  | hold label method property =>
    simp only [perform, Workshop.hold]
    split <;> exact .stay rfl rfl rfl
  | discard label => exact .discard rfl rfl rfl

/-- **Sound workshops.** Everything in the workshop was made there, from a draft that was edited,
and its stamp is an old one. -/
structure Sound (w : Workshop) : Prop where
  drafted : ∀ e ∈ w.classes, ∃ name flags es,
    e.2 = ClassDraft.drafting.after (.ofName name flags) es
  built : ∀ e ∈ w.built, e.2.cls.IsBuilt ∧ e.2.stamp < w.nextStamp

variable {w : Workshop} {label : String} {j : Job} {jobs : List Job} {stamp : Nat}

theorem sound_empty : Sound {} := ⟨nofun, nofun⟩

theorem after_append (w : Workshop) (jobs jobs' : List Job) :
    w.after (jobs ++ jobs') = (w.after jobs).after jobs' := by
  simp [after]

/-- Drafts of classes begin with a name and are edited. -/
theorem Sound.drafted_perform (h : Sound w) (j : Job) : ∀ e ∈ (w.perform j).classes,
    ∃ name flags es, e.2 = ClassDraft.drafting.after (.ofName name flags) es := by
  intro e he
  cases j with
  | draft label name flags =>
    rcases Shelf.mem_put_cases he with rfl | he
    · exact ⟨name, flags, [], rfl⟩
    · exact h.drafted e he
  | edit label edit =>
    simp only [perform, Shelf.edit] at he
    split at he
    · exact h.drafted e he
    · next d hd =>
      split at he
      · next d' hd' =>
        rcases Shelf.mem_put_cases he with rfl | he
        · -- one more edit of the draft that was there
          obtain ⟨name, flags, es, hes⟩ := h.drafted _ (Shelf.mem_of_get? hd)
          refine ⟨name, flags, es ++ [edit], ?_⟩
          rw [Drafting.after_concat, ← hes]
          exact (Drafting.afterOne_of_ok hd').symm
        · exact h.drafted e he
      · -- an edit that is refused changes nothing
        exact h.drafted e he
  | members parameters methods properties => exact h.drafted e he
  | discard label => exact h.drafted e he
  | build label linked =>
    simp only [perform, Workshop.build] at he
    split at he <;> exact h.drafted e he
  | register label =>
    simp only [perform, Workshop.register] at he
    split at he
    · exact h.drafted e he
    · split at he <;> exact h.drafted e he
  | hold label method property =>
    simp only [perform, Workshop.hold] at he
    split at he <;> exact h.drafted e he

/-- **A job keeps the workshop sound.** -/
theorem Sound.perform (h : Sound w) (j : Job) : Sound (w.perform j) := by
  refine ⟨h.drafted_perform j, fun e he => ?_⟩
  cases w.moves_perform j with
  | stay hbuilt _ hnext | register _ hbuilt _ hnext =>
    rw [hbuilt] at he
    rw [hnext]
    exact h.built e he
  | @build label d linked hd hbuilt _ hnext =>
    rw [hbuilt] at he
    rw [hnext]
    rcases Shelf.mem_put_cases he with rfl | he
    · -- the new class is built from a draft of the workshop
      obtain ⟨name, flags, es, hes⟩ := h.drafted _ (Shelf.mem_of_get? hd)
      refine ⟨⟨name, flags, es, linked, ?_⟩, Nat.lt_succ_self _⟩
      rw [ClassDraft.built, ← hes]
    · -- the stamps that are there were given out before the new one
      exact ⟨(h.built e he).1, Nat.lt_succ_of_lt (h.built e he).2⟩
  | discard hbuilt _ hnext =>
    rw [hbuilt] at he
    rw [hnext]
    exact h.built e (Shelf.mem_of_mem_remove he)

theorem Sound.after (h : Sound w) (jobs : List Job) : Sound (w.after jobs) := by
  induction jobs generalizing w with
  | nil => exact h
  | cons j jobs ih => exact ih (h.perform j)

/-! ### Classes that are gone -/

theorem isAlive_eq_false_iff :
    w.isAlive stamp = false ↔ (∀ e ∈ w.built, e.2.stamp ≠ stamp) ∧ stamp ∉ w.registered := by
  simp [isAlive]

theorem nextStamp_le_perform (w : Workshop) (j : Job) : w.nextStamp ≤ (w.perform j).nextStamp := by
  cases w.moves_perform j with
  | stay _ _ hnext | register _ _ _ hnext | discard _ _ hnext => exact hnext.ge
  | build _ _ _ hnext => exact hnext ▸ Nat.le_succ _

theorem nextStamp_le_after (w : Workshop) (jobs : List Job) :
    w.nextStamp ≤ (w.after jobs).nextStamp := by
  induction jobs generalizing w with
  | nil => exact Nat.le_refl _
  | cons j jobs ih => exact (w.nextStamp_le_perform j).trans (ih (w.perform j))

/-- **A class that is gone never comes back,** since a new class gets a new stamp. -/
theorem isAlive_perform (hold : stamp < w.nextStamp) (hgone : w.isAlive stamp = false) (j : Job) :
    (w.perform j).isAlive stamp = false := by
  rw [isAlive_eq_false_iff] at hgone ⊢
  obtain ⟨hshelf, hregistry⟩ := hgone
  cases w.moves_perform j with
  | stay hbuilt hregistered _ =>
    rw [hbuilt, hregistered]
    exact ⟨hshelf, hregistry⟩
  | build _ hbuilt hregistered _ =>
    rw [hbuilt, hregistered]
    refine ⟨fun e he => ?_, hregistry⟩
    rcases Shelf.mem_put_cases he with rfl | he
    · exact (Nat.ne_of_lt hold).symm
    · exact hshelf e he
  | register hb hbuilt hregistered _ =>
    rw [hbuilt, hregistered]
    refine ⟨hshelf, fun hmem => ?_⟩
    rcases List.mem_cons.mp hmem with heq | hmem
    · -- what is registered is on the shelf
      exact hshelf _ (Shelf.mem_of_get? hb) heq.symm
    · exact hregistry hmem
  | discard hbuilt hregistered _ =>
    rw [hbuilt, hregistered]
    exact ⟨fun e he => hshelf e (Shelf.mem_of_mem_remove he), hregistry⟩

theorem isAlive_after (hold : stamp < w.nextStamp) (hgone : w.isAlive stamp = false)
    (jobs : List Job) : (w.after jobs).isAlive stamp = false := by
  induction jobs generalizing w with
  | nil => exact hgone
  | cons j jobs ih =>
    exact ih (Nat.lt_of_lt_of_le hold (w.nextStamp_le_perform j)) (isAlive_perform hold hgone j)

/-! ### Members that are kept -/

/-- A job keeps what it keeps under another label in place of nothing that is under this one. -/
theorem get?_perform (h : j.holdsUnder label = false) :
    (w.perform j).keptMethods.get? label = w.keptMethods.get? label ∧
      (w.perform j).keptProperties.get? label = w.keptProperties.get? label := by
  cases j with
  | members parameters methods properties => exact ⟨rfl, rfl⟩
  | draft other name flags => exact ⟨rfl, rfl⟩
  | edit other edit => exact ⟨rfl, rfl⟩
  | discard other => exact ⟨rfl, rfl⟩
  | build other linked =>
    simp only [perform, build]
    split <;> exact ⟨rfl, rfl⟩
  | register other =>
    simp only [perform, register]
    split
    · exact ⟨rfl, rfl⟩
    · split <;> exact ⟨rfl, rfl⟩
  | hold other method property =>
    -- members are kept under another label
    have hne : label ≠ other := by
      rintro rfl
      simp [Job.holdsUnder] at h
    simp only [perform, hold]
    split
    · exact ⟨rfl, rfl⟩
    · next b hb =>
      constructor
      · cases b.cls.method? w.registry method with
        | none => exact Shelf.get?_remove_of_ne hne
        | some found => exact Shelf.get?_put_of_ne hne
      · cases b.cls.property? w.registry property with
        | none => exact Shelf.get?_remove_of_ne hne
        | some found => exact Shelf.get?_put_of_ne hne

theorem get?_after (h : ∀ j ∈ jobs, j.holdsUnder label = false) :
    (w.after jobs).keptMethods.get? label = w.keptMethods.get? label ∧
      (w.after jobs).keptProperties.get? label = w.keptProperties.get? label := by
  induction jobs generalizing w with
  | nil => exact ⟨rfl, rfl⟩
  | cons j jobs ih =>
    obtain ⟨hm, hp⟩ := get?_perform (w := w) (h j List.mem_cons_self)
    obtain ⟨hm', hp'⟩ := @ih (w.perform j) fun j hj => h j (List.mem_cons_of_mem _ hj)
    exact ⟨hm'.trans hm, hp'.trans hp⟩

/-- An own method that is kept. -/
theorem get?_hold_method {b : Built} {name : String} {m : Method}
    (hb : w.built.get? label = some b) (hm : b.cls.ownMethod? name = some m) (property : String) :
    (w.hold label name property).keptMethods.get? label = some ⟨m, b.cls, some b.stamp⟩ := by
  have hfound : b.cls.method? w.registry name = some (b.cls, m) := by rw [Class.method?, hm]
  simp only [hold, hb, hfound, hm, Option.map_some, Option.getD_some, keep]
  exact Shelf.get?_put_self

/-- An own property that is kept. -/
theorem get?_hold_property {b : Built} {name : String} {p : Property}
    (hb : w.built.get? label = some b) (hp : b.cls.ownProperty? name = some p) (method : String) :
    (w.hold label method name).keptProperties.get? label = some ⟨p, b.cls, some b.stamp⟩ := by
  have hfound : b.cls.property? w.registry name = some (b.cls, p) := by rw [Class.property?, hp]
  simp only [hold, hb, hfound, hp, Option.map_some, Option.getD_some, keep]
  exact Shelf.get?_put_self

/-- What the method that is kept under a label says now. -/
def heldMethod? (w : Workshop) (label : String) : Option Method.Answers :=
  (w.keptMethods.get? label).map fun k => k.member.answers (w.owner? k)

/-- What the property that is kept under a label says now. -/
def heldProperty? (w : Workshop) (label : String) : Option Property.Answers :=
  (w.keptProperties.get? label).map fun k => k.member.answers (w.owner? k)

theorem owner?_eq {α : Type} (w : Workshop) (member : α) (owner : Class) (stamp : Nat) :
    w.owner? ⟨member, owner, some stamp⟩ = if w.isAlive stamp then some owner else none := by
  simp [owner?]

/-- A workshop in which members have been kept, after some work that began with nothing. -/
def keeping (earlier : List Job) (label method property : String) : Workshop :=
  (Workshop.after {} earlier).hold label method property

/-- **Members outlive their class.** Whatever was done in a workshop, own members of a class that is
on the shelf are kept. Some time later the class is still there, after more time it is gone, and
then there is still other work. As long as nothing else is kept under the label, the members are
there, and what they say at the end is what they said, but for the class being gone and for
displaced methods. -/
theorem members_outlive (earlier : List Job) (label method property : String) (b : Built)
    (between dropping later : List Job)
    (hb : (Workshop.after {} earlier).built.get? label = some b)
    (hjobs : ∀ j ∈ between ++ dropping ++ later, j.holdsUnder label = false)
    (hthere : ((keeping earlier label method property).after between).isAlive b.stamp = true)
    (hgone : ((keeping earlier label method property).after (between ++ dropping)).isAlive
      b.stamp = false) :
    (∀ m, b.cls.ownMethod? method = some m → ∃ before behind,
      ((keeping earlier label method property).after between).heldMethod? label = some before ∧
      ((keeping earlier label method property).after (between ++ dropping ++ later)).heldMethod?
        label = some behind ∧
      Method.Orphaned b.cls m before behind) ∧
    ∀ p, b.cls.ownProperty? property = some p → ∃ before behind,
      ((keeping earlier label method property).after between).heldProperty? label = some before ∧
      ((keeping earlier label method property).after (between ++ dropping ++ later)).heldProperty?
        label = some behind ∧
      Property.Orphaned b.cls before behind := by
  -- the class was built in the workshop, so its members bear its name
  obtain ⟨hbuilt, hstamp⟩ := (sound_empty.after earlier).built _ (Shelf.mem_of_get? hb)
  have hbetween : ∀ j ∈ between, j.holdsUnder label = false := fun j hj =>
    hjobs j (List.mem_append_left _ (List.mem_append_left _ hj))
  -- once the class is gone it is gone at the end
  have hgone : ((keeping earlier label method property).after
      (between ++ dropping ++ later)).isAlive b.stamp = false := by
    have hkeeping := (Workshop.after {} earlier).nextStamp_le_perform (.hold label method property)
    have hdropping := (keeping earlier label method property).nextStamp_le_after
      (between ++ dropping)
    rw [after_append]
    exact isAlive_after (hstamp.trans_le (hkeeping.trans hdropping)) hgone later
  constructor
  · intro m hm
    have hmem : m ∈ b.cls.methods := List.mem_of_find?_eq_some hm
    have hkept := get?_hold_method hb hm property
    refine ⟨m.answers (some b.cls), m.answers none, ?_, ?_, hbuilt.orphaned_method hmem⟩
    · -- what is kept stays under its label, and asks whether the class is there
      rw [heldMethod?, (get?_after hbetween).1, keeping, hkept, Option.map_some, owner?_eq,
        ← keeping, if_pos hthere]
    · rw [heldMethod?, (get?_after hjobs).1, keeping, hkept, Option.map_some, owner?_eq,
        ← keeping, hgone]
      rfl
  · intro p hp
    have hmem : p ∈ b.cls.properties := List.mem_of_find?_eq_some hp
    have hkept := get?_hold_property hb hp method
    refine ⟨p.answers (some b.cls), p.answers none, ?_, ?_, hbuilt.orphaned_property hmem⟩
    · rw [heldProperty?, (get?_after hbetween).2, keeping, hkept, Option.map_some, owner?_eq,
        ← keeping, if_pos hthere]
    · rw [heldProperty?, (get?_after hjobs).2, keeping, hkept, Option.map_some, owner?_eq,
        ← keeping, hgone]
      rfl

/-- A class is built that has a method with its own name and a constructor. -/
def pointJobs : List Job :=
  [.draft "point" "App\\Point" {}, .edit "point" (.method (.ofName "point" {} false)),
    .edit "point" (.method (.ofName "__construct" {} false)),
    .edit "point" (.property (.ofName "x" {})), .build "point" true]

/-- The class is built a second time, which takes the first one off the shelf. -/
theorem members_outlive_rebuilt :
    ∃ b m p, (Workshop.after {} pointJobs).built.get? "point" = some b ∧
      b.cls.ownMethod? "__CONSTRUCT" = some m ∧ b.cls.ownProperty? "$x" = some p ∧
      (∃ before behind,
        ((keeping pointJobs "point" "__CONSTRUCT" "$x").after []).heldMethod? "point"
          = some before ∧
        ((keeping pointJobs "point" "__CONSTRUCT" "$x").after
          ([] ++ [.build "point" false] ++ [.discard "point"])).heldMethod? "point"
            = some behind ∧
        Method.Orphaned b.cls m before behind) ∧
      ∃ before behind,
        ((keeping pointJobs "point" "__CONSTRUCT" "$x").after []).heldProperty? "point"
          = some before ∧
        ((keeping pointJobs "point" "__CONSTRUCT" "$x").after
          ([] ++ [.build "point" false] ++ [.discard "point"])).heldProperty? "point"
            = some behind ∧
        Property.Orphaned b.cls before behind := by
  obtain ⟨hmethod, hproperty⟩ := members_outlive pointJobs "point" "__CONSTRUCT" "$x" _ []
    [.build "point" false] [.discard "point"] rfl (by decide) (by decide) (by decide)
  exact ⟨_, _, _, rfl, rfl, rfl, hmethod _ rfl, hproperty _ rfl⟩

/-- **A displaced method that becomes a constructor** when its class is taken off the shelf. -/
theorem displaced_becomes_constructor :
    ∃ before behind, (keeping pointJobs "point" "point" "x").heldMethod? "point" = some before ∧
      ((keeping pointJobs "point" "point" "x").after [.discard "point"]).heldMethod? "point"
        = some behind ∧
      before.isConstructor = false ∧ behind.isConstructor = true :=
  ⟨_, _, rfl, rfl, by decide, by decide⟩

end Workshop

end Introspect
