import Introspect.Proofs.Distinct
import Introspect.Proofs.Reading.Lines

/-!
# What drafts refuse

A class refuses a method whose name it has, in any letter case. The refusal is reported, the method
is not added, and nothing else of the class changes, with one exception: the parameters of a
constructor may declare properties, and these are offered to the class on their own, whether it has
taken the constructor or not. Other refusals do not occur while a file is read: every field that the
reader writes to a draft has not been written before.

* `ClassDraft.newProperties` are those of a list of properties that a class takes, and
  `yields_addProperties` says that it takes them and reports the others;
* `methodDraft_unowned`: what is read as a method, and the properties that it declares, belong to no
  class yet;
* `MethodBegins`: behind attributes and modifiers a method begins, and `MethodBegins.member_eq`: it
  is what is read as the member;
* `MethodRefused`: what becomes of a class that is given a method it has, and
  `duplicate_method_refused`: this is what becomes of it;
* `refused_constructor_adds_property`: a class that is changed by a refused constructor;
* `SourceFile.fields_written_once`: no field of a draft is written twice. What each routine has to
  do with this is said where it is shown to read forward (`State.MayReport`).
-/

namespace Introspect

/-! ### Properties that are offered -/

namespace ClassDraft

variable {d : ClassDraft} {p : PropertyDraft} {ps : List PropertyDraft}

/-- Of a list of properties the ones whose names the class does not have, the first one of each
name. They are those of the class. -/
def newProperties (d : ClassDraft) (ps : List PropertyDraft) : List PropertyDraft :=
  ((distinctBy (·.name) ps).filter fun p => !d.hasProperty p.name).map fun p =>
    { p with className := some d.name }

/-- A name that the class has is not new. -/
theorem newProperties_cons_of_has (h : d.hasProperty p.name = true) :
    d.newProperties (p :: ps) = d.newProperties ps := by
  unfold newProperties
  congr 1
  rw [distinctBy, List.filter_cons_of_neg (by simp [h]), List.filter_filter]
  refine List.filter_congr fun q _ => ?_
  -- who has another name than all properties of the class has another name than `p`
  by_cases hq : q.name = p.name <;> simp [hq, h]

/-- A new property is taken, and its name is not new from then on. -/
theorem newProperties_cons_of_not_has (h : d.hasProperty p.name = false) :
    d.newProperties (p :: ps) = { p with className := some d.name } ::
      ({ d with properties := d.properties ++ [{ p with className := some d.name }] } :
        ClassDraft).newProperties ps := by
  unfold newProperties
  rw [distinctBy, List.filter_cons_of_pos (by simp [h]), List.map_cons, List.filter_filter]
  congr 2
  refine List.filter_congr fun q _ => ?_
  by_cases hq : p.name = q.name <;> simp [hasProperty, List.any_append, hq, Ne.symm]

/-- No property is new exactly if the class has all their names. -/
theorem newProperties_eq_nil_iff :
    d.newProperties ps = [] ↔ ∀ p ∈ ps, d.hasProperty p.name = true := by
  induction ps generalizing d with
  | nil => simp [newProperties, distinctBy]
  | cons p ps ih =>
    cases h : d.hasProperty p.name with
    | true => rw [newProperties_cons_of_has h, ih, List.forall_mem_cons, and_iff_right h]
    | false =>
      rw [newProperties_cons_of_not_has h, List.forall_mem_cons]
      simp [h]

/-- A property that is owned by no class is taken if its name is new. -/
theorem addProperty_of_not_has (hp : p.className = none) (h : d.hasProperty p.name = false) :
    d.addProperty p
      = .ok { d with properties := d.properties ++ [{ p with className := some d.name }] } := by
  cases hadd : d.addProperty p with
  | ok d' => rw [(of_addProperty hadd).2]
  | error r =>
    rcases addProperty_eq_error_iff.mp hadd with ⟨hhas, -⟩ | ⟨-, howned, -⟩
    · rw [h] at hhas
      exact absurd hhas (by decide)
    · rw [hp] at howned
      exact absurd howned (by decide)

end ClassDraft

namespace Reading

/-- **Properties are offered one by one.** The new ones are taken, and the others are reported as
duplicates. -/
theorem yields_addProperties (span : Span) {ps : List PropertyDraft}
    (hps : ∀ p ∈ ps, p.className = none) (b : Body) :
    ∃ more, (∀ e ∈ more, e.kind = Diagnostic.Kind.duplicateIdentifier) ∧
      Yields (ps.forM fun p => adding span (·.addProperty p)) b ()
        { b with
          diagnostics := b.diagnostics ++ more
          draft := { b.draft with
            properties := b.draft.properties ++ b.draft.newProperties ps } } := by
  induction ps generalizing b with
  | nil =>
    refine ⟨[], by simp, ?_⟩
    simp only [ClassDraft.newProperties, distinctBy, List.filter_nil, List.map_nil, List.append_nil]
    exact .pure
  | cons p ps ih =>
    have hps' : ∀ q ∈ ps, q.className = none := fun q hq => hps q (List.mem_cons_of_mem p hq)
    cases h : b.draft.hasProperty p.name with
    | true =>
      -- the class refuses the property and goes on as it is
      have hrefused : b.draft.addProperty p
          = .error (.duplicateMember .property p.name b.draft.name) :=
        ClassDraft.addProperty_eq_error_iff.mpr (.inl ⟨h, rfl⟩)
      let e : Diagnostic := .ofDraft (.duplicateMember .property p.name b.draft.name) span
      obtain ⟨more, hmore, hrest⟩ := ih hps' { b with toState := b.toState.report e }
      refine ⟨e :: more, List.forall_mem_cons.mpr ⟨rfl, hmore⟩, ?_⟩
      rw [ClassDraft.newProperties_cons_of_has h, List.append_cons]
      exact Yields.bind (.adding_refused hrefused) hrest
    | false =>
      have htaken := ClassDraft.addProperty_of_not_has (hps p List.mem_cons_self) h
      obtain ⟨more, hmore, hrest⟩ := ih hps' { b with draft := _ }
      refine ⟨more, hmore, ?_⟩
      rw [ClassDraft.newProperties_cons_of_not_has h, List.append_cons]
      exact Yields.bind (.adding htaken) hrest

/-! ### Methods -/

/-- A method has the name of its name token, and the properties that its parameters declare are
owned by no class. -/
theorem methodDraft_unowned (cfg : Setting) (d : ClassDraft) (mods : Modifiers)
    (doc : Option String) (line : Nat) :
    Gives (fun r : MethodDraft × Token × List PropertyDraft =>
        r.1.name = r.2.1.lexeme ∧ ∀ q ∈ r.2.2, q.className = none)
      (methodDraft cfg d mods doc line) :=
  Forward.gives (fun _ => Forward.methodDraft cfg d mods doc line) fun _ _ h =>
    ⟨h.name_eq, h.promoted_unowned⟩

/-! ### Methods as members -/

/-- **The beginning of a method.** Behind attributes, if there are any, the member begins at
`first`, and behind its modifiers `mods` the word `function` is next at `s`. -/
structure MethodBegins (b : Body) (first s : State) (mods : Modifiers) : Prop where
  attributes : Yields skipAttributes b.toState () first
  modifiers : Yields modifiers first mods s
  word : s.peek.kind = .functionWord

/-- The doc comment of a member that begins at `first`, behind its attributes. -/
def Body.docAt (b : Body) (first : State) : Option String :=
  lastDoc (b.rest.take (b.rest.length - first.rest.length + 1))

section Member

variable {cfg : Setting} {b : Body} {first s s' : State} {mods : Modifiers}

/-- A method begins neither with the word `use` nor with a semicolon. -/
theorem MethodBegins.first_kind (h : MethodBegins b first s mods) :
    first.peek.kind ≠ .useWord ∧ first.peek.kind ≠ .semicolon := by
  -- neither of the two is a modifier, so the word `function` would be next instead
  have hstay : modifierOf? first.peek.kind = none → first.peek.kind = .functionWord := by
    intro hnone
    have hsame := Yields.modifiers hnone
    rw [Yields, h.modifiers] at hsame
    obtain ⟨-, rfl⟩ := EStateM.Result.ok.inj hsame
    exact h.word
  constructor <;> intro hk <;> rw [hk] at hstay <;> exact absurd (hstay rfl) (by decide)

/-- Such a member is read as a method. -/
theorem MethodBegins.member_eq (h : MethodBegins b first s mods) :
    member cfg b
      = method cfg mods (b.docAt first) first.peek.span.line { b with toState := s } := by
  obtain ⟨huse, hsemicolon⟩ := h.first_kind
  have hword : ({ b with toState := s } : Body).peek.kind = .functionWord := h.word
  unfold member
  rw [Yields.bind_eq .get, Yields.bind_eq h.attributes.reading, Yields.bind_eq .get]
  -- `simp` finds the two facts about the kind by itself, and takes the last branch for them
  simp only
  rw [Yields.bind_eq (Yields.docSince (s := first)).reading, Yields.bind_eq .get,
    Yields.bind_eq (Yields.reading (b := { b with toState := first }) h.modifiers)]
  unfold modifiedMember
  rw [Yields.bind_eq .get, if_pos hword]
  rfl

/-- A method that cannot be read is given up, and the class is left as it is. -/
theorem MethodBegins.fails (h : MethodBegins b first s mods) {d : Diagnostic}
    (hfails : Fails (methodDraft cfg b.draft mods (b.docAt first) first.peek.span.line) s d s') :
    Fails (member cfg) b d { b with toState := s' } := by
  have hreading : Fails (reading (methodDraft cfg b.draft mods (b.docAt first)
      first.peek.span.line)) { b with toState := s } d { b with toState := s' } := by
    rw [Fails, reading, hfails]
  rw [Fails, h.member_eq]
  exact Yields.bind_fails .get hreading.bind

end Member

/-! ### Refused methods -/

/-- Whether a method of that name is a constructor. -/
abbrev namesConstructor (name : Token) : Bool :=
  Text.eqIgnoringCase name.lexeme Method.constructorName

/-- **A refused method.** What becomes of a body `b` whose class refuses the method that ends at
`s'`; `promoted` are the properties that its parameters declare. -/
structure MethodRefused (b b' : Body) (s' : State) (name : Token) (promoted : List PropertyDraft) :
    Prop where
  rest_eq : b'.rest = s'.rest
  scope_eq : b'.scope = s'.scope
  /-- The method is reported at its name, and properties that are refused as well behind it. -/
  reported : ∃ more,
    b'.diagnostics = s'.diagnostics ++ ⟨.duplicateIdentifier, name.span,
      (DraftError.duplicateMember .method name.lexeme b.draft.name).message⟩ :: more ∧
    (∀ e ∈ more, e.kind = .duplicateIdentifier) ∧ (namesConstructor name = false → more = [])
  /-- The class has got nothing but the new properties of a constructor. -/
  draft_eq : b'.draft = { b.draft with
    properties := b.draft.properties
      ++ if namesConstructor name then b.draft.newProperties promoted else [] }
  /-- It has changed exactly if it is a constructor that declares a property with a new name. -/
  unchanged_iff : b'.draft = b.draft ↔
    (namesConstructor name = true → ∀ q ∈ promoted, b.draft.hasProperty q.name = true)

section Refused

variable {cfg : Setting} {b : Body} {first s s' : State} {mods : Modifiers}
variable {m : MethodDraft} {name : Token} {promoted : List PropertyDraft}

/-- What `MethodRefused` says of the class follows from which properties it has got. -/
theorem newProperties_unchanged_iff (d : ClassDraft) (takes : Bool) :
    ({ d with properties := d.properties
        ++ if takes then d.newProperties promoted else [] } : ClassDraft) = d ↔
      (takes = true → ∀ q ∈ promoted, d.hasProperty q.name = true) := by
  rw [← ClassDraft.newProperties_eq_nil_iff]
  cases takes with
  | false => simp
  | true =>
    rw [if_pos rfl, forall_prop_of_true rfl]
    constructor
    · intro heq
      exact List.append_right_eq_self.mp (congrArg ClassDraft.properties heq)
    · intro hnil
      rw [hnil, List.append_nil]

/-- The properties of a constructor are offered to the class, those of another method are not. -/
theorem yields_promoted (name : Token) (hunowned : ∀ q ∈ promoted, q.className = none) (b : Body) :
    ∃ more : List Diagnostic,
      (∀ e ∈ more, e.kind = .duplicateIdentifier) ∧ (namesConstructor name = false → more = []) ∧
      Yields (if namesConstructor name then
          promoted.forM fun p => adding name.span (·.addProperty p) else pure ()) b ()
        { b with
          diagnostics := b.diagnostics ++ more
          draft := { b.draft with
            properties := b.draft.properties
              ++ if namesConstructor name then b.draft.newProperties promoted else [] } } := by
  cases namesConstructor name with
  | false =>
    refine ⟨[], by simp, fun _ => rfl, ?_⟩
    simp only [List.append_nil, Bool.false_eq_true, if_false]
    exact .pure
  | true =>
    obtain ⟨more, hmore, hyields⟩ := yields_addProperties name.span hunowned b
    exact ⟨more, hmore, fun h => absurd h (by decide), hyields⟩

/-- A class that has the method refuses it, and goes on behind it. -/
theorem MethodBegins.refused (h : MethodBegins b first s mods)
    (hdraft : Yields (methodDraft cfg b.draft mods (b.docAt first) first.peek.span.line) s
      (m, name, promoted) s')
    (hhas : b.draft.hasMethod name.lexeme = true) :
    ∃ b', Yields (member cfg) b () b' ∧ MethodRefused b b' s' name promoted := by
  obtain ⟨-, hname, hunowned⟩ := (methodDraft_unowned cfg b.draft mods (b.docAt first)
    first.peek.span.line).of_ok trivial hdraft
  dsimp only at hname hunowned
  have hrefused : b.draft.addMethod m
      = .error (.duplicateMember .method name.lexeme b.draft.name) := by
    rw [ClassDraft.addMethod_eq_error_iff, hname]
    exact .inl ⟨hhas, rfl⟩
  -- the method is reported, and its properties are offered to the class as it was
  let d : Diagnostic := .ofDraft (.duplicateMember .method name.lexeme b.draft.name) name.span
  let b₁ : Body := { b with toState := s'.report d }
  have hmethod : Yields (adding name.span (·.addMethod m)) { b with toState := s' } () b₁ :=
    .adding_refused hrefused
  obtain ⟨more, hmore, hnone, hoffered⟩ := yields_promoted name hunowned b₁
  have hyields : Yields (method cfg mods (b.docAt first) first.peek.span.line)
      { b with toState := s } () _ :=
    Yields.bind .get (Yields.bind (Yields.reading hdraft) (Yields.bind hmethod hoffered))
  refine ⟨_, h.member_eq.trans hyields, ?_⟩
  exact
    { rest_eq := rfl
      scope_eq := rfl
      reported := ⟨more, (List.append_cons s'.diagnostics d more).symm, hmore, hnone⟩
      draft_eq := rfl
      unchanged_iff := newProperties_unchanged_iff b.draft (namesConstructor name) }

/-- **Duplicate methods are refused.** A method that cannot be read is given up, and nothing is
added to the class. One that can be read is reported if the class has a method of that name, in any
letter case, and adds nothing to the class unless it is a constructor. -/
theorem duplicate_method_refused (h : MethodBegins b first s mods) :
    (∀ d s', Fails (methodDraft cfg b.draft mods (b.docAt first) first.peek.span.line) s d s' →
      Fails (member cfg) b d { b with toState := s' }) ∧
    ∀ m name promoted s',
      Yields (methodDraft cfg b.draft mods (b.docAt first) first.peek.span.line) s
        (m, name, promoted) s' →
      b.draft.hasMethod name.lexeme = true →
      ∃ b', Yields (member cfg) b () b' ∧ MethodRefused b b' s' name promoted :=
  ⟨fun _ _ hfails => h.fails hfails, fun _ _ _ _ hdraft hhas => h.refused hdraft hhas⟩

end Refused

/-! ### Bodies with such a method -/

/-- Whether the next member, which has no attributes, is a method that can be read and whose name
the class has. -/
def atDuplicateMethod (cfg : Setting) (b : Body) : Bool :=
  b.peek.kind != .attributeOpen &&
    succeedsWith (fun mods s => s.peek.kind == .functionWord &&
      succeedsWith (fun r _ => b.draft.hasMethod r.2.1.lexeme)
        (methodDraft cfg b.draft mods (b.docAt b.toState) b.peek.span.line) s)
      modifiers b.toState

theorem exists_of_atDuplicateMethod {cfg : Setting} {b : Body}
    (h : atDuplicateMethod cfg b = true) :
    ∃ s mods m name promoted s', MethodBegins b b.toState s mods ∧
      Yields (methodDraft cfg b.draft mods (b.docAt b.toState) b.peek.span.line) s
        (m, name, promoted) s' ∧
      b.draft.hasMethod name.lexeme = true := by
  obtain ⟨hattribute, hmember⟩ := Bool.and_eq_true_iff.mp h
  obtain ⟨mods, s, hmodifiers, hmethod⟩ := exists_yields_with hmember
  obtain ⟨hword, hdraft⟩ := Bool.and_eq_true_iff.mp hmethod
  obtain ⟨⟨m, name, promoted⟩, s', hyields, hhas⟩ := exists_yields_with hdraft
  refine ⟨s, mods, m, name, promoted, s', ⟨?_, hmodifiers, by simpa using hword⟩, hyields, hhas⟩
  exact Yields.skipAttributes (by simpa using hattribute)

/-- The body of the first class of a file, whose header takes three tokens, behind its first
member. -/
def behindFirstMember (file : SourceFile) : Body :=
  let s := (FileState.start file.text).toState
  let b : Body := { s with rest := s.rest.drop 3, draft := .ofName "A" default }
  match member default b with
  | .ok _ b' => b'
  | .error _ b' => b'

/-- A method that is declared again in other letters. -/
def otherLetters : SourceFile where
  text := "<?php class A \x7b function f() \x7b\x7d "
    ++ "private static function F(array $b) \x7b\x7d \x7d"

theorem duplicate_method_refused_otherLetters :
    ∃ b' s' name promoted, (behindFirstMember otherLetters).draft.methods.map (·.name) = ["f"] ∧
      Yields (member default) (behindFirstMember otherLetters) () b' ∧
      MethodRefused (behindFirstMember otherLetters) b' s' name promoted := by
  obtain ⟨hmethods, hat⟩ :
      (behindFirstMember otherLetters).draft.methods.map (·.name) = ["f"] ∧
        atDuplicateMethod default (behindFirstMember otherLetters) = true := by
    decide +kernel
  obtain ⟨s, mods, m, name, promoted, s', hbegins, hdraft, hhas⟩ := exists_of_atDuplicateMethod hat
  obtain ⟨b', hyields, hrefused⟩ :=
    (duplicate_method_refused hbegins).2 m name promoted s' hdraft hhas
  exact ⟨b', s', name, promoted, hmethods, hyields, hrefused⟩

/-- A constructor that is declared again, with a property. -/
def constructorTwice : SourceFile where
  text := "<?php class A \x7b function __construct() \x7b\x7d "
    ++ "function __CONSTRUCT(public $x) \x7b\x7d \x7d"

/-- **A refused constructor changes the class.** It is reported, and its property is added. -/
theorem refused_constructor_adds_property :
    atDuplicateMethod default (behindFirstMember constructorTwice) = true ∧
      (∃ b', Yields (member default) (behindFirstMember constructorTwice) () b' ∧
        b'.draft.properties ≠ (behindFirstMember constructorTwice).draft.properties) ∧
      constructorTwice.read.1.map (fun c => (c.methods.map (·.name), c.properties.map (·.name)))
        = [(["__construct"], ["x"])] ∧
      constructorTwice.read.2.map (·.kind) = [.duplicateIdentifier] := by
  obtain ⟨hat, hnone, hsome, hread, hkinds⟩ :
      atDuplicateMethod default (behindFirstMember constructorTwice) = true ∧
      (behindFirstMember constructorTwice).draft.properties.length = 0 ∧
      succeedsWith (fun _ b' => b'.draft.properties.length == 1) (member default)
        (behindFirstMember constructorTwice) = true ∧
      constructorTwice.read.1.map (fun c => (c.methods.map (·.name), c.properties.map (·.name)))
        = [(["__construct"], ["x"])] ∧
      constructorTwice.read.2.map (·.kind) = [.duplicateIdentifier] := by
    decide +kernel
  obtain ⟨_, b', hyields, hone⟩ := exists_yields_with hsome
  refine ⟨hat, ⟨b', hyields, fun heq => ?_⟩, hread, hkinds⟩
  rw [heq, hnone] at hone
  exact absurd hone (by decide)

end Reading

/-! ### Fields -/

open Reading

/-- **Fields are written once.** A write that meets a written field would be reported, and the
report would stay, but there is none. -/
structure SourceFile.WritesOnce (file : SourceFile) : Prop where
  unreported : ∀ d ∈ file.read.2, d.kind ≠ .duplicateInitialization
  refused : ∀ {α : Type} (span : Span) (draft : α) (f : α → Except DraftError α)
    (field : DraftField) (element : String) (s : State),
    f draft = .error (.alreadyWritten field element) →
      ∃ d : Diagnostic, d.kind = .duplicateInitialization ∧
        Yields (write span draft f) s draft (s.report d)
  lasting : ∀ f : FileState, f.diagnostics <+: (f.finish file).diagnostics

/-- **No field is written twice** while a file is read, whatever its text is. -/
theorem SourceFile.fields_written_once (file : SourceFile) : file.WritesOnce where
  unreported d hd := by
    rcases lexical_or_mayReport hd with ⟨e, -, rfl⟩ | hreport
    · exact nofun
    · exact hreport.written
  refused span draft f field element s h := ⟨_, rfl, Yields.write_refused h⟩
  lasting f := by
    obtain ⟨ds, heq, -⟩ := ((Reads.refl f.toState).finish file).reported
    exact ⟨ds, heq.symm⟩

end Introspect
