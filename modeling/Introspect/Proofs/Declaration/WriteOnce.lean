import Introspect.Declaration.Draft
import Mathlib.Data.List.TakeWhile

/-!
# Drafts are written once

A draft is edited step by step, and every edit may be refused. Whatever the edits are and in
whatever order they come, a field keeps what was written to it first, a class keeps every member
that it took and no other, and a refused edit leaves no trace.

* `Drafting` says what a kind of draft has in common with the others: its edits, the fields that
  they write, and the laws of a single edit. There are four of them, `ParameterDraft.drafting`,
  `MethodDraft.drafting`, `PropertyDraft.drafting` and `ClassDraft.drafting`;
* `Drafting.after` is the draft behind a sequence of edits and `Drafting.accepted` the edits that
  were not refused. `Drafting.invariant` and `Drafting.after_eq_append` carry a fact of one edit
  over a sequence of them;
* `Drafting.WritesOnce` is what holds of the fields of any draft, and `ClassDraft.Collects` of the
  members of a class, up to how a built class finds them;
* `drafts_write_once` puts these together.
-/

namespace Introspect

/-! ### Edits of any kind of draft -/

/-- **A kind of draft.** `content d f` is the edit that wrote the field `f` of `d`, if one did. -/
structure Drafting (δ ε : Type) where
  /-- The draft behind an edit, unless the edit is refused. -/
  apply : δ → ε → Except DraftError δ
  /-- The name by which errors call the draft. -/
  name : δ → String
  /-- The field that an edit writes, if it writes one that can be written only once. -/
  field? : ε → Option DraftField
  content : δ → DraftField → Option ε
  name_of_apply : ∀ {d d' e}, apply d e = .ok d' → name d' = name d
  /-- An edit fills the field that it writes and touches no other. -/
  content_of_apply : ∀ {d d' e}, apply d e = .ok d' →
    ∀ f, content d' f = if field? e = some f then some e else content d f
  exists_apply : ∀ {d e f}, field? e = some f → content d f = none → ∃ d', apply d e = .ok d'
  apply_of_isSome : ∀ {d e f}, field? e = some f → (content d f).isSome →
    apply d e = .error (.alreadyWritten f (name d))

namespace Drafting

variable {δ ε : Type} (K : Drafting δ ε)

/-- The draft behind an edit. If the edit is refused nothing changes. -/
def afterOne (d : δ) (e : ε) : δ :=
  match K.apply d e with
  | .ok d' => d'
  | .error _ => d

/-- The draft behind a sequence of edits. -/
def after (d : δ) (es : List ε) : δ := es.foldl K.afterOne d

/-- The edits of a sequence that are not refused. -/
def accepted (d : δ) : List ε → List ε
  | [] => []
  | e :: es =>
    match K.apply d e with
    | .ok d' => e :: accepted d' es
    | .error _ => accepted d es

variable {K} {d d' : δ} {e : ε} {f : DraftField}

theorem afterOne_of_ok (h : K.apply d e = .ok d') : K.afterOne d e = d' := by
  simp [afterOne, h]

theorem afterOne_of_error {r : DraftError} (h : K.apply d e = .error r) : K.afterOne d e = d := by
  simp [afterOne, h]

theorem after_cons (d : δ) (e : ε) (es : List ε) :
    K.after d (e :: es) = K.after (K.afterOne d e) es := rfl

theorem after_concat (d : δ) (es : List ε) (e : ε) :
    K.after d (es ++ [e]) = K.afterOne (K.after d es) e := by
  simp [after, List.foldl_append]

theorem accepted_of_ok (h : K.apply d e = .ok d') (es : List ε) :
    K.accepted d (e :: es) = e :: K.accepted d' es := by
  simp [accepted, h]

theorem accepted_of_error {r : DraftError} (h : K.apply d e = .error r) (es : List ε) :
    K.accepted d (e :: es) = K.accepted d es := by
  simp [accepted, h]

/-- What every accepted edit keeps, a sequence of edits keeps. -/
theorem invariant {P : δ → Prop} (hstep : ∀ {d d' e}, K.apply d e = .ok d' → P d → P d')
    (hd : P d) (es : List ε) : P (K.after d es) := by
  induction es generalizing d with
  | nil => exact hd
  | cons e es ih =>
    rw [after_cons]
    apply ih
    cases happly : K.apply d e with
    | error r => rwa [afterOne_of_error happly]
    | ok d' =>
      rw [afterOne_of_ok happly]
      exact hstep happly hd

theorem name_after (d : δ) (es : List ε) : K.name (K.after d es) = K.name d :=
  invariant (P := fun d' => K.name d' = K.name d) (fun h hd => (K.name_of_apply h).trans hd) rfl es

/-- A list that every accepted edit extends at its end is extended by all of them, in order. -/
theorem after_eq_append {β : Type} (items : δ → List β) (new : String → ε → List β)
    (hstep : ∀ {d d' e}, K.apply d e = .ok d' → items d' = items d ++ new (K.name d) e)
    (d : δ) (es : List ε) :
    items (K.after d es) = items d ++ (K.accepted d es).flatMap (new (K.name d)) := by
  induction es generalizing d with
  | nil => simp [after, accepted]
  | cons e es ih =>
    rw [after_cons]
    cases happly : K.apply d e with
    | error r => rw [afterOne_of_error happly, accepted_of_error happly, ih]
    | ok d' =>
      rw [afterOne_of_ok happly, accepted_of_ok happly, ih, hstep happly, K.name_of_apply happly,
        List.flatMap_cons, List.append_assoc]

/-- If all that an accepted edit adds to a list differs from what is there, the elements of the list
are different ones. -/
theorem pairwise_after {β : Type} (items : δ → List β) (new : String → ε → List β)
    {R : β → β → Prop}
    (hstep : ∀ {d d' e}, K.apply d e = .ok d' → items d' = items d ++ new (K.name d) e)
    (hnew : ∀ n e, (new n e).Pairwise R)
    (hfresh : ∀ {d d' e}, K.apply d e = .ok d' → ∀ y ∈ new (K.name d) e, ∀ x ∈ items d, R x y)
    (hd : items d = []) (es : List ε) : (items (K.after d es)).Pairwise R := by
  -- what is new differs from what is there, so one edit keeps the elements different
  refine invariant (P := fun d => (items d).Pairwise R) ?_ (by simp [hd]) es
  intro d d' e happly hpairwise
  rw [hstep happly, List.pairwise_append]
  exact ⟨hpairwise, hnew _ e, fun x hx y hy => hfresh happly y hy x hx⟩

/-- **First writes stay.** A field holds what it held, or else what is written to it first. -/
theorem content_after (d : δ) (es : List ε) (f : DraftField) :
    K.content (K.after d es) f = (K.content d f).or (es.find? (K.field? · = some f)) := by
  induction es generalizing d with
  | nil => simp [after]
  | cons e es ih =>
    rw [after_cons, ih, List.find?_cons]
    cases happly : K.apply d e with
    | ok d' =>
      rw [afterOne_of_ok happly, K.content_of_apply happly]
      by_cases hfield : K.field? e = some f
      · -- an edit is accepted only if the field is empty, so the edit is the first write to it
        have hempty : K.content d f = none := by
          by_contra hfull
          have herror := K.apply_of_isSome hfield (Option.isSome_iff_ne_none.mpr hfull)
          rw [happly] at herror
          cases herror
        simp [hfield, hempty]
      · simp [hfield]
    | error r =>
      rw [afterOne_of_error happly]
      by_cases hfield : K.field? e = some f
      · -- a write is refused only if the field is full, and then it is not the first
        have hfull : K.content d f ≠ none := by
          intro hempty
          obtain ⟨d', hok⟩ := K.exists_apply hfield hempty
          rw [happly] at hok
          cases hok
        obtain ⟨w, hw⟩ := Option.ne_none_iff_exists'.mp hfull
        simp [hw]
      · simp [hfield]

/-- **Fields are written once.** What holds of the fields of a draft behind the edits `es`, which
began as `start` with all fields empty, and of the next edit. -/
structure WritesOnce (K : Drafting δ ε) (start : δ) (es : List ε) : Prop where
  /-- Every field holds the first write to it. -/
  content_eq : ∀ f, K.content (K.after start es) f = es.find? (K.field? · = some f)
  /-- The first write to a field is not refused. -/
  exists_first : ∀ e f, K.field? e = some f → (∀ e' ∈ es, K.field? e' ≠ some f) →
    ∃ d', K.apply (K.after start es) e = .ok d'
  /-- Every later write is refused, with an error that names the field and the draft. -/
  refused : ∀ e f, K.field? e = some f → (∃ e' ∈ es, K.field? e' = some f) →
    K.apply (K.after start es) e = .error (.alreadyWritten f (K.name start))
  /-- A refused edit of any sort changes nothing. -/
  unchanged : ∀ e r, K.apply (K.after start es) e = .error r →
    K.after start (es ++ [e]) = K.after start es

theorem writesOnce {start : δ} (hstart : ∀ f, K.content start f = none) (es : List ε) :
    K.WritesOnce start es := by
  have hcontent : ∀ f, K.content (K.after start es) f = es.find? (K.field? · = some f) := by
    intro f
    rw [content_after, hstart, Option.none_or]
  refine ⟨hcontent, ?_, ?_, ?_⟩
  · -- without a write before, the field is empty
    intro e f hfield hnone
    apply K.exists_apply hfield
    rw [hcontent, List.find?_eq_none]
    intro e' he'
    simpa using hnone e' he'
  · rintro e f hfield ⟨e', he', hfield'⟩
    have hfull : (K.content (K.after start es) f).isSome := by
      rw [hcontent, List.find?_isSome]
      exact ⟨e', he', by simpa using hfield'⟩
    rw [K.apply_of_isSome hfield hfull, name_after]
  · intro e r herror
    rw [after_concat, afterOne_of_error herror]

end Drafting

/-! ### The rule for a single field -/

section Slots

variable {α δ : Type} {slot : Option α} {field : DraftField} {element : String} {value : α}
  {fill : Option α → δ} {d' : δ}

theorem writeOnce_bind_of_none (h : slot = none) :
    (do let s ← writeOnce slot field element value; pure (fill s)) =
      (.ok (fill (some value)) : Except DraftError δ) := by
  rw [h]
  rfl

theorem writeOnce_bind_of_isSome (h : slot.isSome) :
    (do let s ← writeOnce slot field element value; pure (fill s)) =
      (.error (.alreadyWritten field element) : Except DraftError δ) := by
  obtain ⟨old, rfl⟩ := Option.isSome_iff_exists.mp h
  rfl

theorem of_writeOnce_bind
    (h : (do let s ← writeOnce slot field element value; pure (fill s)) = .ok d') :
    slot = none ∧ d' = fill (some value) := by
  cases hslot : slot with
  | none =>
    rw [writeOnce_bind_of_none hslot] at h
    exact ⟨rfl, (Except.ok.inj h).symm⟩
  | some old =>
    rw [writeOnce_bind_of_isSome (by rw [hslot]; rfl)] at h
    cases h

end Slots

/-! ### Parameters, methods and properties -/

/-- What can be done to the draft of a parameter. -/
inductive ParameterDraft.Edit where
  | typeHint (hint : TypeHint)
  | defaultValue (value : String)
  | byReference (on : Bool)
  | variadic (on : Bool)
  | promoted (on : Bool)

/-- Drafts of parameters. -/
def ParameterDraft.drafting : Drafting ParameterDraft ParameterDraft.Edit where
  apply
    | d, .typeHint hint => d.writeTypeHint hint
    | d, .defaultValue value => d.writeDefault value
    | d, .byReference on => .ok { d with byReference := on }
    | d, .variadic on => .ok { d with variadic := on }
    | d, .promoted on => .ok { d with promoted := on }
  name := ParameterDraft.name
  field?
    | .typeHint _ => some .typeHint
    | .defaultValue _ => some .defaultValue
    | _ => none
  content
    | d, .typeHint => d.typeHint.map .typeHint
    | d, .defaultValue => d.defaultValue.map .defaultValue
    | _, _ => none
  name_of_apply := by
    intro d d' e h
    cases e
    case typeHint | defaultValue => obtain ⟨-, rfl⟩ := of_writeOnce_bind h; rfl
    all_goals cases h; rfl
  content_of_apply := by
    intro d d' e h f
    cases e
    case typeHint | defaultValue => obtain ⟨-, rfl⟩ := of_writeOnce_bind h; cases f <;> rfl
    all_goals cases h; cases f <;> rfl
  exists_apply := by
    intro d e f hfield hempty
    cases e <;> cases hfield <;>
      exact ⟨_, writeOnce_bind_of_none (Option.map_eq_none_iff.mp hempty)⟩
  apply_of_isSome := by
    intro d e f hfield hfull
    cases e <;> cases hfield <;>
      exact writeOnce_bind_of_isSome (Option.isSome_map.symm.trans hfull)

/-- What can be done to the draft of a method. -/
inductive MethodDraft.Edit where
  | docComment (raw : String)
  | returnType (hint : TypeHint)
  | parameters (ps : List ParameterDraft)
  | startLine (line : Nat)
  | endLine (line : Nat)
  | declaringClass (name : String)
  | returnsReference (on : Bool)

/-- Drafts of methods. -/
def MethodDraft.drafting : Drafting MethodDraft MethodDraft.Edit where
  apply
    | d, .docComment raw => d.writeDoc raw
    | d, .returnType hint => d.writeReturnType hint
    | d, .parameters ps => d.writeParameters ps
    | d, .startLine line => d.writeStartLine line
    | d, .endLine line => d.writeEndLine line
    | d, .declaringClass name => d.writeClass name
    | d, .returnsReference on => .ok { d with returnsReference := on }
  name := MethodDraft.name
  field?
    | .docComment _ => some .docComment
    | .returnType _ => some .returnType
    | .parameters _ => some .parameters
    | .startLine _ => some .startLine
    | .endLine _ => some .endLine
    | .declaringClass _ => some .declaringClass
    | .returnsReference _ => none
  content
    | d, .docComment => d.docComment.map .docComment
    | d, .returnType => d.returnType.map .returnType
    | d, .parameters => d.parameters.map .parameters
    | d, .startLine => d.startLine.map .startLine
    | d, .endLine => d.endLine.map .endLine
    | d, .declaringClass => d.className.map .declaringClass
    | _, _ => none
  name_of_apply := by
    intro d d' e h
    cases e
    case returnsReference => cases h; rfl
    all_goals obtain ⟨-, rfl⟩ := of_writeOnce_bind h; rfl
  content_of_apply := by
    intro d d' e h f
    cases e
    case returnsReference => cases h; cases f <;> rfl
    all_goals obtain ⟨-, rfl⟩ := of_writeOnce_bind h; cases f <;> rfl
  exists_apply := by
    intro d e f hfield hempty
    cases e <;> cases hfield <;>
      exact ⟨_, writeOnce_bind_of_none (Option.map_eq_none_iff.mp hempty)⟩
  apply_of_isSome := by
    intro d e f hfield hfull
    cases e <;> cases hfield <;>
      exact writeOnce_bind_of_isSome (Option.isSome_map.symm.trans hfull)

/-- What can be done to the draft of a property. -/
inductive PropertyDraft.Edit where
  | docComment (raw : String)
  | typeHint (hint : TypeHint)
  | defaultValue (value : String)
  | startLine (line : Nat)
  | endLine (line : Nat)
  | declaringClass (name : String)

/-- Drafts of properties. -/
def PropertyDraft.drafting : Drafting PropertyDraft PropertyDraft.Edit where
  apply
    | d, .docComment raw => d.writeDoc raw
    | d, .typeHint hint => d.writeTypeHint hint
    | d, .defaultValue value => d.writeDefault value
    | d, .startLine line => d.writeStartLine line
    | d, .endLine line => d.writeEndLine line
    | d, .declaringClass name => d.writeClass name
  name := PropertyDraft.name
  field?
    | .docComment _ => some .docComment
    | .typeHint _ => some .typeHint
    | .defaultValue _ => some .defaultValue
    | .startLine _ => some .startLine
    | .endLine _ => some .endLine
    | .declaringClass _ => some .declaringClass
  content
    | d, .docComment => d.docComment.map .docComment
    | d, .typeHint => d.typeHint.map .typeHint
    | d, .defaultValue => d.defaultValue.map .defaultValue
    | d, .startLine => d.startLine.map .startLine
    | d, .endLine => d.endLine.map .endLine
    | d, .declaringClass => d.className.map .declaringClass
    | _, _ => none
  name_of_apply := by
    intro d d' e h
    -- every edit of a property is a write to a field
    cases e <;> (obtain ⟨-, rfl⟩ := of_writeOnce_bind h; rfl)
  content_of_apply := by
    intro d d' e h f
    cases e <;> (obtain ⟨-, rfl⟩ := of_writeOnce_bind h; cases f <;> rfl)
  exists_apply := by
    intro d e f hfield hempty
    cases e <;> cases hfield <;>
      exact ⟨_, writeOnce_bind_of_none (Option.map_eq_none_iff.mp hempty)⟩
  apply_of_isSome := by
    intro d e f hfield hfull
    cases e <;> cases hfield <;>
      exact writeOnce_bind_of_isSome (Option.isSome_map.symm.trans hfull)

/-! ### Classes -/

namespace ClassDraft

variable {d d' : ClassDraft}

theorem of_writeParent {name : String} (h : d.writeParent name = .ok d') :
    d' = { d with parentName := some name } :=
  (of_writeOnce_bind h).2

theorem of_writeEndLine {line : Nat} (h : d.writeEndLine line = .ok d') :
    d' = { d with endLine := some line } :=
  (of_writeOnce_bind h).2

theorem of_addMethod {m : MethodDraft} (h : d.addMethod m = .ok d') :
    d.hasMethod m.name = false ∧
      d' = { d with methods := d.methods ++ [{ m with className := some d.name }] } := by
  unfold addMethod MethodDraft.writeClass at h
  split_ifs at h with hname
  refine ⟨by simpa using hname, ?_⟩
  cases hclass : m.className with
  | some c => simp [hclass, bind, Except.bind] at h
  | none =>
    rw [hclass] at h
    exact (Except.ok.inj h).symm

theorem of_addProperty {p : PropertyDraft} (h : d.addProperty p = .ok d') :
    d.hasProperty p.name = false ∧
      d' = { d with properties := d.properties ++ [{ p with className := some d.name }] } := by
  unfold addProperty PropertyDraft.writeClass at h
  split_ifs at h with hname
  refine ⟨by simpa using hname, ?_⟩
  cases hclass : p.className with
  | some c => simp [hclass, bind, Except.bind] at h
  | none =>
    rw [hclass] at h
    exact (Except.ok.inj h).symm

theorem of_addConstant {c : Constant} (h : d.addConstant c = .ok d') :
    (∀ c' ∈ d.constants, c'.name ≠ c.name) ∧ d' = { d with constants := d.constants ++ [c] } := by
  unfold addConstant at h
  split_ifs at h with hname
  refine ⟨fun c' hc' heq => hname ?_, (Except.ok.inj h).symm⟩
  exact List.any_eq_true.mpr ⟨c', hc', by simpa using heq⟩

/-- What can be done to the draft of a class. -/
inductive Edit where
  | docComment (raw : String)
  | parent (name : String)
  | sourceFile (path : String)
  | startLine (line : Nat)
  | endLine (line : Nat)
  | interface (name : String)
  | constant (c : Constant)
  | method (m : MethodDraft)
  | property (p : PropertyDraft)

namespace Edit

/-- The method that an edit adds to a class of this name. -/
def methods (className : String) : Edit → List MethodDraft
  | method m => [{ m with className := some className }]
  | _ => []

/-- The property that an edit adds to a class of this name. -/
def properties (className : String) : Edit → List PropertyDraft
  | property p => [{ p with className := some className }]
  | _ => []

/-- The constant that an edit adds. -/
def constants : Edit → List Constant
  | constant c => [c]
  | _ => []

/-- The interface that an edit names. -/
def interfaces : Edit → List String
  | interface name => [name]
  | _ => []

section Added

variable {es : List Edit} {className : String}

theorem mem_flatMap_methods_iff {m : MethodDraft} :
    m ∈ es.flatMap (methods className) ↔
      ∃ m₀, method m₀ ∈ es ∧ m = { m₀ with className := some className } := by
  rw [List.mem_flatMap]
  constructor
  · rintro ⟨e, he, hm⟩
    cases e with
    | method m₀ => exact ⟨m₀, he, List.mem_singleton.mp hm⟩
    | _ => cases hm
  · rintro ⟨m₀, hm₀, rfl⟩
    exact ⟨_, hm₀, List.mem_singleton_self _⟩

theorem mem_flatMap_properties_iff {p : PropertyDraft} :
    p ∈ es.flatMap (properties className) ↔
      ∃ p₀, property p₀ ∈ es ∧ p = { p₀ with className := some className } := by
  rw [List.mem_flatMap]
  constructor
  · rintro ⟨e, he, hp⟩
    cases e with
    | property p₀ => exact ⟨p₀, he, List.mem_singleton.mp hp⟩
    | _ => cases hp
  · rintro ⟨p₀, hp₀, rfl⟩
    exact ⟨_, hp₀, List.mem_singleton_self _⟩

theorem mem_flatMap_constants_iff {c : Constant} :
    c ∈ es.flatMap constants ↔ constant c ∈ es := by
  rw [List.mem_flatMap]
  constructor
  · rintro ⟨e, he, hc⟩
    cases e with
    | constant c₀ => exact List.mem_singleton.mp hc ▸ he
    | _ => cases hc
  · intro hc
    exact ⟨_, hc, List.mem_singleton_self _⟩

end Added

end Edit

/-- The draft behind an edit, unless the edit is refused. -/
def edit (d : ClassDraft) : Edit → Except DraftError ClassDraft
  | .docComment raw => d.writeDoc raw
  | .parent name => d.writeParent name
  | .sourceFile path => d.writeSourceFile path
  | .startLine line => d.writeStartLine line
  | .endLine line => d.writeEndLine line
  | .interface name => .ok (d.addInterface name)
  | .constant c => d.addConstant c
  | .method m => d.addMethod m
  | .property p => d.addProperty p

/-- Whether an interface with the key of this name has been added. -/
def hasInterface (d : ClassDraft) (name : String) : Bool :=
  d.interfaceNames.any (Name.lookupKey · == Name.lookupKey name)

theorem addInterface_eq (d : ClassDraft) (name : String) :
    d.addInterface name =
      { d with interfaceNames := d.interfaceNames ++ [name].filter (!d.hasInterface ·) } := by
  unfold addInterface
  split_ifs with hany <;> simp [hasInterface, hany]

/-- Interfaces that are added are no other part of the class. -/
theorem exists_addInterfaces_eq (d : ClassDraft) (names : List String) :
    ∃ interfaces, names.foldl addInterface d = { d with interfaceNames := interfaces } := by
  induction names generalizing d with
  | nil => exact ⟨d.interfaceNames, rfl⟩
  | cons name names ih =>
    obtain ⟨interfaces, h⟩ := ih (d.addInterface name)
    rw [List.foldl_cons, h, addInterface_eq]
    exact ⟨interfaces, rfl⟩

/-- **Accepted edits.** What an edit that is not refused does to the members of a class. -/
structure Takes (d d' : ClassDraft) (e : Edit) : Prop where
  name_eq : d'.name = d.name
  methods_eq : d'.methods = d.methods ++ e.methods d.name
  properties_eq : d'.properties = d.properties ++ e.properties d.name
  constants_eq : d'.constants = d.constants ++ e.constants
  /-- An interface is added unless one with the same key is there. -/
  interfaceNames_eq :
    d'.interfaceNames = d.interfaceNames ++ e.interfaces.filter (!d.hasInterface ·)
  fresh_method : ∀ m ∈ e.methods d.name, d.hasMethod m.name = false
  fresh_property : ∀ p ∈ e.properties d.name, d.hasProperty p.name = false

theorem takes_of_edit {e : Edit} (h : d.edit e = .ok d') : Takes d d' e := by
  cases e with
  | method m =>
    -- a member is taken only under a name that is not taken yet
    obtain ⟨hfresh, rfl⟩ := of_addMethod h
    constructor <;> simp [Edit.methods, Edit.properties, Edit.constants, Edit.interfaces, hfresh]
  | property p =>
    obtain ⟨hfresh, rfl⟩ := of_addProperty h
    constructor <;> simp [Edit.methods, Edit.properties, Edit.constants, Edit.interfaces, hfresh]
  | constant c =>
    obtain ⟨-, rfl⟩ := of_addConstant h
    constructor <;> simp [Edit.methods, Edit.properties, Edit.constants, Edit.interfaces]
  | interface name =>
    cases h
    rw [addInterface_eq]
    constructor <;> simp [Edit.methods, Edit.properties, Edit.constants, Edit.interfaces]
  | _ =>
    obtain ⟨-, rfl⟩ := of_writeOnce_bind h
    constructor <;> simp [Edit.methods, Edit.properties, Edit.constants, Edit.interfaces]

/-- Drafts of classes. -/
def drafting : Drafting ClassDraft Edit where
  apply := edit
  name := ClassDraft.name
  field?
    | .docComment _ => some .docComment
    | .parent _ => some .parent
    | .sourceFile _ => some .sourceFile
    | .startLine _ => some .startLine
    | .endLine _ => some .endLine
    | _ => none
  content
    | d, .docComment => d.docComment.map .docComment
    | d, .parent => d.parentName.map .parent
    | d, .sourceFile => d.sourceFile.map .sourceFile
    | d, .startLine => d.startLine.map .startLine
    | d, .endLine => d.endLine.map .endLine
    | _, _ => none
  name_of_apply := fun h => (takes_of_edit h).name_eq
  content_of_apply := by
    intro d d' e h f
    cases e with
    | method m => obtain ⟨-, rfl⟩ := of_addMethod h; cases f <;> rfl
    | property p => obtain ⟨-, rfl⟩ := of_addProperty h; cases f <;> rfl
    | constant c => obtain ⟨-, rfl⟩ := of_addConstant h; cases f <;> rfl
    | interface name =>
      -- an interface with a known key leaves the draft as it is
      obtain rfl := (Except.ok.inj h).symm
      rw [addInterface_eq]
      cases f <;> rfl
    | _ => obtain ⟨-, rfl⟩ := of_writeOnce_bind h; cases f <;> rfl
  exists_apply := by
    intro d e f hfield hempty
    cases e <;> cases hfield <;>
      exact ⟨_, writeOnce_bind_of_none (Option.map_eq_none_iff.mp hempty)⟩
  apply_of_isSome := by
    intro d e f hfield hfull
    cases e <;> cases hfield <;>
      exact writeOnce_bind_of_isSome (Option.isSome_map.symm.trans hfull)

/-! ### Members behind a sequence of edits -/

section Members

variable {start : ClassDraft} {es : List Edit}

theorem methods_after (d : ClassDraft) (es : List Edit) :
    (drafting.after d es).methods =
      d.methods ++ (drafting.accepted d es).flatMap (Edit.methods d.name) :=
  Drafting.after_eq_append ClassDraft.methods Edit.methods
    (fun h => (takes_of_edit h).methods_eq) d es

theorem properties_after (d : ClassDraft) (es : List Edit) :
    (drafting.after d es).properties =
      d.properties ++ (drafting.accepted d es).flatMap (Edit.properties d.name) :=
  Drafting.after_eq_append ClassDraft.properties Edit.properties
    (fun h => (takes_of_edit h).properties_eq) d es

theorem constants_after (d : ClassDraft) (es : List Edit) :
    (drafting.after d es).constants =
      d.constants ++ (drafting.accepted d es).flatMap Edit.constants :=
  Drafting.after_eq_append ClassDraft.constants (fun _ => Edit.constants)
    (fun h => (takes_of_edit h).constants_eq) d es

theorem interfaceNames_afterOne (d : ClassDraft) (e : Edit) :
    (drafting.afterOne d e).interfaceNames =
      d.interfaceNames ++ e.interfaces.filter (!d.hasInterface ·) := by
  cases happly : drafting.apply d e with
  | ok d' => rw [Drafting.afterOne_of_ok happly, (takes_of_edit happly).interfaceNames_eq]
  | error r =>
    -- an interface is never refused
    have hnone : e.interfaces = [] := by
      cases e with
      | interface name => cases happly
      | _ => rfl
    rw [Drafting.afterOne_of_error happly, hnone]
    simp

/-- The interfaces behind a sequence of edits: those that were there, then those of the edits with
a new key, each in its first spelling. -/
theorem interfaceNames_after (d : ClassDraft) (es : List Edit) :
    (drafting.after d es).interfaceNames = d.interfaceNames ++
      ((es.flatMap Edit.interfaces).filter (!d.hasInterface ·)).eraseDupsBy
        (Name.lookupKey · == Name.lookupKey ·) := by
  induction es generalizing d with
  | nil => simp [Drafting.after]
  | cons e es ih =>
    have hstep := interfaceNames_afterOne d e
    rw [Drafting.after_cons, ih, List.flatMap_cons, List.filter_append]
    unfold hasInterface at hstep ⊢
    rw [hstep]
    cases e with
    | interface name =>
      by_cases hold : d.interfaceNames.any (Name.lookupKey · == Name.lookupKey name)
      · simp [Edit.interfaces, hold]
      · -- a new key: the later spellings of it are those that `eraseDupsBy` drops
        have hkey : ∀ n, (Name.lookupKey name == Name.lookupKey n) =
            decide (Name.lookupKey n = Name.lookupKey name) := by
          intro n
          rw [beq_eq_decide, decide_eq_decide]
          exact eq_comm
        simp [Edit.interfaces, hold, List.eraseDupsBy_cons, List.filter_filter, hkey,
          Bool.and_comm]
    | _ => simp [Edit.interfaces]

/-- The methods of a draft have different names in any letter case. -/
theorem methods_distinct_after (hstart : start.methods = []) (es : List Edit) :
    (drafting.after start es).methods.Pairwise
      fun m m' => Text.foldCase m.name ≠ Text.foldCase m'.name := by
  apply Drafting.pairwise_after ClassDraft.methods Edit.methods
    (fun h => (takes_of_edit h).methods_eq) _ _ hstart es
  · intro n e
    cases e <;> simp [Edit.methods]
  · intro d d' e h m' hm' m hm heq
    have hfresh := (takes_of_edit h).fresh_method m' hm'
    rw [hasMethod, List.any_eq_false] at hfresh
    exact hfresh m hm (by simpa using heq)

/-- The properties of a draft have different names. -/
theorem properties_distinct_after (hstart : start.properties = []) (es : List Edit) :
    (drafting.after start es).properties.Pairwise fun p p' => p.name ≠ p'.name := by
  apply Drafting.pairwise_after ClassDraft.properties Edit.properties
    (fun h => (takes_of_edit h).properties_eq) _ _ hstart es
  · intro n e
    cases e <;> simp [Edit.properties]
  · intro d d' e h p' hp' p hp heq
    have hfresh := (takes_of_edit h).fresh_property p' hp'
    rw [hasProperty, List.any_eq_false] at hfresh
    exact hfresh p hp (by simpa using heq)

end Members

/-! ### Refused members -/

theorem addMethod_eq_error_iff {m : MethodDraft} {r : DraftError} :
    d.addMethod m = .error r ↔
      d.hasMethod m.name ∧ r = .duplicateMember .method m.name d.name ∨
      ¬ d.hasMethod m.name ∧ m.className.isSome ∧ r = .alreadyWritten .declaringClass m.name := by
  unfold addMethod MethodDraft.writeClass
  -- the name is looked at first: only a method with a new name is asked for its class
  by_cases hname : d.hasMethod m.name
  · simp [hname, eq_comm (a := r)]
  · cases hclass : m.className <;>
      simp [hname, bind, Except.bind, pure, Except.pure, eq_comm (a := r)]

theorem addProperty_eq_error_iff {p : PropertyDraft} {r : DraftError} :
    d.addProperty p = .error r ↔
      d.hasProperty p.name ∧ r = .duplicateMember .property p.name d.name ∨
      ¬ d.hasProperty p.name ∧ p.className.isSome ∧
        r = .alreadyWritten .declaringClass p.name := by
  unfold addProperty PropertyDraft.writeClass
  by_cases hname : d.hasProperty p.name
  · simp [hname, eq_comm (a := r)]
  · cases hclass : p.className <;>
      simp [hname, bind, Except.bind, pure, Except.pure, eq_comm (a := r)]

theorem addConstant_eq_error_iff {c : Constant} {r : DraftError} :
    d.addConstant c = .error r ↔
      d.constants.any (·.name == c.name) ∧ r = .duplicateMember .constant c.name d.name := by
  unfold addConstant
  by_cases hname : d.constants.any (·.name == c.name)
  · simp [hname, eq_comm (a := r)]
  · simp [hname]

/-! ### The built class -/

section Built

variable {start : ClassDraft}

theorem hasMethod_after (hstart : start.methods = []) (es : List Edit) (name : String) :
    (drafting.after start es).hasMethod name ↔
      ∃ m, .method m ∈ drafting.accepted start es ∧ Text.eqIgnoringCase m.name name := by
  rw [hasMethod, methods_after, hstart, List.nil_append, List.any_eq_true]
  constructor
  · rintro ⟨m, hm, hname⟩
    obtain ⟨m₀, hm₀, rfl⟩ := Edit.mem_flatMap_methods_iff.mp hm
    exact ⟨m₀, hm₀, hname⟩
  · rintro ⟨m, hm, hname⟩
    exact ⟨_, Edit.mem_flatMap_methods_iff.mpr ⟨m, hm, rfl⟩, hname⟩

theorem hasProperty_after (hstart : start.properties = []) (es : List Edit) (name : String) :
    (drafting.after start es).hasProperty name ↔
      ∃ p, .property p ∈ drafting.accepted start es ∧ p.name = name := by
  rw [hasProperty, properties_after, hstart, List.nil_append, List.any_eq_true]
  constructor
  · rintro ⟨p, hp, hname⟩
    obtain ⟨p₀, hp₀, rfl⟩ := Edit.mem_flatMap_properties_iff.mp hp
    exact ⟨p₀, hp₀, by simpa using hname⟩
  · rintro ⟨p, hp, hname⟩
    exact ⟨_, Edit.mem_flatMap_properties_iff.mpr ⟨p, hp, rfl⟩, by simpa using hname⟩

theorem any_constants_after (hstart : start.constants = []) (es : List Edit) (name : String) :
    (drafting.after start es).constants.any (·.name == name) ↔
      ∃ c, .constant c ∈ drafting.accepted start es ∧ c.name = name := by
  rw [constants_after, hstart, List.nil_append, List.any_eq_true]
  simp only [Edit.mem_flatMap_constants_iff, beq_iff_eq]

/-- In a list of elements with different keys every element is what is found under its key. -/
theorem find?_eq_some_iff_of_distinct {α : Type} {key : α → String} {l : List α}
    (h : l.Pairwise fun a b => key a ≠ key b) {a : α} (ha : a ∈ l) (k : String) :
    l.find? (key · == k) = some a ↔ key a = k := by
  constructor
  · intro hfind
    simpa using List.find?_some hfind
  · rintro rfl
    induction l with
    | nil => cases ha
    | cons b l ih =>
      -- an element behind the first one has another key, so the first one is passed
      obtain ⟨hb, hl⟩ := List.pairwise_cons.mp h
      rcases List.mem_cons.mp ha with rfl | ha
      · exact List.find?_cons_of_pos (beq_self_eq_true _)
      · rw [List.find?_cons_of_neg (by simpa using hb a ha)]
        exact ih hl ha

/-- Without its leading copies of a character a text is one that does not begin with it, exactly if
it is this one behind some copies of the character. -/
theorem dropLeading_eq_iff {c : Char} {s t : String} (ht : t.toList.head? ≠ some c) :
    Text.dropLeading c s = t ↔ ∃ n, s = String.ofList (List.replicate n c) ++ t := by
  constructor
  · rintro rfl
    refine ⟨(s.toList.takeWhile (· == c)).length, ?_⟩
    -- what is dropped are copies of the character
    have hcopies : s.toList.takeWhile (· == c) =
        List.replicate (s.toList.takeWhile (· == c)).length c := by
      apply List.eq_replicate_of_mem
      intro b hb
      simpa using List.mem_takeWhile_imp hb
    rw [← hcopies, Text.dropLeading, ← String.ofList_append, List.takeWhile_append_dropWhile,
      String.ofList_toList]
  · rintro ⟨n, rfl⟩
    -- the copies go, and the text behind them stays
    have hrest : t.toList.dropWhile (· == c) = t.toList := by
      cases hchars : t.toList with
      | nil => rfl
      | cons b rest =>
        have hb : b ≠ c := by simpa [hchars] using ht
        simp [hb]
    simp [Text.dropLeading, hrest]

/-- The class that is built behind the edits `es` of a draft. -/
def built (start : ClassDraft) (es : List Edit) (linked : Bool) : Class :=
  (drafting.after start es).build linked

theorem methods_built (hstart : start.methods = []) (es : List Edit) (linked : Bool) :
    (built start es linked).methods =
      ((drafting.accepted start es).flatMap (Edit.methods start.name)).map MethodDraft.build := by
  show (drafting.after start es).methods.map MethodDraft.build = _
  rw [methods_after, hstart, List.nil_append]

theorem properties_built (hstart : start.properties = []) (es : List Edit) (linked : Bool) :
    (built start es linked).properties =
      ((drafting.accepted start es).flatMap (Edit.properties start.name)).map
        PropertyDraft.build := by
  show (drafting.after start es).properties.map PropertyDraft.build = _
  rw [properties_after, hstart, List.nil_append]

/-- **Members are collected.** Which members a class refuses behind the edits `es`, and what the
class is that is built then. -/
structure Collects (start : ClassDraft) (es : List Edit) (linked : Bool) : Prop where
  /-- A method is refused if one of its name in any letter case was added, or else if it belongs to
  a class already. -/
  addMethod_error_iff : ∀ m r, (drafting.after start es).addMethod m = .error r ↔
    (∃ m', .method m' ∈ drafting.accepted start es ∧ Text.eqIgnoringCase m'.name m.name) ∧
        r = .duplicateMember .method m.name start.name ∨
      (¬ ∃ m', .method m' ∈ drafting.accepted start es ∧ Text.eqIgnoringCase m'.name m.name) ∧
        m.className.isSome ∧ r = .alreadyWritten .declaringClass m.name
  /-- A property is refused if one of its name was added, or else if it belongs to a class
  already. -/
  addProperty_error_iff : ∀ p r, (drafting.after start es).addProperty p = .error r ↔
    (∃ p', .property p' ∈ drafting.accepted start es ∧ p'.name = p.name) ∧
        r = .duplicateMember .property p.name start.name ∨
      (¬ ∃ p', .property p' ∈ drafting.accepted start es ∧ p'.name = p.name) ∧
        p.className.isSome ∧ r = .alreadyWritten .declaringClass p.name
  /-- A constant is refused if one of its name was added. -/
  addConstant_error_iff : ∀ c r, (drafting.after start es).addConstant c = .error r ↔
    (∃ c', .constant c' ∈ drafting.accepted start es ∧ c'.name = c.name) ∧
      r = .duplicateMember .constant c.name start.name
  name_eq : (built start es linked).name = start.name
  methods_eq : (built start es linked).methods =
    ((drafting.accepted start es).flatMap (Edit.methods start.name)).map MethodDraft.build
  properties_eq : (built start es linked).properties =
    ((drafting.accepted start es).flatMap (Edit.properties start.name)).map PropertyDraft.build
  constants_eq : (built start es linked).constants =
    (drafting.accepted start es).flatMap Edit.constants
  method_className : ∀ m ∈ (built start es linked).methods, m.className = start.name
  property_className : ∀ p ∈ (built start es linked).properties, p.className = start.name
  /-- Of interfaces with one key the first spelling is kept, in the order of the first ones. -/
  interfaceNames_eq : (built start es linked).interfaceNames =
    (es.flatMap Edit.interfaces).eraseDupsBy (Name.lookupKey · == Name.lookupKey ·)
  /-- A method is found under its name in any letter case and under no other. -/
  ownMethod?_eq_some_iff : ∀ m ∈ (built start es linked).methods, ∀ name,
    (built start es linked).ownMethod? name = some m ↔ Text.eqIgnoringCase m.name name
  /-- A property is found under its name, with any number of dollar signs, and under no other. -/
  ownProperty?_eq_some_iff : ∀ p ∈ (built start es linked).properties,
    p.name.toList.head? ≠ some '$' → ∀ name,
      (built start es linked).ownProperty? name = some p ↔
        ∃ n, name = String.ofList (List.replicate n '$') ++ p.name

theorem collects_ofName (name : String) (flags : ClassFlags) (es : List Edit) (linked : Bool) :
    Collects (ofName name flags) es linked := by
  have hname : (drafting.after (ofName name flags) es).name = (ofName name flags).name :=
    Drafting.name_after (K := drafting) _ es
  constructor
  case name_eq => exact hname
  case methods_eq => exact methods_built rfl es linked
  case properties_eq => exact properties_built rfl es linked
  case addMethod_error_iff =>
    intro m r
    rw [addMethod_eq_error_iff, hasMethod_after rfl, hname]
  case addProperty_error_iff =>
    intro p r
    rw [addProperty_eq_error_iff, hasProperty_after rfl, hname]
  case addConstant_error_iff =>
    intro c r
    rw [addConstant_eq_error_iff, any_constants_after rfl, hname]
  case constants_eq =>
    show (drafting.after _ es).constants = _
    rw [constants_after]
    rfl
  case method_className =>
    intro m hm
    rw [methods_built rfl] at hm
    obtain ⟨draft, hdraft, rfl⟩ := List.mem_map.mp hm
    obtain ⟨m₀, -, rfl⟩ := Edit.mem_flatMap_methods_iff.mp hdraft
    rfl
  case property_className =>
    intro p hp
    rw [properties_built rfl] at hp
    obtain ⟨draft, hdraft, rfl⟩ := List.mem_map.mp hp
    obtain ⟨p₀, -, rfl⟩ := Edit.mem_flatMap_properties_iff.mp hdraft
    rfl
  case interfaceNames_eq =>
    -- a new draft has no interfaces that could stand in the way
    have hall : (es.flatMap Edit.interfaces).filter (!(ofName name flags).hasInterface ·) =
        es.flatMap Edit.interfaces :=
      List.filter_eq_self.mpr fun _ _ => rfl
    show (drafting.after _ es).interfaceNames = _
    rw [interfaceNames_after, hall]
    rfl
  case ownMethod?_eq_some_iff =>
    intro m hm n
    have hdistinct : (built (ofName name flags) es linked).methods.Pairwise
        fun m m' => m.key ≠ m'.key :=
      List.pairwise_map.mpr (methods_distinct_after rfl es)
    rw [Class.ownMethod?, find?_eq_some_iff_of_distinct hdistinct hm, Text.eqIgnoringCase_iff]
    rfl
  case ownProperty?_eq_some_iff =>
    intro p hp hhead n
    have hdistinct : (built (ofName name flags) es linked).properties.Pairwise
        fun p p' => p.name ≠ p'.name :=
      List.pairwise_map.mpr (properties_distinct_after rfl es)
    rw [Class.ownProperty?, find?_eq_some_iff_of_distinct hdistinct hp, eq_comm,
      dropLeading_eq_iff hhead]

end Built

end ClassDraft

/-! ### All kinds of drafts -/

/-- **Drafts are written once.** Whatever is done to a new draft of any kind, its fields keep the
first write to them and refuse the later ones. A class refuses exactly the members whose name is
taken and those that belong to a class already, and is built from all the others. -/
theorem drafts_write_once :
    (∀ name byReference variadic promoted es, ParameterDraft.drafting.WritesOnce
      (ParameterDraft.ofName name byReference variadic promoted) es) ∧
    (∀ name modifiers returnsReference es, MethodDraft.drafting.WritesOnce
      (MethodDraft.ofName name modifiers returnsReference) es) ∧
    (∀ name modifiers es, PropertyDraft.drafting.WritesOnce
      (PropertyDraft.ofName name modifiers) es) ∧
    (∀ name flags es, ClassDraft.drafting.WritesOnce (ClassDraft.ofName name flags) es) ∧
    ∀ name flags es linked, ClassDraft.Collects (ClassDraft.ofName name flags) es linked := by
  refine ⟨?_, ?_, ?_, ?_, ClassDraft.collects_ofName⟩
  · intro name byReference variadic promoted es
    exact Drafting.writesOnce (fun f => by cases f <;> rfl) es
  · intro name modifiers returnsReference es
    exact Drafting.writesOnce (fun f => by cases f <;> rfl) es
  · intro name modifiers es
    exact Drafting.writesOnce (fun f => by cases f <;> rfl) es
  · intro name flags es
    exact Drafting.writesOnce (fun f => by cases f <;> rfl) es

/-- Properties are told apart by the case of their letters: a class with a property `x` finds none
under `X`. -/
theorem property_not_found_in_other_case :
    ¬ ∀ (name : String) (flags : ClassFlags) (es : List ClassDraft.Edit),
      ∀ p ∈ (ClassDraft.built (.ofName name flags) es true).properties, ∀ n,
        Text.eqIgnoringCase p.name n →
          (ClassDraft.built (.ofName name flags) es true).ownProperty? n = some p := by
  intro h
  have hfound := h "A" {} [.property (.ofName "x" {})] _ (List.mem_singleton.mpr rfl) "X"
    (by decide +kernel)
  have hnone : ((ClassDraft.built (.ofName "A" {})
      [.property (.ofName "x" {})] true).ownProperty? "X").isNone := by decide +kernel
  rw [hfound] at hnone
  cases hnone

end Introspect
