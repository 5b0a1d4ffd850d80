import Introspect.Proofs.Declaration.WriteOnce
import Introspect.Proofs.Reading.Run
import Introspect.Reading.File

/-!
# Drafts that are filled at once

A draft that has just begun has none of its fields, so it takes every first write. The routines that
read a parameter, a method, a property or the beginning of a class write each field once. Here they
are shown to be equal to routines that yield the draft with all of its fields and write nothing:
`parameter_eq`, `methodDraft_eq`, `propertyDraft_eq` and `classDraft_eq`.

Some parts of a declaration may be missing, such as the type of a parameter or the interfaces of a
class. Each of them is a routine of its own here (`declaredType?`, `parameterList`, `constantType?`,
`implementsClause`), so that what stands behind it is followed once, whether it is there or not.

What is known of the routines is proved along the right sides of these equations.
-/

namespace Introspect.Reading

section Writes

variable {α β γ : Type} {span : Span} {draft draft' : α}

/-- Behind a write that the draft takes, the rest goes on with the new draft. -/
theorem write_bind {f : α → Except DraftError α} {k : α → Routine β} (h : f draft = .ok draft') :
    (write span draft f >>= k) = k draft' := by
  unfold write
  rw [h]
  exact pure_bind draft' k

/-- Behind a field that is written if there is a value for it, the rest goes on with the field; `g`
is the draft with the field. -/
theorem write?_bind {value : Option γ} {f : α → γ → Except DraftError α} {k : α → Routine β}
    (g : Option γ → α) (hnone : g none = draft) (hsome : ∀ v, f draft v = .ok (g (some v))) :
    (write? span draft value f >>= k) = k (g value) := by
  cases value with
  | none =>
    rw [hnone]
    exact pure_bind draft k
  | some v => exact write_bind (f := (f · v)) (hsome v)

end Writes

/-! ### Parameters -/

/-- Reads the declared type of a parameter, if it has one. -/
def declaredType? (f : Frame) : Routine (Option TypeHint) := do
  match ← peekKind with
  | .amp | .ellipsis | .variableName => return none
  | _ => some <$> typeHint f

/-- The draft of a parameter. -/
def parameterOf (var : Token) (byReference variadic promoted : Bool) (hint : Option TypeHint)
    (value : Option String) : ParameterDraft :=
  { ParameterDraft.ofName var.lexeme byReference variadic promoted with
    typeHint := hint, defaultValue := value }

/-- The draft of the property that a parameter declares. -/
def promotedOf (var : Token) (mods : Modifiers) (startLine : Nat) (hint : Option TypeHint) :
    PropertyDraft :=
  { PropertyDraft.ofName var.lexeme mods with
    startLine := some startLine, endLine := some var.span.endLine, typeHint := hint }

/-- Only a parameter with modifiers declares a property. -/
theorem mem_promoted {q : PropertyDraft} {mods : Modifiers} {p : PropertyDraft} :
    q ∈ (if mods.isEmpty then none else some p) ↔ mods.isEmpty = false ∧ q = p := by
  cases mods.isEmpty <;> simp [eq_comm]

theorem parameter_eq (cfg : Setting) (f : Frame) (doc : Option DocBlock) :
    parameter cfg f doc = (do
      skipAttributes
      let first ← peek
      let mods ← promotion
      let declared ← declaredType? f
      let amp? ← eat .amp
      let dots? ← eat .ellipsis
      let var ← expect .variableName
      let value ← defaultValue? cfg [.comma, .rightParen]
      let s ← get
      let hint := declared.or ((doc.bind (·.paramType? var.lexeme)).bind (f.docType? s.scope))
      return (parameterOf var amp?.isSome dots?.isSome (!mods.isEmpty) hint (value.map (·.1)),
        if mods.isEmpty then none else some (promotedOf var mods first.span.line hint))) := by
  unfold parameter
  refine bind_congr fun _ => bind_congr fun first => bind_congr fun mods => ?_
  extract_lets promoted behind
  -- what is read behind the declared type stands in every branch that looks for one
  refine Eq.trans (b := declaredType? f >>= behind) ?_ ?_
  · rw [declaredType?, bind_assoc]
    refine bind_congr fun kind => ?_
    split <;> simp only [pure_bind]
  refine bind_congr fun declared => bind_congr fun amp? => bind_congr fun dots? => ?_
  refine bind_congr fun var => bind_congr fun value => bind_congr fun s => ?_
  extract_lets scope hint p withProperty q hint'
  -- the parameter is drafted in the same way with and without a property
  have hwithProperty : ∀ property, withProperty property = pure
      (parameterOf var amp?.isSome dots?.isSome promoted hint (value.map (·.1)), property) := by
    intro property
    refine Eq.trans (write?_bind (fun v => { p with typeHint := v }) rfl fun _ => rfl) ?_
    exact write?_bind (parameterOf var amp?.isSome dots?.isSome promoted hint) rfl fun _ => rfl
  have hpromoted : (do
        let q ← write var.span q (·.writeStartLine first.span.line)
        let q ← write var.span q (·.writeEndLine var.span.endLine)
        let property ← some <$> write? var.span q hint PropertyDraft.writeTypeHint
        withProperty property)
      = withProperty (some (promotedOf var mods first.span.line hint)) := by
    refine Eq.trans (write_bind rfl) ?_
    refine Eq.trans (write_bind rfl) ?_
    rw [map_eq_pure_bind, bind_assoc]
    exact write?_bind (promotedOf var mods first.span.line) rfl fun _ => rfl
  -- one branch writes the property and then the parameter, the other one the parameter alone
  rw [hpromoted, pure_bind, hwithProperty, hwithProperty]
  cases hmods : mods.isEmpty <;> simp [promoted, hmods, hint, hint', scope]

/-- Reads the parenthesis in front of a list of parameters. -/
def parametersOpen : Routine Unit := do
  let t ← peek
  if t.kind ≠ .leftParen then
    throw ⟨.expectedParameters, t.span, "expected parameter list, found " ++ t.describe⟩
  discard advance

/-- Reads the parameters up to the parenthesis behind them. -/
def parameterList (cfg : Setting) (f : Frame) (doc : Option DocBlock) :
    Routine (List (ParameterDraft × Option PropertyDraft)) := do
  if (← peekKind) = .rightParen then return []
  else listOf (parameter cfg f doc) (commaBefore .rightParen)

theorem parameters_eq (cfg : Setting) (f : Frame) (doc : Option DocBlock) :
    parameters cfg f doc = (do
      parametersOpen
      let ps ← parameterList cfg f doc
      discard (expect .rightParen)
      return (ps.map (·.1), ps.filterMap (·.2))) := by
  unfold parameters parametersOpen
  rw [bind_assoc]
  refine bind_congr fun t => ?_
  extract_lets close behind
  -- an empty list ends like any other
  have hbehind : behind () = (do
      discard advance
      let ps ← parameterList cfg f doc
      close ps) := by
    refine bind_congr fun _ => ?_
    rw [parameterList, bind_assoc]
    refine bind_congr fun kind => ?_
    split <;> simp only [pure_bind]
  split
  · rfl
  · exact hbehind

/-! ### Members -/

/-- The draft of a method that ends with the token `closing`. -/
def methodOf (d : ClassDraft) (mods : Modifiers) (doc : Option String) (startLine : Nat)
    (returnsReference : Bool) (name : Token) (params : List ParameterDraft)
    (hint : Option TypeHint) (closing : Token) : MethodDraft :=
  { MethodDraft.ofName name.lexeme
      (if d.flags.hasInterface then { mods with hasAbstract := true } else mods)
      returnsReference with
    docComment := doc, returnType := hint, parameters := some params, startLine := some startLine,
    endLine := some closing.span.endLine }

theorem methodDraft_eq (cfg : Setting) (d : ClassDraft) (mods : Modifiers) (doc : Option String)
    (startLine : Nat) :
    methodDraft cfg d mods doc startLine = (do
      discard (expect .functionWord)
      let amp? ← eat .amp
      let name ← memberName
      let (params, promoted) ← parameters cfg (cfg.frame d) (doc.map DocBlock.parse)
      let hint ← returnType (cfg.frame d) (doc.map DocBlock.parse)
      let closing ← methodEnd
      return (methodOf d mods doc startLine amp?.isSome name params hint closing, name,
        promoted)) := by
  unfold methodDraft
  refine bind_congr fun _ => bind_congr fun _ => bind_congr fun name => ?_
  refine bind_congr fun (params, promoted) => bind_congr fun hint => bind_congr fun closing => ?_
  -- `ofName` leaves the five fields empty, and no write fills that of a later one
  extract_lets m
  refine Eq.trans (write?_bind (fun v => { m with docComment := v }) rfl fun _ => rfl) ?_
  refine Eq.trans (write?_bind (fun v => { m with docComment := doc, returnType := v }) rfl
    fun _ => rfl) ?_
  refine Eq.trans (write_bind rfl) ?_
  refine Eq.trans (write_bind rfl) ?_
  exact write_bind rfl

/-- The draft of a property that ends with the token `last`. -/
def propertyOf (mods : Modifiers) (hint : Option TypeHint) (doc : Option String) (line : Nat)
    (var last : Token) (value : Option String) : PropertyDraft :=
  { PropertyDraft.ofName var.lexeme mods with
    startLine := some line, endLine := some last.span.endLine, docComment := doc, typeHint := hint,
    defaultValue := value }

theorem propertyDraft_eq (cfg : Setting) (mods : Modifiers) (hint : Option TypeHint)
    (doc : Option String) (line : Nat) :
    propertyDraft cfg mods hint doc line = (do
      let var ← expect .variableName
      let default? ← defaultValue? cfg [.comma, .semicolon]
      return (propertyOf mods hint doc line var ((default?.map (·.2)).getD var)
        (default?.map (·.1)), var.span)) := by
  unfold propertyDraft
  refine bind_congr fun var => bind_congr fun default => ?_
  extract_lets last p
  refine Eq.trans (write_bind rfl) ?_
  refine Eq.trans (write_bind rfl) ?_
  refine Eq.trans (write?_bind (fun v => { p with
    startLine := some line, endLine := some last.span.endLine, docComment := v }) rfl
    fun _ => rfl) ?_
  refine Eq.trans (write?_bind (fun v => { p with
    startLine := some line, endLine := some last.span.endLine, docComment := doc, typeHint := v })
    rfl fun _ => rfl) ?_
  exact write?_bind (propertyOf mods hint doc line var last) rfl fun _ => rfl

/-- Reads the type of the constants of a declaration, unless the next token but one is an equals
sign. -/
def constantType? (cfg : Setting) (b : Body) : BodyRoutine (Option TypeHint) :=
  if (b.peekAt 1).kind = .equal then return none
  else some <$> reading (typeHint (cfg.frame b.draft))

theorem constants_eq (cfg : Setting) (mods : Modifiers) :
    constants cfg mods = (do
      discard (reading (expect .constWord))
      let b ← get
      let hint ← constantType? cfg b
      discard (iterate Body.size (constantRound cfg mods hint) ())
      discard (reading (expect .semicolon))) := by
  unfold constants
  refine bind_congr fun _ => bind_congr fun b => ?_
  rw [constantType?]
  split <;> simp only [pure_bind]

/-! ### Classes -/

/-- A class with another parent and other interfaces, and all else as it is. This is what a header
does to a class. -/
def Headed (d d' : ClassDraft) : Prop :=
  ∃ parent interfaces, d' = { d with parentName := parent, interfaceNames := interfaces }

namespace Headed

variable {d d' d'' : ClassDraft}

theorem refl (d : ClassDraft) : Headed d d := ⟨d.parentName, d.interfaceNames, rfl⟩

theorem trans (h : Headed d d') (h' : Headed d' d'') : Headed d d'' := by
  obtain ⟨_, _, rfl⟩ := h
  obtain ⟨parent, interfaces, rfl⟩ := h'
  exact ⟨parent, interfaces, rfl⟩

theorem endLine_eq (h : Headed d d') : d'.endLine = d.endLine := by
  obtain ⟨_, _, rfl⟩ := h
  rfl

end Headed

theorem headed_addInterfaces (d : ClassDraft) (names : List String) :
    Headed d (names.foldl ClassDraft.addInterface d) := by
  obtain ⟨interfaces, h⟩ := d.exists_addInterfaces_eq names
  exact ⟨d.parentName, interfaces, h⟩

/-- Reads the interfaces that a class implements, if there are any, and adds them to it. -/
def implementsClause (resolver : Resolver) (d : ClassDraft) : Routine ClassDraft := do
  if (← eat .implementsWord).isSome then interfaceList resolver d else return d

theorem classHeader_eq (resolver : Resolver) (d : ClassDraft) :
    classHeader resolver d = (do
      let d ← extendsClause resolver d
      let d ← implementsClause resolver d
      discard (expect .leftBrace)
      return d) := by
  unfold classHeader
  refine bind_congr fun d => ?_
  rw [implementsClause, bind_assoc]
  refine bind_congr fun o => ?_
  split <;> simp only [pure_bind]

/-- The draft of a class, up to its name. -/
def classOf (name : String) (flags : ClassFlags) (doc : Option String) (startLine : Nat)
    (path : Option String) : ClassDraft :=
  { ClassDraft.ofName name flags with
    docComment := doc, startLine := some startLine, sourceFile := path }

theorem classDraft_eq (file : SourceFile) (start : List Entry) :
    classDraft file start = (do
      let first ← peek
      let flags ← classFlags
      let doc ← docSince start
      let name ← advance
      let s ← get
      return (classOf (s.scope.declare name.lexeme) flags doc first.span.line file.path, name,
        first.span)) := by
  unfold classDraft
  refine bind_congr fun first => bind_congr fun flags => bind_congr fun doc => ?_
  refine bind_congr fun name => bind_congr fun s => ?_
  extract_lets d
  refine Eq.trans (write?_bind (fun v => { d with docComment := v }) rfl fun _ => rfl) ?_
  refine Eq.trans (write_bind rfl) ?_
  exact write?_bind (classOf _ flags doc first.span.line) rfl fun _ => rfl

end Introspect.Reading
