import Introspect.Reading.Skip
import Introspect.Reading.Type

/-!
# Reading the body of a class

The members of a class are read one by one and added to its draft. A member that cannot be read is
reported and passed over, so that it does not hide the members behind it; what was added before it
failed stays added.

* `modifiers` collects the modifiers in front of a member; of two that exclude each other the first
  one counts;
* `parameter` reads a parameter, which in a constructor may declare a property too;
* `member` reads one member and `classBody` all of them.
-/

namespace Introspect.Reading

/-- What stays the same while a class is read. -/
structure Setting where
  /-- The text of the file. -/
  source : String
  resolver : Resolver
  deriving Repr, Inhabited

/-- A class in the making and where its reading stands. -/
structure Body extends State where
  draft : ClassDraft
  deriving Repr, Inhabited

/-- The number of tokens that remain. -/
def Body.size (b : Body) : Nat := b.toState.size

/-- A routine that also adds to a class. -/
abbrev BodyRoutine (α : Type) := EStateM Diagnostic Body α

/-- A routine that adds nothing. -/
def reading {α : Type} (r : Routine α) : BodyRoutine α := fun b =>
  match r b.toState with
  | .ok a s => .ok a { b with toState := s }
  | .error d s => .error d { b with toState := s }

/-- A write to the class; it is reported if the class refuses it. -/
def adding (span : Span) (f : ClassDraft → Except DraftError ClassDraft) : BodyRoutine Unit := do
  -- A refused write yields the draft as it was.
  let draft ← reading (write span (← get).draft f)
  modify ({ · with draft })

/-- What types are read against inside a draft. -/
def Setting.frame (cfg : Setting) (d : ClassDraft) : Frame :=
  ⟨cfg.resolver, d.name, d.parentName⟩

/-! ### Modifiers and names -/

/-- The modifier that a token stands for. -/
def modifierOf? : Token.Kind → Option Modifiers
  | .publicWord | .varWord => some { hasPublic := true }
  | .protectedWord => some { hasProtected := true }
  | .privateWord => some { hasPrivate := true }
  | .staticWord => some { hasStatic := true }
  | .abstractWord => some { hasAbstract := true }
  | .finalWord => some { hasFinal := true }
  | .readonlyWord => some { hasReadonly := true }
  | _ => none

/-- Why a modifier cannot join those in front of it. -/
def modifierFault? (current : Modifiers) (new : Modifiers) (t : Token) : Option Diagnostic :=
  if current.includes new then
    some ⟨.invalidModifier, t.span, "duplicate modifier '" ++ t.lexeme ++ "'"⟩
  else if new.hasVisibility ∧ current.hasVisibility then
    some ⟨.conflictingModifiers, t.span, "multiple visibility modifiers"⟩
  else if (current ∪ new).hasAbstract ∧ (current ∪ new).hasFinal then
    some ⟨.conflictingModifiers, t.span, "'abstract' and 'final' cannot be combined"⟩
  else none

/-- One modifier, behind those that have been read. One that repeats or contradicts them is reported
and does not count. -/
def modifierRound (current : Modifiers) : Routine (ForInStep Modifiers) := do
  let t ← peek
  match modifierOf? t.kind with
  | none => return .done current
  | some new =>
    discard advance
    match modifierFault? current new t with
    | some d =>
      report d
      return .yield current
    | none => return .yield (current ∪ new)

/-- **Modifiers.** Reads the modifiers in front of a member. -/
def modifiers : Routine Modifiers := iterate State.size modifierRound .empty

/-- Reads the name of a declared member, for which reserved words serve too. -/
def memberName : Routine Token := do
  let t ← peek
  if t.kind = .name ∨ t.kind.isReserved then advance else unexpectedName

/-! ### Parameters -/

/-- The modifiers by which a parameter declares a property. -/
def promotionOf? : Token.Kind → Option Modifiers
  | .publicWord => some { hasPublic := true }
  | .protectedWord => some { hasProtected := true }
  | .privateWord => some { hasPrivate := true }
  | .readonlyWord => some { hasReadonly := true }
  | _ => none

/-- One modifier of a parameter, behind those that have been read. -/
def promotionRound (current : Modifiers) : Routine (ForInStep Modifiers) := do
  match promotionOf? (← peekKind) with
  | none => return .done current
  | some new =>
    discard advance
    return .yield (current ∪ new)

/-- Reads the modifiers in front of a parameter. -/
def promotion : Routine Modifiers := iterate State.size promotionRound .empty

/-- Reads a value behind an equals sign, if there is one, with its last token. -/
def defaultValue? (cfg : Setting) (stops : List Token.Kind) :
    Routine (Option (String × Token)) := do
  if (← eat .equal).isSome then return some (← initializer cfg.source stops) else return none

/-- **Parameters.** Reads a parameter, and the property that it declares if it has modifiers.
Without a declared type, the documented one of its method counts. -/
def parameter (cfg : Setting) (f : Frame) (doc : Option DocBlock) :
    Routine (ParameterDraft × Option PropertyDraft) := do
  skipAttributes
  let first ← peek
  let promotion ← promotion
  let declared ←
    match ← peekKind with
    -- Here the parameter goes on without a type.
    | .amp | .ellipsis | .variableName => pure none
    | _ => some <$> typeHint f
  let byReference := (← eat .amp).isSome
  let variadic := (← eat .ellipsis).isSome
  let var ← expect .variableName
  let default? ← defaultValue? cfg [.comma, .rightParen]
  let scope := (← get).scope
  let hint := declared.or ((doc.bind (·.paramType? var.lexeme)).bind (f.docType? scope))
  let promoted := !promotion.isEmpty
  let property ←
    if promoted then
      let p := PropertyDraft.ofName var.lexeme promotion
      -- The property begins at its modifiers and ends at its name, before the value.
      let p ← write var.span p (·.writeStartLine first.span.line)
      let p ← write var.span p (·.writeEndLine var.span.endLine)
      some <$> write? var.span p hint PropertyDraft.writeTypeHint
    else pure none
  let p := ParameterDraft.ofName var.lexeme byReference variadic promoted
  let p ← write? var.span p hint ParameterDraft.writeTypeHint
  let p ← write? var.span p (default?.map (·.1)) ParameterDraft.writeDefault
  return (p, property)

/-- Reads a list of parameters in parentheses, and the properties that they declare. -/
def parameters (cfg : Setting) (f : Frame) (doc : Option DocBlock) :
    Routine (List ParameterDraft × List PropertyDraft) := do
  let t ← peek
  if t.kind ≠ .leftParen then
    throw ⟨.expectedParameters, t.span, "expected parameter list, found " ++ t.describe⟩
  discard advance
  let ps ←
    if (← peekKind) = .rightParen then pure []
    else listOf (parameter cfg f doc) (commaBefore .rightParen)
  discard (expect .rightParen)
  return (ps.map (·.1), ps.filterMap (·.2))

/-! ### Members -/

/-- Reads a return type, or takes the documented one. -/
def returnType (f : Frame) (doc : Option DocBlock) : Routine (Option TypeHint) := do
  if (← eat .colon).isSome then return some (← typeHint f)
  else
    let scope := (← get).scope
    return (doc.bind (·.returnType?)).bind (f.docType? scope)

/-- Reads the end of a method, a semicolon or a body, and yields its last token. -/
def methodEnd : Routine Token := do
  match ← peekKind with
  | .semicolon => advance
  | .leftBrace => skipBlock
  | _ => unexpected "'\x7b' or ';'"

/-- Reads the signature and the body of a method from the word `function` on. Yields the method, its
name token and the properties that its parameters declare. -/
def methodDraft (cfg : Setting) (d : ClassDraft) (mods : Modifiers) (doc : Option String)
    (startLine : Nat) : Routine (MethodDraft × Token × List PropertyDraft) := do
  discard (expect .functionWord)
  let returnsReference := (← eat .amp).isSome
  let name ← memberName
  -- Methods of an interface are abstract without saying so.
  let mods := if d.flags.hasInterface then { mods with hasAbstract := true } else mods
  let block := doc.map DocBlock.parse
  let (params, promoted) ← parameters cfg (cfg.frame d) block
  let hint ← returnType (cfg.frame d) block
  let closing ← methodEnd
  let m := MethodDraft.ofName name.lexeme mods returnsReference
  let m ← write? name.span m doc MethodDraft.writeDoc
  let m ← write? name.span m hint MethodDraft.writeReturnType
  let m ← write name.span m (·.writeParameters params)
  let m ← write name.span m (·.writeStartLine startLine)
  let m ← write name.span m (·.writeEndLine closing.span.endLine)
  return (m, name, promoted)

/-- **Methods.** Reads a method and adds it to the class; a constructor also adds the properties
that its parameters declare. -/
def method (cfg : Setting) (mods : Modifiers) (doc : Option String) (startLine : Nat) :
    BodyRoutine Unit := do
  let (m, name, promoted) ← reading (methodDraft cfg (← get).draft mods doc startLine)
  adding name.span (·.addMethod m)
  -- The properties are added even if the class has refused the method.
  if Text.eqIgnoringCase name.lexeme Method.constructorName then
    promoted.forM fun p => adding name.span (·.addProperty p)

/-- One property of a declaration, from its variable on. -/
def propertyDraft (cfg : Setting) (mods : Modifiers) (hint : Option TypeHint) (doc : Option String)
    (line : Nat) : Routine (PropertyDraft × Span) := do
  let var ← expect .variableName
  let default? ← defaultValue? cfg [.comma, .semicolon]
  let last := (default?.map (·.2)).getD var
  let p := PropertyDraft.ofName var.lexeme mods
  let p ← write var.span p (·.writeStartLine line)
  let p ← write var.span p (·.writeEndLine last.span.endLine)
  let p ← write? var.span p doc PropertyDraft.writeDoc
  let p ← write? var.span p hint PropertyDraft.writeTypeHint
  let p ← write? var.span p (default?.map (·.1)) PropertyDraft.writeDefault
  return (p, var.span)

/-- One variable of a property declaration, with the doc comment and the line that are left for it.
The property is added to the class. -/
def propertyRound (cfg : Setting) (mods : Modifiers) (hint : Option TypeHint) :
    Option String × Nat → BodyRoutine (ForInStep (Option String × Nat))
  | (doc, line) => do
    let (p, span) ← reading (propertyDraft cfg mods hint doc line)
    adding span (·.addProperty p)
    -- The doc comment stays with the first variable; the others begin on their own lines.
    if ← reading comma then return .yield (none, (← get).peek.span.line)
    else return .done (none, line)

/-- **Properties.** Reads the variables of a property declaration and adds each. The type counts for
all of them, the doc comment for the first. -/
def properties (cfg : Setting) (mods : Modifiers) (declared : Option TypeHint)
    (doc : Option String) (startLine : Nat) : BodyRoutine Unit := do
  let b ← get
  let documented := (doc.map DocBlock.parse).bind (·.varType?)
  let hint := declared.or (documented.bind ((cfg.frame b.draft).docType? b.scope))
  discard (iterate Body.size (propertyRound cfg mods hint) (doc, startLine))
  discard (reading (expect .semicolon))

/-- One constant of a declaration, from its name on. -/
def constantDraft (cfg : Setting) (mods : Modifiers) (hint : Option TypeHint) :
    Routine (Constant × Span) := do
  let name ← memberName
  discard (expect .equal)
  let (value, _) ← initializer cfg.source [.comma, .semicolon]
  let c : Constant := { name := name.lexeme, value, typeHint := hint, line := name.span.line }
  return (c.withModifiers mods, name.span)

/-- One constant of a declaration, added to the class. -/
def constantRound (cfg : Setting) (mods : Modifiers) (hint : Option TypeHint) :
    Unit → BodyRoutine (ForInStep Unit)
  | () => do
    let (c, span) ← reading (constantDraft cfg mods hint)
    adding span (·.addConstant c)
    return if ← reading comma then .yield () else .done ()

/-- **Constants.** Reads the constants of a declaration and adds each. A type stands in front of the
first name unless an equals sign follows that name. -/
def constants (cfg : Setting) (mods : Modifiers) : BodyRoutine Unit := do
  discard (reading (expect .constWord))
  let b ← get
  let hint ←
    if (b.peekAt 1).kind = .equal then pure none
    else some <$> reading (typeHint (cfg.frame b.draft))
  discard (iterate Body.size (constantRound cfg mods hint) ())
  discard (reading (expect .semicolon))

/-- Whether a declared type can begin with the kind of token. -/
def beginsType : Token.Kind → Bool
  | .name | .question | .selfWord | .parentWord | .leftParen => true
  | _ => false

/-- Reads the member behind its attributes and modifiers. -/
def modifiedMember (cfg : Setting) (mods : Modifiers) (doc : Option String) (startLine : Nat) :
    BodyRoutine Unit := do
  let t := (← get).peek
  if t.kind = .functionWord then method cfg mods doc startLine
  else if t.kind = .constWord then constants cfg mods
  -- Without a modifier a variable or a type begins no property.
  else if t.kind = .variableName ∧ ¬ mods.isEmpty then properties cfg mods none doc startLine
  else if beginsType t.kind ∧ ¬ mods.isEmpty then
    let hint ← reading (typeHint (cfg.frame (← get).draft))
    properties cfg mods (some hint) doc startLine
  else throw ⟨.expectedClassMember, t.span, "expected class member, found " ++ t.describe⟩

/-- **Members.** Reads one member. The use of a trait is passed over. -/
def member (cfg : Setting) : BodyRoutine Unit := do
  let start := (← get).rest
  reading skipAttributes
  match (← get).peek.kind with
  | .useWord => reading do
    discard advance
    skipStatement
  | .semicolon => discard (reading advance)
  | _ =>
    let doc ← reading (docSince start)
    let first := (← get).peek
    let mods ← reading modifiers
    modifiedMember cfg mods doc first.span.line

/-- Reads one member and recovers if it cannot be read; at least one token is consumed. -/
def memberOrRecover (cfg : Setting) : BodyRoutine Unit := do
  let before := (← get).rest.length
  match ← attempt (member cfg) with
  | .ok () => pure ()
  | .error d => reading do
    report d
    recoverMember
  -- A member that fails at its first token would be met again.
  if (← get).rest.length = before then discard (reading advance)

/-- One member of a class, unless the class or the file ends here. -/
def memberRound (cfg : Setting) : Unit → BodyRoutine (ForInStep Unit)
  | () => do
    match (← get).peek.kind with
    | .rightBrace | .endOfText => return .done ()
    | _ =>
      memberOrRecover cfg
      return .yield ()

/-- **Bodies.** Reads members up to the closing brace of the class, which is not consumed, or to the
end of the file. -/
def classBody (cfg : Setting) : BodyRoutine Unit := iterate Body.size (memberRound cfg) ()

end Introspect.Reading
