import Introspect.Reading.Member

/-!
# Reading a file

A file is read from its first token to its last. Namespaces and imports set the scope of names,
classes and interfaces are read, functions, traits and anonymous classes are passed over whole, and
of everything else one token at a time is passed over. Braces outside of classes are transparent: a
class inside an `if` is found, and counts as conditional.

* `SourceFile.read` gives the declared classes and everything that is to be reported;
* `SourceFile.readStrictly` gives the classes only if nothing is.

Of two classes with the same key the first one is kept. The second is reported unless one of the two
is conditional.
-/

namespace Introspect

/-- A source text and how its names are to be read. -/
structure SourceFile where
  text : String
  resolver : Resolver := .namespaced
  /-- The file that the declared classes name as their source. -/
  path : Option String := none
  /-- Whether the declared classes look up the names they hold. -/
  linked : Bool := true
  deriving Repr, Inhabited

namespace Reading

/-- Where the reading of a file stands. -/
structure FileState extends State where
  /-- The open braces outside of classes, innermost first; those of a namespace are true. -/
  braces : List Bool
  /-- The classes read so far, in order. -/
  classes : List Class
  /-- The keys of these classes, with whether each was conditional. -/
  declared : List (String × Bool)
  deriving Repr, Inhabited

namespace FileState

/-- Runs a routine, which may not give up. Should it, that is reported. -/
def run {α : Type} (f : FileState) (r : Routine α) : FileState :=
  match r f.toState with
  | .ok _ s => { f with toState := s }
  | .error d s => { f with toState := s.report d }

/-- Whether a class declared here is conditional: it stands in braces that are not a namespace's. -/
def isConditional (f : FileState) : Bool := f.braces.contains false

end FileState

/-! ### Namespaces and imports -/

/-- Reads the alias of an import. -/
def importAlias : Routine (Option String) := do
  if (← eat .asWord).isSome then return (← eat .name).map (·.lexeme) else return none

/-- Imports a name under an alias. -/
def addImport (target : String) (aliasName : Option String) : Routine Unit :=
  modify fun s => { s with scope := s.scope.addImport target aliasName }

/-- Reads the mark of a function or a constant in a group, if there is one. -/
def groupMark : Routine Bool := do
  if (← eat .functionWord).isSome then return true else return (← eat .constWord).isSome

/-- Reads one name of a group; functions and constants are not imported. -/
def groupItem (lead : String) : Routine Unit := do
  let marked ← groupMark
  let name ← expect .name
  let aliasName ← importAlias
  if ¬ marked then addImport (lead ++ String.singleton Name.separator ++ name.lexeme) aliasName

/-- Reads a group of imports in braces behind their common beginning. -/
def groupImport (lead : String) : Routine Unit := do
  discard (expect .leftBrace)
  if (← peekKind) ≠ .rightBrace then
    discard (listOf (groupItem lead) (commaBefore .rightBrace))
  discard (expect .rightBrace)

/-- Whether a group of imports follows. -/
def State.atGroup (s : State) : Bool :=
  s.peek.lexeme == String.singleton Name.separator && (s.peekAt 1).kind == .leftBrace

/-- Reads one import: a name with an optional alias, or the beginning of a group and the group. -/
def importItem : Routine Unit := do
  match ← eat .name with
  | none => unexpectedName
  | some target =>
    if (← get).atGroup then
      discard advance
      groupImport target.lexeme
    else addImport target.lexeme (← importAlias)

/-- Reads imports behind the word `use`. -/
def imports : Routine Unit := do
  discard (listOf importItem comma)
  discard (expect .semicolon)

/-- **Imports.** Reads an import statement. One that cannot be read is reported and passed over;
what it imported before that stays imported. -/
def importStatement : Routine Unit := do
  discard advance
  match ← peekKind with
  | .functionWord | .constWord => skipStatement
  | _ =>
    match ← attempt imports with
    | .ok () => return
    | .error d =>
      report d
      skipStatement

/-- Reads the semicolon behind the name of a namespace. -/
def namespaceEnd : Routine Unit := do
  if (← eat .semicolon).isNone then unexpected "';' or '\x7b'"

/-- Reads the beginning of a namespace and yields whether it has braces. -/
def namespaceStatement : Routine Bool := do
  discard advance
  let name := ((← eat .name).map (·.lexeme)).getD ""
  let braced := (← eat .leftBrace).isSome
  if ¬ braced then
    match ← attempt namespaceEnd with
    | .ok () => pure ()
    | .error d =>
      report d
      skipStatement
  -- The namespace is entered even if nothing ends its name.
  modify fun s => { s with scope := s.scope.enter name }
  return braced

/-! ### Classes -/

/-- Whether a token may stand in front of the word `class`. -/
def isClassModifier : Token.Kind → Bool
  | .abstractWord | .finalWord | .readonlyWord => true
  | _ => false

/-- Whether a class begins at the head of a list of tokens: modifiers, `class` or `interface`, and a
name. -/
def atClass (es : List Entry) : Bool :=
  match es.dropWhile (isClassModifier ·.kind) with
  | word :: name :: _ =>
    (word.kind == .classWord || word.kind == .interfaceWord) && name.kind == .name
  | _ => false

/-- One modifier of a class, behind those that have been read. -/
def classFlagRound (flags : ClassFlags) : Routine (ForInStep ClassFlags) := do
  match ← peekKind with
  | .abstractWord =>
    discard advance
    return .yield { flags with hasAbstract := true }
  | .finalWord =>
    discard advance
    return .yield { flags with hasFinal := true }
  | .readonlyWord =>
    discard advance
    return .yield flags
  | _ => return .done flags

/-- Reads the modifiers of a class and the word `class` or `interface`. -/
def classFlags : Routine ClassFlags := do
  let flags ← iterate State.size classFlagRound {}
  -- `atClass` has seen that one of the two words follows.
  let word ← advance
  return { flags with hasInterface := word.kind == .interfaceWord }

/-- Reads the name of a class and resolves it. -/
def className (resolver : Resolver) : Routine String := do
  match ← eat .name with
  | some t => return resolver.resolve (← get).scope t.lexeme
  | none => unexpectedName

/-- Reads the names of interfaces and adds them to the class. -/
def interfaceList (resolver : Resolver) (d : ClassDraft) : Routine ClassDraft := do
  let names ← listOf (className resolver) comma
  return names.foldl ClassDraft.addInterface d

/-- Reads the parent of a class, or for an interface the interfaces it extends. -/
def extendsClause (resolver : Resolver) (d : ClassDraft) : Routine ClassDraft := do
  if (← eat .extendsWord).isNone then return d
  else if d.flags.hasInterface then interfaceList resolver d
  else
    let span := (← peek).span
    let parent ← className resolver
    write span d (·.writeParent parent)

/-- Reads what stands between the name of a class and its body, with the opening brace. -/
def classHeader (resolver : Resolver) (d : ClassDraft) : Routine ClassDraft := do
  let d ← extendsClause resolver d
  let d ← if (← eat .implementsWord).isSome then interfaceList resolver d else pure d
  discard (expect .leftBrace)
  return d

/-- Reads the body of a class into its draft. -/
def classMembers (cfg : Setting) (d : ClassDraft) : Routine ClassDraft := fun s =>
  match classBody cfg { s with draft := d } with
  | .ok () b => .ok b.draft b.toState
  | .error e b => .error e b.toState

/-- Reads the brace that closes a class. A class that is never closed ends with the last token of
the file, which is the last of `start`. -/
def classEnd (start : List Entry) (header : Span) (d : ClassDraft) : Routine ClassDraft := do
  match ← attempt (expect .rightBrace) with
  | .ok closing => write closing.span d (·.writeEndLine closing.span.endLine)
  | .error e =>
    report e
    let last := (start.getLast?.map (·.token.span.endLine)).getD 0
    write header d (·.writeEndLine last)

/-- Reads the name of a class and begins its draft. `start` are the tokens from its first attribute
or modifier on. Yields the draft and the token of the name. -/
def classDraft (file : SourceFile) (start : List Entry) : Routine (ClassDraft × Token × Span) := do
  let first ← peek
  let flags ← classFlags
  let doc ← docSince start
  let name ← advance
  let d := ClassDraft.ofName ((← get).scope.declare name.lexeme) flags
  let d ← write? first.span d doc ClassDraft.writeDoc
  let d ← write first.span d (·.writeStartLine first.span.line)
  let d ← write? first.span d file.path ClassDraft.writeSourceFile
  return (d, name, first.span)

/-- **Class declarations.** Reads a class and yields its draft and the place of its name. If its
header cannot be read the class is reported and passed over. -/
def classDeclaration (file : SourceFile) (start : List Entry) :
    Routine (Option (ClassDraft × Span)) := do
  let (d, name, header) ← classDraft file start
  match ← attempt (classHeader file.resolver d) with
  | .error e =>
    report e
    recoverDeclaration
    return none
  | .ok d =>
    let d ← classMembers ⟨file.text, file.resolver⟩ d
    let d ← classEnd start header d
    return some (d, name.span)

/-- **Publication.** Adds a class to those read, unless its key is taken. A taken key is reported if
neither declaration is conditional. -/
def FileState.publish (f : FileState) (file : SourceFile) (d : ClassDraft) (span : Span) :
    FileState :=
  let key := Name.lookupKey d.name
  match f.declared.lookup key with
  | some earlier =>
    -- Which of the two is declared is known only when the program runs.
    if f.isConditional ∨ earlier then f
    else { f with toState := f.toState.report (.redeclared span "class" d.name) }
  | none =>
    { f with
      declared := f.declared ++ [(key, f.isConditional)]
      classes := f.classes ++ [d.build file.linked] }

/-- Reads a class and publishes it. -/
def FileState.readClass (f : FileState) (file : SourceFile) (start : List Entry) : FileState :=
  match classDeclaration file start f.toState with
  | .ok none s => { f with toState := s }
  | .ok (some (d, span)) s => FileState.publish { f with toState := s } file d span
  | .error e s => { f with toState := s.report e }

/-! ### Whole files -/

/-- Reads attributes and the class behind them, if there is one. -/
def FileState.readAttributed (f : FileState) (file : SourceFile) : FileState :=
  match skipAttributes f.toState with
  | .error e s => { f with toState := s.report e }
  | .ok () s =>
    let f' := { f with toState := s }
    if atClass s.rest then f'.readClass file f.rest else f'

/-- **One step.** Reads what begins at the next token. -/
def FileState.step (f : FileState) (file : SourceFile) : FileState :=
  match f.peek.kind with
  | .namespaceWord =>
    match namespaceStatement f.toState with
    | .ok true s => { f with toState := s, braces := true :: f.braces }
    | .ok false s => { f with toState := s }
    | .error e s => { f with toState := s.report e }
  | .useWord => f.run importStatement
  | .attributeOpen => f.readAttributed file
  | .abstractWord | .finalWord | .readonlyWord | .classWord | .interfaceWord =>
    if atClass f.rest then f.readClass file f.rest else f.run advance
  | .traitWord | .functionWord => f.run do
    discard advance
    skipToBody
  | .newWord =>
    -- An anonymous class is passed over with all that it holds.
    if (f.peekAt 1).kind = .classWord then f.run do
      discard advance
      discard advance
      skipToBody
    else f.run advance
  | .leftBrace => { f.run advance with braces := false :: f.braces }
  | .rightBrace =>
    let f' := { f.run advance with braces := f.braces.tail }
    -- Behind a namespace in braces names are global again.
    if f.braces.head? = some true then { f' with scope := f'.scope.enter "" } else f'
  | _ => f.run advance

/-- Reads on to the end of the file. -/
def FileState.finish (f : FileState) (file : SourceFile) : FileState :=
  if f.rest = [] then f
  else
    let f' := f.step file
    if f'.rest.length < f.rest.length then f'.finish file else f'
termination_by f.rest.length

/-- The beginning of a file. Lexical errors are the first that is reported. -/
def FileState.start (source : String) : FileState :=
  let (tokens, scanner) := (Token.Scanner.ofFile source).run
  let buffer := Buffer.ofTokens (tokens.map (·.1))
  { rest := buffer.entries, eof := buffer.eof, scope := .empty,
    diagnostics := scanner.errors.map Diagnostic.ofLexical, braces := [], classes := [],
    declared := [] }

end Reading

namespace SourceFile

/-- **Reading a file.** The classes and interfaces that it declares, in order, and everything that
is to be reported about it. -/
def read (file : SourceFile) : List Class × List Diagnostic :=
  let f := (Reading.FileState.start file.text).finish file
  (f.classes, f.diagnostics)

/-- The classes of a file about which nothing is to be reported, or else what is. -/
def readStrictly (file : SourceFile) : Except (List Diagnostic) (List Class) :=
  match file.read with
  | (classes, []) => .ok classes
  | (_, diagnostics) => .error diagnostics

end SourceFile

end Introspect
