import Introspect.Proofs.Reading.Contract
import Introspect.Reading.File

/-!
# One step of the reading of a file

The next token decides which routine a step of the reading of a file runs. `FileState.StepsTo` says
what a step can come to, one case for each routine and each kind of brace, and
`FileState.stepsTo_step` that it comes to one of these. What all steps keep is shown by cases on it,
so that the text of a step is gone through only once.

Routines are run by `FileState.run`, `FileState.readClass` and `FileState.readAttributed`, which
report what the routine gives up with. The lemmas `FileState.of_run`, `FileState.of_readClass` and
`FileState.of_readAttributed` take a contract of the routine to the state that is left in the file.
A class that has been read is published in one of three ways (`FileState.PublishesTo`).
-/

namespace Introspect.Reading

/-! ### Publication -/

/-- **What a publication comes to:** the key is known and the class counts for nothing, or it is
reported as a duplicate, or the key is new and the class is added. -/
inductive FileState.PublishesTo (file : SourceFile) (d : ClassDraft) (span : Span)
    (f g : FileState) : Prop
  | known {earlier : Bool} (hkey : f.declared.lookup (Name.lookupKey d.name) = some earlier)
      (hcond : f.isConditional = true ∨ earlier = true) (heq : g = f)
  | duplicate {earlier : Bool} (hkey : f.declared.lookup (Name.lookupKey d.name) = some earlier)
      (hcond : ¬ (f.isConditional = true ∨ earlier = true))
      (heq : g = { f with toState := f.toState.report (.redeclared span "class" d.name) })
  | new (hkey : f.declared.lookup (Name.lookupKey d.name) = none)
      (heq : g = { f with
        declared := f.declared ++ [(Name.lookupKey d.name, f.isConditional)]
        classes := f.classes ++ [d.build file.linked] })

theorem FileState.publishesTo_publish (f : FileState) (file : SourceFile) (d : ClassDraft)
    (span : Span) : PublishesTo file d span f (f.publish file d span) := by
  unfold FileState.publish
  dsimp only
  cases hkey : f.declared.lookup (Name.lookupKey d.name) with
  | none => exact .new hkey rfl
  | some earlier =>
    dsimp only
    split_ifs with hcond
    · exact .known hkey hcond rfl
    · exact .duplicate hkey hcond rfl

section Publication

variable {f : FileState} {d : ClassDraft} (file : SourceFile) (span : Span)

/-- A class under a new key is added, and its flag is remembered. -/
theorem FileState.publish_of_new (hkey : f.declared.lookup (Name.lookupKey d.name) = none) :
    f.publish file d span
      = { f with
          declared := f.declared ++ [(Name.lookupKey d.name, f.isConditional)]
          classes := f.classes ++ [d.build file.linked] } := by
  cases f.publishesTo_publish file d span with
  | known htaken | duplicate htaken => exact absurd (htaken.symm.trans hkey) nofun
  | new _ heq => exact heq

/-- A class under a key that is taken is not added. -/
theorem FileState.publish_of_taken {earlier : Bool}
    (hkey : f.declared.lookup (Name.lookupKey d.name) = some earlier) :
    (f.publish file d span).classes = f.classes ∧
      (f.publish file d span).declared = f.declared := by
  cases f.publishesTo_publish file d span with
  | known _ _ heq | duplicate _ _ heq =>
    rw [heq]
    exact ⟨rfl, rfl⟩
  | new hnone => exact absurd (hnone.symm.trans hkey) nofun

/-- It is reported if the flag that is remembered allows it. -/
theorem FileState.publish_reports (hkey : f.declared.lookup (Name.lookupKey d.name) = some false)
    (hf : f.isConditional = false) :
    .redeclared span "class" d.name ∈ (f.publish file d span).diagnostics := by
  cases f.publishesTo_publish file d span with
  | known htaken hcond =>
    -- neither flag keeps the report from being made
    obtain rfl := Option.some.inj (htaken.symm.trans hkey)
    simp [hf] at hcond
  | duplicate _ _ heq =>
    rw [heq]
    exact List.mem_append_right f.diagnostics List.mem_cons_self
  | new hnone => exact absurd (hnone.symm.trans hkey) nofun

/-- A publication changes the state by its report only. -/
theorem FileState.of_publish {post : State → Prop} (hf : post f.toState)
    (hduplicate : post (f.toState.report (.redeclared span "class" d.name))) :
    post (f.publish file d span).toState := by
  cases f.publishesTo_publish file d span with
  | known _ _ heq | new _ heq =>
    rw [heq]
    exact hf
  | duplicate _ _ heq =>
    rw [heq]
    exact hduplicate

/-- Publication changes neither where the reading stands nor the scope. -/
theorem FileState.publish_keeps (f : FileState) (d : ClassDraft) :
    (f.publish file d span).rest = f.rest ∧ (f.publish file d span).scope = f.scope ∧
      (f.publish file d span).braces = f.braces := by
  cases f.publishesTo_publish file d span with
  | known _ _ heq | duplicate _ _ heq | new _ heq =>
    rw [heq]
    exact ⟨rfl, rfl, rfl⟩

end Publication

/-! ### Runs of routines -/

section Runs

variable {α : Type} {f : FileState} {file : SourceFile} {start : List Entry}
variable {pre mid post : State → Prop} {bad : Diagnostic → State → Prop}

/-- What a routine that yields makes of a file. -/
theorem FileState.run_of_yields {r : Routine α} {a : α} {s : State} (h : Yields r f.toState a s) :
    f.run r = { f with toState := s } := by
  rw [FileState.run, h]

/-- What a routine that gives up makes of a file. -/
theorem FileState.run_of_fails {r : Routine α} {e : Diagnostic} {s : State}
    (h : Fails r f.toState e s) : f.run r = { f with toState := s.report e } := by
  rw [FileState.run, h]

/-- What a routine leaves is left in the file, whether or not it gives up. -/
theorem FileState.of_run {r : Routine α} (hr : Meets pre r (fun _ => post) bad)
    (hreport : ∀ e s, bad e s → post (s.report e)) (hf : pre f.toState) :
    post (f.run r).toState := by
  cases hres : r f.toState with
  | ok a s =>
    rw [FileState.run_of_yields hres]
    exact hr.of_ok hf hres
  | error e s =>
    rw [FileState.run_of_fails hres]
    exact hreport e s (hr.of_error hf hres)

/-- The contract of a class that is read and may be reported as a duplicate. -/
abbrev ReadsDeclaration (file : SourceFile) (start : List Entry) (pre post : State → Prop)
    (bad : Diagnostic → State → Prop) : Prop :=
  Meets pre (classDeclaration file start)
    (fun o s => post s ∧ ∀ c ∈ o, post (s.report (.redeclared c.2 "class" c.1.name))) bad

theorem FileState.of_readClass (hr : ReadsDeclaration file start pre post bad)
    (hreport : ∀ e s, bad e s → post (s.report e)) (hf : pre f.toState) :
    post (f.readClass file start).toState := by
  unfold FileState.readClass
  cases hres : classDeclaration file start f.toState with
  | error e s => exact hreport e s (hr.of_error hf hres)
  | ok o s =>
    obtain ⟨hs, hduplicate⟩ := hr.of_ok hf hres
    cases o with
    | none => exact hs
    | some c =>
      exact FileState.of_publish (f := { f with toState := s }) file c.2 hs (hduplicate c rfl)

/-- Behind attributes a class is read if one begins there. -/
theorem FileState.of_readAttributed (hskip : Meets pre skipAttributes (fun _ => mid) bad)
    (hr : ReadsDeclaration file f.rest (fun s => mid s ∧ atClass s.rest = true) post bad)
    (hmid : ∀ s, mid s → post s) (hreport : ∀ e s, bad e s → post (s.report e))
    (hf : pre f.toState) : post (f.readAttributed file).toState := by
  unfold FileState.readAttributed
  cases hres : skipAttributes f.toState with
  | error e s => exact hreport e s (hskip.of_error hf hres)
  | ok u s =>
    have hs := hskip.of_ok hf hres
    dsimp only
    split_ifs with hclass
    · exact FileState.of_readClass hr hreport ⟨hs, hclass⟩
    · exact hmid s hs

end Runs

/-! ### Steps -/

/-- **What a step comes to.** -/
inductive FileState.StepsTo (file : SourceFile) (f g : FileState) : Prop
  /-- A namespace begins, in braces that are remembered, or without. -/
  | space (hk : f.peek.kind = .namespaceWord) (braces : List Bool)
      (hbraces : braces = f.braces ∨ braces = true :: f.braces)
      (heq : g = { f.run namespaceStatement with braces })
  | imports (hk : f.peek.kind = .useWord) (heq : g = f.run importStatement)
  | attributed (hk : f.peek.kind = .attributeOpen) (heq : g = f.readAttributed file)
  | enters (hclass : atClass f.rest = true) (heq : g = f.readClass file f.rest)
  /-- A trait or a function is passed over up to its body, and the body with it. -/
  | body (hk : f.peek.kind = .traitWord ∨ f.peek.kind = .functionWord)
      (heq : g = f.run do discard advance; skipToBody)
  /-- So is an anonymous class. -/
  | anonymous (hk : f.peek.kind = .newWord) (hclass : (f.peekAt 1).kind = .classWord)
      (heq : g = f.run do discard advance; discard advance; skipToBody)
  | opens (hk : f.peek.kind = .leftBrace)
      (heq : g = { f.run advance with braces := false :: f.braces })
  | closes (hk : f.peek.kind = .rightBrace) (hbrace : f.braces.head? ≠ some true)
      (heq : g = { f.run advance with braces := f.braces.tail })
  /-- Behind the brace of a namespace names are global. -/
  | leaves (hk : f.peek.kind = .rightBrace) (hbrace : f.braces.head? = some true)
      (heq : g = { f.run advance with
        braces := f.braces.tail, scope := (f.run advance).scope.enter "" })
  /-- Of everything else one token is passed over. -/
  | passes (hk : f.peek.kind ∉ [Token.Kind.namespaceWord, .useWord, .attributeOpen, .traitWord,
        .functionWord, .leftBrace, .rightBrace])
      (hclass : atClass f.rest = false)
      (hnew : f.peek.kind = .newWord → (f.peekAt 1).kind ≠ .classWord)
      (heq : g = f.run advance)

/-- The kinds of tokens with which a class begins. -/
def classStarts : List Token.Kind :=
  [.abstractWord, .finalWord, .readonlyWord, .classWord, .interfaceWord]

/-- A class begins with a modifier, or with the word `class` or `interface`. -/
theorem mem_classStarts_of_atClass {s : State} (h : atClass s.rest = true) :
    s.peek.kind ∈ classStarts := by
  have hmodifier : ∀ kind, isClassModifier kind = true → kind ∈ classStarts := by
    intro kind hkind
    cases kind <;> first | decide | exact absurd hkind (by decide)
  cases hrest : s.rest with
  | nil => simp [hrest, atClass] at h
  | cons e es =>
    rw [hrest, atClass, List.dropWhile_cons] at h
    rw [State.peek_of_rest hrest]
    by_cases hmod : isClassModifier e.kind = true
    · exact hmodifier _ hmod
    · rw [if_neg hmod] at h
      cases es with
      | nil => simp at h
      | cons name es =>
        simp only [Bool.and_eq_true, Bool.or_eq_true, beq_iff_eq] at h
        have hkind : e.kind ∈ classStarts := by
          rcases h.1 with hk | hk <;> rw [hk] <;> decide
        exact hkind

theorem ne_attributeOpen_of_atClass {s : State} (h : atClass s.rest = true) :
    s.peek.kind ≠ .attributeOpen := by
  have hall : ∀ kind ∈ classStarts, kind ≠ .attributeOpen := by decide
  exact hall _ (mem_classStarts_of_atClass h)

section Steps

variable (f : FileState) (file : SourceFile)

/-- With a namespace, its brace is remembered if the statement yields that there is one. -/
theorem FileState.stepsTo_of_namespace (hk : f.peek.kind = .namespaceWord) :
    f.StepsTo file (f.step file) := by
  unfold FileState.step
  rw [hk]
  dsimp only
  cases hres : namespaceStatement f.toState with
  | error e s => exact .space hk _ (.inl rfl) (by rw [FileState.run_of_fails hres])
  | ok braced s =>
    cases braced with
    | false => exact .space hk _ (.inl rfl) (by rw [FileState.run_of_yields hres])
    | true => exact .space hk _ (.inr rfl) (by rw [FileState.run_of_yields hres])

/-- **One step** comes to one of the cases. -/
theorem FileState.stepsTo_step : f.StepsTo file (f.step file) := by
  by_cases hspace : f.peek.kind = .namespaceWord
  · exact f.stepsTo_of_namespace file hspace
  -- a class begins at its own words only
  have hclass : f.peek.kind ∉ classStarts → atClass f.rest = false := fun hk => by
    by_contra h
    exact hk (mem_classStarts_of_atClass (Bool.not_eq_false _ ▸ h))
  have henters : f.peek.kind ∈ classStarts →
      f.StepsTo file (if atClass f.rest then f.readClass file f.rest else f.run advance) := by
    intro hk
    -- at these words a token is passed over if no class begins
    have hothers : ∀ kind ∈ classStarts, kind ∉ [Token.Kind.namespaceWord, .useWord,
        .attributeOpen, .traitWord, .functionWord, .leftBrace, .rightBrace] ∧ kind ≠ .newWord := by
      decide
    split_ifs with h
    · exact .enters h rfl
    · obtain ⟨hother, hnew⟩ := hothers _ hk
      exact .passes hother (Bool.eq_false_iff.mpr h) (fun heq => absurd heq hnew) rfl
  unfold FileState.step
  -- the cases are the kinds of the next token, in the order of the step
  split
  case h_1 hk => exact absurd hk hspace
  case h_2 hk => exact .imports hk rfl
  case h_3 hk => exact .attributed hk rfl
  case h_4 hk | h_5 hk | h_6 hk | h_7 hk | h_8 hk => exact henters (by rw [hk]; decide)
  case h_9 hk => exact .body (.inl hk) rfl
  case h_10 hk => exact .body (.inr hk) rfl
  case h_11 hk =>
    split_ifs with hanonymous
    · exact .anonymous hk hanonymous rfl
    · exact .passes (by rw [hk]; decide) (hclass (by rw [hk]; decide)) (fun _ => hanonymous) rfl
  case h_12 hk => exact .opens hk rfl
  case h_13 hk =>
    dsimp only
    split_ifs with hbrace
    · exact .leaves hk hbrace rfl
    · exact .closes hk hbrace rfl
  case h_14 =>
    refine .passes ?_ (hclass ?_) ?_ rfl
    · simp only [List.mem_cons, List.not_mem_nil, or_false, not_or]
      exact ⟨‹_›, ‹_›, ‹_›, ‹_›, ‹_›, ‹_›, ‹_›⟩
    · simp only [classStarts, List.mem_cons, List.not_mem_nil, or_false, not_or]
      exact ⟨‹_›, ‹_›, ‹_›, ‹_›, ‹_›⟩
    · exact fun hk => absurd hk ‹_›

end Steps

end Introspect.Reading
