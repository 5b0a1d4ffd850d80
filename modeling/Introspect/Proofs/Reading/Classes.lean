import Introspect.Proofs.Reading.Places
import Introspect.Proofs.Reading.Walk

/-!
# The classes of a file

A file is read in steps, and a step reads at most one class. `FileState.Visits` are the states that
the reading comes to, and `FileState.Enters` says at which of them a class is read: behind
attributes or none, the tokens of a class begin.

* `FileState.Enters.step_eq` and `FileState.step_of_not_enters`: a step reads the class that is
  entered, and adds no class where none is;
* `classHeader_behind`: the header of a class, if it can be read, ends with an opening brace;
* `exists_classMembers`: the body behind it is always read, along a walk, up to a closing brace or
  the end of the file;
* `Yields.classDeclaration` puts these together for a whole class.
-/

namespace Introspect.Reading

/-! ### The steps of a file -/

/-- **Visited states.** The reading of the file comes from one state to another, step by step. -/
inductive FileState.Visits (file : SourceFile) : FileState → FileState → Prop where
  | here (f : FileState) : Visits file f f
  | step {f g : FileState} (hrest : f.rest ≠ [])
      (hless : (f.step file).rest.length < f.rest.length) (h : Visits file (f.step file) g) :
      Visits file f g

/-- **Entered classes.** A class begins behind the attributes at `f`, if there are any; `s` is where
it begins. -/
def FileState.Enters (f : FileState) (s : State) : Prop :=
  Yields skipAttributes f.toState () s ∧ atClass s.rest = true

section Steps

variable {file : SourceFile} {f g : FileState} {s : State}

/-- What is visited is reached by reading forward. -/
theorem FileState.Visits.reads (h : f.Visits file g) : Reads f.toState g.toState := by
  -- along the steps, each of which reads forward from where the reading began
  suffices hfrom : ∀ {s₀ : State}, Reads s₀ f.toState → Reads s₀ g.toState from
    hfrom (Reads.refl _)
  intro s₀ hs₀
  induction h with
  | here f => exact hs₀
  | step _ _ _ ih => exact ih (hs₀.step file)

/-- From a visited state the reading comes to the same end. -/
theorem FileState.Visits.finish_eq (h : f.Visits file g) : g.finish file = f.finish file := by
  induction h with
  | here f => rfl
  | @step f g hrest hless _ ih =>
    rw [ih]
    conv_rhs => rw [FileState.finish]
    simp only [hrest, hless, if_false, if_true]

/-- A class begins behind attributes, which are read forward. -/
theorem FileState.Enters.reads {s₀ : State} (h : f.Enters s) (hf : Reads s₀ f.toState) :
    Reads s₀ s := by
  have hskip : Forward s₀ (fun _ => True) skipAttributes := Forward.skipAttributes
  exact (hskip.of_ok hf h.1).1

/-- Without attributes, a class begins at `f` itself. -/
theorem FileState.Enters.eq_toState (h : f.Enters s) (hk : f.peek.kind ≠ .attributeOpen) :
    s = f.toState := by
  have hsame := Yields.skipAttributes hk
  rw [Yields, h.1] at hsame
  exact (EStateM.Result.ok.inj hsame).2

/-- Where a class begins it is entered. -/
theorem FileState.enters_of_atClass (h : atClass f.rest = true) : f.Enters f.toState :=
  ⟨Yields.skipAttributes (ne_attributeOpen_of_atClass (s := f.toState) h), h⟩

/-- A step at which a class is entered reads that class. -/
theorem FileState.Enters.step_eq (h : f.Enters s) :
    f.step file = FileState.readClass { f with toState := s } file f.rest := by
  by_cases hattribute : f.peek.kind = .attributeOpen
  · obtain ⟨hskip, hclass⟩ := h
    unfold FileState.step FileState.readAttributed
    simp only [hattribute]
    rw [hskip]
    exact if_pos hclass
  · obtain rfl := h.eq_toState hattribute
    have hstart := mem_classStarts_of_atClass h.2
    simp only [classStarts, List.mem_cons, List.not_mem_nil, or_false] at hstart
    unfold FileState.step
    rcases hstart with hk | hk | hk | hk | hk
    all_goals
      rw [hk]
      exact if_pos h.2

/-- A step at which no class is entered adds none. -/
theorem FileState.step_of_not_enters (h : ∀ s, ¬ f.Enters s) :
    (f.step file).classes = f.classes ∧ (f.step file).declared = f.declared := by
  -- a routine changes neither the classes nor the names that are declared
  have hrun : ∀ {α : Type} (r : Routine α),
      (f.run r).classes = f.classes ∧ (f.run r).declared = f.declared := by
    intro α r
    unfold FileState.run
    cases r f.toState <;> exact ⟨rfl, rfl⟩
  cases f.stepsTo_step file with
  | enters hclass => exact absurd (FileState.enters_of_atClass hclass) (h f.toState)
  | attributed _ heq =>
    rw [heq]
    unfold FileState.readAttributed
    cases hskip : skipAttributes f.toState with
    | error e s => exact ⟨rfl, rfl⟩
    | ok u s =>
      dsimp only
      rw [if_neg fun hclass => h s ⟨hskip, hclass⟩]
      exact ⟨rfl, rfl⟩
  | space _ _ _ heq | imports _ heq | body _ heq | anonymous _ _ heq | opens _ heq
  | closes _ _ heq | leaves _ _ heq | passes _ _ _ heq =>
    rw [heq]
    exact hrun _

/-- Behind a class that was read, the reading goes on where the class has ended. -/
theorem FileState.Enters.step_keeps {c : ClassDraft × Span} {s' : State} (h : f.Enters s)
    (hclass : Yields (classDeclaration file f.rest) s (some c) s') :
    (f.step file).rest = s'.rest ∧ (f.step file).scope = s'.scope ∧
      (f.step file).braces = f.braces := by
  rw [Yields] at hclass
  rw [h.step_eq, FileState.readClass, hclass]
  exact FileState.publish_keeps file c.2 _ c.1

end Steps

/-! ### The parts of a class -/

section Parts

variable {file : SourceFile} {start : List Entry} {s s₁ s₂ : State} {d d' : ClassDraft}
variable {name : Token} {header : Span}

/-- A routine that reads forward, as a contract. -/
theorem Forward.meets {α : Type} {good : α → Prop} {r : Routine α} (hr : Forward s good r) :
    Meets (Reads s) r (fun _ => Reads s) (fun _ _ => True) :=
  (Keeps.meets hr).weaken (fun _ h => h) (fun _ _ h => h.1) fun _ _ _ => trivial

/-- A header that can be read ends with an opening brace. -/
theorem classHeader_behind {s₀ : State} (hs : Reads s₀ s) (hd : d.parentName = none)
    (h : Yields (classHeader file.resolver d) s d' s₂) :
    ∃ s₁, Reads s₀ s₁ ∧ s₁.peek.kind = .leftBrace ∧ s₂ = s₁.advance := by
  let behindBrace : State → Prop := fun s₂ =>
    ∃ s₁, Reads s₀ s₁ ∧ s₁.peek.kind = .leftBrace ∧ s₂ = s₁.advance
  have hexpect : Meets (Reads s₀) (expect .leftBrace) (fun _ => behindBrace)
      (fun _ _ => True) := by
    intro s₁ hs₁
    cases hres : expect .leftBrace s₁ with
    | error e s' => trivial
    | ok t s' =>
      obtain ⟨hk, -, hs'⟩ := Yields.of_expect hres
      exact ⟨s₁, hs₁, hk, hs'⟩
  have hheader : Meets (Reads s₀) (classHeader file.resolver d) (fun _ => behindBrace)
      (fun _ _ => True) := by
    rw [classHeader_eq]
    refine Meets.bind (Forward.extendsClause file.resolver hd).meets fun d => ?_
    refine Meets.bind (Forward.implementsClause file.resolver d).meets fun d => ?_
    exact Meets.bind (Meets.discard hexpect) fun _ => Meets.pure fun _ h => h
  exact hheader.of_ok hs h

/-- **The body of a class** is read, whatever it holds: along a walk, up to a closing brace or the
end of the file. -/
theorem exists_classMembers (cfg : Setting) (d : ClassDraft) (s : State) :
    ∃ d' s', Yields (classMembers cfg d) s d' s' ∧ Along s s' ∧
      (s'.rest = [] ∨ s'.peek.kind = .rightBrace ∨ s'.peek.kind = .endOfText) := by
  cases hbody : classBody cfg { s with draft := d } with
  | ok u b =>
    obtain ⟨halong, hend⟩ := (BodyWalks.classBody cfg).of_ok (Along.refl s) hbody
    refine ⟨b.draft, b.toState, ?_, halong, hend⟩
    rw [Yields, classMembers, hbody]
  -- what a member gives up with is recovered from
  | error e b => exact ((BodyWalks.classBody cfg).of_error (Along.refl s) hbody).elim

/-- A closing brace ends the class. -/
theorem exists_classEnd (start : List Entry) (header : Span) (d : ClassDraft)
    (hk : s.peek.kind = .rightBrace) :
    ∃ d' s', Yields (classEnd start header d) s d' s' ∧ s'.rest = s.rest.tail ∧
      s'.scope = s.scope := by
  have hexpect : Yields (attempt (expect .rightBrace)) s (.ok s.peek) s.advance :=
    (Yields.expect hk).attempt
  cases hwrite : d.writeEndLine s.peek.span.endLine with
  | ok d' => exact ⟨d', _, hexpect.bind (.write hwrite), rfl, rfl⟩
  | error e => exact ⟨d, _, hexpect.bind (.write_refused hwrite), rfl, rfl⟩

/-- The beginning of a class, up to the opening brace of its body. Yields the draft, the token of
the name and the place of the class. -/
def classOpening (file : SourceFile) (start : List Entry) :
    Routine (ClassDraft × Token × Span) := do
  let (d, name, header) ← classDraft file start
  let d ← classHeader file.resolver d
  return (d, name, header)

/-- A class begins with tokens up to an opening brace. -/
theorem classOpening_behind (h : Yields (classOpening file start) s (d, name, header) s₂) :
    ∃ s₁, Reads s s₁ ∧ s₁.peek.kind = .leftBrace ∧ s₂ = s₁.advance := by
  obtain ⟨⟨d₀, name₀, header₀⟩, s₀, hdraft, h⟩ := h.of_bind
  obtain ⟨d₁, s₁', hheader, h⟩ := h.of_bind
  obtain ⟨-, rfl⟩ := EStateM.Result.ok.inj h
  have hforward : Forward s _ (classDraft file start) := Forward.classDraft file start
  obtain ⟨hs₀, hd₀⟩ := hforward.of_ok (Reads.refl s) hdraft
  exact classHeader_behind hs₀ hd₀.parentName_eq hheader

/-- **A class** whose beginning can be read is read whole: its body follows, and then its end. -/
theorem Yields.classDeclaration {d₂ d₃ : ClassDraft} {s₃ s₄ : State}
    (hopen : Yields (classOpening file start) s (d, name, header) s₂)
    (hmembers : Yields (classMembers ⟨file.text, file.resolver⟩ d) s₂ d₂ s₃)
    (hend : Yields (classEnd start header d₂) s₃ d₃ s₄) :
    Yields (classDeclaration file start) s (some (d₃, name.span)) s₄ := by
  obtain ⟨⟨d₀, name₀, header₀⟩, s₀, hdraft, h⟩ := hopen.of_bind
  obtain ⟨d₁, s₁', hheader, h⟩ := h.of_bind
  obtain ⟨heq, rfl⟩ := EStateM.Result.ok.inj h
  cases heq
  refine Yields.bind hdraft (Yields.bind hheader.attempt ?_)
  exact Yields.bind hmembers (Yields.bind hend .pure)

end Parts

/-! ### The buffer of a file -/

/-- The end of the text makes no entry. -/
theorem kind_ne_endOfText_of_mem_entries {doc : Option String} {ts : List Token} {e : Entry}
    (he : e ∈ entries doc ts) : e.kind ≠ .endOfText := by
  induction ts generalizing doc with
  | nil => exact absurd he (by simp [entries])
  | cons t ts ih =>
    rw [entries] at he
    split at he <;> try exact ih he
    · exact absurd he (by simp)
    · next hend =>
      rcases List.mem_cons.mp he with rfl | he
      · exact hend
      · exact ih he

theorem FileState.kind_ne_endOfText_of_mem {source : String} {e : Entry}
    (he : e ∈ (FileState.start source).rest) : e.kind ≠ .endOfText :=
  kind_ne_endOfText_of_mem_entries he

/-- The reading of a file begins with the end of its text behind the last entry. -/
theorem FileState.kind_eof_start (source : String) :
    (FileState.start source).eof.kind = .endOfText := by
  obtain ⟨last, hlast, hkind, -⟩ := (Token.Scanner.stands_start .html source).tiles.last_eq
  show ((Token.Scanner.ofFile source).tokens.getLastD default).kind = _
  rw [List.getLastD_eq_getLast?, Token.Scanner.ofFile, hlast, Option.getD_some]
  exact hkind

/-- In a file, the opening brace of a class is one of the tokens from its beginning on. -/
theorem exists_opening {file : SourceFile} {start : List Entry} {s s₂ : State} {d : ClassDraft}
    {name : Token} {header : Span} (hs : Reads (FileState.start file.text).toState s)
    (hopen : Yields (classOpening file start) s (d, name, header) s₂) :
    ∃ before opening, s.rest = before ++ opening :: s₂.rest ∧ opening.kind = .leftBrace := by
  obtain ⟨s₁, hs₁, hk, rfl⟩ := classOpening_behind hopen
  obtain ⟨before, hbefore⟩ := hs₁.suffix
  cases hrest : s₁.rest with
  | nil =>
    -- the end of the file is no brace
    rw [State.peek_of_rest_nil hrest, hs₁.eof_eq, hs.eof_eq, FileState.kind_eof_start] at hk
    exact absurd hk (by decide)
  | cons opening es =>
    rw [State.peek_of_rest hrest] at hk
    refine ⟨before, opening, ?_, hk⟩
    rw [State.rest_advance, ← hbefore, hrest]
    rfl

end Introspect.Reading
