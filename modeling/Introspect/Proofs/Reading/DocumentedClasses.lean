import Introspect.Proofs.Reading.DocumentedMembers
import Introspect.Proofs.Reading.Progress
import Introspect.Proofs.Reading.Redeclarations

/-!
# Where classes are read

The classes of a file are read one behind another, and each in the same order: attributes and
modifiers, the name, the header with the opening brace, and the members round by round. This module
follows a class that is published from its first token to its last, with its doc comment and with
its members as they come to it.

* `ClassAt` is the class with a given index, where it begins, where its name is next and where its
  body begins; `exists_classAt` finds it for every class that is read, and `ClassAt.unique` says
  that there is one only;
* `ClassRead` is what is known of it, and `ClassAt.read` proves it;
* `FileState.Visits.trichotomy` and `Body.Rounds.trichotomy`: of two classes of a file, and of two
  members of a class, one ends where the other begins or in front of it.
-/

namespace Introspect.Reading

/-! ### States in order -/

section Visits

variable {file : SourceFile} {f₀ f g : FileState}

/-- What is visited from `f₀` is visited from the first of two states or from the second. -/
theorem FileState.Visits.total (hf : f₀.Visits file f) (hg : f₀.Visits file g) :
    f.Visits file g ∨ g.Visits file f := by
  -- on the way to `f`: as long as both ways go on, they take the same step
  induction hf with
  | here f₀ => exact .inl hg
  | step hrest hless hf ih =>
    cases hg with
    | here => exact .inr (.step hrest hless hf)
    | step _ _ hg => exact ih hg

theorem FileState.Visits.eq_or_step (h : f.Visits file g) :
    f = g ∨ (f.step file).Visits file g := by
  cases h with
  | here => exact .inl rfl
  | step _ _ h => exact .inr h

/-- **Visited states stand in order.** -/
theorem FileState.Visits.trichotomy (hf : f₀.Visits file f) (hg : f₀.Visits file g) :
    f = g ∨ (f.step file).Visits file g ∨ (g.step file).Visits file f := by
  rcases hf.total hg with h | h
  · exact h.eq_or_step.imp_right .inl
  · exact h.eq_or_step.imp Eq.symm .inr

/-- A step publishes no class, or one that has been read. -/
theorem FileState.step_classes (f : FileState) (file : SourceFile) :
    (f.step file).classes = f.classes ∨ ∃ s d span s', f.Enters s ∧
      Yields (classDeclaration file f.rest) s (some (d, span)) s' ∧ (f.step file).toState = s' ∧
      (f.step file).classes = f.classes ++ [d.build file.linked] := by
  by_cases henters : ∃ s, f.Enters s
  · obtain ⟨s, henters⟩ := henters
    rw [henters.step_eq, readClass]
    cases hres : classDeclaration file f.rest s with
    | error e s' => exact .inl rfl
    | ok o s' =>
      cases o with
      | none => exact .inl rfl
      | some c =>
        obtain ⟨d, span⟩ := c
        -- a name that is taken is not published again
        cases htaken : f.declared.lookup (Name.lookupKey d.name) with
        | some earlier =>
          exact .inl (publish_of_taken (f := { f with toState := s' }) file span htaken).1
        | none =>
          have hnew := publish_of_new (f := { f with toState := s' }) file span htaken
          exact .inr ⟨s, d, span, s', henters, hres, congrArg FileState.toState hnew,
            congrArg FileState.classes hnew⟩
  · exact .inl (step_of_not_enters fun s hs => henters ⟨s, hs⟩).1

/-- Published classes stay published. -/
theorem FileState.classes_prefix_step (f : FileState) (file : SourceFile) :
    f.classes <+: (f.step file).classes := by
  rcases f.step_classes file with hsame | ⟨_, _, _, _, -, -, -, hnew⟩
  · rw [hsame]
  · rw [hnew]
    exact List.prefix_append _ _

theorem FileState.Visits.classes_prefix (h : f.Visits file g) : f.classes <+: g.classes := by
  induction h with
  | here f => exact List.prefix_refl _
  | step _ _ _ ih => exact (FileState.classes_prefix_step _ file).trans ih

/-- Every class that is published later on is published in one of the steps. -/
theorem FileState.Visits.exists_published (h : f.Visits file g) {k : Nat}
    (hk : f.classes.length ≤ k) (hlt : k < g.classes.length) :
    ∃ f', f.Visits file f' ∧ f'.classes.length = k ∧ (f'.step file).classes.length = k + 1 := by
  induction h with
  | here f => exact absurd hlt (Nat.not_lt.mpr hk)
  | @step f g hrest hless _ ih =>
    by_cases hbehind : (f.step file).classes.length ≤ k
    · obtain ⟨f', hvisits, hf'⟩ := ih hbehind hlt
      exact ⟨f', .step hrest hless hvisits, hf'⟩
    · -- one class is published, so it is the one
      refine ⟨f, .here f, ?_⟩
      rcases f.step_classes file with hsame | ⟨_, _, _, _, -, -, -, hnew⟩
      · rw [hsame] at hbehind
        exact absurd hk hbehind
      · rw [hnew, List.length_append, List.length_singleton] at hbehind ⊢
        omega

/-- The reading of a file comes to its end. -/
theorem FileState.start_visits_finish (file : SourceFile) :
    (FileState.start file.text).Visits file ((FileState.start file.text).finish file) :=
  (FileState.finish_visits (closed_start file.text) ⟨Nat.zero_le _, rfl, rfl⟩).1

end Visits

/-! ### Rounds in order -/

section Rounds

variable {cfg : Setting} {b b' c c' b₀ : Body}

/-- **Rounds stand in order.** -/
theorem Body.Rounds.trichotomy (hb : Body.Rounds cfg b₀ b) (hround : Body.Round cfg b b')
    (hc : Body.Rounds cfg b₀ c) (hround' : Body.Round cfg c c') :
    b = c ∨ Body.Rounds cfg b' c ∨ Body.Rounds cfg c' b := by
  have hunique := Body.Round.rightUnique cfg
  -- the one that comes later is reached through the round of the other
  rcases Relation.ReflTransGen.total_of_right_unique hunique hb hc with h | h
  · rcases h.cases_head with rfl | ⟨b₁, hb₁, h⟩
    · exact .inl rfl
    · exact .inr (.inl (hunique hround hb₁ ▸ h))
  · rcases h.cases_head with rfl | ⟨c₁, hc₁, h⟩
    · exact .inl rfl
    · exact .inr (.inr (hunique hround' hc₁ ▸ h))

/-- Members are read forward. -/
theorem Body.Round.reads {s₀ : State} (h : Body.Round cfg b b') (hs₀ : Reads s₀ b.toState) :
    Reads s₀ b'.toState := by
  have hforward : BodyForward s₀ b.draft.endLine (fun _ => True) (memberOrRecover cfg) :=
    BodyForward.memberOrRecover cfg
  exact (hforward.of_ok ⟨hs₀, rfl⟩ h.run).1.reads

theorem Body.Rounds.reads {s₀ : State} (h : Body.Rounds cfg b b') (hs₀ : Reads s₀ b.toState) :
    Reads s₀ b'.toState := by
  induction h with
  | refl => exact hs₀
  | tail _ hround ih => exact hround.reads ih

end Rounds

/-! ### The beginning of a class -/

section Beginning

variable {file : SourceFile} {start : List Entry} {s : State} {d : ClassDraft}

/-- A modifier of a class is consumed. -/
theorem Yields.classFlagRound (h : isClassModifier s.peek.kind = true) (flags : ClassFlags) :
    ∃ flags', Yields (classFlagRound flags) s (.yield flags') s.advance := by
  obtain hk | hk | hk : s.peek.kind = .abstractWord ∨ s.peek.kind = .finalWord ∨
      s.peek.kind = .readonlyWord := by
    cases hk : s.peek.kind <;> simp_all [isClassModifier]
  all_goals
    have hround : Reading.classFlagRound flags s = _ := Yields.bind_eq .peekKind
    rw [hk] at hround
    exact ⟨_, hround.trans (Yields.bind Yields.advance.discard .pure)⟩

theorem Yields.classFlagRound_done (h : isClassModifier s.peek.kind = false) (flags : ClassFlags) :
    Yields (Reading.classFlagRound flags) s (.done flags) s := by
  refine Yields.bind .peekKind ?_
  split
  case h_4 => exact .pure
  all_goals
    next hk =>
    rw [hk] at h
    exact absurd h (by decide)

/-- The modifiers of a class are read up to what stands behind them. -/
theorem Yields.iterate_classFlagRound {word : Entry} {es : List Entry}
    (hbehind : s.rest.dropWhile (isClassModifier ·.kind) = word :: es) (flags : ClassFlags) :
    ∃ flags', Yields (iterate State.size Reading.classFlagRound flags) s flags'
      { s with rest := word :: es } := by
  -- on the tokens that remain
  induction hrest : s.rest generalizing s flags with
  | nil => simp [hrest] at hbehind
  | cons e rest ih =>
    have hpeek : s.peek.kind = e.kind := by
      rw [State.peek_of_rest hrest]
      rfl
    rw [hrest, List.dropWhile_cons] at hbehind
    cases hmod : isClassModifier e.kind with
    | true =>
      rw [if_pos hmod] at hbehind
      obtain ⟨flags', hround⟩ := Yields.classFlagRound (hpeek ▸ hmod) flags
      have hadvance : s.advance.rest = rest := by rw [State.rest_advance, hrest, List.tail_cons]
      obtain ⟨flags'', hrounds⟩ := ih (s := s.advance) (hadvance ▸ hbehind) flags' hadvance
      refine ⟨flags'', Yields.iterate_yield hround ?_ hrounds⟩
      simp [State.size, hrest]
    | false =>
      rw [if_neg (by simp [hmod])] at hbehind
      have hsame : ({ s with rest := word :: es } : State) = s := by rw [← hbehind, ← hrest]
      rw [hsame]
      exact ⟨flags, Yields.iterate_done (Yields.classFlagRound_done (hpeek ▸ hmod) flags)⟩

/-- Behind the modifiers of a class and its word, its name is next. -/
theorem classFlags_name {flags : ClassFlags} {name : State} (hclass : atClass s.rest = true)
    (h : Yields classFlags s flags name) : name.peek.kind = .name := by
  unfold atClass at hclass
  split at hclass
  · next word first es hbehind =>
    obtain ⟨flags', hmodifiers⟩ := Yields.iterate_classFlagRound hbehind {}
    obtain ⟨-, rfl⟩ := h.unique (Yields.bind hmodifiers (Yields.bind .advance .pure))
    simp only [Bool.and_eq_true, beq_iff_eq] at hclass
    exact hclass.2
  · cases hclass

/-- **The draft of a class that begins,** with its doc comment and without members. `start` are the
tokens from its first one on, and its name is next at `name`. -/
structure Begun (start : List Entry) (name : State) (d : ClassDraft) : Prop where
  docComment_eq : d.docComment = lastDoc (start.take (start.length - name.rest.length + 1))
  methods_eq : d.methods = []
  properties_eq : d.properties = []
  endLine_eq : d.endLine = none

theorem Begun.of_grown {name : State} {d' : ClassDraft} (h : Begun start name d)
    (hgrown : Grown d [] [] d') (hend : d'.endLine = d.endLine) : Begun start name d' where
  docComment_eq := hgrown.docComment_eq.trans h.docComment_eq
  methods_eq := by rw [hgrown.methods_eq, h.methods_eq, List.append_nil]
  properties_eq := by rw [hgrown.properties_eq, h.properties_eq, List.append_nil]
  endLine_eq := hend.trans h.endLine_eq

theorem classDraft_begun (file : SourceFile) (start : List Entry) (s : State) :
    Meets (fun s' => s' = s) (classDraft file start)
      (fun r s₁ => ∃ flags name, Yields classFlags s flags name ∧ s₁ = name.advance ∧
        r.1.parentName = none ∧ Begun start name r.1) (fun _ _ => True) := by
  rw [classDraft_eq]
  refine Meets.bind Meets.peek fun first => Meets.of_pre ?_ fun _ h => h.2
  refine Meets.bind (Meets.run.weaken (fun _ h => h) (fun _ _ h => h) fun _ _ _ => trivial)
    fun flags => Meets.of_each fun name hflags => ?_
  have hdoc : Meets (fun s' => s' = name) (docSince start)
      (fun doc s' => doc = lastDoc (start.take (start.length - name.rest.length + 1)) ∧ s' = name)
      (fun _ _ => True) := by
    rintro s' rfl
    exact ⟨rfl, rfl⟩
  refine Meets.bind hdoc fun doc => Meets.given fun hdoc => ?_
  have hadvance : Meets (fun s' => s' = name) advance (fun _ s' => s' = name.advance)
      (fun _ _ => True) := by
    rintro s' rfl
    rfl
  refine Meets.bind hadvance fun token => ?_
  refine Meets.bind (Meets.get.to_post fun _ _ h => h.2) fun s₁ => ?_
  exact Meets.pure fun s' hs' => ⟨flags, name, hflags, hs', rfl, hdoc, rfl, rfl, rfl⟩

/-- A header adds neither methods nor properties. -/
theorem Grown.of_headed {d d' : ClassDraft} (h : Headed d d') : Grown d [] [] d' := by
  obtain ⟨parent, interfaces, rfl⟩ := h
  exact ⟨rfl, (List.append_nil _).symm, (List.append_nil _).symm⟩

/-- The end of a class adds neither methods nor properties. -/
theorem classEnd_grown (start : List Entry) (header : Span) (d : ClassDraft) :
    Gives (Grown d [] []) (classEnd start header d) := by
  have hwrite : ∀ {span : Span} {line : Nat},
      Gives (Grown d [] []) (write span d (·.writeEndLine line)) := by
    intro span line
    refine Meets.write_either (fun d' s hok _ => ⟨trivial, ?_⟩) fun _ _ _ => ⟨trivial, Grown.refl d⟩
    rw [ClassDraft.of_writeEndLine hok]
    exact ⟨rfl, (List.append_nil _).symm, (List.append_nil _).symm⟩
  refine Keeps.bind Gives.any fun r _ => ?_
  cases r with
  | ok closing => exact hwrite
  | error e => exact Keeps.bind Gives.any fun _ _ => hwrite

/-- Behind the header of a class, its draft has begun. -/
theorem classOpening_begun {token : Token} {header : Span} {s₂ : State}
    (h : Yields (classOpening file start) s (d, token, header) s₂) :
    ∃ flags name, Yields classFlags s flags name ∧ Reads name.advance s₂ ∧ Begun start name d := by
  obtain ⟨⟨d₀, token₀, header₀⟩, s₀, hdraft, h⟩ := h.of_bind
  obtain ⟨d₁, s₁, hheader, h⟩ := h.of_bind
  obtain ⟨heq, rfl⟩ := EStateM.Result.ok.inj h
  cases heq
  obtain ⟨flags, name, hflags, rfl, hparent, hbegun⟩ :=
    (classDraft_begun file start s).of_ok rfl hdraft
  have hforward : Forward name.advance _ (classHeader file.resolver d₀) :=
    Forward.classHeader file.resolver hparent
  obtain ⟨hreads, hheaded⟩ := hforward.of_ok (Reads.refl _) hheader
  exact ⟨flags, name, hflags, hreads, hbegun.of_grown (.of_headed hheaded) hheaded.endLine_eq⟩

end Beginning

/-! ### Classes -/

/-- What stays the same while the classes of a file are read. -/
abbrev Setting.ofFile (file : SourceFile) : Setting := ⟨file.text, file.resolver⟩

/-- **A class of a file.** The class with the index `k` begins at `f`, with attributes and modifiers
if it has any. Its name is next at `name`, and its body begins at `body`. -/
structure ClassAt (file : SourceFile) (k : Nat) (f : FileState) (name : State) (body : Body) :
    Prop where
  visited : (FileState.start file.text).Visits file f
  index_eq : f.classes.length = k
  published : (f.step file).classes.length = k + 1
  begins : ∃ s flags d token header s₁, f.Enters s ∧ Yields classFlags s flags name ∧
    Yields (classOpening file f.rest) s (d, token, header) s₁ ∧ body = { s₁ with draft := d }

/-- **What is read as a class.** The members are read in rounds up to `last`, and the draft of the
class is `d` in the end. -/
structure ClassRead (file : SourceFile) (f : FileState) (name : State) (body last : Body)
    (d : ClassDraft) : Prop where
  name_reads : Reads f.toState name
  name_kind : name.peek.kind = .name
  body_reads : Reads name.advance body.toState
  begun : Begun f.rest name body.draft
  rounds : Body.Rounds (.ofFile file) body last
  ended : ∀ b, ¬ Body.Round (.ofFile file) last b
  grown : Grown last.draft [] [] d
  step_reads : Reads last.toState (f.step file).toState
  classes_eq : (f.step file).classes = f.classes ++ [d.build file.linked]

section Classes

variable {file : SourceFile} {k : Nat} {f f' : FileState} {s s' name name' : State}
  {body body' last : Body} {d : ClassDraft} {start : List Entry} {span : Span}

/-- A class that can be read has a header, a body and an end. -/
theorem Yields.of_classDeclaration
    (h : Yields (Reading.classDeclaration file start) s (some (d, span)) s') :
    ∃ d₁ token header s₁ d₂ s₂, Yields (classOpening file start) s (d₁, token, header) s₁ ∧
      Yields (classMembers (.ofFile file) d₁) s₁ d₂ s₂ ∧
      Yields (classEnd start header d₂) s₂ d s' := by
  obtain ⟨⟨d₀, token, header⟩, s₀, hdraft, h⟩ := h.of_bind
  obtain ⟨r, s₁, hattempt, h⟩ := h.of_bind
  cases r with
  | error e =>
    -- without a header there would be no draft
    obtain ⟨_, _, -, h⟩ := h.of_bind
    obtain ⟨_, _, -, h⟩ := h.of_bind
    exact absurd (EStateM.Result.ok.inj h).1 (by simp)
  | ok d₁ =>
    obtain ⟨d₂, s₂, hmembers, h⟩ := h.of_bind
    obtain ⟨d₃, s₃, hend, h⟩ := h.of_bind
    obtain ⟨heq, rfl⟩ := EStateM.Result.ok.inj h
    cases heq
    exact ⟨d₁, token, header, s₁, d₂, s₂, hdraft.bind (hattempt.of_attempt.bind .pure), hmembers,
      hend⟩

/-- Every class that is read begins somewhere. -/
theorem exists_classAt {c : Class} (h : file.read.1[k]? = some c) :
    ∃ f name body, ClassAt file k f name body := by
  have hk : k < ((FileState.start file.text).finish file).classes.length :=
    (List.getElem?_eq_some_iff.mp h).1
  obtain ⟨f, hvisits, hindex, hpublished⟩ :=
    (FileState.start_visits_finish file).exists_published (Nat.zero_le k) hk
  rcases f.step_classes file with hsame | ⟨s, d, span, s', henters, hclass, -, -⟩
  · rw [hsame, hindex] at hpublished
    omega
  · obtain ⟨d₁, token, header, s₁, -, -, hopening, -⟩ := hclass.of_classDeclaration
    obtain ⟨flags, name, hflags, -⟩ := classOpening_begun hopening
    exact ⟨f, name, { s₁ with draft := d₁ }, hvisits, hindex, hpublished,
      s, flags, d₁, token, header, s₁, henters, hflags, hopening, rfl⟩

/-- What is read is determined by where it begins, and it begins at one place only. -/
theorem ClassAt.unique (h : ClassAt file k f name body) (h' : ClassAt file k f' name' body') :
    f = f' ∧ name = name' ∧ body = body' := by
  -- behind the step of a class there is one class more
  have hbehind : ∀ {f f' : FileState}, (f.step file).Visits file f' → f'.classes.length = k →
      (f.step file).classes.length ≠ k + 1 := by
    intro f f' hvisits hindex hpublished
    have hle := hvisits.classes_prefix.length_le
    omega
  obtain rfl : f = f' := by
    rcases h.visited.trichotomy h'.visited with heq | hvisits | hvisits
    · exact heq
    · exact absurd h.published (hbehind hvisits h'.index_eq)
    · exact absurd h'.published (hbehind hvisits h.index_eq)
  obtain ⟨s, flags, d, token, header, s₁, henters, hflags, hopening, rfl⟩ := h.begins
  obtain ⟨s', flags', d', token', header', s₁', henters', hflags', hopening', rfl⟩ := h'.begins
  obtain ⟨-, rfl⟩ := henters.1.unique henters'.1
  obtain ⟨heq, rfl⟩ := hopening.unique hopening'
  cases heq
  exact ⟨rfl, (hflags.unique hflags').2, rfl⟩

/-- The members of a class end where no further round begins. -/
theorem not_round_of_classMembers {cfg : Setting} {d' : ClassDraft} {b : Body}
    (h : Yields (classMembers cfg d) s d' s') (heof : s'.eof.kind = .endOfText) :
    ¬ Body.Round cfg { s' with draft := d' } b := by
  intro hround
  obtain ⟨d₁, s₁, hmembers, -, hat⟩ := exists_classMembers cfg d s
  obtain ⟨rfl, rfl⟩ := h.unique hmembers
  rcases hat with hnil | hclosed | hended
  · -- at the end of the file nothing is left
    exact hround.not_ended ((congrArg Token.kind (State.peek_of_rest_nil hnil)).trans heof)
  · exact hround.not_closed hclosed
  · exact hround.not_ended hended

/-- The routines that read a class: those of its header, of its members and of its end. -/
theorem ClassAt.exists_yields (h : ClassAt file k f name body) :
    ∃ s flags token header d₂ s₂ d, f.Enters s ∧ Yields classFlags s flags name ∧
      Yields (classOpening file f.rest) s (body.draft, token, header) body.toState ∧
      Yields (classMembers (.ofFile file) body.draft) body.toState d₂ s₂ ∧
      Yields (classEnd f.rest header d₂) s₂ d (f.step file).toState ∧
      (f.step file).classes = f.classes ++ [d.build file.linked] := by
  obtain ⟨s, flags, d₁, token, header, s₁, henters, hflags, hopening, rfl⟩ := h.begins
  rcases f.step_classes file with hsame | ⟨s', d, span, s₃, henters', hclass, hstep, hclasses⟩
  · have hpublished := h.published
    rw [hsame, h.index_eq] at hpublished
    omega
  obtain ⟨-, rfl⟩ := henters.1.unique henters'.1
  obtain ⟨d₁', token', header', s₁', d₂, s₂, hopening', hmembers, hend⟩ :=
    hclass.of_classDeclaration
  obtain ⟨heq, rfl⟩ := hopening.unique hopening'
  cases heq
  exact ⟨s, flags, token, header, d₂, s₂, d, henters, hflags, hopening, hmembers, hstep ▸ hend,
    hclasses⟩

/-- **A class is read** from its first token to its last, with its members round by round. -/
theorem ClassAt.read (h : ClassAt file k f name body) :
    ∃ last d, ClassRead file f name body last d := by
  obtain ⟨s, flags, token, header, d₂, s₂, d, henters, hflags, hopening, hmembers, hend,
    hclasses⟩ := h.exists_yields
  obtain ⟨flags', name', hflags', hbody, hbegun⟩ := classOpening_begun hopening
  obtain ⟨-, rfl⟩ := hflags.unique hflags'
  -- header, members and end each go on from where the part in front has ended
  have hflagsForward : Forward f.toState (fun _ => True) classFlags := Forward.classFlags
  have hname := (hflagsForward.of_ok (henters.reads (Reads.refl _)) hflags).1
  have hforward : Forward body.toState _ (classMembers (.ofFile file) body.draft) :=
    Forward.classMembers _ body.draft
  obtain ⟨hlast, hendLine⟩ := hforward.of_ok (Reads.refl _) hmembers
  have hclosing : Forward s₂ _ (classEnd f.rest header d₂) :=
    Forward.classEnd f.rest header (hendLine.trans hbegun.endLine_eq)
  have heof : s₂.eof = (FileState.start file.text).eof :=
    hlast.eof_eq.trans (hbody.eof_eq.trans (hname.eof_eq.trans h.visited.reads.eof_eq))
  have hkind : s₂.eof.kind = .endOfText :=
    (congrArg Token.kind heof).trans (FileState.kind_eof_start file.text)
  exact ⟨{ s₂ with draft := d₂ }, d,
    { name_reads := hname
      name_kind := classFlags_name henters.2 hflags
      body_reads := hbody
      begun := hbegun
      rounds := classMembers_rounds hmembers
      ended := fun _ => not_round_of_classMembers hmembers hkind
      grown := ((classEnd_grown f.rest header d₂).of_ok trivial hend).2
      step_reads := (hclosing.of_ok (Reads.refl _) hend).1
      classes_eq := hclasses }⟩

/-- All members are read before the class ends. -/
theorem ClassRead.rounds_to_last {b : Body} (h : ClassRead file f name body last d)
    (hb : Body.Rounds (.ofFile file) body b) : Body.Rounds (.ofFile file) b last := by
  rcases Relation.ReflTransGen.total_of_right_unique (Body.Round.rightUnique _) hb h.rounds
    with hrounds | hrounds
  · exact hrounds
  · -- no round leads on from the last one
    rcases hrounds.cases_head with rfl | ⟨b', hb', -⟩
    · exact .refl
    · exact absurd hb' (h.ended b')

/-! ### Positions of classes -/

/-- The tokens of a file as they are scanned. -/
abbrev tokensOf (file : SourceFile) : List Token := (Token.Scanner.ofFile file.text).tokens

/-- The significant tokens of a file. -/
abbrev bufferOf (file : SourceFile) : Buffer := Buffer.ofTokens (tokensOf file)

theorem closed_bufferOf (file : SourceFile) : (bufferOf file).Closed := closed_start file.text

/-- Every visited state has a position. -/
theorem FileState.Visits.exists_standsAt (h : (FileState.start file.text).Visits file f) :
    ∃ p, f.StandsAt (bufferOf file) p := by
  have hstart : (FileState.start file.text).StandsAt (bufferOf file) 0 := ⟨Nat.zero_le _, rfl, rfl⟩
  obtain ⟨p, -, hp⟩ := State.From.stable hstart.here h.reads
  exact ⟨p, hp⟩

/-- The name of a class is read before its body. -/
theorem ClassRead.exists_standsAt {p : Nat} (h : ClassRead file f name body last d)
    (hf : f.StandsAt (bufferOf file) p) :
    ∃ q, name.StandsAt (bufferOf file) q ∧ p ≤ q ∧ q < (bufferOf file).last ∧
      body.toState.From (bufferOf file) (q + 1) := by
  obtain ⟨q, hpq, hname⟩ := State.From.stable hf.here h.name_reads
  have hkind : name.peek.kind ≠ .endOfText := by rw [h.name_kind]; decide
  refine ⟨q, hname, hpq, hname.lt_last (closed_bufferOf file) hkind, ?_⟩
  exact State.From.stable (hname.here.advance_of_ne (closed_bufferOf file) hkind) h.body_reads

/-- The class is one of those that are read. -/
theorem ClassRead.getElem?_read (h : ClassRead file f name body last d)
    (hf : (FileState.start file.text).Visits file f) :
    file.read.1[f.classes.length]? = some (d.build file.linked) := by
  have hrest : f.rest ≠ [] := by
    obtain ⟨p, hp⟩ := hf.exists_standsAt
    obtain ⟨q, -, hpq, hq, -⟩ := h.exists_standsAt hp
    intro hnil
    have hlength := hp.length_eq
    rw [hnil, List.length_nil] at hlength
    omega
  -- what the step has published is still there in the end, wherever the reading stops
  have hfinish : (f.step file).classes <+: (f.finish file).classes := by
    rw [FileState.finish]
    simp only [hrest, if_false]
    split_ifs
    · refine FileState.finish_keeps (P := fun g => (f.step file).classes <+: g.classes) ?_
        (List.prefix_refl _)
      exact fun g hg => hg.trans (g.classes_prefix_step file)
    · exact List.prefix_refl _
  rw [hf.finish_eq, h.classes_eq] at hfinish
  obtain ⟨more, hmore⟩ := hfinish
  show ((FileState.start file.text).finish file).classes[f.classes.length]? = _
  simp [← hmore]

end Classes

end Introspect.Reading
