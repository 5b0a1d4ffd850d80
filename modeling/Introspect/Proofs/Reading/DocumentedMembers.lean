import Introspect.Proofs.Reading.Lines
import Introspect.Proofs.Reading.Refusals

/-!
# The doc comments of members

Of what a member adds to a class at most one thing is documented: a method, or the property of the
first variable of a declaration. Properties that parameters declare are not, and neither are those
of further variables. What documents the member is the doc comment of a stretch of tokens that ends
with the first token behind its attributes, and that token is consumed with the member.

* `MemberAdds`: what a member adds to the class, with the doc comments of what is added;
* `member_adds`: this is what every member adds, whether it can be read or not, and
  `memberOrRecover_adds`: recovery adds nothing to it;
* `MemberBegins` is what the beginning of a method and that of a property have in common;
* `Body.Round` is one round of the reading of a body, and `classBody_rounds` says that a body is
  read in rounds. `Body.Round.method_added` and `Body.Round.property_added` say what a round adds.
-/

namespace Introspect.Reading

/-! ### What routines yield -/

section Runs

variable {α : Type} {r : Routine α} {inv : State → Prop} {bad : Diagnostic → Prop}
  {good good' : α → Prop}

theorem Gives.any : Gives (fun _ => True) r := by
  intro s _
  cases r s <;> exact ⟨trivial, trivial⟩

/-- What is known of every value of a routine may be used wherever it is run. -/
theorem Keeps.and_gives (hr : Keeps inv bad good r) (hgives : Gives good' r) :
    Keeps inv bad (fun a => good a ∧ good' a) r := by
  intro s hs
  cases hres : r s with
  | ok a s' => exact ⟨(hr.of_ok hs hres).1, (hr.of_ok hs hres).2, (hgives.of_ok trivial hres).2⟩
  | error e s' => exact hr.of_error hs hres

/-- What a routine yields, and what it leaves, is determined by where it is run. -/
theorem Yields.unique {ε σ : Type} {r : EStateM ε σ α} {s s₁ s₂ : σ} {a₁ a₂ : α}
    (h₁ : Yields r s a₁ s₁) (h₂ : Yields r s a₂ s₂) : a₁ = a₂ ∧ s₁ = s₂ :=
  EStateM.Result.ok.inj (h₁.symm.trans h₂)

/-- A routine is known by its run. -/
theorem Meets.run {ε σ : Type} {r : EStateM ε σ α} {s : σ} :
    Meets (fun s' => s' = s) r (fun a s' => Yields r s a s') (fun e s' => Fails r s e s') := by
  rintro s' rfl
  cases hres : r s' with
  | ok a s => exact hres
  | error e s => exact hres

/-- A routine that adds nothing is known by its run. -/
theorem Meets.reading_run {b : Body} :
    Meets (fun b' => b' = b) (Reading.reading r)
      (fun a b' => ∃ s, Yields r b.toState a s ∧ b' = { b with toState := s })
      (fun e b' => ∃ s, Fails r b.toState e s ∧ b' = { b with toState := s }) := by
  rintro b' rfl
  cases hres : r b'.toState with
  | ok a s =>
    rw [Yields.reading hres]
    exact ⟨s, hres, rfl⟩
  | error e s =>
    rw [Reading.reading, hres]
    exact ⟨s, hres, rfl⟩

/-- A token that was wanted is the next one, and is consumed. -/
theorem Meets.expect_run {kind : Token.Kind} {s : State} :
    Meets (fun s' => s' = s) (Reading.expect kind)
      (fun t s' => s.peek.kind = kind ∧ t = s.peek ∧ s' = s.advance) (fun _ _ => True) :=
  Meets.run.weaken (fun _ h => h) (fun _ _ h => h.of_expect) fun _ _ _ => trivial

end Runs

/-! ### Drafts of members -/

/-- The property that a parameter declares is not documented. -/
theorem parameter_undocumented (cfg : Setting) (f : Frame) (doc : Option DocBlock) :
    Gives (fun r : ParameterDraft × Option PropertyDraft => ∀ q ∈ r.2, q.docComment = none)
      (parameter cfg f doc) := by
  rw [parameter_eq]
  refine Keeps.bind Gives.any fun _ _ => ?_
  refine Keeps.bind Gives.any fun first _ => ?_
  refine Keeps.bind Gives.any fun mods _ => ?_
  refine Keeps.bind Gives.any fun declared _ => ?_
  refine Keeps.bind Gives.any fun _ _ => ?_
  refine Keeps.bind Gives.any fun _ _ => ?_
  refine Keeps.bind Gives.any fun var _ => ?_
  refine Keeps.bind Gives.any fun value _ => ?_
  refine Keeps.bind Gives.any fun s _ => Keeps.pure fun q hq => ?_
  obtain ⟨-, rfl⟩ := mem_promoted.mp hq
  rfl

theorem parameterList_undocumented (cfg : Setting) (f : Frame) (doc : Option DocBlock) :
    Gives (fun ps : List (ParameterDraft × Option PropertyDraft) =>
      ∀ p ∈ ps, ∀ q ∈ p.2, q.docComment = none) (parameterList cfg f doc) := by
  refine Keeps.bind Gives.any fun _ _ => ?_
  refine Keeps.ite (fun _ => Keeps.pure (by simp)) fun _ => ?_
  exact Keeps.listOf (parameter_undocumented cfg f doc) Gives.any

theorem parameters_undocumented (cfg : Setting) (f : Frame) (doc : Option DocBlock) :
    Gives (fun r : List ParameterDraft × List PropertyDraft => ∀ q ∈ r.2, q.docComment = none)
      (parameters cfg f doc) := by
  rw [parameters_eq]
  refine Keeps.bind Gives.any fun _ _ => ?_
  refine Keeps.bind (parameterList_undocumented cfg f doc) fun ps hps => ?_
  refine Keeps.bind Gives.any fun _ _ => Keeps.pure fun q hq => ?_
  obtain ⟨p, hp, hpq⟩ := List.mem_filterMap.mp hq
  exact hps p hp q hpq

/-- A method is read from the word `function` on, which is consumed, and documented with the doc
comment that is handed over. -/
theorem methodDraft_documented (cfg : Setting) (d : ClassDraft) (mods : Modifiers)
    (doc : Option String) (line : Nat) (s : State) :
    Meets (fun s' => s' = s) (methodDraft cfg d mods doc line)
      (fun r s' => s'.rest <:+ s.rest.tail ∧ r.1.docComment = doc ∧
        ∀ q ∈ r.2.2, q.docComment = none) (fun _ _ => True) := by
  rw [methodDraft_eq]
  have hword : Meets (fun s' => s' = s) (discard (expect .functionWord))
      (fun _ s' => Reads s.advance s') (fun _ _ => True) := by
    refine Meets.discard ((Meets.expect_run (s := s)).weaken (fun _ h => h) ?_ fun _ _ _ => trivial)
    rintro t s' ⟨-, -, rfl⟩
    exact Reads.refl s.advance
  refine Meets.bind hword fun _ => ?_
  -- what follows reads forward from there
  suffices hrest : Forward s.advance (fun r : MethodDraft × Token × List PropertyDraft =>
      r.1.docComment = doc ∧ ∀ q ∈ r.2.2, q.docComment = none) _ from
    (Keeps.meets hrest).weaken (fun _ h => h) (fun _ _ h => ⟨h.1.suffix, h.2⟩) fun _ _ _ => trivial
  refine Keeps.bind (Forward.eat _) fun _ _ => ?_
  refine Keeps.bind Forward.memberName fun name _ => ?_
  refine Keeps.bind ((Forward.parameters _ _ _).and_gives (parameters_undocumented _ _ _))
    fun (params, promoted) hparams => ?_
  refine Keeps.bind (Forward.returnType _ _) fun hint _ => ?_
  refine Keeps.bind Forward.methodEnd fun closing _ => ?_
  exact Keeps.pure ⟨rfl, hparams.2⟩

/-- A property is read from its variable on, which is consumed, and documented with the doc comment
that is handed over. -/
theorem propertyDraft_documented (cfg : Setting) (mods : Modifiers) (hint : Option TypeHint)
    (doc : Option String) (line : Nat) (s : State) :
    Meets (fun s' => s' = s) (propertyDraft cfg mods hint doc line)
      (fun r s' => s.peek.kind = .variableName ∧ s'.rest <:+ s.rest.tail ∧
        r.1.docComment = doc ∧ r.1.className = none ∧
        r.1.name = Text.dropOne '$' s.peek.lexeme) (fun _ _ => True) := by
  rw [propertyDraft_eq]
  have hvariable : Meets (fun s' => s' = s) (expect .variableName)
      (fun t s' => (s.peek.kind = .variableName ∧ t = s.peek) ∧ Reads s.advance s')
      (fun _ _ => True) := by
    refine (Meets.expect_run (s := s)).weaken (fun _ h => h) ?_ fun _ _ _ => trivial
    rintro t s' ⟨hk, rfl, rfl⟩
    exact ⟨⟨hk, rfl⟩, Reads.refl s.advance⟩
  refine Meets.bind hvariable fun var => Meets.given ?_
  rintro ⟨hk, rfl⟩
  suffices hrest : Forward s.advance (fun r : PropertyDraft × Span =>
      r.1.docComment = doc ∧ r.1.className = none ∧
        r.1.name = Text.dropOne '$' s.peek.lexeme) _ from
    (Keeps.meets hrest).weaken (fun _ h => h) (fun _ _ h => ⟨hk, h.1.suffix, h.2⟩)
      fun _ _ _ => trivial
  refine Keeps.bind (Forward.defaultValue? _ _) fun value _ => ?_
  exact Keeps.pure ⟨rfl, rfl, rfl⟩

/-! ### What a member adds -/

/-- A class that has got methods and properties, while its doc comment stayed as it was. -/
structure Grown (d : ClassDraft) (ms : List MethodDraft) (ps : List PropertyDraft)
    (d' : ClassDraft) : Prop where
  docComment_eq : d'.docComment = d.docComment
  methods_eq : d'.methods = d.methods ++ ms
  properties_eq : d'.properties = d.properties ++ ps

/-- **The beginning of a property declaration.** Behind attributes, if there are any, the member
begins at `first`, and behind its modifiers, and a type if there is one, its first variable is next
at `s`. -/
structure PropertyBegins (cfg : Setting) (b : Body) (first s : State) : Prop where
  attributes : Yields skipAttributes b.toState () first
  behind : ∃ mods s₁, Yields modifiers first mods s₁ ∧
    (s = s₁ ∨ beginsType s₁.peek.kind = true ∧
      ∃ hint, Yields (typeHint (cfg.frame b.draft)) s₁ hint s)
  variable_next : s.peek.kind = .variableName

/-- The name of the property that is declared by the variable at `s`. -/
def State.propertyName (s : State) : String := Text.dropOne '$' s.peek.lexeme

/-- What a method adds to the class `d₀` if its word `function` is next at `s₁`: itself, if it is
not refused, and the properties that its parameters declare. -/
structure AddsMethod (doc : Option String) (d₀ : ClassDraft) (s₁ : State) (d : ClassDraft)
    (s : State) : Prop where
  behind : s.rest <:+ s₁.rest.tail
  grown : ∃ ms ps, Grown d₀ ms ps d ∧ ms.length ≤ 1 ∧ (∀ m ∈ ms, m.docComment = doc) ∧
    ∀ p ∈ ps, p.docComment = none

/-- What a property declaration adds to the class `d₀` if its first variable is next at `s₁`: the
property of that variable, if it is not refused, and others. -/
structure AddsProperties (doc : Option String) (d₀ : ClassDraft) (s₁ : State) (d : ClassDraft)
    (s : State) : Prop where
  behind : s.rest <:+ s₁.rest.tail
  taken : d.hasProperty s₁.propertyName = true
  grown : ∃ named others, Grown d₀ [] (named ++ others) d ∧ named.length ≤ 1 ∧
    (∀ p ∈ named, p.name = s₁.propertyName ∧ p.docComment = doc) ∧
    ∀ p ∈ others, p.name ≠ s₁.propertyName ∧ p.docComment = none

/-- **What a member adds** to the class of `b`, where it begins, so that the class is `d` and the
reading has come to `s`. -/
inductive MemberAdds (cfg : Setting) (b : Body) (d : ClassDraft) (s : State) : Prop where
  /-- Neither a method nor a property. -/
  | nothing (h : Grown b.draft [] [] d)
  /-- A method, with the doc comment of the member. -/
  | method {first s₁ : State} {mods : Modifiers} (hbegins : MethodBegins b first s₁ mods)
    (h : AddsMethod (b.docAt first) b.draft s₁ d s)
  /-- Properties, of which only that of the first variable has the doc comment of the member. -/
  | properties {first s₁ : State} (hbegins : PropertyBegins cfg b first s₁)
    (h : AddsProperties (b.docAt first) b.draft s₁ d s)

section Adding

variable {cfg : Setting} {b b' : Body} {d d' d₀ : ClassDraft} {ms : List MethodDraft}
  {ps : List PropertyDraft} {doc : Option String} {s s' s₁ : State}

theorem Grown.refl (d : ClassDraft) : Grown d [] [] d :=
  ⟨rfl, (List.append_nil _).symm, (List.append_nil _).symm⟩

theorem Grown.trans {ms' : List MethodDraft} {ps' : List PropertyDraft} {d'' : ClassDraft}
    (h : Grown d ms ps d') (h' : Grown d' ms' ps' d'') : Grown d (ms ++ ms') (ps ++ ps') d'' where
  docComment_eq := h'.docComment_eq.trans h.docComment_eq
  methods_eq := by rw [h'.methods_eq, h.methods_eq, List.append_assoc]
  properties_eq := by rw [h'.properties_eq, h.properties_eq, List.append_assoc]

theorem Grown.addProperty {p : PropertyDraft} (h : Grown d ms ps d') {d'' : ClassDraft}
    (hadd : d'.addProperty p = .ok d'') :
    Grown d ms (ps ++ [{ p with className := some d'.name }]) d'' := by
  obtain ⟨-, rfl⟩ := ClassDraft.of_addProperty hadd
  exact ⟨h.docComment_eq, h.methods_eq, by rw [← List.append_assoc, ← h.properties_eq]⟩

/-- What is known of what a member adds stays true when tokens are read. -/
theorem memberAdds_bodyInvariant (cfg : Setting) (b : Body) : BodyInvariant (MemberAdds cfg b) where
  stable d s s' h hreads := by
    cases h with
    | nothing h => exact .nothing h
    | method hbegins h => exact .method hbegins ⟨hreads.suffix.trans h.behind, h.grown⟩
    | properties hbegins h =>
      exact .properties hbegins ⟨hreads.suffix.trans h.behind, h.taken, h.grown⟩
  report d s e h := by
    cases h with
    | nothing h => exact .nothing h
    | method hbegins h => exact .method hbegins ⟨h.behind, h.grown⟩
    | properties hbegins h => exact .properties hbegins ⟨h.behind, h.taken, h.grown⟩

/-! ### Methods -/

theorem AddsMethod.addProperty {p : PropertyDraft} (h : AddsMethod doc d₀ s₁ d s)
    (hp : p.docComment = none) (hadd : d.addProperty p = .ok d') : AddsMethod doc d₀ s₁ d' s := by
  obtain ⟨ms, ps, hgrown, hone, hms, hps⟩ := h.grown
  refine ⟨h.behind, ms, _, hgrown.addProperty hadd, hone, hms, fun q hq => ?_⟩
  rcases List.mem_append.mp hq with hq | hq
  · exact hps q hq
  · rw [List.mem_singleton.mp hq]
    exact hp

/-- A method that is read is added with its doc comment, or it is refused. -/
theorem method_adds (cfg : Setting) (mods : Modifiers) (doc : Option String) (line : Nat)
    (b : Body) :
    Meets (fun b' => b' = b) (method cfg mods doc line)
      (fun _ b' => AddsMethod doc b.draft b.toState b'.draft b'.toState)
      (fun _ b' => b'.draft = b.draft) := by
  have hdraft : Meets (fun b' => b' = b) (reading (methodDraft cfg b.draft mods doc line))
      (fun r b' => (r.1.docComment = doc ∧ ∀ q ∈ r.2.2, q.docComment = none) ∧
        b'.rest <:+ b.rest.tail ∧ b'.draft = b.draft)
      (fun _ b' => b'.draft = b.draft) := by
    -- the draft of a method is read without a look at the class, which stays as it is
    refine Meets.reading_run.weaken (fun _ h => h) ?_ fun e b' ⟨s, _, hb'⟩ => by rw [hb']
    rintro r b' ⟨s, hrun, rfl⟩
    obtain ⟨hbehind, hdocs⟩ := (methodDraft_documented cfg b.draft mods doc line _).of_ok rfl hrun
    exact ⟨hdocs, hbehind, rfl⟩
  refine Meets.bind Meets.get fun b₁ => Meets.assuming (fun b' h => h.1.trans h.2) ?_
  rintro rfl
  refine Meets.bind (hdraft.of_pre fun _ h => h.2) fun (m, name, promoted) => Meets.given ?_
  rintro ⟨hdoc, hdocs⟩
  have hadding : Meets (fun b' => b'.rest <:+ b₁.rest.tail ∧ b'.draft = b₁.draft)
      (adding name.span (·.addMethod m))
      (fun _ b' => AddsMethod doc b₁.draft b₁.toState b'.draft b'.toState)
      (fun _ b' => b'.draft = b₁.draft) := by
    refine Meets.adding ?_ ?_
    · -- the method that is taken is the one that was read, owned by the class
      rintro b' d' ⟨hbehind, hsame⟩ hadd
      obtain ⟨-, rfl⟩ := ClassDraft.of_addMethod hadd
      refine ⟨hbehind, [{ m with className := some b'.draft.name }], [], ?_, by simp, ?_, by simp⟩
      · exact ⟨by rw [hsame], by rw [hsame], by simp [hsame]⟩
      · intro m' hm'
        rw [List.mem_singleton.mp hm', ← hdoc]
    · -- a method that is refused leaves the class as it was
      rintro b' e ⟨hbehind, hsame⟩
      exact ⟨hbehind, [], [], hsame ▸ Grown.refl _, by simp, by simp, by simp⟩
  refine Meets.bind hadding fun _ => ?_
  -- the properties of a constructor follow
  refine Meets.ite (fun _ => Meets.forM fun q hq => ?_) fun _ => Meets.pure fun _ h => h
  exact Meets.adding (fun _ _ h hadd => h.addProperty (hdocs q hq) hadd)
    fun _ _ h => ⟨h.behind, h.grown⟩

/-! ### Properties -/

/-- **An offer of a property** to the class `d`. Whether it takes the property or refuses it, what
has been added to it since it was `d₀` is what it should be. -/
structure Offered (doc : Option String) (d₀ : ClassDraft) (s₁ : State) (p : PropertyDraft)
    (d : ClassDraft) (s : State) : Prop where
  taken : ∀ d', d.addProperty p = .ok d' → AddsProperties doc d₀ s₁ d' s
  refused : ∀ e, d.addProperty p = .error e → AddsProperties doc d₀ s₁ d s

/-- The property of the first variable is added with its doc comment, or it is refused because the
class has one of that name. -/
theorem Offered.first {p : PropertyDraft} (hbehind : s.rest <:+ s₁.rest.tail)
    (howner : p.className = none) (hname : p.name = s₁.propertyName) :
    Offered p.docComment d s₁ p d s where
  taken d' hadd := by
    have hgrown := (Grown.refl d).addProperty hadd
    obtain ⟨-, rfl⟩ := ClassDraft.of_addProperty hadd
    refine ⟨hbehind, ?_, [{ p with className := some d.name }], [], hgrown, by simp, ?_, by simp⟩
    · simp [ClassDraft.hasProperty, hname]
    · intro q hq
      rw [List.mem_singleton.mp hq]
      exact ⟨hname, rfl⟩
  refused e hrefused := by
    rcases ClassDraft.addProperty_eq_error_iff.mp hrefused with ⟨hhas, -⟩ | ⟨-, howned, -⟩
    · -- refused: the class has a property of this name, so the name is taken anyway
      exact ⟨hbehind, hname ▸ hhas, [], [], Grown.refl d, by simp, by simp, by simp⟩
    · rw [howner] at howned
      exact absurd howned (by decide)

/-- A property of a further variable has another name, and no doc comment. -/
theorem AddsProperties.offered {p : PropertyDraft} (h : AddsProperties doc d₀ s₁ d s)
    (hp : p.docComment = none) : Offered doc d₀ s₁ p d s where
  taken d' hadd := by
    obtain ⟨named, others, hgrown, hone, hnamed, hothers⟩ := h.grown
    have hgrown' := hgrown.addProperty hadd
    obtain ⟨hnew, rfl⟩ := ClassDraft.of_addProperty hadd
    -- the name of the first variable is taken, so a property of that name is refused
    have hname : p.name ≠ s₁.propertyName := fun heq => by
      rw [heq, h.taken] at hnew
      exact absurd hnew (by decide)
    refine ⟨h.behind, ?_, named, _, by rwa [List.append_assoc] at hgrown', hone, hnamed,
      fun q hq => ?_⟩
    · rw [ClassDraft.hasProperty, List.any_append, ← ClassDraft.hasProperty, h.taken,
        Bool.true_or]
    · rcases List.mem_append.mp hq with hq | hq
      · exact hothers q hq
      · rw [List.mem_singleton.mp hq]
        exact ⟨hname, hp⟩
  refused _ _ := h

theorem addsProperties_bodyInvariant (doc : Option String) (d₀ : ClassDraft) (s₁ : State) :
    BodyInvariant (AddsProperties doc d₀ s₁) where
  stable _ _ _ h hreads := ⟨hreads.suffix.trans h.behind, h.taken, h.grown⟩
  report _ _ _ h := ⟨h.behind, h.taken, h.grown⟩

/-- Where a variable of a declaration is read: the first one, at which nothing has been added to
`b`, or a further one, for which no doc comment is left. -/
def AtVariable (doc : Option String) (b : Body) (handed : Option String) (b' : Body) : Prop :=
  b' = b ∧ handed = doc ∨ handed = none ∧ b.peek.kind = .variableName ∧
    AddsProperties doc b.draft b.toState b'.draft b'.toState

/-- Where the reading of a declaration stops: nothing has been added to `b`, or what should be. -/
def StoppedAdding (doc : Option String) (b b' : Body) : Prop :=
  b'.draft = b.draft ∨ b.peek.kind = .variableName ∧
    AddsProperties doc b.draft b.toState b'.draft b'.toState

/-- The property of a variable, first or further, is offered as it should be. -/
theorem propertyDraft_offered (cfg : Setting) (mods : Modifiers) (hint : Option TypeHint)
    (handed : Option String) (line : Nat) (hb' : AtVariable doc b handed b') :
    Meets (fun b'' => b'' = b') (reading (propertyDraft cfg mods hint handed line))
      (fun r b'' => b.peek.kind = .variableName ∧
        Offered doc b.draft b.toState r.1 b''.draft b''.toState)
      (fun _ b'' => StoppedAdding doc b b'') := by
  have hkeeps := addsProperties_bodyInvariant doc b.draft b.toState
  refine Meets.reading_run.weaken (fun _ h => h) ?_ ?_
  · rintro ⟨p, span⟩ b'' ⟨s, hrun, rfl⟩
    obtain ⟨hvariable, hbehind, hdoc, howner, hname⟩ :=
      (propertyDraft_documented cfg mods hint handed line _).of_ok rfl hrun
    rcases hb' with ⟨rfl, rfl⟩ | ⟨rfl, hk, hadds⟩
    · -- the first variable
      exact ⟨hvariable, hdoc ▸ Offered.first hbehind howner hname⟩
    · -- a further one: what has been added stays so while it is read
      have hreads := (Forward.propertyDraft cfg mods hint none line).of_ok (Reads.refl _) hrun
      exact ⟨hk, (hkeeps.stable _ hadds hreads.1).offered hdoc⟩
  · rintro e b'' ⟨s, hrun, rfl⟩
    rcases hb' with ⟨rfl, -⟩ | ⟨-, hk, hadds⟩
    · exact .inl rfl
    · have hreads := (Forward.propertyDraft cfg mods hint handed line).of_error (Reads.refl _) hrun
      exact .inr ⟨hk, hkeeps.stable _ hadds hreads.1⟩

/-- One variable of a declaration adds its property, or the property is refused, and no doc comment
is left. -/
theorem propertyRound_adds (cfg : Setting) (mods : Modifiers) (hint : Option TypeHint) (b : Body)
    (r : Option String × Nat) :
    Meets (AtVariable doc b r.1) (propertyRound cfg mods hint r)
      (fun r' b' => r'.value.1 = none ∧ b.peek.kind = .variableName ∧
        AddsProperties doc b.draft b.toState b'.draft b'.toState)
      (fun _ b' => StoppedAdding doc b b') := by
  obtain ⟨handed, line⟩ := r
  intro b' hb'
  have hkeeps := addsProperties_bodyInvariant doc b.draft b.toState
  -- the round begins at the variable that is known, so it is run from there
  suffices hround : Meets (fun b'' => b'' = b')
      (propertyRound cfg mods hint (handed, line)) _ _ from hround b' rfl
  refine Meets.bind (propertyDraft_offered cfg mods hint handed line hb') fun (p, span) =>
    Meets.given fun hk => ?_
  have hadding : Meets
      (fun b'' : Body => Offered doc b.draft b.toState p b''.draft b''.toState)
      (adding span (·.addProperty p))
      (fun _ b'' => AddsProperties doc b.draft b.toState b''.draft b''.toState)
      (fun _ b'' => StoppedAdding doc b b'') :=
    Meets.adding_either (fun _ d' h hadd => h.taken d' hadd)
      fun b'' e d h hrefused => hkeeps.report _ _ d (h.refused e hrefused)
  refine Meets.bind hadding fun _ => ?_
  have hcomma : Meets
      (fun b'' : Body => AddsProperties doc b.draft b.toState b''.draft b''.toState)
      (reading comma)
      (fun _ b'' => AddsProperties doc b.draft b.toState b''.draft b''.toState)
      (fun _ b'' => StoppedAdding doc b b'') :=
    (hkeeps.reading fun _ => Forward.comma).weaken (fun _ h => h) (fun _ _ h => h)
      fun _ _ h => .inr ⟨hk, h⟩
  refine Meets.bind hcomma fun more => ?_
  refine Meets.ite (fun _ => ?_) fun _ => Meets.pure fun _ h => ⟨rfl, hk, h⟩
  exact Meets.bind Meets.get fun _ => Meets.pure fun _ h => ⟨rfl, hk, h.2⟩

/-- The variables of a declaration are added one after another, the first one with the doc
comment. -/
theorem properties_adds (cfg : Setting) (mods : Modifiers) (declared : Option TypeHint)
    (doc : Option String) (line : Nat) (b : Body) :
    Meets (fun b' => b' = b) (properties cfg mods declared doc line)
      (fun _ b' => b.peek.kind = .variableName ∧
        AddsProperties doc b.draft b.toState b'.draft b'.toState)
      (fun _ b' => StoppedAdding doc b b') := by
  refine Meets.bind Meets.get fun b₁ => Meets.assuming (fun b' h => h.1.trans h.2) ?_
  rintro rfl
  extract_lets documented hint
  have hrounds : Meets (fun b' => b' = b₁)
      (iterate Body.size (propertyRound cfg mods hint) (doc, line))
      (fun _ b' => b₁.peek.kind = .variableName ∧
        AddsProperties doc b₁.draft b₁.toState b'.draft b'.toState)
      (fun _ b' => StoppedAdding doc b₁ b') := by
    -- the doc comment is handed to the first round, and none is left for those behind it
    refine (Meets.iterate (I := fun (r : Option String × Nat) => AtVariable doc b₁ r.1)
      (fun r b₀ => ?_) _).of_pre fun b' h => .inl ⟨h, rfl⟩
    refine ((propertyRound_adds cfg mods hint b₁ r).of_pre fun _ h => h.2).to_post ?_
    rintro (r' | r') b' h
    · exact h.2
    · exact ⟨.inr h, .inr h.2⟩
  refine Meets.bind (Meets.discard (hrounds.of_pre fun _ h => h.2)) fun _ => Meets.discard ?_
  refine Meets.given fun hk => ?_
  have hend : KeepsBody (AddsProperties doc b₁.draft b₁.toState) (reading (expect .semicolon)) :=
    (addsProperties_bodyInvariant doc b₁.draft b₁.toState).reading fun _ => Forward.expect _
  exact hend.weaken (fun _ h => h) (fun _ _ h => ⟨hk, h⟩) fun _ _ h => .inr ⟨hk, h⟩

/-! ### Members -/

/-- The constants of a class are neither methods nor properties. -/
theorem constants_grown (cfg : Setting) (mods : Modifiers) (d₀ : ClassDraft) :
    KeepsBody (fun d _ => Grown d₀ [] [] d) (constants cfg mods) := by
  rw [constants_eq]
  have hkeeps : BodyInvariant fun d _ => Grown d₀ [] [] d :=
    ⟨fun _ _ _ h _ => h, fun _ _ _ h => h⟩
  refine Meets.bind (Meets.discard (hkeeps.reading fun _ => Forward.expect _)) fun _ => ?_
  refine Meets.bind (KeepsBody.get (p := fun d _ => Grown d₀ [] [] d)) fun b => ?_
  have htype : KeepsBody (fun d _ => Grown d₀ [] [] d) (constantType? cfg b) :=
    Meets.ite (fun _ => Meets.pure fun _ h => h) fun _ =>
      Meets.map_same (hkeeps.reading fun _ => Forward.typeHint _)
  refine Meets.bind htype fun hint => ?_
  refine Meets.bind (Meets.discard ?_) fun _ =>
    Meets.discard (hkeeps.reading fun _ => Forward.expect _)
  refine Meets.iterate_same (I := fun _ (b : Body) => Grown d₀ [] [] b.draft) (fun _ => ?_) _
  refine Meets.bind (hkeeps.reading fun _ => Forward.constantDraft _ _ _) fun (c, span) => ?_
  have hadding : KeepsBody (fun d _ => Grown d₀ [] [] d) (adding span (·.addConstant c)) := by
    refine Meets.adding (fun b d' h hadd => ?_) fun _ _ h => h
    obtain ⟨-, rfl⟩ := ClassDraft.of_addConstant hadd
    exact ⟨h.docComment_eq, h.methods_eq, h.properties_eq⟩
  refine Meets.bind hadding fun _ => ?_
  exact Meets.bind (hkeeps.reading fun _ => Forward.comma) fun _ => Meets.pure fun _ h => h

theorem MemberAdds.same (h : d = b.draft) : MemberAdds cfg b d s :=
  .nothing (h ▸ Grown.refl _)

/-- Where a routine that adds nothing is run, nothing has been added when it fails. -/
theorem reading_adds {α : Type} {r : Routine α} (first : State) :
    Meets (fun b' => b' = { b with toState := first }) (reading r)
      (fun a b' => ∃ s, Yields r first a s ∧ b' = { b with toState := s })
      (fun _ b' => MemberAdds cfg b b'.draft b'.toState) := by
  refine Meets.reading_run.weaken (fun _ h => h) (fun _ _ h => h) ?_
  rintro _ b' ⟨s, -, rfl⟩
  exact .same rfl

/-- Behind its attributes and modifiers, a member adds what its next token says. -/
theorem modifiedMember_adds {first : State} {mods : Modifiers}
    (hattributes : Yields skipAttributes b.toState () first)
    (hmodifiers : Yields modifiers first mods s₁) (line : Nat) :
    Meets (fun b' => b' = { b with toState := s₁ })
      (modifiedMember cfg mods (b.docAt first) line)
      (fun _ b' => MemberAdds cfg b b'.draft b'.toState)
      (fun _ b' => MemberAdds cfg b b'.draft b'.toState) := by
  -- with a type or without, properties follow
  have hproperties : ∀ hint s₂, (s₂ = s₁ ∨ beginsType s₁.peek.kind = true ∧
        ∃ hint, Yields (typeHint (cfg.frame b.draft)) s₁ hint s₂) →
      Meets (fun b' => b' = { b with toState := s₂ })
        (properties cfg mods hint (b.docAt first) line)
        (fun _ b' => MemberAdds cfg b b'.draft b'.toState)
        (fun _ b' => MemberAdds cfg b b'.draft b'.toState) := by
    intro hint s₂ hs₂
    have hbegins : s₂.peek.kind = .variableName → PropertyBegins cfg b first s₂ := fun hk =>
      ⟨hattributes, ⟨mods, s₁, hmodifiers, hs₂⟩, hk⟩
    refine (properties_adds cfg mods hint (b.docAt first) line { b with toState := s₂ }).weaken
      (fun _ h => h) ?_ ?_
    · rintro _ b' ⟨hk, hadds⟩
      exact .properties (hbegins hk) hadds
    · rintro _ b' (hsame | ⟨hk, hadds⟩)
      · exact .same hsame
      · exact .properties (hbegins hk) hadds
  refine Meets.bind Meets.get fun b₁ => Meets.assuming (fun b' h => h.1.trans h.2) ?_
  rintro rfl
  refine Meets.of_pre ?_ fun _ h => h.2
  -- a method
  refine Meets.ite (fun hk => ?_) fun _ => ?_
  · exact (method_adds cfg mods _ line _).weaken (fun _ h => h)
      (fun _ _ h => .method ⟨hattributes, hmodifiers, hk⟩ h) fun _ _ h => .same h
  refine Meets.ite (fun _ => ?_) fun _ => ?_
  · -- constants
    refine (constants_grown cfg mods b.draft).weaken ?_ (fun _ _ h => .nothing h)
      fun _ _ h => .nothing h
    rintro b' rfl
    exact Grown.refl _
  -- properties without a type, and with one
  refine Meets.ite (fun _ => hproperties none s₁ (.inl rfl)) fun _ => ?_
  refine Meets.ite (fun htype => ?_) fun _ => Meets.throw fun b' h => .same (h ▸ rfl)
  refine Meets.bind Meets.get fun b₂ => Meets.assuming (fun b' h => h.1.trans h.2) ?_
  rintro rfl
  refine Meets.bind ((reading_adds s₁).of_pre fun _ h => h.2) fun hint b' ⟨s₂, hrun, hb'⟩ => ?_
  exact hproperties (some hint) s₂ (.inr ⟨htype.1, hint, hrun⟩) b' hb'

/-- **Every member** adds what it should, even where it cannot be read to its end. -/
theorem member_adds (cfg : Setting) (b : Body) :
    Meets (fun b' => b' = b) (member cfg) (fun _ b' => MemberAdds cfg b b'.draft b'.toState)
      (fun _ b' => MemberAdds cfg b b'.draft b'.toState) := by
  refine Meets.bind Meets.get fun b₁ => Meets.assuming (fun b' h => h.1.trans h.2) ?_
  rintro rfl
  refine Meets.bind ((reading_adds b₁.toState).of_pre fun _ h => h.2)
    fun _ => Meets.of_each ?_
  -- from here on it is known where the member begins
  rintro _ ⟨first, hattributes, rfl⟩
  have hpassed : ∀ {α : Type} (r : Routine α), Meets
      (fun b' => b' = { b₁ with toState := first }) (reading r)
      (fun _ b' => MemberAdds cfg b₁ b'.draft b'.toState)
      (fun _ b' => MemberAdds cfg b₁ b'.draft b'.toState) := by
    intro α r
    refine (reading_adds first).to_post ?_
    rintro _ b' ⟨s₂, -, rfl⟩
    exact .same rfl
  refine Meets.bind Meets.get fun b₂ => Meets.assuming (fun b' h => h.1.trans h.2) ?_
  rintro rfl
  refine Meets.of_pre ?_ fun _ h => h.2
  split
  · exact hpassed _
  · exact Meets.discard (hpassed _)
  · have hdoc : Meets (fun b' => b' = { b₁ with toState := first })
        (reading (docSince b₁.rest))
        (fun doc b' => doc = b₁.docAt first ∧ b' = { b₁ with toState := first })
        (fun _ b' => MemberAdds cfg b₁ b'.draft b'.toState) := by
      rintro b' rfl
      exact ⟨rfl, rfl⟩
    refine Meets.bind hdoc fun doc => Meets.given ?_
    rintro rfl
    refine Meets.bind Meets.get fun b₃ => Meets.of_pre ?_ fun _ h => h.2
    refine Meets.bind (reading_adds first) fun mods b' ⟨s₁, hmodifiers, hb'⟩ => ?_
    exact modifiedMember_adds hattributes hmodifiers _ b' hb'

/-- Recovery adds nothing to it. -/
theorem memberOrRecover_adds (h : Yields (memberOrRecover cfg) b () b') :
    MemberAdds cfg b b'.draft b'.toState :=
  ((memberAdds_bodyInvariant cfg b).memberOrRecover (member_adds cfg b)).of_ok rfl h

end Adding

/-! ### How members begin -/

section Begins

variable {cfg : Setting} {b : Body} {first first' s s' : State} {mods : Modifiers}

/-- How a property declaration begins is determined by where it does. -/
theorem PropertyBegins.unique (h : PropertyBegins cfg b first s)
    (h' : PropertyBegins cfg b first' s') : first = first' ∧ s = s' := by
  obtain ⟨-, rfl⟩ := h.attributes.unique h'.attributes
  obtain ⟨mods, s₁, hmods, hs⟩ := h.behind
  obtain ⟨mods', s₁', hmods', hs'⟩ := h'.behind
  obtain ⟨-, rfl⟩ := hmods.unique hmods'
  refine ⟨rfl, ?_⟩
  -- no type begins with a variable
  rcases hs with rfl | ⟨htype, hint, hs⟩ <;> rcases hs' with rfl | ⟨htype', hint', hs'⟩
  · rfl
  · exact absurd htype' (by rw [h.variable_next]; decide)
  · exact absurd htype (by rw [h'.variable_next]; decide)
  · exact (hs.unique hs').2

theorem MethodBegins.unique {mods' : Modifiers} (h : MethodBegins b first s mods)
    (h' : MethodBegins b first' s' mods') : first = first' ∧ s = s' := by
  obtain ⟨-, rfl⟩ := h.attributes.unique h'.attributes
  exact ⟨rfl, (h.modifiers.unique h'.modifiers).2⟩

/-- A member is not a method and a property at once. -/
theorem MethodBegins.not_propertyBegins (h : MethodBegins b first s mods) :
    ¬ PropertyBegins cfg b first' s' := by
  intro h'
  obtain ⟨-, rfl⟩ := h.attributes.unique h'.attributes
  obtain ⟨mods', s₁', hmods', hs'⟩ := h'.behind
  obtain ⟨-, rfl⟩ := h.modifiers.unique hmods'
  rcases hs' with rfl | ⟨htype, -⟩
  · exact absurd (h.word.symm.trans h'.variable_next) (by decide)
  · exact absurd htype (by rw [h.word]; decide)

/-- Whether a method or a property can begin with the kind of token, behind its attributes. -/
def beginsMember (kind : Token.Kind) : Bool :=
  (modifierOf? kind).isSome || kind == .functionWord || kind == .variableName || beginsType kind

/-- **The beginning of a member,** behind its attributes at `first`. The token that says what the
member is, the word of a method or the first variable of a property, is next at `s`. -/
structure MemberBegins (b : Body) (first s : State) : Prop where
  attributes : Yields skipAttributes b.toState () first
  first_kind : beginsMember first.peek.kind = true
  reads : Reads first s
  kind_ne : s.peek.kind ≠ .endOfText

theorem MethodBegins.memberBegins (h : MethodBegins b first s mods) : MemberBegins b first s where
  attributes := h.attributes
  first_kind := by
    cases hmod : modifierOf? first.peek.kind with
    | some m => simp [beginsMember, hmod]
    | none =>
      -- without modifiers the word `function` is first
      obtain ⟨-, rfl⟩ := h.modifiers.unique (Yields.modifiers hmod)
      simp [beginsMember, h.word]
  reads := by
    have hmodifiers : Forward first (fun _ => True) Reading.modifiers := Forward.modifiers
    exact (hmodifiers.of_ok (Reads.refl _) h.modifiers).1
  kind_ne := by rw [h.word]; decide

theorem PropertyBegins.memberBegins (h : PropertyBegins cfg b first s) :
    MemberBegins b first s := by
  obtain ⟨mods, s₁, hmods, hs⟩ := h.behind
  have hmodifiers : Forward first (fun _ => True) modifiers := Forward.modifiers
  have hs₁ := (hmodifiers.of_ok (Reads.refl _) hmods).1
  refine ⟨h.attributes, ?_, ?_, by rw [h.variable_next]; decide⟩
  · cases hmod : modifierOf? first.peek.kind with
    | some m => simp [beginsMember, hmod]
    | none =>
      obtain ⟨-, rfl⟩ := hmods.unique (Yields.modifiers hmod)
      rcases hs with rfl | ⟨htype, -⟩
      · simp [beginsMember, h.variable_next]
      · simp [beginsMember, htype]
  · rcases hs with rfl | ⟨-, hint, hs⟩
    · exact hs₁
    · have htype : Forward first (fun _ => True) (typeHint (cfg.frame b.draft)) :=
        Forward.typeHint _
      exact (htype.of_ok hs₁ hs).1

/-- The attributes of a member are read forward. -/
theorem MemberBegins.first_reads (h : MemberBegins b first s) : Reads b.toState first := by
  have hattributes : Forward b.toState (fun _ => True) skipAttributes := Forward.skipAttributes
  exact (hattributes.of_ok (Reads.refl _) h.attributes).1

end Begins

/-! ### Rounds -/

/-- **One round** of the reading of a body: a member begins at `b`, and behind it, or where the
reading has recovered from it, the body is `b'`. -/
structure Body.Round (cfg : Setting) (b b' : Body) : Prop where
  not_closed : b.peek.kind ≠ .rightBrace
  not_ended : b.peek.kind ≠ .endOfText
  run : Yields (memberOrRecover cfg) b () b'

/-- From one body the reading comes to another, round by round. -/
abbrev Body.Rounds (cfg : Setting) : Body → Body → Prop := Relation.ReflTransGen (Body.Round cfg)

section Rounds

variable {cfg : Setting} {b b' b₀ : Body} {d d' : ClassDraft} {s s' : State}

theorem Body.Round.adds (h : Body.Round cfg b b') : MemberAdds cfg b b'.draft b'.toState :=
  memberOrRecover_adds h.run

/-- A class grows with every round. -/
theorem Body.Round.grown (h : Body.Round cfg b b') : ∃ ms ps, Grown b.draft ms ps b'.draft := by
  cases h.adds with
  | nothing hgrown => exact ⟨[], [], hgrown⟩
  | method _ hadds =>
    obtain ⟨ms, ps, hgrown, -⟩ := hadds.grown
    exact ⟨ms, ps, hgrown⟩
  | properties _ hadds =>
    obtain ⟨named, others, hgrown, -⟩ := hadds.grown
    exact ⟨[], _, hgrown⟩

theorem Body.Rounds.grown (h : Body.Rounds cfg b b') : ∃ ms ps, Grown b.draft ms ps b'.draft := by
  induction h with
  | refl => exact ⟨[], [], Grown.refl _⟩
  | tail _ hround ih =>
    obtain ⟨ms, ps, hgrown⟩ := ih
    obtain ⟨ms', ps', hgrown'⟩ := hround.grown
    exact ⟨ms ++ ms', ps ++ ps', hgrown.trans hgrown'⟩

/-- **A round that adds a method** adds one, with the doc comment of the member. -/
theorem Body.Round.method_added (h : Body.Round cfg b b')
    (hlt : b.draft.methods.length < b'.draft.methods.length) :
    ∃ first s mods m, MethodBegins b first s mods ∧ b'.rest <:+ s.rest.tail ∧
      b'.draft.methods = b.draft.methods ++ [m] ∧ m.docComment = b.docAt first := by
  cases h.adds with
  | nothing hgrown =>
    rw [hgrown.methods_eq, List.append_nil] at hlt
    exact absurd hlt (Nat.lt_irrefl _)
  | properties _ hadds =>
    obtain ⟨named, others, hgrown, -⟩ := hadds.grown
    rw [hgrown.methods_eq, List.append_nil] at hlt
    exact absurd hlt (Nat.lt_irrefl _)
  | @method first s mods hbegins hadds =>
    obtain ⟨ms, ps, hgrown, hone, hdocs, -⟩ := hadds.grown
    rw [hgrown.methods_eq, List.length_append] at hlt
    -- at most one method is added, and the class has got longer
    obtain ⟨m, rfl⟩ := List.length_eq_one_iff.mp (Nat.le_antisymm hone (by omega))
    exact ⟨first, s, mods, m, hbegins, hadds.behind, hgrown.methods_eq, hdocs m List.mem_cons_self⟩

/-- **A round that adds a property** adds the one that is declared by the first variable, with the
doc comment of the member, or one that has none. -/
theorem Body.Round.property_added (h : Body.Round cfg b b') {j : Nat} {p : PropertyDraft}
    (hj : b.draft.properties.length ≤ j) (hp : b'.draft.properties[j]? = some p) :
    (∃ first s, PropertyBegins cfg b first s ∧ b'.rest <:+ s.rest.tail ∧
        b.draft.properties.length = j ∧ p.name = s.propertyName ∧
        p.docComment = b.docAt first) ∨
      p.docComment = none ∧ ∀ first s, PropertyBegins cfg b first s → p.name ≠ s.propertyName := by
  cases h.adds with
  | nothing hgrown =>
    rw [hgrown.properties_eq, List.append_nil, List.getElem?_eq_none hj] at hp
    cases hp
  | method hbegins hadds =>
    obtain ⟨ms, ps, hgrown, -, -, hdocs⟩ := hadds.grown
    rw [hgrown.properties_eq, List.getElem?_append_right hj] at hp
    exact .inr ⟨hdocs p (List.mem_of_getElem? hp), fun _ _ h => absurd h hbegins.not_propertyBegins⟩
  | @properties first s hbegins hadds =>
    obtain ⟨named, others, hgrown, hone, hnamed, hothers⟩ := hadds.grown
    rw [hgrown.properties_eq, List.getElem?_append_right hj] at hp
    -- the property of the first variable, if there is one, stands in front of the others
    by_cases hfirst : j - b.draft.properties.length < named.length
    · rw [List.getElem?_append_left hfirst] at hp
      obtain ⟨hname, hdoc⟩ := hnamed p (List.mem_of_getElem? hp)
      exact .inl ⟨first, s, hbegins, hadds.behind, by omega, hname, hdoc⟩
    · rw [List.getElem?_append_right (Nat.le_of_not_lt hfirst)] at hp
      obtain ⟨hname, hdoc⟩ := hothers p (List.mem_of_getElem? hp)
      refine .inr ⟨hdoc, fun first' s' hbegins' => ?_⟩
      obtain ⟨-, rfl⟩ := hbegins.unique hbegins'
      exact hname

/-- What a round leads to is determined by where it begins. -/
theorem Body.Round.rightUnique (cfg : Setting) : Relator.RightUnique (Body.Round cfg) := by
  intro b b₁ b₂ h₁ h₂
  exact (h₁.run.unique h₂.run).2

/-- **A body is read in rounds.** -/
theorem classBody_rounds (cfg : Setting) (b : Body) :
    Meets (fun b' => b' = b) (classBody cfg) (fun _ b' => Body.Rounds cfg b b')
      (fun _ _ => True) := by
  refine (Meets.iterate_same (I := fun _ b' => Body.Rounds cfg b b') (fun _ => ?_) ()).of_pre
    fun b' h => h ▸ .refl
  refine Meets.bind Meets.get fun b₁ => ?_
  split
  case h_1 | h_2 => exact Meets.pure fun _ h => h.2
  case h_3 hclosed hended =>
    refine Meets.bind ?_ fun _ => Meets.pure fun _ h => h
    rintro b' ⟨rfl, hrounds⟩
    -- each round of the loop is a round of the body, put behind those before it
    cases hrun : memberOrRecover cfg b₁ with
    | ok u b'' => exact hrounds.tail ⟨hclosed, hended, hrun⟩
    | error e b'' => trivial

/-- The members of a class are read in rounds, the last of which leads to the end of the class or of
the file. -/
theorem classMembers_rounds (h : Yields (classMembers cfg d) s d' s') :
    Body.Rounds cfg { s with draft := d } { s' with draft := d' } := by
  rw [Yields, classMembers] at h
  cases hbody : classBody cfg { s with draft := d } with
  | error e b => simp [hbody] at h
  | ok u b =>
    rw [hbody] at h
    obtain ⟨rfl, rfl⟩ := EStateM.Result.ok.inj h
    exact (classBody_rounds cfg _).of_ok rfl hbody

end Rounds

end Introspect.Reading
