import Introspect.Proofs.Declaration.Twins
import Introspect.Proofs.Reading.Walk

/-!
# Two resolvers on one class

Two readers go over the same tokens, one that keeps every name as it is written and one that applies
the rules of namespaces and imports. Outside of all namespaces and without imports they read twins:
the same members in the same order, with the same diagnostics, and types in which only the spelling
of class names differs. What they do next never depends on such a spelling.

* `State.Global` says where the two readers stand: in the global namespace, without imports, and
  with nothing ahead that changes that;
* `Walks.tandem`: a routine that walks and resolves nothing goes in tandem with itself;
* one lemma for each other routine says that the two readers go in tandem and yield twins, up to
  `BodyTandem.classBody` for the body of a class.
-/

namespace Introspect

namespace Reading

/-- What the two readers read the types of a class against. -/
inductive Frame.Twins : Frame → Frame → Prop
  | mk (own : String) {parent parent' : Option String}
      (hparent : Option.Rel Name.Twins parent parent') :
      Twins ⟨.verbatim, own, parent⟩ ⟨.namespaced, own, parent'⟩

namespace Frame.Twins

variable {f f' : Frame}

theorem className_eq (h : Frame.Twins f f') : f.className = f'.className := by
  cases h
  rfl

theorem parentName (h : Frame.Twins f f') : Option.Rel Name.Twins f.parentName f'.parentName := by
  cases h with
  | mk own hparent => exact hparent

theorem typeOfName (h : Frame.Twins f f') (typeWord? : String → Option TypeHint) (name : String) :
    TypeHint.Twins (f.typeOfName .empty typeWord? name) (f'.typeOfName .empty typeWord? name) := by
  obtain ⟨own, hparent⟩ := h
  have hclass := TypeHint.twins_named (Name.twins_resolve name)
  unfold Frame.typeOfName
  dsimp only
  split
  · exact hclass
  · cases typeWord? name with
    | none => exact hclass
    | some hint => exact TypeHint.twins_self hint

/-! ### Documented types -/

theorem docSingleType? (h : Frame.Twins f f') (text : String) :
    Option.Rel TypeHint.Twins (f.docSingleType? .empty text) (f'.docSingleType? .empty text) := by
  unfold Frame.docSingleType?
  dsimp only
  split
  · exact .some (TypeHint.twins_self _)
  split
  · exact .none
  split
  · exact .some (TypeHint.twins_self _)
  · exact .some (TypeHint.twins_self _)
  · rw [h.className_eq]
    exact .some (TypeHint.twins_self _)
  · -- the parent, which both declare or neither
    have hparent := h.parentName
    revert hparent
    generalize f.parentName = parent
    generalize f'.parentName = parent'
    rintro (hn | _)
    · exact .some (TypeHint.twins_named hn)
    · exact .none
  · exact .some (TypeHint.twins_self _)
  · exact .some (TypeHint.twins_self _)
  · exact .some (TypeHint.twins_self _)
  · split
    · exact .none
    · exact .some (h.typeOfName _ _)

/-- What is read piece by piece is read alike if every piece is. -/
theorem rel_mapM {α β : Type} {R : β → β → Prop} {g g' : α → Option β}
    (hg : ∀ a, Option.Rel R (g a) (g' a)) (l : List α) :
    Option.Rel (List.Forall₂ R) (l.mapM g) (l.mapM g') := by
  induction l with
  | nil => exact .some .nil
  | cons a l ih =>
    rw [List.mapM_cons, List.mapM_cons]
    have ha := hg a
    revert ha ih
    generalize g a = b
    generalize g' a = b'
    generalize l.mapM g = bs
    generalize l.mapM g' = bs'
    rintro (htail | _) (hhead | _)
    · exact .some (.cons hhead htail)
    · exact .none
    · exact .none
    · exact .none

theorem docType? (h : Frame.Twins f f') (text : String) :
    Option.Rel TypeHint.Twins (f.docType? .empty text) (f'.docType? .empty text) := by
  unfold Frame.docType?
  dsimp only
  split
  · next inner _ =>
    have hinner := h.docSingleType? (String.ofList inner)
    revert hinner
    generalize f.docSingleType? .empty (String.ofList inner) = hint
    generalize f'.docSingleType? .empty (String.ofList inner) = hint'
    rintro (htwins | _)
    · exact .some htwins.nullable
    · exact .none
  · have hmembers := rel_mapM h.docSingleType? (Text.split '|' (Text.trim text))
    -- either all members are types, the same ones for both, or one of them is none
    revert hmembers
    generalize (Text.split '|' (Text.trim text)).mapM (f.docSingleType? .empty) = hints
    generalize (Text.split '|' (Text.trim text)).mapM (f'.docSingleType? .empty) = hints'
    rintro (hall | _)
    · rcases hall with _ | ⟨hfirst, _ | ⟨hsecond, hrest⟩⟩
      · exact .none
      · exact .some hfirst
      · exact .some (TypeHint.twins_union (.cons hfirst (.cons hsecond hrest)))
    · exact .none

/-- The type that a tag documents, if there is the tag. -/
theorem documented (h : Frame.Twins f f') (text : Option String) :
    Option.Rel TypeHint.Twins (text.bind (f.docType? .empty)) (text.bind (f'.docType? .empty)) := by
  cases text with
  | none => exact .none
  | some text =>
    rw [Option.bind_some, Option.bind_some]
    exact h.docType? text

/-- Twin classes are twin frames for the types inside them. -/
theorem of_drafts (source : String) {d d' : ClassDraft} (hd : ClassDraft.Twins d d') :
    Frame.Twins (Setting.frame ⟨source, .verbatim⟩ d) (Setting.frame ⟨source, .namespaced⟩ d') := by
  obtain ⟨base, hparent, -, -, -, -⟩ := hd
  rename_i parent parent' _ _ _ _ _ _ _ _
  refine ⟨base.name, ?_⟩
  cases parent with
  | none =>
    cases parent' with
    | none => exact .none
    | some n' => cases hparent
  | some n =>
    cases parent' with
    | none => cases hparent
    | some n' => exact .some (.of_relative_eq (Option.some.inj hparent))

end Frame.Twins

/-! ### Code in the global namespace -/

mutual
/-- The names of a list that begins here: a name and what is listed behind it. -/
def listedNames : List Entry → List String
  | [] => []
  | e :: es => if e.kind = .name then e.token.lexeme :: furtherNames es else []

/-- The names of a list that goes on here, with a comma. -/
def furtherNames : List Entry → List String
  | [] => []
  | e :: es => if e.kind = .comma then listedNames es else []
end

/-- The names that are listed behind the words `extends` and `implements`. -/
def headerNames : List Entry → List String
  | [] => []
  | e :: es =>
    (if e.kind = .extendsWord ∨ e.kind = .implementsWord then listedNames es else []) ++
      headerNames es

theorem headerNames_subset {es es' : List Entry} (h : es' <:+ es) :
    headerNames es' ⊆ headerNames es := by
  obtain ⟨before, rfl⟩ := h
  induction before with
  | nil => exact fun _ hn => hn
  | cons e before ih => exact fun n hn => List.mem_append_right _ (ih hn)

/-- **Global code.** No name is in a namespace or imported, nothing ahead changes that, and no name
of a parent or an interface ahead begins with the word `namespace`. -/
structure State.Global (s : State) : Prop where
  scope_eq : s.scope = .empty
  plain : ∀ e ∈ s.rest, e.kind ≠ .namespaceWord ∧ e.kind ≠ .useWord
  headers : ∀ n ∈ headerNames s.rest, Name.Plain n
  eof_kind : s.eof.kind = .endOfText

namespace State.Global

variable {s : State}

theorem to_suffix (h : s.Global) {rest : List Entry} (hrest : rest <:+ s.rest) :
    State.Global { s with rest } where
  scope_eq := h.scope_eq
  plain := fun e he => h.plain e (hrest.subset he)
  headers := fun n hn => h.headers n (headerNames_subset hrest hn)
  eof_kind := h.eof_kind

theorem advance (h : s.Global) : s.advance.Global := h.to_suffix (List.tail_suffix _)

theorem report (s : State) (d : Diagnostic) (h : s.Global) : (s.report d).Global :=
  ⟨h.scope_eq, h.plain, h.headers, h.eof_kind⟩

/-- A walk leads from global code to global code. -/
theorem along {s' : State} (h : s.Global) (halong : Along s s') (hreads : Reads s s') :
    s'.Global where
  scope_eq := halong.scope_eq.trans h.scope_eq
  plain := fun e he => h.plain e (hreads.suffix.subset he)
  headers := fun n hn => h.headers n (headerNames_subset hreads.suffix hn)
  eof_kind := hreads.eof_eq ▸ h.eof_kind

end State.Global

/-- Two routines that go in tandem over global code. -/
abbrev GlobalTandem {α α' : Type} (rel : α → α' → Prop) (r : Routine α) (r' : Routine α') : Prop :=
  Tandem (Shared State.Global) rel r r'

/-- A routine that walks forward goes in tandem with itself. -/
theorem Walks.tandem {α : Type} {good : State → α → Prop} {r : Routine α}
    (hwalks : ∀ s₀, Walks s₀ r) (hforward : ∀ s₀, Forward s₀ (good s₀) r) :
    GlobalTandem Eq r r := by
  -- no name is resolved, so there is but one run, and it moves along global code
  refine Meets.tandem fun s hs => ?_
  have hstart := Along.refl s
  have hreads := Reads.refl s
  cases h : r s with
  | ok a s' =>
    exact hs.along ((hwalks s).of_ok hstart h) ((hforward s).of_ok hreads h).1
  | error e s' =>
    exact hs.along ((hwalks s).of_error hstart h) ((hforward s).of_error hreads h).1

namespace GlobalTandem

theorem peek : GlobalTandem Eq peek Reading.peek :=
  Meets.tandem (Meets.peek.to_post fun _ _ h => h.2)

theorem peekKind : GlobalTandem Eq peekKind Reading.peekKind :=
  Meets.tandem (Meets.peekKind.to_post fun _ _ h => h.2)

theorem advance : GlobalTandem Eq advance Reading.advance :=
  Meets.tandem fun _ hs => hs.advance

theorem eat (kind : Token.Kind) : GlobalTandem Eq (eat kind) (Reading.eat kind) := by
  refine Tandem.bind peekKind ?_
  rintro k _ rfl
  refine Tandem.ite (fun _ => ?_) fun _ => Tandem.pure rfl
  exact Tandem.bind advance fun _ _ h => Tandem.pure (congrArg some h)

theorem expect (kind : Token.Kind) : GlobalTandem Eq (expect kind) (Reading.expect kind) := by
  refine Tandem.bind (eat kind) ?_
  rintro o _ rfl
  cases o with
  | some t => exact Tandem.pure rfl
  | none => exact Meets.tandem (Meets.unexpected _)

theorem eats (kind : Token.Kind) :
    GlobalTandem Eq (do return (← Reading.eat kind).isSome)
      (do return (← Reading.eat kind).isSome) :=
  Tandem.bind (eat kind) fun _ _ h => Tandem.pure (congrArg _ h)

/-! ### Routines that resolve nothing -/

theorem skipBlock : GlobalTandem Eq skipBlock Reading.skipBlock :=
  Walks.tandem (fun _ => Walks.skipBlock) fun _ => Forward.skipBlock

theorem skipAttributes : GlobalTandem Eq skipAttributes Reading.skipAttributes :=
  Walks.tandem (fun _ => Walks.skipAttributes) fun _ => Forward.skipAttributes

theorem docSince (start : List Entry) :
    GlobalTandem Eq (docSince start) (Reading.docSince start) :=
  Walks.tandem (fun _ => Walks.docSince start) fun _ => Forward.docSince start

theorem comma : GlobalTandem Eq comma Reading.comma :=
  Walks.tandem (fun _ => Walks.comma) fun _ => Forward.comma

theorem commaBefore (close : Token.Kind) :
    GlobalTandem Eq (commaBefore close) (Reading.commaBefore close) :=
  Walks.tandem (fun _ => Walks.commaBefore close) fun _ => Forward.commaBefore close

theorem typeJoin : GlobalTandem Eq typeJoin Reading.typeJoin :=
  Walks.tandem (fun _ => Walks.typeJoin) fun _ => Forward.typeJoin

theorem memberName : GlobalTandem Eq memberName Reading.memberName :=
  Walks.tandem (fun _ => Walks.memberName) fun _ => Forward.memberName

theorem modifiers : GlobalTandem Eq modifiers Reading.modifiers :=
  Walks.tandem (fun _ => Walks.modifiers) fun _ => Forward.modifiers

theorem promotion : GlobalTandem Eq promotion Reading.promotion :=
  Walks.tandem (fun _ => Walks.promotion) fun _ => Forward.promotion

theorem methodEnd : GlobalTandem Eq methodEnd Reading.methodEnd :=
  Walks.tandem (fun _ => Walks.methodEnd) fun _ => Forward.methodEnd

theorem skipTo {tail : List Entry → List Entry} (htail : ∀ es, tail es <:+ es) :
    GlobalTandem Eq (skipTo tail) (Reading.skipTo tail) := by
  refine Tandem.bind (Tandem.modify ?_) fun _ _ _ => ?_
  · rintro s _ ⟨rfl, hs⟩
    exact ⟨rfl, hs.to_suffix (htail s.rest)⟩
  refine Tandem.bind peekKind ?_
  rintro k _ rfl
  split
  · exact Tandem.discard advance
  · refine Tandem.recover skipBlock (fun _ _ _ => Tandem.pure rfl) ?_
    exact fun _ => Tandem.report State.Global.report
  · exact Tandem.pure rfl

/-- A value is passed over, and its text is kept as it is written. -/
theorem initializer (source : String) (stops : List Token.Kind) :
    GlobalTandem Eq (initializer source stops) (Reading.initializer source stops) := by
  refine Meets.tandem (Meets.bind Meets.get fun a => ?_)
  dsimp only
  refine Meets.bind (Meets.set (q := State.Global) ?_) fun _ => ?_
  · rintro s ⟨rfl, h⟩
    exact h.to_suffix (splitInitializer_spec stops 0 a.rest).1
  refine Meets.ite (fun _ => Meets.throw fun _ h => h) fun _ => ?_
  split
  · exact Meets.unexpected _
  · exact Meets.pure fun _ h => h

/-! ### Declared types -/

variable {f f' : Frame}

theorem singleType (hf : Frame.Twins f f') :
    GlobalTandem TypeHint.Twins (singleType f) (Reading.singleType f') := by
  refine Tandem.bind peek ?_
  rintro t _ rfl
  split
  · refine Tandem.bind (Tandem.discard advance) fun _ _ _ => Tandem.pure ?_
    rw [hf.className_eq]
    exact TypeHint.twins_self _
  · -- the parent, which both classes have or neither
    refine Tandem.bind (Tandem.discard advance) fun _ _ _ => ?_
    obtain ⟨own, hn | _⟩ := hf
    · exact Tandem.pure (TypeHint.twins_named hn)
    · exact Tandem.throw
  · exact Tandem.bind (Tandem.discard advance) fun _ _ _ => Tandem.pure (TypeHint.twins_self _)
  · refine Tandem.bind (Tandem.discard advance) fun _ _ _ => ?_
    refine Tandem.bind Tandem.get ?_
    rintro s _ ⟨rfl, hs⟩
    -- the only words of a type that are resolved, here without a namespace and imports
    rw [hs.scope_eq]
    exact Tandem.pure (hf.typeOfName _ _)
  · exact Tandem.throw

theorem unionMember (hf : Frame.Twins f f') :
    GlobalTandem TypeHint.Twins (unionMember f) (Reading.unionMember f') := by
  refine Tandem.bind (eat _) ?_
  rintro o _ rfl
  refine Tandem.ite (fun _ => ?_) fun _ => ?_
  · refine Tandem.bind (Tandem.listOf (singleType hf) (eats _)) fun hints hints' hhints => ?_
    refine Tandem.bind (Tandem.discard (expect _)) fun _ _ _ => ?_
    exact Tandem.pure (TypeHint.twins_intersection hhints)
  · refine Tandem.bind (Tandem.listOf (singleType hf) typeJoin) ?_
    rintro hints hints' hhints
    rcases hhints with _ | ⟨hfirst, _ | ⟨hsecond, hrest⟩⟩
    · exact Tandem.pure (TypeHint.twins_self _)
    · exact Tandem.pure hfirst
    · exact Tandem.pure (TypeHint.twins_intersection (.cons hfirst (.cons hsecond hrest)))

theorem typeHint (hf : Frame.Twins f f') :
    GlobalTandem TypeHint.Twins (typeHint f) (Reading.typeHint f') := by
  refine Tandem.bind (eat _) ?_
  rintro o _ rfl
  refine Tandem.ite (fun _ => ?_) fun _ => ?_
  · exact Tandem.bind (singleType hf) fun _ _ h => Tandem.pure h.nullable
  · refine Tandem.bind (Tandem.listOf (unionMember hf) (eats _)) fun hints hints' hhints => ?_
    -- the lists are of one length, so both types are unions or neither is
    rcases hhints with _ | ⟨hfirst, _ | ⟨hsecond, hrest⟩⟩
    · exact Tandem.pure (TypeHint.twins_self _)
    · exact Tandem.pure hfirst
    · exact Tandem.pure (TypeHint.twins_union (.cons hfirst (.cons hsecond hrest)))

/-! ### Parts of members -/

variable (source : String)

theorem defaultValue? (stops : List Token.Kind) :
    GlobalTandem Eq (defaultValue? ⟨source, .verbatim⟩ stops)
      (Reading.defaultValue? ⟨source, .namespaced⟩ stops) := by
  refine Tandem.bind (eat _) ?_
  rintro o _ rfl
  refine Tandem.ite (fun _ => ?_) fun _ => Tandem.pure rfl
  exact Tandem.bind (initializer _ _) fun _ _ h => Tandem.pure (congrArg some h)

section Drafts

variable {hint hint' : Option TypeHint} {mods : Modifiers} {doc : Option String} {line : Nat}
variable {var last name closing : Token} {reference variadic promoted : Bool}
variable {value : Option String}

theorem twins_parameterOf (h : Option.Rel TypeHint.Twins hint hint') :
    ParameterDraft.Twins (parameterOf var reference variadic promoted hint value)
      (parameterOf var reference variadic promoted hint' value) :=
  ⟨parameterOf var reference variadic promoted none value, h⟩

theorem twins_promotedOf (h : Option.Rel TypeHint.Twins hint hint') :
    PropertyDraft.Twins (promotedOf var mods line hint) (promotedOf var mods line hint') :=
  ⟨promotedOf var mods line none, h⟩

theorem twins_methodOf {d d' : ClassDraft} {params params' : List ParameterDraft}
    (hd : ClassDraft.Twins d d') (hparams : List.Forall₂ ParameterDraft.Twins params params')
    (h : Option.Rel TypeHint.Twins hint hint') :
    MethodDraft.Twins (methodOf d mods doc line reference name params hint closing)
      (methodOf d' mods doc line reference name params' hint' closing) := by
  -- twins are declared with the same flags, which decide whether the method is abstract
  have hflags : d.flags = d'.flags := by
    cases hd
    rfl
  unfold methodOf
  rw [hflags]
  exact ⟨methodOf d' mods doc line reference name [] none closing, h, .some hparams⟩

theorem twins_propertyOf (h : Option.Rel TypeHint.Twins hint hint') :
    PropertyDraft.Twins (propertyOf mods hint doc line var last value)
      (propertyOf mods hint' doc line var last value) :=
  ⟨propertyOf mods none doc line var last value, h⟩

end Drafts

/-- What a parameter yields: the parameter and, if it declares one, a property. -/
abbrev ParameterTwins : ParameterDraft × Option PropertyDraft →
    ParameterDraft × Option PropertyDraft → Prop :=
  fun p p' => ParameterDraft.Twins p.1 p'.1 ∧ Option.Rel PropertyDraft.Twins p.2 p'.2

theorem write {α : Type} {rel : α → α → Prop} {span : Span} {draft draft' : α}
    {g g' : α → Except DraftError α} (hdraft : rel draft draft')
    (hg : Outcomes rel (g draft) (g' draft')) :
    GlobalTandem rel (write span draft g) (Reading.write span draft' g') :=
  Tandem.write State.Global.report hdraft hg

theorem declaredType? (hf : Frame.Twins f f') :
    GlobalTandem (Option.Rel TypeHint.Twins) (declaredType? f) (Reading.declaredType? f') := by
  refine Tandem.bind peekKind ?_
  rintro k _ rfl
  split
  case h_4 => exact Tandem.map (typeHint hf) fun _ _ => Option.Rel.some
  all_goals exact Tandem.pure .none

theorem parameter (hf : Frame.Twins f f') (doc : Option DocBlock) :
    GlobalTandem ParameterTwins (parameter ⟨source, .verbatim⟩ f doc)
      (Reading.parameter ⟨source, .namespaced⟩ f' doc) := by
  rw [parameter_eq, parameter_eq]
  refine Tandem.bind skipAttributes fun _ _ _ => ?_
  refine Tandem.bind peek ?_
  rintro first _ rfl
  refine Tandem.bind promotion ?_
  rintro mods _ rfl
  refine Tandem.bind (declaredType? hf) fun declared declared' hdeclared => ?_
  refine Tandem.bind (eat _) ?_
  rintro byReference _ rfl
  refine Tandem.bind (eat _) ?_
  rintro variadic _ rfl
  refine Tandem.bind (expect _) ?_
  rintro var _ rfl
  refine Tandem.bind (defaultValue? source _) ?_
  rintro value _ rfl
  refine Tandem.bind Tandem.get ?_
  rintro s _ ⟨rfl, hs⟩
  -- a tag of the doc comment stands in for a type that is not declared
  have hdoc := hf.documented (doc.bind (·.paramType? var.lexeme))
  rw [← hs.scope_eq] at hdoc
  have hhint := rel_or hdeclared hdoc
  refine Tandem.pure ⟨twins_parameterOf hhint, ?_⟩
  split
  · exact .none
  · exact .some (twins_promotedOf hhint)

theorem parametersOpen : GlobalTandem Eq parametersOpen Reading.parametersOpen := by
  refine Tandem.bind peek ?_
  rintro t _ rfl
  exact Tandem.ite (fun _ => Tandem.throw) fun _ => Tandem.discard advance

theorem parameterList (hf : Frame.Twins f f') (doc : Option DocBlock) :
    GlobalTandem (List.Forall₂ ParameterTwins) (parameterList ⟨source, .verbatim⟩ f doc)
      (Reading.parameterList ⟨source, .namespaced⟩ f' doc) := by
  refine Tandem.bind peekKind ?_
  rintro k _ rfl
  refine Tandem.ite (fun _ => Tandem.pure .nil) fun _ => ?_
  exact Tandem.listOf (parameter source hf doc) (commaBefore _)

theorem parameters (hf : Frame.Twins f f') (doc : Option DocBlock) :
    GlobalTandem
      (fun p p' => List.Forall₂ ParameterDraft.Twins p.1 p'.1 ∧
        List.Forall₂ PropertyDraft.Twins p.2 p'.2)
      (parameters ⟨source, .verbatim⟩ f doc) (Reading.parameters ⟨source, .namespaced⟩ f' doc) := by
  rw [parameters_eq, parameters_eq]
  refine Tandem.bind parametersOpen fun _ _ _ => ?_
  refine Tandem.bind (parameterList source hf doc) fun ps ps' hps => ?_
  refine Tandem.bind (Tandem.discard (expect _)) fun _ _ _ => Tandem.pure ⟨?_, ?_⟩
  · exact List.rel_map (fun _ _ h => h.1) hps
  · exact List.rel_filterMap (fun _ _ h => h.2) hps

/-! ### Members -/

theorem returnType (hf : Frame.Twins f f') (doc : Option DocBlock) :
    GlobalTandem (Option.Rel TypeHint.Twins) (returnType f doc) (Reading.returnType f' doc) := by
  refine Tandem.bind (eat _) ?_
  rintro o _ rfl
  refine Tandem.ite (fun _ => ?_) fun _ => ?_
  · exact Tandem.bind (typeHint hf) fun _ _ h => Tandem.pure (.some h)
  · refine Tandem.bind Tandem.get ?_
    rintro s _ ⟨rfl, hs⟩
    rw [hs.scope_eq]
    exact Tandem.pure (hf.documented _)

theorem methodDraft {d d' : ClassDraft} (hd : ClassDraft.Twins d d') (mods : Modifiers)
    (doc : Option String) (line : Nat) :
    GlobalTandem
      (fun p p' => MethodDraft.Twins p.1 p'.1 ∧ p.2.1 = p'.2.1 ∧
        List.Forall₂ PropertyDraft.Twins p.2.2 p'.2.2)
      (methodDraft ⟨source, .verbatim⟩ d mods doc line)
      (Reading.methodDraft ⟨source, .namespaced⟩ d' mods doc line) := by
  have hframe := Frame.Twins.of_drafts source hd
  rw [methodDraft_eq, methodDraft_eq]
  refine Tandem.bind (Tandem.discard (expect _)) fun _ _ _ => ?_
  refine Tandem.bind (eat _) ?_
  rintro reference _ rfl
  refine Tandem.bind memberName ?_
  rintro name _ rfl
  refine Tandem.bind (parameters source hframe _) ?_
  rintro ⟨params, promoted⟩ ⟨params', promoted'⟩ ⟨hparams, hpromoted⟩
  refine Tandem.bind (returnType hframe _) fun hint hint' hhint => ?_
  refine Tandem.bind methodEnd ?_
  rintro closing _ rfl
  exact Tandem.pure ⟨twins_methodOf hd hparams hhint, rfl, hpromoted⟩

theorem propertyDraft {hint hint' : Option TypeHint} (hhint : Option.Rel TypeHint.Twins hint hint')
    (mods : Modifiers) (doc : Option String) (line : Nat) :
    GlobalTandem (fun p p' => PropertyDraft.Twins p.1 p'.1 ∧ p.2 = p'.2)
      (propertyDraft ⟨source, .verbatim⟩ mods hint doc line)
      (Reading.propertyDraft ⟨source, .namespaced⟩ mods hint' doc line) := by
  rw [propertyDraft_eq, propertyDraft_eq]
  refine Tandem.bind (expect _) ?_
  rintro var _ rfl
  refine Tandem.bind (defaultValue? source _) ?_
  rintro value _ rfl
  exact Tandem.pure ⟨twins_propertyOf hhint, rfl⟩

theorem constantDraft {hint hint' : Option TypeHint} (hhint : Option.Rel TypeHint.Twins hint hint')
    (mods : Modifiers) :
    GlobalTandem (fun p p' => Constant.Twins p.1 p'.1 ∧ p.2 = p'.2)
      (constantDraft ⟨source, .verbatim⟩ mods hint)
      (Reading.constantDraft ⟨source, .namespaced⟩ mods hint') := by
  refine Tandem.bind memberName ?_
  rintro name _ rfl
  refine Tandem.bind (Tandem.discard (expect _)) fun _ _ _ => ?_
  refine Tandem.bind (initializer source _) ?_
  rintro ⟨value, last⟩ _ rfl
  refine Tandem.pure ⟨?_, rfl⟩
  -- modifiers say nothing of types
  exact ⟨Constant.withModifiers
    { name := name.lexeme, value, typeHint := none, line := name.span.line } mods, hhint⟩

end GlobalTandem

/-! ### Bodies -/

/-- **Twin bodies.** Both readers stand at the same place of global code, with twin classes. -/
inductive Body.Twins : Body → Body → Prop
  | mk {s : State} (hs : s.Global) {d d' : ClassDraft} (hd : ClassDraft.Twins d d') :
      Twins ⟨s, d⟩ ⟨s, d'⟩

/-- Two routines that go in tandem over global code and add twins to twins. -/
abbrev BodyTandem {α α' : Type} (rel : α → α' → Prop) (r : BodyRoutine α) (r' : BodyRoutine α') :
    Prop :=
  Tandem Body.Twins rel r r'

namespace BodyTandem

variable {α α' : Type} {rel : α → α' → Prop} (source : String)

theorem reading {r : Routine α} {r' : Routine α'} (hr : GlobalTandem rel r r') :
    BodyTandem rel (reading r) (Reading.reading r') := by
  rintro _ _ ⟨hs, hd⟩
  rename_i s d d'
  unfold Reading.reading
  cases h : r s with
  | ok a t =>
    obtain ⟨a', t', h', ⟨rfl, ht⟩, ha⟩ := hr.of_ok ⟨rfl, hs⟩ h
    rw [h']
    exact ⟨⟨ht, hd⟩, ha⟩
  | error e t =>
    obtain ⟨t', h', ⟨rfl, ht⟩⟩ := hr.of_error ⟨rfl, hs⟩ h
    rw [h']
    exact ⟨⟨ht, hd⟩, rfl⟩

theorem adding {span : Span} {g g' : ClassDraft → Except DraftError ClassDraft}
    (hg : ∀ d d', ClassDraft.Twins d d' → Outcomes ClassDraft.Twins (g d) (g' d')) :
    BodyTandem Eq (adding span g) (Reading.adding span g') := by
  refine Tandem.bind Tandem.get ?_
  rintro _ _ ⟨hs, hd⟩
  refine Tandem.bind (reading (GlobalTandem.write hd (hg _ _ hd))) fun d d' hd => ?_
  refine Tandem.modify ?_
  rintro _ _ ⟨hs, -⟩
  exact ⟨hs, hd⟩

theorem method (mods : Modifiers) (doc : Option String) (line : Nat) :
    BodyTandem Eq (method ⟨source, .verbatim⟩ mods doc line)
      (Reading.method ⟨source, .namespaced⟩ mods doc line) := by
  refine Tandem.bind Tandem.get ?_
  rintro _ _ ⟨hs, hd⟩
  refine Tandem.bind (reading (GlobalTandem.methodDraft source hd mods doc line)) ?_
  rintro ⟨m, name, promoted⟩ ⟨m', name', promoted'⟩ ⟨hm, rfl, hpromoted⟩
  refine Tandem.bind (adding fun _ _ hd => hd.addMethod hm) fun _ _ _ => ?_
  refine Tandem.ite (fun _ => ?_) fun _ => Tandem.pure rfl
  exact Tandem.forM hpromoted fun p p' hp => adding fun _ _ hd => hd.addProperty hp

/-- Both readers have as many tokens ahead, so a repetition has as many rounds for both. -/
theorem iterate {β : Type} {step step' : β → BodyRoutine (ForInStep β)}
    (hstep : ∀ b, BodyTandem (Rounds Eq) (step b) (step' b)) (b : β) :
    BodyTandem Eq (iterate Body.size step b) (Reading.iterate Body.size step' b) := by
  refine Tandem.iterate ?_ (fun b _ hb => hb ▸ hstep b) rfl
  rintro _ _ ⟨hs, hd⟩
  rfl

theorem properties {declared declared' : Option TypeHint}
    (hdeclared : Option.Rel TypeHint.Twins declared declared') (mods : Modifiers)
    (doc : Option String) (line : Nat) :
    BodyTandem Eq (properties ⟨source, .verbatim⟩ mods declared doc line)
      (Reading.properties ⟨source, .namespaced⟩ mods declared' doc line) := by
  refine Tandem.bind Tandem.get ?_
  rintro _ _ ⟨hs, hd⟩
  rename_i s d d'
  extract_lets documented hint hint'
  have hhint : Option.Rel TypeHint.Twins hint hint' := by
    have hdoc := (Frame.Twins.of_drafts source hd).documented documented
    rw [← hs.scope_eq] at hdoc
    exact rel_or hdeclared hdoc
  refine Tandem.bind (Tandem.discard (iterate ?_ _)) fun _ _ _ =>
    Tandem.discard (reading (GlobalTandem.expect _))
  -- one variable
  rintro ⟨doc, line⟩
  refine Tandem.bind (reading (GlobalTandem.propertyDraft source hhint mods doc line)) ?_
  rintro ⟨p, span⟩ ⟨p', span'⟩ ⟨hp, rfl⟩
  refine Tandem.bind (adding fun _ _ hd => hd.addProperty hp) fun _ _ _ => ?_
  refine Tandem.bind (reading GlobalTandem.comma) ?_
  rintro more _ rfl
  refine Tandem.ite (fun _ => ?_) fun _ => Tandem.pure rfl
  refine Tandem.bind Tandem.get ?_
  rintro _ _ ⟨hs, hd⟩
  exact Tandem.pure rfl

/-- Constants of one statement share the type in front of them, if there is one. -/
theorem constantType? {s : State} {d d' : ClassDraft} (hd : ClassDraft.Twins d d') :
    BodyTandem (Option.Rel TypeHint.Twins) (constantType? ⟨source, .verbatim⟩ ⟨s, d⟩)
      (Reading.constantType? ⟨source, .namespaced⟩ ⟨s, d'⟩) := by
  refine Tandem.ite (fun _ => Tandem.pure .none) fun _ => ?_
  have htype := GlobalTandem.typeHint (Frame.Twins.of_drafts source hd)
  exact Tandem.map (reading htype) fun _ _ => Option.Rel.some

theorem constants (mods : Modifiers) :
    BodyTandem Eq (constants ⟨source, .verbatim⟩ mods)
      (Reading.constants ⟨source, .namespaced⟩ mods) := by
  rw [constants_eq, constants_eq]
  refine Tandem.bind (Tandem.discard (reading (GlobalTandem.expect _))) fun _ _ _ => ?_
  refine Tandem.bind Tandem.get ?_
  rintro _ _ ⟨hs, hd⟩
  refine Tandem.bind (constantType? source hd) fun hint hint' hhint => ?_
  refine Tandem.bind (Tandem.discard (iterate ?_ _)) fun _ _ _ =>
    Tandem.discard (reading (GlobalTandem.expect _))
  intro _
  refine Tandem.bind (reading (GlobalTandem.constantDraft source hhint mods)) ?_
  rintro ⟨c, span⟩ ⟨c', span'⟩ ⟨hc, rfl⟩
  refine Tandem.bind (adding fun _ _ hd => hd.addConstant hc) fun _ _ _ => ?_
  refine Tandem.bind (reading GlobalTandem.comma) ?_
  rintro more _ rfl
  cases more <;> exact Tandem.pure rfl

theorem modifiedMember (mods : Modifiers) (doc : Option String) (line : Nat) :
    BodyTandem Eq (modifiedMember ⟨source, .verbatim⟩ mods doc line)
      (Reading.modifiedMember ⟨source, .namespaced⟩ mods doc line) := by
  refine Tandem.bind Tandem.get ?_
  rintro _ _ ⟨hs, hd⟩
  refine Tandem.ite (fun _ => method source mods doc line) fun _ => ?_
  refine Tandem.ite (fun _ => constants source mods) fun _ => ?_
  refine Tandem.ite (fun _ => properties source .none mods doc line) fun _ => ?_
  refine Tandem.ite (fun _ => ?_) fun _ => Tandem.throw
  refine Tandem.bind Tandem.get ?_
  rintro _ _ ⟨hs, hd⟩
  refine Tandem.bind (reading (GlobalTandem.typeHint (Frame.Twins.of_drafts source hd))) ?_
  intro hint hint' hhint
  exact properties source (.some hhint) mods doc line

theorem member :
    BodyTandem Eq (member ⟨source, .verbatim⟩) (Reading.member ⟨source, .namespaced⟩) := by
  refine Tandem.bind Tandem.get ?_
  rintro _ _ ⟨hs, hd⟩
  refine Tandem.bind (reading GlobalTandem.skipAttributes) fun _ _ _ => ?_
  refine Tandem.bind Tandem.get ?_
  rintro _ _ ⟨hs, hd⟩
  dsimp only
  split
  · refine reading (Tandem.bind (Tandem.discard GlobalTandem.advance) fun _ _ _ => ?_)
    exact GlobalTandem.skipTo (statementEnd_suffix 0)
  · exact Tandem.discard (reading GlobalTandem.advance)
  · refine Tandem.bind (reading (GlobalTandem.docSince _)) ?_
    rintro doc _ rfl
    refine Tandem.bind Tandem.get ?_
    rintro _ _ ⟨hs, hd⟩
    refine Tandem.bind (reading GlobalTandem.modifiers) ?_
    rintro mods _ rfl
    exact modifiedMember source mods doc _

theorem memberOrRecover :
    BodyTandem Eq (memberOrRecover ⟨source, .verbatim⟩)
      (Reading.memberOrRecover ⟨source, .namespaced⟩) := by
  refine Tandem.bind Tandem.get ?_
  rintro _ _ ⟨hs, hd⟩
  extract_lets before
  -- a member that takes no token is passed over
  have hbehind : BodyTandem Eq
      (do if (← get).rest.length = before then discard (Reading.reading Reading.advance))
      (do if (← get).rest.length = before then discard (Reading.reading Reading.advance)) := by
    refine Tandem.bind Tandem.get ?_
    rintro _ _ ⟨hs, hd⟩
    refine Tandem.ite (fun _ => ?_) fun _ => Tandem.pure rfl
    exact Tandem.discard (reading GlobalTandem.advance)
  refine Tandem.recover (member source) (fun _ _ _ => hbehind) fun e => ?_
  have hskip : GlobalTandem Eq (do report e; recoverMember) (do report e; recoverMember) :=
    Tandem.bind (Tandem.report State.Global.report) fun _ _ _ =>
      GlobalTandem.skipTo fun _ => List.dropWhile_suffix _
  exact Tandem.bind (reading hskip) fun _ _ _ => hbehind

theorem classBody :
    BodyTandem Eq (classBody ⟨source, .verbatim⟩) (Reading.classBody ⟨source, .namespaced⟩) := by
  refine iterate (fun _ => ?_) ()
  refine Tandem.bind Tandem.get ?_
  rintro _ _ ⟨hs, hd⟩
  dsimp only
  split
  · exact Tandem.pure rfl
  · exact Tandem.pure rfl
  · exact Tandem.bind (memberOrRecover source) fun _ _ _ => Tandem.pure rfl

end BodyTandem

end Reading

end Introspect
