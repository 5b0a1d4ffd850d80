import Introspect.Proofs.Reading.DocumentedMembers
import Introspect.Proofs.Reading.TypeSources

/-!
# The types of members

Every type of a member is written for it: declared among the tokens of the member itself, at the
place where the grammar has it, or documented in the doc comment of the member.

* `TypeSite` is what a type is for, and `TypeWords` are the words that are written for it, in the
  tokens between the beginning of the member and its end;
* `SourcedIn` says of a type that its leaves stand for such words. What is written for a member that
  goes on is still written for it when more has been read (`SourcedIn.mono`);
* `parameter_sourced`, `methodDraft_sourced`, `propertyDraft_sourced` and so on follow the routines.
  Of the type of a declaration it is known that it may be offered to every property or constant that
  comes next (`OffersProperty`, `OffersConstant`).
-/

namespace Introspect.Reading

/-! ### What types are for -/

/-- **What a type is for:** a constant, a property, the value that a method returns or one of its
parameters. -/
inductive TypeSite where
  | constant (name : String)
  | property (name : String)
  | returned (method : String)
  | parameter (method name : String)
  deriving DecidableEq, Repr

/-- Whether the class has got the member. -/
def TypeSite.isIn (d : ClassDraft) : TypeSite → Bool
  | constant name => d.constants.any (·.name == name)
  | property name => d.hasProperty name
  | returned method | parameter method _ => d.hasMethod method

/-- The doc comment says the type word. Parameters are documented for their method, and for the
properties that they declare. -/
def TypeSite.HasTypeWord (b : DocBlock) (word : String) : TypeSite → Prop
  | constant _ => False
  | property name => b.varType? = some word ∨ b.paramType? name = some word
  | returned _ => b.returnType? = some word
  | parameter _ name => b.paramType? name = some word

/-- Behind ampersands and dots, if there are any, the variable of this name is next. -/
def VariableNext (name : String) (behind rest : List Entry) : Prop :=
  ∃ marks v tail, behind = marks ++ v :: tail ∧ rest <:+ tail ∧
    (∀ m ∈ marks, m.kind = .amp ∨ m.kind = .ellipsis) ∧ v.kind = .variableName ∧
    Text.dropOne '$' v.token.lexeme = name

/-- **Where a type is declared,** between `front` and `behind`. The member ends in front of
`rest`. -/
inductive TypeSite.Declared (front behind rest : List Entry) : TypeSite → Prop where
  /-- Behind the word `const`, in front of the name. -/
  | constant {e : Entry} {tail : List Entry} (hfront : [.constWord] <:+ front.map (·.kind))
    (hname : e :: tail <:+ behind) (hrest : rest <:+ tail) :
    Declared front behind rest (.constant e.token.lexeme)
  /-- In front of the first variable of a declaration, which counts for all of them. -/
  | property {v : Entry} {tail : List Entry} (hfirst : ∃ e ∈ behind.head?, e.kind = .variableName)
    (hvariable : v :: tail <:+ behind) (hrest : rest <:+ tail) (hk : v.kind = .variableName) :
    Declared front behind rest (.property (Text.dropOne '$' v.token.lexeme))
  /-- In front of the parameter that declares the property. -/
  | promoted {name : String} (h : VariableNext name behind rest) :
    Declared front behind rest (.property name)
  /-- Behind the parameters and a colon. -/
  | returned {method : String} (hfront : [.rightParen, .colon] <:+ front.map (·.kind)) :
    Declared front behind rest (.returned method)
  /-- In front of the variable. -/
  | parameter {method name : String} (h : VariableNext name behind rest) :
    Declared front behind rest (.parameter method name)

/-- The doc comment of the member that begins at `b`, the last one in front of its first token
behind attributes. -/
def Body.HasDoc (b : Body) (raw : String) : Prop :=
  ∃ first, Yields skipAttributes b.toState () first ∧ b.docAt first = some raw

/-- **The words of a type,** as the member that begins at `b` and ends in front of `rest` has them:
those of a type that is declared in its tokens, or those of a type in its doc comment. -/
inductive TypeWords (b : Body) (rest : List Entry) (site : TypeSite) : List String → Prop where
  | declared {front l behind : List Entry} (h : WrittenAt b.rest front l behind)
    (hrest : rest <:+ behind) (hsite : site.Declared front behind rest) :
    TypeWords b rest site ((typeWords l).map (·.lexeme))
  | documented {raw word : String} (hdoc : b.HasDoc raw)
    (hword : site.HasTypeWord (DocBlock.parse raw) word) :
    TypeWords b rest site (docWords word)

/-- **Written types.** If there is a type, its leaves stand for words that are written for it, read
in one of the scopes in question. -/
def SourcedIn (b : Body) (rest : List Entry) (P : Scope → Prop) (f : Frame) (site : TypeSite)
    (hint : Option TypeHint) : Prop :=
  ∀ h ∈ hint, ∃ scope words, P scope ∧ TypeWords b rest site words ∧
    List.Forall₂ (f.Denotes scope) words h.leaves

section Sites

variable {b : Body} {front behind rest rest' : List Entry} {P : Scope → Prop} {f : Frame}
  {site : TypeSite} {hint hint' : Option TypeHint} {words : List String} {name : String}

theorem VariableNext.mono (h : VariableNext name behind rest) (hrest : rest' <:+ rest) :
    VariableNext name behind rest' := by
  obtain ⟨marks, v, tail, heq, htail, h⟩ := h
  exact ⟨marks, v, tail, heq, hrest.trans htail, h⟩

theorem TypeSite.Declared.mono (h : site.Declared front behind rest) (hrest : rest' <:+ rest) :
    site.Declared front behind rest' := by
  cases h with
  | constant hfront hname htail => exact .constant hfront hname (hrest.trans htail)
  | property hfirst hvariable htail hk => exact .property hfirst hvariable (hrest.trans htail) hk
  | promoted h => exact .promoted (h.mono hrest)
  | returned hfront => exact .returned hfront
  | parameter h => exact .parameter (h.mono hrest)

/-- A member that goes on still has the words. -/
theorem TypeWords.mono (h : TypeWords b rest site words) (hrest : rest' <:+ rest) :
    TypeWords b rest' site words := by
  cases h with
  | declared h hbehind hsite => exact .declared h (hrest.trans hbehind) (hsite.mono hrest)
  | documented hdoc hword => exact .documented hdoc hword

theorem SourcedIn.mono (h : SourcedIn b rest P f site hint) (hrest : rest' <:+ rest) :
    SourcedIn b rest' P f site hint := by
  intro t ht
  obtain ⟨scope, words, hscope, hwords, hleaves⟩ := h t ht
  exact ⟨scope, words, hscope, hwords.mono hrest, hleaves⟩

theorem sourcedIn_none : SourcedIn b rest P f site none := nofun

theorem SourcedIn.or (h : SourcedIn b rest P f site hint) (h' : SourcedIn b rest P f site hint') :
    SourcedIn b rest P f site (hint.or hint') := by
  cases hint with
  | none => exact h'
  | some t => exact h

theorem DeclaredType.sourcedIn {kinds : List Token.Kind} {t : TypeHint}
    (h : DeclaredType b.rest P f kinds t behind) (hrest : rest <:+ behind)
    (hsite : ∀ front, kinds <:+ front.map (·.kind) → site.Declared front behind rest) :
    SourcedIn b rest P f site (some t) := by
  obtain ⟨scope, front, l, hscope, hwritten, hkinds, hleaves⟩ := h
  rintro t' ht
  rw [← Option.mem_some.mp ht]
  exact ⟨scope, _, hscope, .declared hwritten hrest (hsite front hkinds), hleaves⟩

/-- **Documented types** are written in the doc comment of the member. -/
theorem sourcedIn_documented {raw : Option String} {word? : DocBlock → Option String}
    {scope : Scope} (hscope : P scope) (hraw : ∀ r ∈ raw, b.HasDoc r)
    (hword : ∀ bl word, word? bl = some word → site.HasTypeWord bl word) :
    SourcedIn b rest P f site (((raw.map DocBlock.parse).bind word?).bind (f.docType? scope)) := by
  intro t ht
  obtain ⟨word, hsome, htype⟩ := Option.bind_eq_some_iff.mp ht
  obtain ⟨bl, hbl, hblword⟩ := Option.bind_eq_some_iff.mp hsome
  obtain ⟨r, hr, rfl⟩ := Option.map_eq_some_iff.mp hbl
  exact ⟨scope, _, hscope, .documented (hraw r hr) (hword _ word hblword),
    Frame.docType?_denotes htype⟩

end Sites

/-! ### Tokens of members -/

/-- The token has been consumed, and of the tokens that remained with it `I` is known. -/
def Consumed (I : List Entry → Prop) (t : Token) (s : State) : Prop :=
  ∃ e : Entry, e.token = t ∧ I (e :: s.rest)

section Tokens

variable {es behind : List Entry} {P : Scope → Prop} {kind : Token.Kind} {I : List Entry → Prop}
  {s : State} {bad : Diagnostic → State → Prop}

theorem At.consumed (h : At es P s) (hend : s.peek.kind ≠ .endOfText) (hI : I s.rest) :
    At es P s.advance ∧ Consumed I s.peek s.advance := by
  cases hrest : s.rest with
  | nil => exact absurd (State.peek_of_rest_nil hrest ▸ h.within.eof_kind) hend
  | cons e rest =>
    refine ⟨(h.behind_nil.advance hend).toAt, e, (State.peek_of_rest hrest).symm, ?_⟩
    rw [State.rest_advance, hrest, List.tail_cons, ← hrest]
    exact hI

theorem Consumed.eat (hend : kind ≠ .endOfText) :
    Meets (fun s => At es P s ∧ I s.rest) (eat kind)
      (fun
        | none => fun s => At es P s ∧ I s.rest
        | some t => fun s => t.kind = kind ∧ At es P s ∧ Consumed I t s) bad := by
  rintro s ⟨hs, hI⟩
  by_cases hk : s.peek.kind = kind
  · rw [Yields.eat hk]
    exact ⟨hk, hs.consumed (hk ▸ hend) hI⟩
  · rw [Yields.eat_none hk]
    exact ⟨hs, hI⟩

theorem Consumed.expect (hend : kind ≠ .endOfText) :
    Meets (fun s => At es P s ∧ I s.rest) (expect kind)
      (fun t s => t.kind = kind ∧ At es P s ∧ Consumed I t s) (fun _ => At es P) := by
  refine Meets.bind (Consumed.eat hend) fun o => ?_
  cases o with
  | none => exact (Meets.unexpected _).weaken (fun _ h => h.1) (fun _ _ h => h) fun _ _ h => h
  | some t => exact Meets.pure fun _ h => h

theorem Consumed.memberName :
    Meets (fun s => At es P s ∧ I s.rest) memberName (fun t s => At es P s ∧ Consumed I t s)
      (fun _ => At es P) := by
  refine Meets.bind Meets.peek fun t => Meets.ite (fun hk => ?_) fun _ => ?_
  · rintro s ⟨rfl, hs, hI⟩
    refine hs.consumed (fun hend => ?_) hI
    rw [hend] at hk
    exact absurd hk (by decide)
  · exact Meets.unexpectedName.weaken (fun _ h => h.2.1) (fun _ _ h => h) fun _ _ h => h

/-- Between `behind` and what remains there are only ampersands and dots. -/
def OnlyMarks (behind rest : List Entry) : Prop :=
  ∃ marks, behind = marks ++ rest ∧ ∀ m ∈ marks, m.kind = .amp ∨ m.kind = .ellipsis

theorem OnlyMarks.eat (hk : kind = .amp ∨ kind = .ellipsis) :
    Meets (fun s => At es P s ∧ OnlyMarks behind s.rest) (eat kind)
      (fun _ s => At es P s ∧ OnlyMarks behind s.rest) bad := by
  have hend : kind ≠ .endOfText := by rcases hk with rfl | rfl <;> decide
  refine (Consumed.eat hend).to_post ?_
  rintro (- | t) s h
  · exact h
  · -- the mark that has been consumed is one more in between
    obtain ⟨htk, hs, e, rfl, marks, heq, hmarks⟩ := h
    refine ⟨hs, marks ++ [e], by rw [heq, List.append_assoc]; rfl, ?_⟩
    have he : e.kind = kind := htk
    exact List.forall_mem_append.mpr ⟨hmarks, List.forall_mem_singleton.mpr (he ▸ hk)⟩

theorem OnlyMarks.expectVariable :
    Meets (fun s => At es P s ∧ OnlyMarks behind s.rest) (expect .variableName)
      (fun t s => At es P s ∧ VariableNext (Text.dropOne '$' t.lexeme) behind s.rest)
      (fun _ => At es P) := by
  refine (Consumed.expect (by decide)).to_post ?_
  rintro t s ⟨hk, hs, e, rfl, marks, heq, hmarks⟩
  exact ⟨hs, marks, e, s.rest, heq, List.suffix_refl _, hmarks, hk, rfl⟩

/-- What is known of a member that goes on is known when more of it has been read. -/
theorem stable_rest (hI : ∀ rest rest', rest' <:+ rest → I rest → I rest') :
    Stable fun s => I s.rest :=
  fun _ _ h hreads => hI _ _ hreads.suffix h

/-- A routine that may begin anywhere keeps what is known of a member that goes on. -/
theorem KeepsAt.known {α : Type} {r : Routine α} {good : State → α → Prop}
    (hr : KeepsAt es P r) (hforward : ∀ s, Forward s (good s) r)
    (hI : ∀ rest rest', rest' <:+ rest → I rest → I rest') :
    Meets (fun s => At es P s ∧ I s.rest) r (fun _ s => At es P s ∧ I s.rest)
      (fun _ => At es P) :=
  ((stable_rest hI).frame hforward hr).weaken (fun _ h => h) (fun _ _ h => h) fun _ _ h => h.1

end Tokens

/-! ### Parameters and methods -/

section Methods

variable {text : String} {b : Body} {P : Scope → Prop} {f : Frame} {cfg : Setting}
  {raw : Option String}

/-- The types of a parameter and of the property that it declares are written. -/
def SourcedParameter (b : Body) (rest : List Entry) (P : Scope → Prop) (f : Frame) (method : String)
    (r : ParameterDraft × Option PropertyDraft) : Prop :=
  SourcedIn b rest P f (.parameter method r.1.name) r.1.typeHint ∧
    ∀ q ∈ r.2, SourcedIn b rest P f (.property q.name) q.typeHint

theorem SourcedParameter.stable {method : String}
    (ps : List (ParameterDraft × Option PropertyDraft)) :
    Stable fun s => ∀ r ∈ ps, SourcedParameter b s.rest P f method r := fun _ _ h hreads r hr =>
  ⟨(h r hr).1.mono hreads.suffix, fun q hq => ((h r hr).2 q hq).mono hreads.suffix⟩

/-- The types of parameters and of the properties that they declare are written. -/
def SourcedParameters (b : Body) (rest : List Entry) (P : Scope → Prop) (f : Frame)
    (method : String) (r : List ParameterDraft × List PropertyDraft) : Prop :=
  (∀ p ∈ r.1, SourcedIn b rest P f (.parameter method p.name) p.typeHint) ∧
    ∀ q ∈ r.2, SourcedIn b rest P f (.property q.name) q.typeHint

theorem SourcedParameters.stable {method : String} {r : List ParameterDraft × List PropertyDraft} :
    Stable fun s => SourcedParameters b s.rest P f method r := fun _ _ h hreads =>
  ⟨fun p hp => (h.1 p hp).mono hreads.suffix, fun q hq => (h.2 q hq).mono hreads.suffix⟩

/-- The types of a method are written. -/
def SourcedMethod (b : Body) (rest : List Entry) (P : Scope → Prop) (f : Frame) (m : MethodDraft) :
    Prop :=
  SourcedIn b rest P f (.returned m.name) m.returnType ∧
    ∀ p ∈ m.parameters.getD [], SourcedIn b rest P f (.parameter m.name p.name) p.typeHint

/-- What a doc comment says of a parameter, it says of its name without the dollar sign. -/
theorem paramType?_dropOne (bl : DocBlock) (v : String) :
    bl.paramType? (Text.dropOne '$' v) = bl.paramType? v := by
  have hsame : Text.dropLeading '$' (Text.dropOne '$' v) = Text.dropLeading '$' v := by
    unfold Text.dropLeading Text.dropOne
    cases hv : v.toList with
    | nil => rw [hv]
    | cons c cs =>
      dsimp only
      split_ifs with hc
      · rw [String.toList_ofList, hc, List.dropWhile_cons_of_pos (by simp)]
      · rw [hv]
  rw [DocBlock.paramType?, hsame]
  rfl

/-- Behind the parenthesis in front of parameters a type may be written. -/
theorem parametersOpen_atType {es : List Entry} :
    Meets (At es P) parametersOpen (fun _ => AtType es P) (fun _ => At es P) := by
  refine Meets.bind Meets.peek fun t => ?_
  refine Meets.ite (fun _ => Meets.throw fun _ h => h.2) fun hparen => ?_
  refine Meets.discard (AtType.advance (fun _ h => h.2) ?_)
  rintro s ⟨rfl, -⟩
  rw [not_not.mp hparen]
  decide

section Parameters

variable (hes : b.rest <:+ entriesOf text)

include hes

theorem declaredType?_read (f : Frame) :
    Meets (AtType b.rest P) (declaredType? f)
      (fun hint s => At b.rest P s ∧ ∀ t ∈ hint, DeclaredType b.rest P f [] t s.rest)
      (fun _ => At b.rest P) := by
  refine Meets.bind Meets.peekKind fun kind => Meets.of_pre ?_ fun _ h => h.2
  split
  case h_4 =>
    refine Meets.map ((typeHint_read hes f []).of_pre fun _ h => ⟨h, h.toAt.behind_nil⟩) ?_
    rintro t s ⟨hs, h⟩
    exact ⟨hs, fun t' ht => Option.mem_some.mp ht ▸ h⟩
  all_goals exact Meets.pure fun _ h => ⟨h.toAt, nofun⟩

variable (hraw : ∀ r ∈ raw, b.HasDoc r)

include hraw

/-- **Parameters.** The type is declared in front of the variable, or documented in front of the
method. -/
theorem parameter_sourced (method : String) :
    Meets (AtType b.rest P) (parameter cfg f (raw.map DocBlock.parse))
      (fun r s => At b.rest P s ∧ SourcedParameter b s.rest P f method r)
      (fun _ => At b.rest P) := by
  rw [parameter_eq]
  refine Meets.bind AtType.skipAttributes fun _ => ?_
  refine Meets.bind Meets.peek fun first => ?_
  refine Meets.bind (AtType.promotion.of_pre fun _ h => h.2) fun mods => ?_
  refine Meets.bind (declaredType?_read hes f) fun declared => Meets.of_each fun s₁ h₁ => ?_
  obtain ⟨hs₁, hdeclared⟩ := h₁
  -- between the type and the variable there are only marks
  have hamp : Meets (fun s => s = s₁) (eat .amp)
      (fun _ s => At b.rest P s ∧ OnlyMarks s₁.rest s.rest) (fun _ => At b.rest P) := by
    refine (OnlyMarks.eat (.inl rfl)).of_pre ?_
    rintro _ rfl
    exact ⟨hs₁, [], rfl, nofun⟩
  refine Meets.bind hamp fun _ => ?_
  refine Meets.bind (OnlyMarks.eat (.inr rfl)) fun _ => ?_
  refine Meets.bind OnlyMarks.expectVariable fun var => ?_
  refine Meets.bind (KeepsAt.known (KeepsAt.of_walks (fun _ => Forward.defaultValue? _ _)
    fun _ => Walks.defaultValue? (by simp [valueStops])) (fun _ => Forward.defaultValue? _ _)
    fun _ _ hrest h => h.mono hrest) fun value => ?_
  refine Meets.bind Meets.get fun s => Meets.pure ?_
  rintro _ ⟨rfl, hs, hvar⟩
  -- a type that is not declared is documented
  have hsourced : ∀ site : TypeSite, (∀ front, site.Declared front s₁.rest s.rest) →
      (∀ (bl : DocBlock) word, bl.paramType? var.lexeme = some word → site.HasTypeWord bl word) →
      SourcedIn b s.rest P f site (declared.or (((raw.map DocBlock.parse).bind
        (·.paramType? var.lexeme)).bind (f.docType? s.scope))) := by
    intro site hsite hword
    refine SourcedIn.or (fun t ht => ?_) (sourcedIn_documented hs.scope hraw hword)
    obtain ⟨marks, v, tail, heq, htail, -⟩ := id hvar
    refine (hdeclared t ht).sourcedIn ?_ (fun front _ => hsite front) t rfl
    rw [heq]
    exact htail.trans ((List.suffix_cons v tail).trans (List.suffix_append marks _))
  refine ⟨hs, hsourced _ (fun _ => .parameter hvar) fun bl word h => ?_, fun q hq => ?_⟩
  · exact (paramType?_dropOne bl _).trans h
  · obtain ⟨-, rfl⟩ := mem_promoted.mp hq
    exact hsourced _ (fun _ => .promoted hvar) fun bl word h =>
      .inr ((paramType?_dropOne bl _).trans h)

theorem parameterList_sourced (method : String) :
    Meets (AtType b.rest P) (parameterList cfg f (raw.map DocBlock.parse))
      (fun ps s => At b.rest P s ∧ ∀ r ∈ ps, SourcedParameter b s.rest P f method r)
      (fun _ => At b.rest P) := by
  refine Meets.bind Meets.peekKind fun _ => Meets.of_pre ?_ fun _ h => h.2
  refine Meets.ite (fun _ => Meets.pure fun _ h => ⟨h.toAt, by simp⟩) fun _ => ?_
  -- what has been read stays written while the next parameter is read
  refine (AtType.listOf_known (I := fun ps s => ∀ r ∈ ps, SourcedParameter b s.rest P f method r)
    (fun ps => ?_) fun ps => ?_).of_pre fun _ h => ⟨h, by simp⟩
  · refine ((SourcedParameter.stable ps).frame (fun _ => Forward.parameter _ _ _)
      (parameter_sourced hes hraw method)).weaken (fun _ h => h) ?_ fun _ _ h => h.1
    rintro r s ⟨⟨hs, hr⟩, hps⟩
    exact ⟨hs, List.forall_mem_append.mpr ⟨hps, List.forall_mem_singleton.mpr hr⟩⟩
  · exact ((SourcedParameter.stable ps).frame (fun _ => Forward.commaBefore _)
      (AtType.commaBefore _)).weaken (fun _ h => h) (fun _ _ h => h) fun _ _ h => h.1

theorem parameters_sourced (method : String) :
    Meets (At b.rest P) (parameters cfg f (raw.map DocBlock.parse))
      (fun r s => AtBehind b.rest P [.rightParen] s ∧ SourcedParameters b s.rest P f method r)
      (fun _ => At b.rest P) := by
  rw [parameters_eq]
  refine Meets.bind parametersOpen_atType fun _ => ?_
  refine Meets.bind (parameterList_sourced hes hraw method) fun ps => ?_
  have hclose : Meets (AtBehind b.rest P []) (expect .rightParen)
      (fun _ => AtBehind b.rest P [.rightParen]) (fun _ => At b.rest P) :=
    AtBehind.expect (by decide)
  refine Meets.bind (Meets.discard (((SourcedParameter.stable ps).frame
    (fun _ => Forward.expect _) hclose).weaken (fun _ h => ⟨h.1.behind_nil, h.2⟩)
      (fun _ _ h => h) fun _ _ h => h.1)) fun _ => ?_
  refine Meets.pure fun s h => ⟨h.1, fun p hp => ?_, fun q hq => ?_⟩
  · obtain ⟨r, hr, rfl⟩ := List.mem_map.mp hp
    exact (h.2 r hr).1
  · obtain ⟨r, hr, hrq⟩ := List.mem_filterMap.mp hq
    exact (h.2 r hr).2 q hrq

theorem returnType_sourced (method : String) :
    Meets (AtBehind b.rest P [.rightParen]) (returnType f (raw.map DocBlock.parse))
      (fun hint s => At b.rest P s ∧ SourcedIn b s.rest P f (.returned method) hint)
      (fun _ => At b.rest P) := by
  refine Meets.bind (AtBehind.eat (by decide)) fun o => ?_
  refine Meets.ite (fun hsome => ?_) fun hnone => ?_
  · simp only [hsome, if_true]
    refine Meets.bind ((typeHint_read hes f [.rightParen, .colon]).of_pre fun _ h =>
      ⟨h.atType rfl, h⟩) fun hint => ?_
    exact Meets.pure fun s h => ⟨h.1, h.2.sourcedIn (List.suffix_refl _) fun _ => .returned⟩
  · simp only [hnone]
    refine Meets.bind Meets.get fun s => Meets.pure ?_
    rintro _ ⟨rfl, hs⟩
    -- without a colon the return type is a documented one
    exact ⟨hs.toAt, sourcedIn_documented hs.scope hraw fun _ _ h => h⟩

/-- **Methods.** The types of a method, and of the properties that it declares, are written. -/
theorem methodDraft_sourced (d : ClassDraft) (mods : Modifiers) (line : Nat) :
    Meets (At b.rest P) (methodDraft cfg d mods raw line)
      (fun r s => At b.rest P s ∧ SourcedMethod b s.rest P (cfg.frame d) r.1 ∧
        ∀ q ∈ r.2.2, SourcedIn b s.rest P (cfg.frame d) (.property q.name) q.typeHint)
      (fun _ => At b.rest P) := by
  rw [methodDraft_eq]
  refine Meets.bind (Meets.discard (KeepsAt.expect _)) fun _ => ?_
  refine Meets.bind (KeepsAt.eat _) fun _ => ?_
  refine Meets.bind (KeepsAt.of_walks (fun _ => Forward.memberName)
    fun _ => Walks.memberName) fun name => ?_
  refine Meets.bind (parameters_sourced hes hraw name.lexeme) fun (params, promoted) => ?_
  -- what has been read stays written while the rest of the method is read
  refine Meets.bind ((SourcedParameters.stable.frame (fun _ => Forward.returnType _ _)
    (returnType_sourced hes hraw name.lexeme)).weaken (fun _ h => h) (fun _ _ h => h)
      fun _ _ h => h.1) fun hint => ?_
  have hstable : Stable fun s =>
      SourcedIn b s.rest P (cfg.frame d) (.returned name.lexeme) hint ∧
        SourcedParameters b s.rest P (cfg.frame d) name.lexeme (params, promoted) :=
    fun _ _ h hreads => ⟨h.1.mono hreads.suffix, SourcedParameters.stable h.2 hreads⟩
  refine Meets.bind ((hstable.frame (fun _ => Forward.methodEnd) (KeepsAt.of_walks
    (fun _ => Forward.methodEnd) fun _ => Walks.methodEnd)).weaken
      (fun _ h => ⟨h.1.1, h.1.2, h.2⟩) (fun _ _ h => h) fun _ _ h => h.1) fun closing => ?_
  exact Meets.pure fun _ h => ⟨h.1, ⟨h.2.1, h.2.2.1⟩, h.2.2.2⟩

end Parameters

end Methods

/-! ### Properties and constants -/

section Declarations

variable {text : String} {b : Body} {P : Scope → Prop} {f : Frame} {cfg : Setting}
  {hint : Option TypeHint} {rest rest' : List Entry}

/-- Whichever variable comes next, the type is written for the property of that name. -/
def OffersProperty (b : Body) (P : Scope → Prop) (f : Frame) (hint : Option TypeHint)
    (rest : List Entry) : Prop :=
  ∀ v tail, v :: tail <:+ rest → v.kind = .variableName →
    SourcedIn b tail P f (.property (Text.dropOne '$' v.token.lexeme)) hint

/-- Whichever name comes next, the type is written for the constant of that name. -/
def OffersConstant (b : Body) (P : Scope → Prop) (f : Frame) (hint : Option TypeHint)
    (rest : List Entry) : Prop :=
  ∀ e tail, e :: tail <:+ rest → SourcedIn b tail P f (.constant e.token.lexeme) hint

theorem OffersProperty.mono (h : OffersProperty b P f hint rest) (hrest : rest' <:+ rest) :
    OffersProperty b P f hint rest' :=
  fun v tail hv => h v tail (hv.trans hrest)

theorem OffersConstant.mono (h : OffersConstant b P f hint rest) (hrest : rest' <:+ rest) :
    OffersConstant b P f hint rest' :=
  fun e tail he => h e tail (he.trans hrest)

/-- A declared type is written for the properties of the declaration, if a variable is next. -/
theorem DeclaredType.offersProperty {t : TypeHint} (h : DeclaredType b.rest P f [] t rest)
    (hfirst : ∃ e ∈ rest.head?, e.kind = .variableName) :
    OffersProperty b P f (some t) rest := fun v tail hv hk =>
  h.sourcedIn ((List.suffix_cons v tail).trans hv) fun _ _ =>
    .property hfirst hv (List.suffix_refl _) hk

theorem DeclaredType.offersConstant {t : TypeHint}
    (h : DeclaredType b.rest P f [.constWord] t rest) : OffersConstant b P f (some t) rest :=
  fun e tail he => h.sourcedIn ((List.suffix_cons e tail).trans he) fun _ hfront =>
    .constant hfront he (List.suffix_refl _)

/-- A property of a declaration has the type that is offered. -/
theorem propertyDraft_sourced (mods : Modifiers) (raw : Option String) (line : Nat) :
    Meets (fun s => At b.rest P s ∧ ((∃ e ∈ s.rest.head?, e.kind = .variableName) →
        OffersProperty b P f hint s.rest)) (propertyDraft cfg mods hint raw line)
      (fun r s => At b.rest P s ∧ SourcedIn b s.rest P f (.property r.1.name) r.1.typeHint ∧
        OffersProperty b P f hint s.rest) (fun _ => At b.rest P) := by
  rw [propertyDraft_eq]
  refine Meets.bind (Consumed.expect (I := fun rest => (∃ e ∈ rest.head?, e.kind = .variableName) →
    OffersProperty b P f hint rest) (by decide)) fun var => ?_
  have hstable : Stable fun s =>
      SourcedIn b s.rest P f (.property (Text.dropOne '$' var.lexeme)) hint ∧
        OffersProperty b P f hint s.rest :=
    fun _ _ h hreads => ⟨h.1.mono hreads.suffix, h.2.mono hreads.suffix⟩
  refine Meets.bind (((hstable.frame (fun _ => Forward.defaultValue? _ _) (KeepsAt.of_walks
    (fun _ => Forward.defaultValue? _ _) fun _ => Walks.defaultValue?
      (by simp [valueStops]))).weaken ?_ (fun _ _ h => h) fun _ _ h => h.1)) fun value => ?_
  · -- the variable that has been consumed was next
    rintro s ⟨hk, hs, e, rfl, hoffers⟩
    have hall := hoffers ⟨e, rfl, hk⟩
    exact ⟨hs, hall e s.rest (List.suffix_refl _) hk, hall.mono (List.suffix_cons e _)⟩
  · exact Meets.pure fun _ h => h

/-- A constant of a declaration has the type that is offered. -/
theorem constantDraft_sourced (mods : Modifiers) :
    Meets (fun s => At b.rest P s ∧ OffersConstant b P f hint s.rest)
      (constantDraft cfg mods hint)
      (fun r s => At b.rest P s ∧ SourcedIn b s.rest P f (.constant r.1.name) r.1.typeHint ∧
        OffersConstant b P f hint s.rest) (fun _ => At b.rest P) := by
  have hat : KeepsAt b.rest P (constantDraft cfg mods hint) :=
    KeepsAt.of_walks (fun _ => Forward.constantDraft cfg mods hint)
      fun _ => Walks.constantDraft cfg mods hint
  have hnamed : Meets (fun s => At b.rest P s ∧ OffersConstant b P f hint s.rest) memberName
      (fun name s => SourcedIn b s.rest P f (.constant name.lexeme) hint ∧
        OffersConstant b P f hint s.rest) (fun _ _ => True) := by
    refine (Consumed.memberName (I := OffersConstant b P f hint)).weaken (fun _ h => h) ?_
      fun _ _ _ => trivial
    rintro name s ⟨-, e, rfl, hoffers⟩
    exact ⟨hoffers e s.rest (List.suffix_refl _), hoffers.mono (List.suffix_cons e _)⟩
  have hdraft : Meets (fun s => At b.rest P s ∧ OffersConstant b P f hint s.rest)
      (constantDraft cfg mods hint)
      (fun r s => SourcedIn b s.rest P f (.constant r.1.name) r.1.typeHint ∧
        OffersConstant b P f hint s.rest) (fun _ _ => True) := by
    refine Meets.bind hnamed fun name => ?_
    -- behind the name only the value is read
    have hstable : Stable fun s =>
        SourcedIn b s.rest P f (.constant name.lexeme) hint ∧ OffersConstant b P f hint s.rest :=
      fun _ _ h hreads => ⟨h.1.mono hreads.suffix, h.2.mono hreads.suffix⟩
    refine Meets.bind (Meets.discard ((hstable.meets fun _ => Forward.expect _).weaken
      (fun _ h => h) (fun _ _ h => h) fun _ _ _ => trivial)) fun _ => ?_
    exact Meets.bind ((hstable.meets fun _ => Forward.initializer _ _).weaken (fun _ h => h)
      (fun _ _ h => h) fun _ _ _ => trivial) fun _ => Meets.pure fun _ h => h
  exact ((hat.of_pre fun _ h => h.1).and hdraft).weaken (fun _ h => h) (fun _ _ h => h)
    fun _ _ h => h.1

end Declarations

end Introspect.Reading
