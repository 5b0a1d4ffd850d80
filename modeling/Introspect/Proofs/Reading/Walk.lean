import Introspect.Proofs.Reading.Contract
import Introspect.Proofs.Reading.Members
import Introspect.Proofs.Reading.Run

/-!
# The way through the body of a class

What the reader does to the tokens of a class body is a **walk**: it passes over single tokens that
are no braces, over blocks from their opening to their closing brace, and over three sorts of text
of which it does not look at the braces one by one: attributes, values behind an equals sign, and
the rest of a statement behind the word `use`. In these it counts brackets, and each sort counts
differently; they are the **loose** stretches of a walk. What is never closed loses all that
remains.

* `Walk es loose es'`: the tokens from `es` to `es'` are passed over so, `loose` being the loose
  stretches on the way, in order;
* `Along s₀ s`: the state `s` is reached from `s₀` by a walk, in the same scope;
* one lemma for each routine says that it walks, whether it yields or gives up. The last of them is
  `BodyWalks.classBody`: the reading of a body ends in front of a closing brace, or at the end of
  the file.

Nothing is said here about where a walk leads. That is for those who know more about the tokens.
-/

namespace Introspect

/-- Whether the kind is that of a brace. -/
def Token.Kind.isBrace : Kind → Bool
  | leftBrace | rightBrace => true
  | _ => false

namespace Reading

/-! ### Walks -/

/-- The kinds at which a value ends: the value of a parameter, and that of a property or a
constant. -/
def valueStops : List (List Token.Kind) := [[.comma, .rightParen], [.comma, .semicolon]]

/-- **Loose stretches.** The tokens `l` in front of `es` are attributes, an equals sign and a value,
or the word `use` and what follows it up to the end of its statement. -/
inductive Loose : List Entry → List Entry → Prop where
  | attributes {l es : List Entry} (h : passAttributes none (l ++ es) = .ok es) : Loose l es
  | value {e : Entry} {l es : List Entry} {stops : List Token.Kind} (he : e.kind = .equal)
      (hstops : stops ∈ valueStops) (h : (splitInitializer stops 0 (l ++ es)).2 = es) :
      Loose (e :: l) es
  | traitUse {e : Entry} {l es : List Entry} (he : e.kind = .useWord)
      (h : statementEnd 0 (l ++ es) = es) : Loose (e :: l) es

/-- A block or an attribute that begins here is never closed. -/
inductive Unclosed : List Entry → Prop where
  | block {e : Entry} {es : List Entry} (he : e.kind = .leftBrace)
      (h : closeBlock 0 es = none) : Unclosed (e :: es)
  | attributes {es : List Entry} {opening : Token}
      (h : passAttributes none es = .error opening) : Unclosed es

/-- **Walks.** What the reader can do to the tokens of a class body, with the loose stretches of the
way. -/
inductive Walk : List Entry → List (List Entry) → List Entry → Prop where
  | stay (es : List Entry) : Walk es [] es
  | token {e : Entry} {es es' : List Entry} {loose : List (List Entry)}
      (he : e.kind.isBrace = false) (h : Walk es loose es') : Walk (e :: es) loose es'
  | block {e : Entry} {closing : Token} {es behind es' : List Entry} {loose : List (List Entry)}
      (he : e.kind = .leftBrace) (hclose : closeBlock 0 es = some (closing, behind))
      (h : Walk behind loose es') : Walk (e :: es) loose es'
  | loosely {l es es' : List Entry} {loose : List (List Entry)} (hl : Loose l es)
      (h : Walk es loose es') : Walk (l ++ es) (l :: loose) es'
  | lost {es es' : List Entry} {loose : List (List Entry)} (hl : Unclosed es)
      (h : Walk [] loose es') : Walk es loose es'

/-- One walk after another. -/
theorem Walk.trans {es es' es'' : List Entry} {loose loose' : List (List Entry)}
    (h : Walk es loose es') (h' : Walk es' loose' es'') : Walk es (loose ++ loose') es'' := by
  induction h with
  | stay => exact h'
  | token he _ ih => exact .token he (ih h')
  | block he hclose _ ih => exact .block he hclose (ih h')
  | loosely hl _ ih => exact .loosely hl (ih h')
  | lost hl _ ih => exact .lost hl (ih h')

theorem Loose.suffix {l es : List Entry} (_ : Loose l es) : es <:+ l ++ es :=
  List.suffix_append l es

/-- A walk moves forward. -/
theorem Walk.suffix {es es' : List Entry} {loose : List (List Entry)} (h : Walk es loose es') :
    es' <:+ es := by
  induction h with
  | stay es => exact List.suffix_refl es
  | token _ _ ih => exact ih.trans (List.suffix_cons _ _)
  | block _ hclose _ ih =>
    exact (ih.trans (closeBlock_spec hclose).1).trans (List.suffix_cons _ _)
  | loosely hl _ ih => exact ih.trans hl.suffix
  | lost _ _ ih => exact ih.trans List.nil_suffix

/-- A member that cannot be read is passed over token by token. -/
theorem Walk.memberEnd (es : List Entry) : Walk es [] (memberEnd es) := by
  induction es with
  | nil => exact .stay []
  | cons e es ih =>
    unfold Reading.memberEnd at ih ⊢
    rw [List.dropWhile_cons]
    split
    · next hstop =>
      refine .token ?_ ih
      cases hk : e.kind <;> simp_all [Token.Kind.isBrace]
    · exact .stay _

/-- **Along a walk.** `s` is reached from `s₀` by a walk, and the scope is the same. -/
structure Along (s₀ s : State) : Prop where
  walk : ∃ loose, Walk s₀.rest loose s.rest
  scope_eq : s.scope = s₀.scope

section Along

variable {s₀ s : State}

theorem Along.refl (s : State) : Along s s := ⟨⟨[], .stay _⟩, rfl⟩

/-- A walk goes on from where it has led to. -/
theorem Along.walk_on (h : Along s₀ s) {rest : List Entry} {l : List (List Entry)}
    (hwalk : Walk s.rest l rest) : Along s₀ { s with rest } := by
  obtain ⟨loose₀, h₀⟩ := h.walk
  exact ⟨⟨_, h₀.trans hwalk⟩, h.scope_eq⟩

theorem Along.report (h : Along s₀ s) (d : Diagnostic) : Along s₀ (s.report d) :=
  ⟨h.walk, h.scope_eq⟩

theorem Along.advance (h : Along s₀ s) (hk : s.peek.kind.isBrace = false) :
    Along s₀ s.advance := by
  cases hrest : s.rest with
  | nil =>
    -- at the end of the file nothing moves
    refine h.walk_on (l := []) ?_
    rw [hrest]
    exact .stay []
  | cons e es =>
    rw [State.peek_of_rest hrest] at hk
    refine h.walk_on (l := []) ?_
    rw [hrest]
    exact .token hk (.stay es)

/-- The token in front of `s` is of the kind, and a walk from `s₀` leads to it. -/
def Past (s₀ : State) (kind : Token.Kind) (s : State) : Prop :=
  ∃ s₁, Along s₀ s₁ ∧ s₁.peek.kind = kind ∧ s.rest = s₁.rest.tail ∧ s.scope = s₁.scope

theorem Past.along {kind : Token.Kind} (h : Past s₀ kind s) (hk : kind.isBrace = false) :
    Along s₀ s := by
  obtain ⟨s₁, h₁, rfl, hrest, hscope⟩ := h
  obtain ⟨⟨loose, hwalk⟩, hscope₁⟩ := h₁.advance hk
  exact ⟨⟨loose, hrest ▸ hwalk⟩, hscope.trans hscope₁⟩

/-- Behind a token, a loose stretch that begins with it may be walked over. -/
theorem Past.loosely {kind : Token.Kind} (h : Past s₀ kind s) {rest : List Entry}
    (hsuffix : rest <:+ s.rest)
    (hloose : ∀ e l, e.kind = kind → s.rest = l ++ rest → Loose (e :: l) rest) :
    Along s₀ { s with rest } := by
  obtain ⟨s₁, h₁, hkind, hrest, hscope⟩ := h
  obtain ⟨⟨loose, hwalk⟩, hscope₁⟩ := h₁
  refine ⟨?_, hscope.trans hscope₁⟩
  -- what is walked over stands between the token and what remains
  obtain ⟨l, hl⟩ := hsuffix
  cases hs₁ : s₁.rest with
  | nil =>
    -- at the end of the file nothing remains
    rw [hs₁] at hrest hwalk
    rw [hrest, List.tail_nil, List.append_eq_nil_iff] at hl
    rw [hl.2]
    exact ⟨loose, hwalk⟩
  | cons e es =>
    rw [State.peek_of_rest hs₁] at hkind
    rw [hs₁, List.tail_cons] at hrest
    have hstretch := hloose e l hkind hl.symm
    rw [hs₁, ← hrest, ← hl] at hwalk
    exact ⟨_, hwalk.trans (.loosely hstretch (.stay rest))⟩

end Along

/-! ### Single tokens -/

/-- A routine that walks from `s₀` on, whether it yields or gives up. -/
abbrev Walks {α : Type} (s₀ : State) (r : Routine α) : Prop :=
  Meets (Along s₀) r (fun _ => Along s₀) (fun _ => Along s₀)

namespace Walks

variable {s₀ : State} {α β : Type} {bad : Diagnostic → State → Prop}

theorem pure {a : α} : Meets (Along s₀) (Pure.pure a : Routine α) (fun _ => Along s₀) bad :=
  Meets.pure fun _ h => h

theorem throw {d : Diagnostic} : Walks s₀ (throw d : Routine α) := Meets.throw fun _ h => h

theorem get : Walks s₀ get := Meets.get.to_post fun _ _ h => h.2

/-- What was seen of the next token may be forgotten. -/
theorem forget {p : State → Prop} {r : Routine α}
    (hr : Meets (Along s₀) r (fun _ => Along s₀) bad) :
    Meets (fun s => p s ∧ Along s₀ s) r (fun _ => Along s₀) bad :=
  hr.of_pre fun _ h => h.2

theorem advance_past {kind : Token.Kind} :
    Meets (fun s => kind = s.peek.kind ∧ Along s₀ s) advance (fun _ => Past s₀ kind) bad := by
  refine Meets.bind Meets.get fun a => ?_
  refine Meets.bind (Meets.set (q := Past s₀ kind) ?_) fun _ => Meets.pure fun _ h => h
  rintro s ⟨rfl, hk, h⟩
  exact ⟨a, h, hk.symm, rfl, rfl⟩

/-- A token that is known to be no brace may be passed over. -/
theorem advance {k : Token.Kind} (hk : k.isBrace = false) :
    Meets (fun s => k = s.peek.kind ∧ Along s₀ s) advance (fun _ => Along s₀) bad :=
  advance_past.to_post fun _ _ h => h.along hk

theorem advance_peek {t : Token} (hk : t.kind.isBrace = false) :
    Meets (fun s => t = s.peek ∧ Along s₀ s) Reading.advance (fun _ => Along s₀) bad :=
  (advance hk).of_pre fun _ h => ⟨congrArg _ h.1, h.2⟩

theorem eat_past {kind : Token.Kind} :
    Meets (Along s₀) (eat kind)
      (fun o s => if o.isSome then Past s₀ kind s else Along s₀ s) bad := by
  refine Meets.bind Meets.peekKind fun k => ?_
  refine Meets.ite ?_ fun _ => Meets.pure fun _ h => h.2
  rintro rfl
  exact Meets.bind advance_past fun _ => Meets.pure fun _ h => h

theorem eat {kind : Token.Kind} (hk : kind.isBrace = false) : Walks s₀ (eat kind) := by
  refine eat_past.to_post fun o s h => ?_
  split at h
  · exact h.along hk
  · exact h

theorem report {d : Diagnostic} : Meets (Along s₀) (report d) (fun _ => Along s₀) bad :=
  Meets.modify fun _ h => h.report d

theorem expect_past {kind : Token.Kind} :
    Meets (Along s₀) (expect kind) (fun _ => Past s₀ kind) (fun _ => Along s₀) := by
  refine Meets.bind eat_past fun o => ?_
  cases o with
  | none => exact Meets.unexpected _
  | some t => exact Meets.pure fun _ h => h

theorem expect {kind : Token.Kind} (hk : kind.isBrace = false) : Walks s₀ (expect kind) :=
  expect_past.to_post fun _ _ h => h.along hk

theorem listOf {item : Routine α} {more : Routine Bool} (hitem : Walks s₀ item)
    (hmore : Walks s₀ more) : Walks s₀ (listOf item more) := by
  refine Meets.iterate_same (I := fun _ => Along s₀) (fun items => ?_) []
  refine Meets.bind hitem fun a => ?_
  exact Meets.bind hmore fun b => pure

theorem comma : Walks s₀ comma := Meets.bind (eat rfl) fun _ => pure

theorem commaBefore (close : Token.Kind) : Walks s₀ (commaBefore close) := by
  refine Meets.bind comma fun b => ?_
  refine Meets.ite (fun _ => ?_) fun _ => pure
  exact Meets.bind Meets.peekKind fun _ => forget pure

theorem docSince (start : List Entry) : Walks s₀ (docSince start) :=
  Meets.bind get fun _ => pure

/-! ### Passing over tokens -/

/-- A block is passed over whole, or it is lost. -/
theorem skipBlock : Walks s₀ skipBlock := by
  refine Meets.bind expect_past fun opening => ?_
  refine Meets.bind Meets.get fun a => ?_
  -- what stands in front of the state is an opening brace, or the file ends here
  have hblock : ∀ s, (a = s ∧ Past s₀ .leftBrace s) →
      (closeBlock 0 a.rest = none → Along s₀ { a with rest := [] }) ∧
        ∀ closing rest, closeBlock 0 a.rest = some (closing, rest) → Along s₀ { a with rest } := by
    rintro s ⟨rfl, s₁, h₁, hkind, hrest, hscope⟩
    obtain ⟨⟨loose, hwalk⟩, hscope₁⟩ := h₁
    cases hs₁ : s₁.rest with
    | nil =>
      rw [hs₁] at hrest hwalk
      refine ⟨fun _ => ⟨⟨loose, hwalk⟩, hscope.trans hscope₁⟩, fun closing rest h => ?_⟩
      rw [hrest, List.tail_nil] at h
      exact absurd h (by simp [closeBlock])
    | cons e es =>
      rw [State.peek_of_rest hs₁] at hkind
      rw [hs₁, List.tail_cons] at hrest
      rw [hs₁] at hwalk
      refine ⟨fun h => ?_, fun closing rest h => ?_⟩
      · rw [hrest] at h
        exact ⟨⟨_, hwalk.trans (.lost (.block hkind h) (.stay []))⟩, hscope.trans hscope₁⟩
      · rw [hrest] at h
        exact ⟨⟨_, hwalk.trans (.block hkind h (.stay rest))⟩, hscope.trans hscope₁⟩
  cases hclose : closeBlock 0 a.rest with
  | none =>
    refine Meets.bind (Meets.set (q := Along s₀) ?_) fun _ => throw
    intro s h
    exact (hblock s h).1 hclose
  | some p =>
    refine Meets.bind (Meets.set (q := Along s₀) ?_) fun _ => pure
    intro s h
    exact (hblock s h).2 _ _ hclose

theorem skipAttributes : Walks s₀ skipAttributes := by
  refine Meets.bind Meets.get fun a => ?_
  cases hres : passAttributes none a.rest with
  | ok rest =>
    refine Meets.set ?_
    rintro s ⟨rfl, h⟩
    obtain ⟨l, hl⟩ := passAttributes_suffix hres
    refine h.walk_on (l := [l]) ?_
    rw [← hl]
    exact .loosely (.attributes (hl ▸ hres)) (.stay rest)
  | error opening =>
    refine Meets.bind (Meets.set (q := Along s₀) ?_) fun _ => throw
    rintro s ⟨rfl, h⟩
    exact h.walk_on (.lost (.attributes hres) (.stay []))

/-- Behind a tail to which a walk leads, a semicolon or a block is passed over. This never gives
up: what is lost is reported. -/
theorem skipTo {tail : List Entry → List Entry} {pre : State → Prop}
    (htail : ∀ s, pre s → Along s₀ { s with rest := tail s.rest }) :
    Meets pre (skipTo tail) (fun _ => Along s₀) bad := by
  refine Meets.bind (Meets.modify htail) fun _ => ?_
  refine Meets.bind Meets.peekKind fun k => ?_
  split
  · exact Meets.discard (advance rfl)
  · refine Meets.bind (Meets.attempt_same (forget skipBlock)) fun o => ?_
    cases o with
    | ok _ => exact pure
    | error d => exact report
  · exact forget pure

theorem recoverMember : Meets (Along s₀) recoverMember (fun _ => Along s₀) bad :=
  skipTo fun s h => h.walk_on (Walk.memberEnd s.rest)

/-- Behind the word `use`, the rest of the statement is passed over. -/
theorem skipStatement :
    Meets (Past s₀ .useWord) skipStatement (fun _ => Along s₀) (fun _ => Along s₀) := by
  refine skipTo fun s h => ?_
  refine h.loosely (statementEnd_suffix 0 s.rest) fun e l he hl => ?_
  exact .traitUse he (by rw [← hl])

/-- Behind an equals sign, a value is passed over. -/
theorem initializer {source : String} {stops : List Token.Kind} (hstops : stops ∈ valueStops) :
    Meets (Past s₀ .equal) (initializer source stops) (fun _ => Along s₀) (fun _ => Along s₀) := by
  refine Meets.bind Meets.get fun a => ?_
  dsimp only
  refine Meets.bind (Meets.set (q := Along s₀) ?_) fun _ => ?_
  · rintro s ⟨rfl, h⟩
    refine h.loosely (splitInitializer_spec stops 0 a.rest).1 fun e l he hl => ?_
    exact .value he hstops (by rw [← hl])
  refine Meets.ite (fun _ => throw) fun _ => ?_
  split
  · exact Meets.unexpected _
  · exact pure

/-! ### Types -/

theorem singleType (f : Frame) : Walks s₀ (singleType f) := by
  refine Meets.bind Meets.peek fun t => ?_
  split
  case h_1 hk => exact Meets.bind (Meets.discard (advance_peek (by rw [hk]; rfl))) fun _ => pure
  case h_2 hk =>
    refine Meets.bind (Meets.discard (advance_peek (by rw [hk]; rfl))) fun _ => ?_
    cases f.parentName with
    | none => exact throw
    | some parent => exact pure
  case h_3 hk => exact Meets.bind (Meets.discard (advance_peek (by rw [hk]; rfl))) fun _ => pure
  case h_4 hk =>
    refine Meets.bind (Meets.discard (advance_peek (by rw [hk]; rfl))) fun _ => ?_
    exact Meets.bind get fun _ => pure
  case h_5 => exact forget throw

theorem typeJoin : Walks s₀ typeJoin := by
  refine Meets.bind Meets.get fun a => ?_
  refine Meets.ite (fun hjoin => ?_) fun _ => forget pure
  -- an ampersand is no brace
  have hk : Token.Kind.amp = a.peek.kind := by
    simp only [State.atTypeJoin, Bool.and_eq_true, beq_iff_eq] at hjoin
    exact hjoin.1.symm
  refine Meets.bind (Meets.discard ((advance (k := .amp) rfl).of_pre ?_)) fun _ => pure
  rintro s ⟨rfl, h⟩
  exact ⟨hk, h⟩

theorem eats {kind : Token.Kind} (hk : kind.isBrace = false) :
    Walks s₀ (do return (← Reading.eat kind).isSome) :=
  Meets.bind (eat hk) fun _ => pure

theorem unionMember (f : Frame) : Walks s₀ (unionMember f) := by
  refine Meets.bind (eat rfl) fun _ => ?_
  refine Meets.ite (fun _ => ?_) fun _ => ?_
  · refine Meets.bind (listOf (singleType f) (eats rfl)) fun _ => ?_
    exact Meets.bind (Meets.discard (expect rfl)) fun _ => pure
  · refine Meets.bind (listOf (singleType f) typeJoin) fun hints => ?_
    split <;> exact pure

theorem typeHint (f : Frame) : Walks s₀ (typeHint f) := by
  refine Meets.bind (eat rfl) fun _ => ?_
  refine Meets.ite (fun _ => ?_) fun _ => ?_
  · exact Meets.bind (singleType f) fun _ => pure
  · refine Meets.bind (listOf (unionMember f) (eats rfl)) fun hints => ?_
    split <;> exact pure

/-! ### Parts of members -/

theorem isBrace_of_modifierOf? {kind : Token.Kind} {m : Modifiers}
    (h : modifierOf? kind = some m) : kind.isBrace = false := by
  cases kind <;> simp_all [modifierOf?, Token.Kind.isBrace]

theorem isBrace_of_promotionOf? {kind : Token.Kind} {m : Modifiers}
    (h : promotionOf? kind = some m) : kind.isBrace = false := by
  cases kind <;> simp_all [promotionOf?, Token.Kind.isBrace]

theorem modifiers : Walks s₀ modifiers := by
  refine Meets.iterate_same (I := fun _ => Along s₀) (fun current => ?_) _
  refine Meets.bind Meets.peek fun t => ?_
  cases hmod : modifierOf? t.kind with
  | none => exact forget pure
  | some new =>
    refine Meets.bind (Meets.discard (advance_peek (isBrace_of_modifierOf? hmod))) fun _ => ?_
    cases modifierFault? current new t with
    | none => exact pure
    | some d => exact Meets.bind report fun _ => pure

theorem memberName : Walks s₀ memberName := by
  refine Meets.bind Meets.peek fun t => ?_
  refine Meets.ite (fun hname => advance_peek ?_) fun _ => forget Meets.unexpectedName
  -- neither a name nor a reserved word is a brace
  rcases hname with hname | hname
  · rw [hname]
    rfl
  · cases hk : t.kind <;> rw [hk] at hname <;> first | rfl | exact absurd hname (by decide)

theorem promotion : Walks s₀ promotion := by
  refine Meets.iterate_same (I := fun _ => Along s₀) (fun current => ?_) _
  refine Meets.bind Meets.peekKind fun k => ?_
  cases hmod : promotionOf? k with
  | none => exact forget pure
  | some new =>
    exact Meets.bind (Meets.discard (advance (isBrace_of_promotionOf? hmod))) fun _ => pure

theorem defaultValue? {cfg : Setting} {stops : List Token.Kind} (hstops : stops ∈ valueStops) :
    Walks s₀ (defaultValue? cfg stops) := by
  refine Meets.bind eat_past fun o => ?_
  refine Meets.ite (fun hsome => ?_) fun hnone => ?_
  · simp only [hsome, if_true]
    exact Meets.bind (initializer hstops) fun _ => pure
  · simp only [hnone]
    exact pure

theorem declaredType? (f : Frame) : Walks s₀ (declaredType? f) := by
  refine Meets.bind Meets.peekKind fun k => forget ?_
  split
  case h_4 => exact Meets.map_same (typeHint f)
  all_goals exact pure

theorem parameter (cfg : Setting) (f : Frame) (doc : Option DocBlock) :
    Walks s₀ (parameter cfg f doc) := by
  rw [parameter_eq]
  refine Meets.bind skipAttributes fun _ => ?_
  refine Meets.bind Meets.peek fun first => forget ?_
  refine Meets.bind promotion fun mods => ?_
  refine Meets.bind (declaredType? f) fun _ => ?_
  refine Meets.bind (eat rfl) fun _ => ?_
  refine Meets.bind (eat rfl) fun _ => ?_
  refine Meets.bind (expect rfl) fun var => ?_
  refine Meets.bind (defaultValue? (by simp [valueStops])) fun value => ?_
  exact Meets.bind get fun s => pure

theorem parametersOpen : Walks s₀ parametersOpen := by
  refine Meets.bind Meets.peek fun t => ?_
  refine Meets.ite (fun _ => forget throw) fun hparen => ?_
  have hk : t.kind.isBrace = false := by
    rw [not_not.mp hparen]
    rfl
  exact Meets.discard (advance_peek hk)

theorem parameterList (cfg : Setting) (f : Frame) (doc : Option DocBlock) :
    Walks s₀ (parameterList cfg f doc) := by
  refine Meets.bind Meets.peekKind fun _ => forget ?_
  exact Meets.ite (fun _ => pure) fun _ => listOf (parameter cfg f doc) (commaBefore _)

theorem parameters (cfg : Setting) (f : Frame) (doc : Option DocBlock) :
    Walks s₀ (parameters cfg f doc) := by
  rw [parameters_eq]
  refine Meets.bind parametersOpen fun _ => ?_
  refine Meets.bind (parameterList cfg f doc) fun ps => ?_
  exact Meets.bind (Meets.discard (expect rfl)) fun _ => pure

theorem returnType (f : Frame) (doc : Option DocBlock) : Walks s₀ (returnType f doc) := by
  refine Meets.bind (eat rfl) fun _ => ?_
  refine Meets.ite (fun _ => ?_) fun _ => ?_
  · exact Meets.bind (typeHint f) fun _ => pure
  · exact Meets.bind get fun _ => pure

theorem methodEnd : Walks s₀ methodEnd := by
  refine Meets.bind Meets.peekKind fun k => ?_
  split
  · exact advance rfl
  · exact forget skipBlock
  · exact forget (Meets.unexpected _)

theorem methodDraft (cfg : Setting) (d : ClassDraft) (mods : Modifiers) (doc : Option String)
    (line : Nat) : Walks s₀ (methodDraft cfg d mods doc line) := by
  rw [methodDraft_eq]
  refine Meets.bind (Meets.discard (expect rfl)) fun _ => ?_
  refine Meets.bind (eat rfl) fun _ => ?_
  refine Meets.bind memberName fun name => ?_
  refine Meets.bind (parameters _ _ _) fun _ => ?_
  refine Meets.bind (returnType _ _) fun _ => ?_
  exact Meets.bind methodEnd fun _ => pure

theorem propertyDraft (cfg : Setting) (mods : Modifiers) (hint : Option TypeHint)
    (doc : Option String) (line : Nat) : Walks s₀ (propertyDraft cfg mods hint doc line) := by
  rw [propertyDraft_eq]
  refine Meets.bind (expect rfl) fun var => ?_
  exact Meets.bind (defaultValue? (by simp [valueStops])) fun _ => pure

theorem constantDraft (cfg : Setting) (mods : Modifiers) (hint : Option TypeHint) :
    Walks s₀ (constantDraft cfg mods hint) := by
  refine Meets.bind memberName fun name => ?_
  refine Meets.bind (Meets.discard expect_past) fun _ => ?_
  exact Meets.bind (initializer (by simp [valueStops])) fun _ => pure

end Walks

/-! ### Members -/

/-- A routine that adds nothing meets the contract that it meets on its own, and leaves the draft as
it is. -/
theorem Meets.reading_draft {α : Type} {pre : ClassDraft → State → Prop}
    {post : α → ClassDraft → State → Prop} {bad : Diagnostic → ClassDraft → State → Prop}
    {r : Routine α} (hr : ∀ d, Meets (pre d) r (fun a => post a d) (fun e => bad e d)) :
    Meets (fun b : Body => pre b.draft b.toState) (Reading.reading r)
      (fun a b => post a b.draft b.toState) (fun e b => bad e b.draft b.toState) := by
  intro b hb
  unfold Reading.reading
  cases h : r b.toState with
  | ok a s => exact (hr b.draft).of_ok hb h
  | error e s => exact (hr b.draft).of_error hb h

theorem Meets.reading {α : Type} {pre : State → Prop} {post : α → State → Prop}
    {bad : Diagnostic → State → Prop} {r : Routine α} (hr : Meets pre r post bad) :
    Meets (fun b : Body => pre b.toState) (reading r) (fun a b => post a b.toState)
      (fun e b => bad e b.toState) :=
  Meets.reading_draft fun _ => hr

/-- A write to the class is taken, or refused and reported. -/
theorem Meets.adding_either {span : Span} {f : ClassDraft → Except DraftError ClassDraft}
    {pre post : Body → Prop} {bad : Diagnostic → Body → Prop}
    (hok : ∀ b d', pre b → f b.draft = .ok d' → post { b with draft := d' })
    (hrefused : ∀ b e d, pre b → f b.draft = .error e →
      post { b with toState := b.toState.report d }) :
    Meets pre (adding span f) (fun _ => post) bad := by
  intro b hb
  cases hwrite : f b.draft with
  | ok d' =>
    rw [Yields.adding hwrite]
    exact hok b d' hb hwrite
  | error e =>
    rw [Yields.adding_refused hwrite]
    exact hrefused b e _ hb hwrite

/-- What is known of the class either way is known behind the write. -/
theorem Meets.adding {span : Span} {f : ClassDraft → Except DraftError ClassDraft}
    {pre post : Body → Prop} {bad : Diagnostic → Body → Prop}
    (hok : ∀ b d', pre b → f b.draft = .ok d' → post { b with draft := d' })
    (hrefused : ∀ b e, pre b → post { b with toState := b.toState.report e }) :
    Meets pre (Reading.adding span f) (fun _ => post) bad :=
  Meets.adding_either hok fun b _ d hb _ => hrefused b d hb

/-- A routine that walks from `s₀` on, and may add to a class. -/
abbrev BodyWalks {α : Type} (s₀ : State) (r : BodyRoutine α) : Prop :=
  Meets (fun b : Body => Along s₀ b.toState) r (fun _ b => Along s₀ b.toState)
    (fun _ b => Along s₀ b.toState)

namespace BodyWalks

variable {s₀ : State} {α : Type}

theorem reading {r : Routine α} (hr : Walks s₀ r) : BodyWalks s₀ (reading r) := hr.reading

theorem pure {a : α} : BodyWalks s₀ (Pure.pure a) := Meets.pure fun _ h => h

theorem get : BodyWalks s₀ get := Meets.get.to_post fun _ _ h => h.2

theorem adding {span : Span} (f : ClassDraft → Except DraftError ClassDraft) :
    BodyWalks s₀ (adding span f) :=
  Meets.adding (fun _ _ h _ => h) fun _ e h => h.report e

theorem method (cfg : Setting) (mods : Modifiers) (doc : Option String) (line : Nat) :
    BodyWalks s₀ (method cfg mods doc line) := by
  refine Meets.bind get fun b => ?_
  refine Meets.bind (reading (Walks.methodDraft _ _ _ _ _)) fun (m, name, promoted) => ?_
  refine Meets.bind (adding _) fun _ => ?_
  refine Meets.ite (fun _ => ?_) fun _ => pure
  exact Meets.forM fun p _ => adding _

theorem properties (cfg : Setting) (mods : Modifiers) (declared : Option TypeHint)
    (doc : Option String) (line : Nat) :
    BodyWalks s₀ (properties cfg mods declared doc line) := by
  refine Meets.bind get fun b => ?_
  refine Meets.bind (Meets.discard ?_) fun _ => Meets.discard (reading (Walks.expect rfl))
  refine Meets.iterate_same (I := fun _ (b : Body) => Along s₀ b.toState) (fun (doc, line) => ?_) _
  refine Meets.bind (reading (Walks.propertyDraft _ _ _ _ _)) fun (p, span) => ?_
  refine Meets.bind (adding _) fun _ => ?_
  refine Meets.bind (reading Walks.comma) fun _ => ?_
  refine Meets.ite (fun _ => ?_) fun _ => pure
  exact Meets.bind get fun _ => pure

theorem constantType? (cfg : Setting) (b : Body) : BodyWalks s₀ (constantType? cfg b) :=
  Meets.ite (fun _ => pure) fun _ => Meets.map_same (reading (Walks.typeHint _))

theorem constants (cfg : Setting) (mods : Modifiers) : BodyWalks s₀ (constants cfg mods) := by
  rw [constants_eq]
  refine Meets.bind (Meets.discard (reading (Walks.expect rfl))) fun _ => ?_
  refine Meets.bind get fun b => ?_
  refine Meets.bind (constantType? cfg b) fun hint => ?_
  refine Meets.bind (Meets.discard ?_) fun _ => Meets.discard (reading (Walks.expect rfl))
  refine Meets.iterate_same (I := fun _ (b : Body) => Along s₀ b.toState) (fun _ => ?_) _
  refine Meets.bind (reading (Walks.constantDraft _ _ _)) fun (c, span) => ?_
  refine Meets.bind (adding _) fun _ => ?_
  exact Meets.bind (reading Walks.comma) fun _ => pure

theorem modifiedMember (cfg : Setting) (mods : Modifiers) (doc : Option String) (line : Nat) :
    BodyWalks s₀ (modifiedMember cfg mods doc line) := by
  refine Meets.bind get fun b => ?_
  refine Meets.ite (fun _ => method cfg mods doc line) fun _ => ?_
  refine Meets.ite (fun _ => constants cfg mods) fun _ => ?_
  refine Meets.ite (fun _ => properties cfg mods none doc line) fun _ => ?_
  refine Meets.ite (fun _ => ?_) fun _ => Meets.throw fun _ h => h
  refine Meets.bind get fun _ => ?_
  exact Meets.bind (reading (Walks.typeHint _)) fun _ => properties _ _ _ _ _

theorem member (cfg : Setting) : BodyWalks s₀ (member cfg) := by
  refine Meets.bind get fun _ => ?_
  refine Meets.bind (reading Walks.skipAttributes) fun _ => ?_
  refine Meets.bind Meets.get fun b => ?_
  split
  case h_1 hk =>
    -- the use of a trait is a loose stretch from its word on
    have huse : Meets (fun s => Token.Kind.useWord = s.peek.kind ∧ Along s₀ s)
        (do discard advance; skipStatement) (fun _ => Along s₀) (fun _ => Along s₀) :=
      Meets.bind (Meets.discard Walks.advance_past) fun _ => Walks.skipStatement
    refine huse.reading.of_pre ?_
    rintro b' ⟨rfl, h⟩
    exact ⟨hk.symm, h⟩
  case h_2 hk =>
    have hsemicolon : Meets (fun s => Token.Kind.semicolon = s.peek.kind ∧ Along s₀ s)
        advance (fun _ => Along s₀) (fun _ => Along s₀) := Walks.advance rfl
    refine (Meets.discard hsemicolon.reading).of_pre ?_
    rintro b' ⟨rfl, h⟩
    exact ⟨hk.symm, h⟩
  case h_3 =>
    refine Meets.bind (Meets.of_pre (reading (Walks.docSince _)) fun _ h => h.2) fun _ => ?_
    refine Meets.bind get fun _ => ?_
    exact Meets.bind (reading Walks.modifiers) fun _ => modifiedMember _ _ _ _

end BodyWalks

/-! ### Bodies -/

/-- At an opening brace there is no member, and nothing is read. -/
theorem member_at_leftBrace (cfg : Setting) {b : Body} (hk : b.peek.kind = .leftBrace) :
    Fails (member cfg) b
      ⟨.expectedClassMember, b.peek.span, "expected class member, found " ++ b.peek.describe⟩
      b := by
  -- the brace is no attribute and no modifier
  have hskip : Yields skipAttributes b.toState () b.toState := .skipAttributes (by simp [hk])
  have hmodifiers : Yields modifiers b.toState .empty b.toState := .modifiers (by rw [hk]; rfl)
  -- so the member is looked for right at the brace, where there is none
  refine Yields.bind_fails .get (Yields.bind_fails hskip.reading (Yields.bind_fails .get ?_))
  rw [hk]
  refine Yields.bind_fails Yields.docSince.reading (Yields.bind_fails .get ?_)
  refine Yields.bind_fails hmodifiers.reading (Yields.bind_fails .get ?_)
  simp only [hk, reduceCtorEq, false_and, beginsType, Bool.false_eq_true, if_false]
  exact .throw

/-- A block consumes its opening brace. -/
theorem skipBlock_shortens {s₀ : State} (hk : s₀.peek.kind = .leftBrace) :
    Meets (fun s => s = s₀) skipBlock (fun _ s => s.rest = [] ∨ s.rest.length < s₀.rest.length)
      (fun _ s => s.rest = [] ∨ s.rest.length < s₀.rest.length) := by
  rintro s rfl
  cases hclose : closeBlock 0 s.rest.tail with
  | none =>
    rw [Fails.skipBlock hk hclose]
    exact .inl rfl
  | some p =>
    obtain ⟨closing, rest⟩ := p
    rw [Yields.skipBlock hk hclose]
    have hlength := (closeBlock_spec hclose).1.length_le
    rw [List.length_tail] at hlength
    -- at the end of the file there is nothing to consume
    cases hrest : s.rest with
    | nil => simp [closeBlock, hrest] at hclose
    | cons e es =>
      rw [hrest, List.length_cons, Nat.add_sub_cancel] at hlength
      exact .inr (Nat.lt_succ_of_le hlength)

/-- Recovery at an opening brace passes over the block. -/
theorem recoverMember_shortens {s₀ : State} (hk : s₀.peek.kind = .leftBrace) :
    Meets (fun s => s.rest = s₀.rest ∧ s.eof = s₀.eof) recoverMember
      (fun _ s => s.rest = [] ∨ s.rest.length < s₀.rest.length) (fun _ _ => False) := by
  rintro s ⟨hrest, heof⟩
  have hpeek : s.peek.kind = .leftBrace := by
    rw [← hk, State.peek, State.peekAt, hrest, heof]
    rfl
  -- nothing is in front of the brace that could be passed over
  have hstop : memberEnd s.rest = s.rest := by
    cases hes : s.rest with
    | nil => rfl
    | cons e es =>
      rw [State.peek_of_rest hes] at hpeek
      have he : e.kind = .leftBrace := hpeek
      simp [memberEnd, he]
  have hmodify : Yields (modify fun s => { s with rest := memberEnd s.rest } : Routine Unit)
      s () s := by
    have hsame : { s with rest := memberEnd s.rest } = s := by rw [hstop]
    exact congrArg (EStateM.Result.ok ()) hsame
  -- the block is read, or it is reported that it is never closed
  rw [← hrest]
  cases hblock : skipBlock s with
  | ok t s' =>
    have hrun : Yields recoverMember s () s' := by
      refine Yields.bind hmodify (Yields.bind .peekKind ?_)
      rw [hpeek]
      exact Yields.bind (Yields.attempt hblock) .pure
    rw [hrun]
    exact (skipBlock_shortens hpeek).of_ok rfl hblock
  | error d s' =>
    have hrun : Yields recoverMember s () (s'.report d) := by
      refine Yields.bind hmodify (Yields.bind .peekKind ?_)
      rw [hpeek]
      exact Yields.bind (Fails.attempt hblock) .modify
    rw [hrun]
    have hshort := (skipBlock_shortens hpeek).of_error rfl hblock
    exact hshort

/-- What is known behind a member that began at `b₀`: the reader has walked forward, and if there
was an opening brace it has moved. -/
structure BehindMember (s₀ : State) (b₀ b : Body) : Prop where
  along : Along s₀ b.toState
  reads : Reads b₀.toState b.toState
  moves : b₀.peek.kind = .leftBrace → b.rest = [] ∨ b.rest.length < b₀.rest.length

/-- What is known where a member that began at `b₀` gave up. -/
structure GivenUp (s₀ : State) (b₀ : Body) (d : Diagnostic) (b : Body) : Prop where
  along : Along s₀ b.toState
  reads : Reads b₀.toState b.toState
  mayReport : b₀.MayReport d
  stays : b₀.peek.kind = .leftBrace → b = b₀

namespace BodyWalks

variable {s₀ : State} {b₀ : Body}

theorem member_behind (cfg : Setting) :
    Meets (fun b => b = b₀ ∧ Along s₀ b.toState) (Reading.member cfg)
      (fun _ => BehindMember s₀ b₀) (GivenUp s₀ b₀) := by
  rintro b ⟨rfl, h⟩
  have hforward : BodyForward b.toState b.draft.endLine (fun _ => True) (Reading.member cfg) :=
    BodyForward.member cfg
  have hreads : BodyReads b.toState b.draft.endLine b := ⟨Reads.refl b.toState, rfl⟩
  cases hres : Reading.member cfg b with
  | ok _ b' =>
    -- a member is read: it did not begin with a brace
    refine ⟨(member cfg).of_ok h hres, (hforward.of_ok hreads hres).1.reads, fun hleft => ?_⟩
    rw [member_at_leftBrace cfg hleft] at hres
    exact absurd hres (by simp)
  | error d b' =>
    obtain ⟨hreads', hd⟩ := hforward.of_error hreads hres
    -- a member is given up: at a brace it was given up at once
    refine ⟨(member cfg).of_error h hres, hreads'.reads, hd, fun hleft => ?_⟩
    rw [member_at_leftBrace cfg hleft] at hres
    exact (EStateM.Result.error.inj hres).2.symm

/-- A member that gave up is recovered from. -/
theorem recover_behind (d : Diagnostic) :
    Meets (GivenUp s₀ b₀ d) (Reading.reading do report d; recoverMember)
      (fun _ => BehindMember s₀ b₀) (fun _ _ => False) := by
  rintro b ⟨h, hreads, hd, hstays⟩
  have hwalks : Meets (Along s₀) (do report d; recoverMember) (fun _ => Along s₀)
      (fun _ _ => False) :=
    Meets.bind Walks.report fun _ => Walks.recoverMember
  have hforward : Forward b₀.toState (fun _ => True) (do report d; recoverMember) :=
    Keeps.bind (Forward.report hd) fun _ _ => Forward.recoverMember
  have hmoves : b₀.peek.kind = .leftBrace → Meets (fun s => s = b₀.toState)
      (do report d; recoverMember)
      (fun _ s => s.rest = [] ∨ s.rest.length < b₀.rest.length) (fun _ _ => False) := fun hleft =>
    Meets.bind (Meets.modify fun s hs => hs ▸ ⟨rfl, rfl⟩) fun _ => recoverMember_shortens hleft
  unfold Reading.reading
  cases hres : (do report d; recoverMember : Routine Unit) b.toState with
  | ok _ s =>
    -- at a brace nothing had been read yet, so it is the block that is passed over
    refine ⟨hwalks.of_ok h hres, (hforward.of_ok hreads hres).1, fun hleft => ?_⟩
    exact (hmoves hleft).of_ok (congrArg Body.toState (hstays hleft)) hres
  | error e s => exact hwalks.of_error h hres

/-- Where nothing was read, the token that is passed over instead is no brace. -/
theorem advance_behind {b : Body} (h : BehindMember s₀ b₀ b) (hk : b₀.peek.kind ≠ .rightBrace)
    (hlength : b.rest.length = b₀.rest.length) :
    Along s₀ b.toState.advance ∧
      (b.rest.tail = [] ∨ b.rest.tail.length < b₀.rest.length) := by
  have hrest : b.rest = b₀.rest := h.reads.suffix.eq_of_length hlength
  cases hes : b.rest with
  | nil =>
    refine ⟨?_, .inl rfl⟩
    have hsame : b.toState.advance = b.toState := by rw [State.advance, hes, List.tail_nil, ← hes]
    rw [hsame]
    exact h.along
  | cons e es =>
    refine ⟨h.along.advance ?_, .inr ?_⟩
    · have hpeek : b.peek = b₀.peek := by
        rw [State.peek_of_rest hes, State.peek_of_rest (hrest ▸ hes)]
      rw [hpeek]
      cases hkind : b₀.peek.kind <;> try rfl
      -- at an opening brace the reader has moved, and a closing one is not here
      · rcases h.moves hkind with hnil | hless
        · simp [hes] at hnil
        · omega
      · exact absurd hkind hk
    · rw [List.tail_cons, ← hlength, hes, List.length_cons]
      exact Nat.lt_succ_self _

/-- **One member,** read or recovered from. The reader walks, it does not stay where it is, and it
does not give up. -/
theorem memberOrRecover (cfg : Setting) (hk : b₀.peek.kind ≠ .rightBrace) :
    Meets (fun b => b = b₀ ∧ Along s₀ b.toState) (Reading.memberOrRecover cfg)
      (fun _ b => Along s₀ b.toState ∧ (b.rest = [] ∨ b.rest.length < b₀.rest.length))
      (fun _ _ => False) := by
  refine Meets.bind Meets.get fun a => ?_
  refine Meets.assuming (fun b h => h.1.trans h.2.1) ?_
  rintro rfl
  refine Meets.bind (Meets.attempt ((member_behind cfg).of_pre fun _ h => h.2)) fun r => ?_
  extract_lets behind
  have hbehind : ∀ u, Meets (BehindMember s₀ a) (behind u)
      (fun _ b => Along s₀ b.toState ∧ (b.rest = [] ∨ b.rest.length < a.rest.length))
      (fun _ _ => False) := by
    intro _
    refine Meets.bind Meets.get fun b => ?_
    -- if nothing has been consumed, one token is passed over
    refine Meets.ite (fun hlength => ?_) fun hlength => Meets.pure ?_
    · rintro b' ⟨rfl, h⟩
      have hadvance : Yields (discard (Reading.reading advance)) b ()
          { b with toState := b.advance } :=
        Yields.advance.reading.discard
      rw [hadvance]
      exact advance_behind h hk hlength
    · rintro b' ⟨rfl, h⟩
      refine ⟨h.along, .inr ?_⟩
      have := h.reads.suffix.length_le
      omega
  cases r with
  | ok u => exact hbehind u
  | error d => exact Meets.bind (recover_behind d) hbehind

/-- **Bodies.** The reading of a body walks, does not give up, and ends in front of a closing brace
or at the end of the file. -/
theorem classBody (cfg : Setting) :
    Meets (fun b : Body => Along s₀ b.toState) (Reading.classBody cfg)
      (fun _ b => Along s₀ b.toState ∧
        (b.rest = [] ∨ b.peek.kind = .rightBrace ∨ b.peek.kind = .endOfText))
      (fun _ _ => False) := by
  -- every round that is not the last reads on, which is why the body is read to its end
  refine Meets.iterate (I := fun _ (b : Body) => Along s₀ b.toState) (fun _ b₀ => ?_) ()
  refine Meets.bind Meets.get fun b => ?_
  split
  case h_1 hright =>
    refine Meets.pure ?_
    rintro b' ⟨rfl, -, h⟩
    exact ⟨h, .inr (.inl hright)⟩
  case h_2 hend =>
    refine Meets.pure ?_
    rintro b' ⟨rfl, -, h⟩
    exact ⟨h, .inr (.inr hend)⟩
  case h_3 hright _ =>
    refine Meets.assuming (fun b' h => h.1.trans h.2.1) ?_
    rintro rfl
    refine Meets.bind ((memberOrRecover cfg hright).of_pre fun _ h => h.2) fun _ => ?_
    refine Meets.pure fun b' h => ⟨h.1, ?_⟩
    rcases h.2 with hnil | hless
    · exact .inr ⟨h.1, .inl hnil⟩
    · exact .inl hless

end BodyWalks

end Reading

end Introspect
