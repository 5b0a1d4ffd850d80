import Introspect.Proofs.Reading.WrittenTypes

/-!
# Where declared types are read

Wherever a type is declared, the token in front of it does not lead to the name of a member:
declared types are read behind parentheses and commas, behind modifiers, behind colons and behind
the word `const`. So their words are what the kinds of their tokens say.

* `At` is where the reading stands: in front of the last of some tokens of a text, with one of the
  scopes in question. The scopes are left open, as no routine of a class changes the scope
  (`KeepsScope`);
* `AtBehind` says which tokens are in front, and `AtType` that a type may be written there;
* `AtBehind.listOf` is the rule for lists whose items may begin with a type;
* `typeHint_read`: a type that is read there is a `DeclaredType`, with the tokens around it.
-/

namespace Introspect.Reading

/-- The significant tokens of a text. -/
abbrev entriesOf (text : String) : List Entry := (FileState.start text).rest

/-! ### Routines that stay in their scope -/

/-- A routine that leaves the scope as it is. -/
def KeepsScope {α : Type} (r : Routine α) : Prop :=
  ∀ scope, Keeps (fun s : State => s.scope = scope) (fun _ => True) (fun _ => True) r

namespace KeepsScope

variable {α β : Type}

theorem of_walks {r : Routine α} (h : ∀ s, Walks s r) : KeepsScope r := by
  rintro _ s rfl
  have hwalk := h s s (Along.refl s)
  cases hres : r s with
  | ok a s' =>
    rw [hres] at hwalk
    exact ⟨hwalk.scope_eq, trivial⟩
  | error d s' =>
    rw [hres] at hwalk
    exact ⟨hwalk.scope_eq, trivial⟩

theorem bind {r : Routine α} {k : α → Routine β} (hr : KeepsScope r) (hk : ∀ a, KeepsScope (k a)) :
    KeepsScope (r >>= k) := fun scope =>
  Keeps.bind (hr scope) fun a _ => hk a scope

theorem pure {a : α} : KeepsScope (Pure.pure a : Routine α) := fun _ => Keeps.pure trivial

theorem discard {r : Routine α} (hr : KeepsScope r) : KeepsScope (discard r) := fun scope =>
  Keeps.discard (hr scope)

theorem advance : KeepsScope advance := by
  rintro _ s rfl
  exact ⟨rfl, trivial⟩

theorem report (d : Diagnostic) : KeepsScope (report d) := by
  rintro _ s rfl
  exact ⟨rfl, trivial⟩

theorem peekKind : KeepsScope peekKind := fun _ _ hs => ⟨hs, trivial⟩

theorem eat (kind : Token.Kind) : KeepsScope (eat kind) := fun scope =>
  Keeps.bind (peekKind scope) fun _ _ =>
    Keeps.ite (fun _ => Keeps.bind (advance scope) fun _ _ => Keeps.pure trivial)
      fun _ => Keeps.pure trivial

theorem unexpected (wanted : String) : KeepsScope (unexpected wanted : Routine α) := fun _ =>
  Keeps.bind (fun _ hs => ⟨hs, trivial⟩) fun _ (_ : True) =>
    Keeps.ite (fun _ => Keeps.throw trivial) fun _ => Keeps.throw trivial

theorem expect (kind : Token.Kind) : KeepsScope (expect kind) := by
  refine (eat kind).bind fun o => ?_
  cases o with
  | some t => exact pure
  | none => exact unexpected _

/-- What is passed over changes no scope. -/
theorem skipTo (tail : List Entry → List Entry) : KeepsScope (skipTo tail) := by
  intro scope
  refine Keeps.bind (Keeps.modify fun s h => h) fun _ _ => ?_
  refine Keeps.bind (peekKind scope) fun k _ => ?_
  split
  · exact discard advance scope
  · refine Keeps.bind (Keeps.attempt (of_walks (fun _ => Walks.skipBlock) scope)) fun r _ => ?_
    cases r with
    | ok t => exact Keeps.pure trivial
    | error d => exact report d scope
  · exact Keeps.pure trivial

end KeepsScope

section States

variable {text : String} {es : List Entry} {P : Scope → Prop} {f : Frame} {s : State}

/-! ### Where a routine stands -/

/-- The tokens that remain are the last ones of `es`, and the scope is one of those in question. -/
structure At (es : List Entry) (P : Scope → Prop) (s : State) : Prop where
  within : Within es s
  scope : P s.scope

/-- The tokens in front are the first ones of `es`, and the last of them are of these kinds. -/
structure AtBehind (es : List Entry) (P : Scope → Prop) (kinds : List Token.Kind) (s : State) :
    Prop extends At es P s where
  behind : ∃ front, es = front ++ s.rest ∧ kinds <:+ front.map (·.kind)

/-- **Where a type may be written.** The token in front does not lead to the name of a member. -/
structure AtType (es : List Entry) (P : Scope → Prop) (s : State) : Prop extends At es P s where
  unled : ∃ front, es = front ++ s.rest ∧ Unled front

theorem At.report (h : At es P s) (d : Diagnostic) : At es P (s.report d) :=
  ⟨h.within.report d, h.scope⟩

theorem At.behind_nil (h : At es P s) : AtBehind es P [] s := by
  obtain ⟨front, hfront⟩ := h.within.suffix
  exact ⟨h, front, hfront.symm, List.nil_suffix⟩

/-- Behind the next token stands what was in front of it, and the token. -/
theorem AtBehind.advance {kinds : List Token.Kind} (h : AtBehind es P kinds s)
    (hend : s.peek.kind ≠ .endOfText) : AtBehind es P (kinds ++ [s.peek.kind]) s.advance := by
  cases hrest : s.rest with
  | nil => exact absurd (State.peek_of_rest_nil hrest ▸ h.within.eof_kind) hend
  | cons e rest =>
    rw [State.peek_of_rest hrest]
    obtain ⟨front, hfront, before, hkinds⟩ := h.behind
    refine ⟨⟨⟨(List.tail_suffix _).trans h.within.suffix, h.within.eof_kind⟩, h.scope⟩,
      front ++ [e], ?_, before, ?_⟩
    · rw [hfront, hrest, State.rest_advance, hrest, List.tail_cons, List.append_assoc]
      rfl
    · rw [← List.append_assoc, hkinds, List.map_append]
      rfl

/-- Behind a token a type may be written, unless that token leads to the name of a member. -/
theorem AtBehind.atType {kinds : List Token.Kind} {k : Token.Kind}
    (h : AtBehind es P (kinds ++ [k]) s) (hk : k.leadsToMember = false) : AtType es P s := by
  obtain ⟨front, hfront, before, hkinds⟩ := h.behind
  refine ⟨h.toAt, front, hfront, ?_⟩
  -- the last of the kinds is that of the last token
  have hlast : (front.map (·.kind)).getLast? = some k := by
    rw [← hkinds, ← List.append_assoc, List.getLast?_concat]
  rw [List.getLast?_map] at hlast
  obtain ⟨e, he, rfl⟩ := Option.map_eq_some_iff.mp hlast
  exact ⟨e, he, hk⟩

theorem At.advance (h : At es P s) (hk : s.peek.kind.leadsToMember = false)
    (hend : s.peek.kind ≠ .endOfText) : AtType es P s.advance :=
  (h.behind_nil.advance hend).atType hk

/-- A routine that yields something good. Whether or not it gives up, it ends among the tokens, with
one of the scopes in question. -/
abbrev GivesAt {α : Type} (es : List Entry) (P : Scope → Prop) (pre : State → Prop)
    (good : α → Prop) (r : Routine α) : Prop :=
  Meets pre r (fun a s => good a ∧ At es P s) (fun _ => At es P)

/-- A routine of which no more is known than where it ends. -/
abbrev EndsAt {α : Type} (es : List Entry) (P : Scope → Prop) (pre : State → Prop)
    (r : Routine α) : Prop :=
  Meets pre r (fun _ => At es P) (fun _ => At es P)

/-- A routine that may begin at every token. -/
abbrev KeepsAt {α : Type} (es : List Entry) (P : Scope → Prop) (r : Routine α) : Prop :=
  EndsAt es P (At es P) r

namespace KeepsAt

variable {α : Type}

/-- A routine that reads forward and leaves the scope as it is may begin anywhere. -/
theorem of_keepsScope {r : Routine α} {good : State → α → Prop} (hr : ∀ s, Forward s (good s) r)
    (hscope : KeepsScope r) : KeepsAt es P r := by
  intro s hs
  have hreads := hr s s (Reads.refl s)
  have hsame := hscope s.scope s rfl
  -- either way it ends further on, in the same scope
  have hkeep : ∀ s', Reads s s' → s'.scope = s.scope → At es P s' := fun s' h h' =>
    ⟨Within.stable hs.within h, h' ▸ hs.scope⟩
  cases hres : r s with
  | ok a s' =>
    rw [hres] at hreads hsame
    exact hkeep s' hreads.1 hsame.1
  | error d s' =>
    rw [hres] at hreads hsame
    exact hkeep s' hreads.1 hsame.1

theorem of_walks {r : Routine α} {good : State → α → Prop} (hr : ∀ s, Forward s (good s) r)
    (hwalks : ∀ s, Walks s r) : KeepsAt es P r :=
  of_keepsScope hr (.of_walks hwalks)

theorem pure {a : α} : KeepsAt es P (Pure.pure a : Routine α) := Meets.pure fun _ h => h

theorem advance : KeepsAt es P advance := of_keepsScope (fun _ => Forward.advance) .advance

theorem report (d : Diagnostic) : KeepsAt es P (report d) := Meets.modify fun _ h => h.report d

theorem eat (kind : Token.Kind) : KeepsAt es P (eat kind) :=
  of_keepsScope (fun _ => Forward.eat kind) (.eat kind)

theorem expect (kind : Token.Kind) : KeepsAt es P (expect kind) :=
  of_keepsScope (fun _ => Forward.expect kind) (.expect kind)

theorem comma : KeepsAt es P comma := Meets.bind (eat _) fun _ => pure

theorem skipTo {tail : List Entry → List Entry} (htail : ∀ es, tail es <:+ es) :
    KeepsAt es P (skipTo tail) :=
  of_keepsScope (fun _ => Forward.skipTo htail) (.skipTo tail)

theorem skipStatement : KeepsAt es P skipStatement := skipTo (statementEnd_suffix 0)

theorem skipAttributes : KeepsAt es P skipAttributes :=
  of_walks (fun _ => Forward.skipAttributes) fun _ => Walks.skipAttributes

end KeepsAt

section Tokens

variable {kind : Token.Kind} {bad : Diagnostic → State → Prop}

theorem AtType.advance {pre : State → Prop} (hpre : ∀ s, pre s → At es P s)
    (hk : ∀ s, pre s → s.peek.kind.leadsToMember = false ∧ s.peek.kind ≠ .endOfText) :
    Meets pre advance (fun _ => AtType es P) bad := fun s hs =>
  (hpre s hs).advance (hk s hs).1 (hk s hs).2

theorem AtBehind.eat {kinds : List Token.Kind} (hend : kind ≠ .endOfText) :
    Meets (AtBehind es P kinds) (eat kind)
      (fun o s => if o.isSome then AtBehind es P (kinds ++ [kind]) s else AtBehind es P kinds s)
      bad := by
  refine Meets.bind Meets.peekKind fun k => ?_
  refine Meets.ite ?_ fun _ => Meets.pure fun _ h => h.2
  rintro rfl
  have hadvance : Meets (fun s => k = s.peek.kind ∧ AtBehind es P kinds s) Reading.advance
      (fun _ => AtBehind es P (kinds ++ [k])) bad := by
    rintro s ⟨rfl, h⟩
    exact h.advance hend
  exact Meets.bind hadvance fun _ => Meets.pure fun _ h => h

theorem AtBehind.expect {kinds : List Token.Kind} (hend : kind ≠ .endOfText) :
    Meets (AtBehind es P kinds) (expect kind) (fun _ => AtBehind es P (kinds ++ [kind]))
      (fun _ => At es P) := by
  refine Meets.bind (AtBehind.eat hend) fun o => ?_
  cases o with
  | none => exact (Meets.unexpected _).weaken (fun _ h => h) (fun _ _ h => h) fun _ _ h => h.toAt
  | some t => exact Meets.pure fun _ h => h

theorem AtType.eat (hk : kind.leadsToMember = false) (hend : kind ≠ .endOfText) :
    Meets (At es P) (eat kind)
      (fun o s => if o.isSome then AtType es P s else At es P s) bad := by
  refine (AtBehind.eat hend).weaken (fun _ h => h.behind_nil) ?_ fun _ _ h => h
  rintro (- | t) s h
  · exact h.toAt
  · exact h.atType hk

theorem AtType.comma :
    Meets (At es P) comma (fun b s => if b then AtType es P s else At es P s) bad :=
  Meets.bind (AtType.eat rfl (by decide)) fun _ => Meets.pure fun _ h => h

theorem AtType.commaBefore (close : Token.Kind) :
    Meets (At es P) (commaBefore close)
      (fun b s => if b then AtType es P s else At es P s) bad := by
  refine Meets.bind AtType.comma fun b => ?_
  refine Meets.ite (fun hb => ?_) fun hb => Meets.pure fun _ h => by simpa [hb] using h
  refine Meets.bind Meets.peekKind fun k => Meets.pure fun s h => ?_
  have hs : AtType es P s := by simpa [hb] using h.2
  split
  · exact hs
  · exact hs.toAt

/-- In a list, every item may begin with a type if behind a comma a type may be written. What is
known of the items so far, `I`, is known of all of them in the end. -/
theorem AtType.listOf_known {α : Type} {item : Routine α} {more : Routine Bool}
    {I : List α → State → Prop}
    (hitem : ∀ as, Meets (fun s => AtType es P s ∧ I as s) item
      (fun a s => At es P s ∧ I (as ++ [a]) s) (fun _ => At es P))
    (hmore : ∀ as, Meets (fun s => At es P s ∧ I as s) more
      (fun b s => (if b then AtType es P s else At es P s) ∧ I as s) (fun _ => At es P)) :
    Meets (fun s => AtType es P s ∧ I [] s) (listOf item more) (fun as s => At es P s ∧ I as s)
      (fun _ => At es P) := by
  have hround : ∀ as, Meets (fun s => AtType es P s ∧ I as s) (listRound item more as)
      (fun
        | .done as' => fun s => At es P s ∧ I as' s
        | .yield as' => fun s => AtType es P s ∧ I as' s) (fun _ => At es P) := by
    intro as
    refine Meets.bind (hitem as) fun a => Meets.bind (hmore _) fun b => ?_
    -- where the list goes on, a comma has been read
    cases b with
    | true => exact Meets.pure fun s h => ⟨by simpa using h.1, h.2⟩
    | false => exact Meets.pure fun s h => ⟨by simpa using h.1, h.2⟩
  refine Meets.iterate (I := fun as s => AtType es P s ∧ I as s)
    (fun as s₀ => ((hround as).of_pre fun _ h => h.2).to_post ?_) []
  rintro (as' | as') s h
  · exact h
  · exact ⟨h, .inr ⟨h.1.toAt, h.2⟩⟩

theorem AtType.listOf {α : Type} {item : Routine α} {more : Routine Bool} {good : α → Prop}
    (hitem : GivesAt es P (AtType es P) good item)
    (hmore : Meets (At es P) more (fun b s => if b then AtType es P s else At es P s)
      (fun _ => At es P)) :
    GivesAt es P (AtType es P) (fun as => ∀ a ∈ as, good a) (listOf item more) := by
  refine (AtType.listOf_known (I := fun as _ => ∀ a ∈ as, good a) (fun as => ?_)
    fun as => ?_).weaken (fun _ h => ⟨h, nofun⟩) (fun _ _ h => ⟨h.2, h.1⟩) fun _ _ h => h
  · refine Meets.assuming (fun _ h => h.2) fun has => ?_
    refine (hitem.of_pre fun _ h => h.1).to_post fun a s h => ⟨h.2, ?_⟩
    exact List.forall_mem_append.mpr ⟨has, List.forall_mem_singleton.mpr h.1⟩
  · refine Meets.assuming (fun _ h => h.2) fun has => ?_
    exact (hmore.of_pre fun _ h => h.1).to_post fun _ _ h => ⟨h, has⟩

end Tokens

/-! ### What may stand in front of a type -/

/-- Behind attributes there is what was in front of them, or the bracket that closes the last. -/
theorem passAttributes_behind {inside : Option (Token × Nat)} {es rest : List Entry}
    (h : passAttributes inside es = .ok rest) :
    inside = none ∧ rest = es ∨ ∃ l e, es = l ++ e :: rest ∧ e.kind = .rightBracket := by
  fun_induction passAttributes inside es with
  | case1 => exact .inl ⟨rfl, (Except.ok.inj h).symm⟩
  | case2 => cases h
  | case4 => exact .inl ⟨rfl, (Except.ok.inj h).symm⟩
  | case7 e es _ hk ih =>
    -- the attribute ends here, and possibly another one begins
    rcases ih h with ⟨-, rfl⟩ | ⟨l, e', rfl, he'⟩
    · exact .inr ⟨[], e, rfl, hk⟩
    · exact .inr ⟨e :: l, e', rfl, he'⟩
  | case3 e es _ ih | case5 e es _ _ _ ih | case6 e es _ _ _ ih | case8 e es _ _ _ ih
  | case9 e es _ _ _ _ _ ih =>
    rcases ih h with ⟨hinside, -⟩ | ⟨l, e', rfl, he'⟩
    · cases hinside
    · exact .inr ⟨e :: l, e', rfl, he'⟩

/-- Attributes may stand in front of a type. -/
theorem AtType.skipAttributes :
    Meets (AtType es P) skipAttributes (fun _ => AtType es P) (fun _ => At es P) := by
  refine Meets.bind Meets.get fun a => ?_
  cases hres : passAttributes none a.rest with
  | error opening =>
    refine Meets.bind (Meets.set (q := At es P) ?_) fun _ => Meets.throw fun _ h => h
    -- what is never closed leaves no tokens
    rintro s ⟨rfl, h⟩
    exact ⟨⟨List.nil_suffix, h.within.eof_kind⟩, h.scope⟩
  | ok rest =>
    refine Meets.set ?_
    rintro s ⟨rfl, h⟩
    have hsuffix := (passAttributes_suffix hres).trans h.within.suffix
    refine ⟨⟨⟨hsuffix, h.within.eof_kind⟩, h.scope⟩, ?_⟩
    obtain ⟨front, hfront, hunled⟩ := h.unled
    -- a type stands behind the bracket of the last attribute, or where it stood without attributes
    rcases passAttributes_behind hres with ⟨-, rfl⟩ | ⟨l, e, heq, he⟩
    · exact ⟨front, hfront, hunled⟩
    · refine ⟨front ++ l ++ [e], by simp [hfront, heq], e, List.getLast?_concat, ?_⟩
      rw [he]
      rfl

/-- Modifiers may stand in front of a type. -/
theorem AtType.promotion :
    Meets (AtType es P) promotion (fun _ => AtType es P) (fun _ => At es P) := by
  refine Meets.iterate_same (I := fun _ => AtType es P) (fun current => ?_) _
  refine Meets.bind Meets.peekKind fun k => ?_
  cases hmod : promotionOf? k with
  | none => exact Meets.pure fun _ h => h.2
  | some new =>
    refine Meets.bind (Meets.discard (AtType.advance (fun _ h => h.2.toAt) ?_)) fun _ =>
      Meets.pure fun _ h => h
    rintro s ⟨rfl, -⟩
    cases hk : s.peek.kind <;> rw [hk] at hmod <;> first | decide | exact nomatch hmod

/-- Behind modifiers in front of a member, a type may be written. -/
theorem AtType.modifiers :
    Meets (At es P) modifiers (fun m s => At es P s ∧ (m.isEmpty = false → AtType es P s))
      (fun _ => At es P) := by
  let I : Modifiers → State → Prop := fun m s => At es P s ∧ (m.isEmpty = false → AtType es P s)
  refine (Meets.iterate_same (I := I) (fun current => ?_) Modifiers.empty).of_pre fun _ h =>
    ⟨h, nofun⟩
  refine Meets.bind Meets.peek fun t => ?_
  cases hmod : modifierOf? t.kind with
  | none => exact Meets.pure fun _ h => h.2
  | some new =>
    refine Meets.bind (Meets.discard (AtType.advance (fun _ h => h.2.1) ?_)) fun _ => ?_
    · rintro s ⟨rfl, -⟩
      cases hk : s.peek.kind <;> rw [hk] at hmod <;> first | decide | exact nomatch hmod
    cases modifierFault? current new t with
    | none => exact Meets.pure fun _ h => ⟨h.toAt, fun _ => h⟩
    | some d =>
      refine Meets.bind (Meets.modify (q := AtType es P) fun s h => ?_) fun _ =>
        Meets.pure fun _ h => ⟨h.toAt, fun _ => h⟩
      exact ⟨h.toAt.report d, h.unled⟩

/-- **A declared type** that has been read, in front of `behind`. Its leaves stand for the words of
its tokens, in one of the scopes in question, and the tokens in front of it end with these kinds. -/
def DeclaredType (es : List Entry) (P : Scope → Prop) (f : Frame) (kinds : List Token.Kind)
    (hint : TypeHint) (behind : List Entry) : Prop :=
  ∃ scope front l, P scope ∧ WrittenAt es front l behind ∧ kinds <:+ front.map (·.kind) ∧
    List.Forall₂ (f.Denotes scope) ((typeWords l).map (·.lexeme)) hint.leaves

/-- **Declared types** are written where they may be. -/
theorem typeHint_read (hes : es <:+ entriesOf text) (f : Frame) (kinds : List Token.Kind) :
    Meets (fun s => AtType es P s ∧ AtBehind es P kinds s) (typeHint f)
      (fun hint s => At es P s ∧ DeclaredType es P f kinds hint s.rest) (fun _ => At es P) := by
  rintro s ⟨hs, hbehind⟩
  -- the tokens that are read for the type are those between the two places
  obtain ⟨front, hfront, hunled⟩ := hs.unled
  obtain ⟨front', hfront', hkinds⟩ := hbehind.behind
  obtain rfl := List.append_cancel_right (hfront.symm.trans hfront')
  have htypes : ReadsTypes f s.scope s.rest [] (fun hint => [hint]) (typeHint f) :=
    ReadsTypes.typeHint
  have hread := htypes s ⟨hs.within.eof_kind, rfl, [], rfl, nofun, .nil⟩
  have hkeeps : KeepsAt es P (typeHint f) :=
    KeepsAt.of_walks (fun _ => Forward.typeHint f) fun _ => Walks.typeHint f
  have hstays := hkeeps s hs.toAt
  cases hres : typeHint f s with
  | error d s' =>
    rw [hres] at hstays
    exact hstays
  | ok hint s' =>
    rw [hres] at hread hstays
    obtain ⟨l, hl, hlkinds, hleaves⟩ := hread.tokens
    have hwritten : WrittenAt es front l s'.rest :=
      ⟨by rw [hfront, hl, List.append_assoc], hunled, hlkinds⟩
    rw [TypeHint.leavesAll_singleton] at hleaves
    -- in all the tokens of the text, the words are told apart by what stands in front
    obtain ⟨front', hwritten'⟩ := hwritten.of_suffix hes
    exact ⟨hstays, s.scope, front, l, hs.scope, hwritten, hkinds, hwritten'.denotes hleaves⟩

end States

end Introspect.Reading
