import Introspect.Reading.File
import Introspect.Proofs.Reading.Contract

/-!
# Routines read forward

Every routine of the reader moves forward in the tokens it was given, keeps the token at the end of
the file, takes nothing back of what has been reported, and **reports at tokens only**: the place of
a diagnostic is that of a token which was still to be read when the routine began, or the end of the
file, and a delimiter that is reported as mismatched is one of those tokens (`State.MayReport`).
`Reads s₀ s` says this of a state `s` that was reached from `s₀`, and `Forward s₀ good r` of a
routine, wherever between `s₀` and its end it is run.

The rules of `Keeps` take a proof along the text of a routine, so there is one short lemma for each
routine, and a routine that changes touches its own lemma alone. Tokens that a routine yields are
tokens that `s₀` has in front of it (`State.Sees`), so they may be reported at later on.
-/

namespace Introspect.Reading

/-- The places in front of a state: those of the tokens that remain, and the end of the file. -/
def State.Sees (s : State) (span : Span) : Prop :=
  span = s.eof.span ∨ ∃ e ∈ s.rest, span = e.token.span

/-- What is said of an attribute or of a block in front of a state that is never closed. -/
inductive State.Unclosed (s : State) : Diagnostic → Prop where
  | openAttribute {opening : Entry} : opening ∈ s.rest → opening.kind = .attributeOpen →
    s.Unclosed ⟨.mismatchedDelimiter, opening.token.span, "attribute is never closed"⟩
  | openBlock {opening : Entry} {es : List Entry} : opening :: es <:+ s.rest →
    opening.kind = .leftBrace → closeBlock 0 es = none →
    s.Unclosed ⟨.mismatchedDelimiter, opening.token.span, "'\x7b' is never closed"⟩

/-- What may be reported from a state on: it is about a place in front of the state, a mismatched
delimiter is never closed indeed, and no field has been written twice. -/
structure State.MayReport (s : State) (d : Diagnostic) : Prop where
  sees : s.Sees d.span
  unclosed : s.eof.kind = .endOfText → d.kind = .mismatchedDelimiter → s.Unclosed d
  written : d.kind ≠ .duplicateInitialization

/-- **Reading forward.** `s` is reached from `s₀` by reading tokens, and what was reported on the
way may be reported from `s₀` on. -/
structure Reads (s₀ s : State) : Prop where
  suffix : s.rest <:+ s₀.rest
  eof_eq : s.eof = s₀.eof
  reported : ∃ ds, s.diagnostics = s₀.diagnostics ++ ds ∧ ∀ d ∈ ds, s₀.MayReport d

/-- A routine that reads forward from `s₀` on. -/
abbrev Forward {α : Type} (s₀ : State) (good : α → Prop) (r : Routine α) : Prop :=
  Keeps (Reads s₀) s₀.MayReport good r

/-- The body of a class is read forward from `s₀` on. Meanwhile the line on which the class ends
stays as it is, which is not written as long as the body is read. -/
structure BodyReads (s₀ : State) (endLine : Option Nat) (b : Body) : Prop where
  reads : Reads s₀ b.toState
  endLine_eq : b.draft.endLine = endLine

/-- A routine that reads forward from `s₀` on, and may add to a class. -/
abbrev BodyForward {α : Type} (s₀ : State) (endLine : Option Nat) (good : α → Prop)
    (r : BodyRoutine α) : Prop :=
  Keeps (BodyReads s₀ endLine) s₀.MayReport good r

/-- Whatever the routine yields is good, wherever it is run. -/
abbrev Gives {α : Type} (good : α → Prop) (r : Routine α) : Prop :=
  Keeps (fun _ => True) (fun _ => True) good r

/-! ### States -/

section Reads

variable {s₀ s : State}

theorem Reads.refl (s : State) : Reads s s :=
  ⟨List.suffix_refl _, rfl, [], by simp, by simp⟩

theorem Reads.sees_of_mem (h : Reads s₀ s) {e : Entry} (he : e ∈ s.rest) :
    s₀.Sees e.token.span :=
  .inr ⟨e, h.suffix.subset he, rfl⟩

theorem Reads.sees_eof (h : Reads s₀ s) : s₀.Sees s.eof.span :=
  .inl (by rw [h.eof_eq])

theorem Reads.sees_peekAt (h : Reads s₀ s) (n : Nat) : s₀.Sees (s.peekAt n).span := by
  unfold State.peekAt
  cases hn : s.rest[n]? with
  | none => exact h.sees_eof
  | some e => exact h.sees_of_mem (List.mem_of_getElem? hn)

theorem Reads.sees_peek (h : Reads s₀ s) : s₀.Sees s.peek.span := h.sees_peekAt 0

theorem Reads.to_suffix (h : Reads s₀ s) {rest : List Entry} (hrest : rest <:+ s.rest) :
    Reads s₀ { s with rest } :=
  ⟨hrest.trans h.suffix, h.eof_eq, h.reported⟩

theorem Reads.advance (h : Reads s₀ s) : Reads s₀ s.advance :=
  h.to_suffix (List.tail_suffix _)

theorem Reads.to_scope (h : Reads s₀ s) (scope : Scope) : Reads s₀ { s with scope } :=
  ⟨h.suffix, h.eof_eq, h.reported⟩

/-- What a diagnostic is about, if it is neither about a delimiter nor about a field. -/
def IsPlain (kind : Diagnostic.Kind) : Prop :=
  kind ≠ .mismatchedDelimiter ∧ kind ≠ .duplicateInitialization

/-- All that is neither about delimiters nor about fields may be reported at a place in front. -/
theorem State.Sees.mayReport {d : Diagnostic} (h : s₀.Sees d.span) (hkind : IsPlain d.kind) :
    s₀.MayReport d :=
  ⟨h, fun _ hk => absurd hk hkind.1, hkind.2⟩

/-- The next token may be reported as the beginning of a block that is never closed, if it is
that. -/
theorem Reads.mayReport_block (h : Reads s₀ s) (hk : s.peek.kind = .leftBrace)
    (hclose : closeBlock 0 s.rest.tail = none) :
    s₀.MayReport ⟨.mismatchedDelimiter, s.peek.span, "'\x7b' is never closed"⟩ := by
  refine ⟨h.sees_peek, fun heof _ => ?_, nofun⟩
  cases hrest : s.rest with
  | nil =>
    -- the end of the file is no brace
    rw [State.peek_of_rest_nil hrest, h.eof_eq, heof] at hk
    exact absurd hk (by decide)
  | cons opening es =>
    rw [State.peek_of_rest hrest] at hk ⊢
    rw [hrest, List.tail_cons] at hclose
    exact .openBlock (hrest ▸ h.suffix) hk hclose

theorem Reads.report (h : Reads s₀ s) {d : Diagnostic} (hd : s₀.MayReport d) :
    Reads s₀ (s.report d) := by
  obtain ⟨ds, heq, hds⟩ := h.reported
  refine ⟨h.suffix, h.eof_eq, ds ++ [d], ?_, ?_⟩
  · rw [State.report, heq, List.append_assoc]
  · intro d' hd'
    rcases List.mem_append.mp hd' with hd' | hd'
    · exact hds d' hd'
    · rw [List.mem_singleton.mp hd']
      exact hd

end Reads

/-- What is known of a value that is yielded from any state on. -/
theorem Forward.gives {α : Type} {r : Routine α} {good : State → α → Prop} {good' : α → Prop}
    (hr : ∀ s, Forward s (good s) r) (h : ∀ s a, good s a → good' a) : Gives good' r := by
  intro s _
  cases hres : r s with
  | ok a s' => exact ⟨trivial, h s a ((hr s).of_ok (Reads.refl s) hres).2⟩
  | error e s' => exact ⟨trivial, trivial⟩

/-! ### Single tokens -/

/-- What is known of every item is known of the whole list. -/
theorem Keeps.listOf {α : Type} {inv : State → Prop} {bad : Diagnostic → Prop} {item : Routine α}
    {more : Routine Bool} {good : α → Prop} (hitem : Keeps inv bad good item)
    (hmore : Keeps inv bad (fun _ => True) more) :
    Keeps inv bad (fun l : List α => ∀ a ∈ l, good a) (listOf item more) := by
  -- what is known of the items read so far goes from round to round
  refine Keeps.iterate (fun items hitems => ?_) (by simp)
  refine Keeps.bind hitem fun a ha => ?_
  refine Keeps.bind hmore fun b _ => Keeps.pure ?_
  have hall : ∀ x ∈ items ++ [a], good x := by
    intro x hx
    rcases List.mem_append.mp hx with hx | hx
    · exact hitems x hx
    · rw [List.mem_singleton.mp hx]
      exact ha
  cases b <;> exact hall

namespace Forward

variable {s₀ : State} {α β : Type}

theorem peek : Forward s₀ (fun t : Token => s₀.Sees t.span) peek :=
  Keeps.bind Keeps.get fun _ hs => Keeps.pure hs.sees_peek

theorem peekKind : Forward s₀ (fun _ => True) peekKind :=
  Keeps.bind Keeps.get fun _ _ => Keeps.pure trivial

theorem advance : Forward s₀ (fun t : Token => s₀.Sees t.span) advance := by
  refine Keeps.bind Keeps.get fun s hs => ?_
  refine Keeps.bind (Keeps.set hs.advance) fun _ _ => ?_
  exact Keeps.pure hs.sees_peek

/-- A routine that consumes a token and reads forward from there. -/
def Behind (r : Routine α) : Prop :=
  ∃ r', r = (do discard Reading.advance; r') ∧ ∀ s, Forward s (fun _ => True) r'

theorem Behind.forward {r : Routine α} (h : Behind r) : Forward s₀ (fun _ => True) r := by
  obtain ⟨r', rfl, hr'⟩ := h
  exact Keeps.bind (Keeps.discard advance) fun _ _ => hr' s₀

theorem eat (kind : Token.Kind) :
    Forward s₀ (fun o : Option Token => ∀ t ∈ o, s₀.Sees t.span) (eat kind) := by
  refine Keeps.bind peekKind fun k _ => ?_
  -- a token of another kind stays, and nothing is yielded
  refine Keeps.ite (fun _ => ?_) fun _ => Keeps.pure (by simp)
  refine Keeps.bind advance fun t ht => Keeps.pure ?_
  intro u hu
  rw [← Option.mem_some.mp hu]
  exact ht

theorem report {d : Diagnostic} (hd : s₀.MayReport d) :
    Forward s₀ (fun _ => True) (report d) :=
  Keeps.modify fun _ hs => hs.report hd

theorem unexpected {good : α → Prop} (wanted : String) :
    Forward s₀ good (unexpected wanted) := by
  refine Keeps.bind peek fun t ht => ?_
  -- the end of the file is told apart in the text, not in the place
  exact Keeps.ite (fun _ => Keeps.throw (ht.mayReport ⟨nofun, nofun⟩)) fun _ =>
    Keeps.throw (ht.mayReport ⟨nofun, nofun⟩)

theorem unexpectedName {good : α → Prop} : Forward s₀ good unexpectedName :=
  Keeps.bind peek fun _ ht => Keeps.throw (ht.mayReport ⟨nofun, nofun⟩)

theorem expect (kind : Token.Kind) :
    Forward s₀ (fun t : Token => s₀.Sees t.span) (expect kind) := by
  refine Keeps.bind (eat kind) fun o ho => ?_
  cases o with
  | none => exact unexpected _
  | some t => exact Keeps.pure (ho t rfl)

/-- What a draft refuses may be reported, unless it is to write a field a second time. -/
theorem write {span : Span} (hspan : s₀.Sees span) {draft : α} {f : α → Except DraftError α}
    (hf : ∀ e, f draft = .error e → e.kind ≠ .duplicateInitialization) :
    Forward s₀ (fun draft' => f draft = .ok draft' ∨ draft' = draft) (write span draft f) := by
  unfold Reading.write
  cases hdraft : f draft with
  | ok draft' => exact Keeps.pure (.inl rfl)
  | error e =>
    have hrefused : s₀.MayReport (.ofDraft e span) := by
      refine State.Sees.mayReport hspan ⟨?_, hf e hdraft⟩
      cases e <;> exact nofun
    exact Keeps.bind (report hrefused) fun _ _ => Keeps.pure (.inr rfl)

theorem listOf {item : Routine α} {more : Routine Bool} {good : α → Prop}
    (hitem : Forward s₀ good item) (hmore : Forward s₀ (fun _ => True) more) :
    Forward s₀ (fun l : List α => ∀ a ∈ l, good a) (listOf item more) :=
  Keeps.listOf hitem hmore

theorem comma : Forward s₀ (fun _ => True) comma :=
  Keeps.bind (eat _) fun _ _ => Keeps.pure trivial

theorem commaBefore (close : Token.Kind) : Forward s₀ (fun _ => True) (commaBefore close) := by
  refine Keeps.bind comma fun b _ => ?_
  refine Keeps.ite (fun _ => ?_) fun _ => Keeps.pure trivial
  exact Keeps.bind peekKind fun _ _ => Keeps.pure trivial

theorem docSince (start : List Entry) : Forward s₀ (fun _ => True) (docSince start) :=
  Keeps.bind Keeps.get fun _ _ => Keeps.pure trivial

end Forward

/-! ### Walks over tokens -/

/-- What closes a block is an entry, and the tokens behind the block are those behind that entry. -/
theorem closeBlock_split {depth : Nat} {es rest : List Entry} {closing : Token}
    (h : closeBlock depth es = some (closing, rest)) :
    ∃ before e, es = before ++ e :: rest ∧ e.token = closing := by
  induction es generalizing depth with
  | nil => exact absurd h (by simp [closeBlock])
  | cons e es ih =>
    -- a deeper brace is found among the tokens behind `e`
    have hdeeper : ∀ d, closeBlock d es = some (closing, rest) →
        ∃ before e', e :: es = before ++ e' :: rest ∧ e'.token = closing := by
      intro d hd
      obtain ⟨before, e', heq, htoken⟩ := ih hd
      exact ⟨e :: before, e', by rw [heq]; rfl, htoken⟩
    unfold closeBlock at h
    split at h
    · exact hdeeper _ h
    · -- a closing brace ends the block at depth zero, where `e` is what was looked for
      cases depth with
      | zero =>
        obtain ⟨rfl, rfl⟩ := Prod.mk.inj (Option.some.inj h)
        exact ⟨[], e, rfl, rfl⟩
      | succ d => exact hdeeper d h
    · exact hdeeper _ h

theorem closeBlock_spec {depth : Nat} {es rest : List Entry} {closing : Token}
    (h : closeBlock depth es = some (closing, rest)) :
    rest <:+ es ∧ ∃ e ∈ es, e.token = closing := by
  obtain ⟨before, e, rfl, htoken⟩ := closeBlock_split h
  refine ⟨?_, e, by simp, htoken⟩
  exact (List.suffix_cons e rest).trans (List.suffix_append before _)

theorem passAttributes_suffix {inside : Option (Token × Nat)} {es rest : List Entry}
    (h : passAttributes inside es = .ok rest) : rest <:+ es := by
  fun_induction passAttributes inside es with
  | case1 => exact Except.ok.inj h ▸ List.suffix_refl _
  | case2 => exact absurd h (by simp)
  | case4 => exact Except.ok.inj h ▸ List.suffix_refl _
  -- in all other cases the walk goes on behind the first token
  | case3 e es _ ih | case5 e es _ _ _ ih | case6 e es _ _ _ ih | case7 e es _ _ ih
  | case8 e es _ _ _ ih | case9 e es _ _ _ _ _ ih =>
    exact (ih h).trans (List.suffix_cons e es)

/-- The opening token of an attribute that is never closed is the one the walk began inside of, or
one that it met. -/
theorem passAttributes_opening {inside : Option (Token × Nat)} {es : List Entry} {opening : Token}
    (h : passAttributes inside es = .error opening) :
    (∃ n, inside = some (opening, n)) ∨ ∃ e ∈ es, e.token = opening ∧ e.kind = .attributeOpen := by
  fun_induction passAttributes inside es with
  | case1 => exact absurd h (by simp)
  | case2 o n => exact .inl ⟨n, by rw [Except.error.inj h]⟩
  | case4 => exact absurd h (by simp)
  | case3 e es hk ih =>
    rcases ih h with ⟨n, hn⟩ | ⟨e', he', htoken⟩
    · exact .inr ⟨e, List.mem_cons_self, (Prod.mk.inj (Option.some.inj hn)).1, hk⟩
    · exact .inr ⟨e', List.mem_cons_of_mem e he', htoken⟩
  | case7 e es _ _ ih =>
    rcases ih h with ⟨n, hn⟩ | ⟨e', he', htoken⟩
    · exact absurd hn (by simp)
    · exact .inr ⟨e', List.mem_cons_of_mem e he', htoken⟩
  -- the attribute stays open, and its opening token stays the same
  | case5 e es o m _ ih | case6 e es o m _ ih | case8 e es o _ m ih | case9 e es o m _ _ _ ih =>
    rcases ih h with ⟨n, hn⟩ | ⟨e', he', htoken⟩
    · exact .inl ⟨_, by rw [(Prod.mk.inj (Option.some.inj hn)).1]⟩
    · exact .inr ⟨e', List.mem_cons_of_mem e he', htoken⟩

theorem statementEnd_suffix (nesting : Nat) (es : List Entry) : statementEnd nesting es <:+ es := by
  induction es generalizing nesting with
  | nil => exact List.suffix_refl _
  | cons e es ih =>
    have hbehind : ∀ n, statementEnd n es <:+ e :: es := fun n =>
      (ih n).trans (List.suffix_cons e es)
    rw [statementEnd]
    split <;> try exact hbehind _
    -- a semicolon or a brace, which ends a statement outside of all brackets only
    all_goals
      split_ifs
      · exact List.suffix_refl _
      · exact hbehind _

theorem bodyStart_suffix (parens : Nat) (es : List Entry) : bodyStart parens es <:+ es := by
  induction es generalizing parens with
  | nil => exact List.suffix_refl _
  | cons e es ih =>
    have hbehind : ∀ n, bodyStart n es <:+ e :: es := fun n =>
      (ih n).trans (List.suffix_cons e es)
    rw [bodyStart]
    split
    · exact List.suffix_refl _
    · split_ifs
      · exact List.suffix_refl _
      · exact hbehind _
    · exact hbehind _
    · split_ifs
      · exact List.suffix_refl _
      · exact hbehind _
    · exact hbehind _

/-- A value is made of the tokens in front of those that remain. -/
theorem splitInitializer_split (stops : List Token.Kind) (nesting : Nat) (es : List Entry) :
    ∃ value, es = value ++ (splitInitializer stops nesting es).2 ∧
      value.map (·.token) = (splitInitializer stops nesting es).1 := by
  induction es generalizing nesting with
  | nil => exact ⟨[], rfl, rfl⟩
  | cons e es ih =>
    rw [splitInitializer]
    split_ifs with hstop
    · exact ⟨[], rfl, rfl⟩
    · cases bracketsAfter e.kind nesting with
      | none => exact ⟨[], rfl, rfl⟩
      | some n =>
        obtain ⟨value, heq, htokens⟩ := ih n
        exact ⟨e :: value, congrArg (e :: ·) heq, congrArg (e.token :: ·) htokens⟩

theorem splitInitializer_spec (stops : List Token.Kind) (nesting : Nat) (es : List Entry) :
    (splitInitializer stops nesting es).2 <:+ es ∧
      ∀ t ∈ (splitInitializer stops nesting es).1, ∃ e ∈ es, e.token = t := by
  obtain ⟨value, heq, htokens⟩ := splitInitializer_split stops nesting es
  refine ⟨⟨value, heq.symm⟩, fun t ht => ?_⟩
  rw [← htokens] at ht
  obtain ⟨e, he, htoken⟩ := List.mem_map.mp ht
  refine ⟨e, ?_, htoken⟩
  rw [heq]
  exact List.mem_append_left _ he

/-! ### Routines that pass over tokens -/

namespace Forward

variable {s₀ : State}

theorem skipBlock : Forward s₀ (fun t : Token => s₀.Sees t.span) skipBlock := by
  intro s hs
  by_cases hk : s.peek.kind = .leftBrace
  · cases hclose : closeBlock 0 s.rest.tail with
    | none =>
      -- a block that is never closed is reported where it was opened
      rw [Fails.skipBlock hk hclose]
      exact ⟨hs.to_suffix List.nil_suffix, hs.mayReport_block hk hclose⟩
    | some p =>
      obtain ⟨closing, rest⟩ := p
      obtain ⟨hsuffix, e, he, rfl⟩ := closeBlock_spec hclose
      rw [Yields.skipBlock hk hclose]
      exact ⟨hs.to_suffix (hsuffix.trans (List.tail_suffix _)),
        hs.sees_of_mem (List.mem_of_mem_tail he)⟩
  · obtain ⟨d, hfails⟩ := Fails.expect hk
    have hrun : Fails Reading.skipBlock s d s := hfails.bind
    rw [hrun]
    exact (expect .leftBrace).of_error hs hfails

theorem skipAttributes : Forward s₀ (fun _ => True) skipAttributes := by
  refine Keeps.bind Keeps.get fun s hs => ?_
  cases hres : passAttributes none s.rest with
  | ok rest => exact Keeps.set (hs.to_suffix (passAttributes_suffix hres))
  | error opening =>
    -- the walk does not begin inside of an attribute, so it has met the opening token
    obtain ⟨n, hn⟩ | ⟨e, he, rfl, hk⟩ := passAttributes_opening hres
    · exact absurd hn (by simp)
    · refine Keeps.bind (Keeps.set (hs.to_suffix List.nil_suffix)) fun _ _ => ?_
      refine Keeps.throw ⟨hs.sees_of_mem he, fun _ _ => ?_, nofun⟩
      exact .openAttribute (hs.suffix.subset he) hk

theorem skipTo {tail : List Entry → List Entry} (htail : ∀ es, tail es <:+ es) :
    Forward s₀ (fun _ => True) (skipTo tail) := by
  refine Keeps.bind (Keeps.modify fun s hs => hs.to_suffix (htail s.rest)) fun _ _ => ?_
  refine Keeps.bind peekKind fun k _ => ?_
  split
  · exact Keeps.discard advance
  · -- a block that is never closed is reported, and the routine goes on
    refine Keeps.bind (Keeps.attempt skipBlock) fun o ho => ?_
    cases o with
    | ok t => exact Keeps.pure trivial
    | error d => exact report ho
  · exact Keeps.pure trivial

theorem skipStatement : Forward s₀ (fun _ => True) skipStatement :=
  skipTo (statementEnd_suffix 0)

theorem skipToBody : Forward s₀ (fun _ => True) skipToBody :=
  skipTo (bodyStart_suffix 0)

theorem recoverDeclaration : Forward s₀ (fun _ => True) recoverDeclaration :=
  skipTo fun _ => List.dropWhile_suffix _

theorem recoverMember : Forward s₀ (fun _ => True) recoverMember :=
  skipTo fun _ => List.dropWhile_suffix _

theorem initializer (source : String) (stops : List Token.Kind) :
    Forward s₀ (fun p : String × Token => s₀.Sees p.2.span) (initializer source stops) := by
  refine Keeps.bind Keeps.get fun s hs => ?_
  obtain ⟨hsuffix, htokens⟩ := splitInitializer_spec stops 0 s.rest
  dsimp only
  refine Keeps.bind (Keeps.set (hs.to_suffix hsuffix)) fun _ _ => ?_
  refine Keeps.ite (fun _ => Keeps.throw (hs.sees_eof.mayReport ⟨nofun, nofun⟩)) fun _ => ?_
  cases hsplit : (splitInitializer stops 0 s.rest).1 with
  | nil => exact unexpected _
  | cons first more =>
    rw [hsplit] at htokens
    -- what is yielded beside the text is the last token of it
    have hlast : more.getLastD first ∈ first :: more := by
      rw [← List.getLast_eq_getLastD (List.cons_ne_nil first more)]
      exact List.getLast_mem _
    obtain ⟨e, he, htoken⟩ := htokens _ hlast
    refine Keeps.pure ?_
    dsimp only
    rw [← htoken]
    exact hs.sees_of_mem he

end Forward

end Introspect.Reading
