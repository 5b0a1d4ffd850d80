import Introspect.Reading.Member

/-!
# Runs of routines

Where it is known what a routine is run on, its run can be followed step by step. `Yields r s a s'`
says that `r`, run from `s`, yields `a` and leaves `s'`, and `Fails r s e s'` that it gives up with
`e` and leaves `s'`. The rules take a proof along the text of a routine: `Yields.bind` is one step
of it, `Yields.bind_fails` the step that gives up, and `Yields.of_bind` takes a run apart again.

Single tokens are read from a state by `Yields.peek`, `Yields.advance`, `Yields.eat`,
`Yields.eat_none` and `Yields.expect`, blocks by `Yields.skipBlock`, and a repetition is run by
`Yields.iterate_done` and `Yields.iterate_yield`.
-/

namespace Introspect.Reading

section Run

variable {ε σ α β : Type} {s s' s'' : σ} {a : α} {b : β} {e : ε}
variable {r : EStateM ε σ α} {f : α → EStateM ε σ β}

/-- The routine, run from `s`, yields `a` and leaves `s'`. -/
def Yields (r : EStateM ε σ α) (s : σ) (a : α) (s' : σ) : Prop := r s = .ok a s'

/-- The routine, run from `s`, gives up with `e` and leaves `s'`. -/
def Fails (r : EStateM ε σ α) (s : σ) (e : ε) (s' : σ) : Prop := r s = .error e s'

/-- Whether the routine, run from `s`, yields. -/
def succeeds (r : EStateM ε σ α) (s : σ) : Bool :=
  match r s with
  | .ok _ _ => true
  | .error _ _ => false

theorem exists_yields (h : succeeds r s = true) : ∃ a s', Yields r s a s' := by
  unfold succeeds at h
  cases hr : r s with
  | ok a s' => exact ⟨a, s', hr⟩
  | error e s' => simp [hr] at h

/-- Whether the routine, run from `s`, yields something with the property. -/
def succeedsWith (p : α → σ → Bool) (r : EStateM ε σ α) (s : σ) : Bool :=
  match r s with
  | .ok a s' => p a s'
  | .error _ _ => false

theorem exists_yields_with {p : α → σ → Bool} (h : succeedsWith p r s = true) :
    ∃ a s', Yields r s a s' ∧ p a s' = true := by
  unfold succeedsWith at h
  cases hr : r s with
  | ok a s' =>
    rw [hr] at h
    exact ⟨a, s', hr, h⟩
  | error e s' => simp [hr] at h

theorem Yields.pure : Yields (Pure.pure a : EStateM ε σ α) s a s := rfl

theorem Fails.throw : Fails (throw e : EStateM ε σ α) s e s := rfl

theorem Yields.bind (hr : Yields r s a s') (hf : Yields (f a) s' b s'') :
    Yields (r >>= f) s b s'' := by
  change EStateM.bind r f s = .ok b s''
  rw [EStateM.bind, hr]
  exact hf

theorem Yields.bind_fails (hr : Yields r s a s') (hf : Fails (f a) s' e s'') :
    Fails (r >>= f) s e s'' := by
  change EStateM.bind r f s = .error e s''
  rw [EStateM.bind, hr]
  exact hf

/-- Where the first routine gives up, the second is not run. -/
theorem Fails.bind (hr : Fails r s e s') : Fails (r >>= f) s e s' := by
  change EStateM.bind r f s = .error e s'
  rw [EStateM.bind, hr]

theorem Fails.not_yields (hr : Fails r s e s') : ¬ Yields r s a s'' := by
  intro h
  rw [Fails, h] at hr
  exact nomatch hr

/-- Behind the first routine, the second is run from where that has led to. -/
theorem Yields.bind_eq (hr : Yields r s a s') : (r >>= f) s = f a s' := by
  change EStateM.bind r f s = f a s'
  rw [EStateM.bind, hr]

/-- A run of two routines is a run of the first and then one of the second. -/
theorem Yields.of_bind (h : Yields (r >>= f) s b s'') :
    ∃ a s', Yields r s a s' ∧ Yields (f a) s' b s'' := by
  change EStateM.bind r f s = .ok b s'' at h
  unfold EStateM.bind at h
  cases hr : r s with
  | ok a s' =>
    rw [hr] at h
    exact ⟨a, s', hr, h⟩
  | error e s' =>
    rw [hr] at h
    exact absurd h (by simp)

theorem Yields.map {g : α → β} (hr : Yields r s a s') : Yields (g <$> r) s (g a) s' :=
  Yields.bind (f := fun a => Pure.pure (g a)) hr .pure

theorem Yields.discard (hr : Yields r s a s') : Yields (discard r) s () s' := hr.map

theorem Yields.get : Yields (get : EStateM ε σ σ) s s s := rfl

theorem Yields.set : Yields (set s' : EStateM ε σ PUnit) s () s' := rfl

theorem Yields.modify {g : σ → σ} : Yields (modify g : EStateM ε σ PUnit) s () (g s) := rfl

theorem Yields.attempt (hr : Yields r s a s') : Yields (attempt r) s (.ok a) s' := by
  rw [Yields, Reading.attempt, hr]

theorem Yields.of_attempt (h : Yields (Reading.attempt r) s (.ok a) s') : Yields r s a s' := by
  rw [Yields, Reading.attempt] at h
  cases hr : r s with
  | ok a' s₁ =>
    rw [hr] at h
    obtain ⟨ha, rfl⟩ := EStateM.Result.ok.inj h
    rw [Yields, hr, Except.ok.inj ha]
  | error e s₁ =>
    rw [hr] at h
    exact absurd (EStateM.Result.ok.inj h).1 (by simp)

theorem Fails.attempt (hr : Fails r s e s') : Yields (Reading.attempt r) s (.error e) s' := by
  rw [Yields, Reading.attempt, hr]

/-- The last round of a repetition. -/
theorem Yields.iterate_done {size : σ → Nat} {step : β → EStateM ε σ (ForInStep β)} {b' : β}
    (h : Yields (step b) s (.done b') s') : Yields (iterate size step b) s b' s' := by
  rw [Yields, Reading.iterate, h]

/-- A round that makes the state smaller, and all those behind it. -/
theorem Yields.iterate_yield {size : σ → Nat} {step : β → EStateM ε σ (ForInStep β)} {b' b'' : β}
    (h : Yields (step b) s (.yield b') s') (hsize : size s' < size s)
    (hrest : Yields (Reading.iterate size step b') s' b'' s'') :
    Yields (Reading.iterate size step b) s b'' s'' := by
  rw [Yields, Reading.iterate, h]
  -- the guard of the repetition asks for the smaller state
  simp only [hsize, if_true]
  exact hrest

end Run

/-! ### Single tokens -/

section Tokens

variable {s : State}

theorem Yields.peek : Yields peek s s.peek s := rfl

theorem Yields.peekKind : Yields peekKind s s.peek.kind s := rfl

theorem Yields.advance : Yields advance s s.peek s.advance := rfl

/-- A token of the kind that is asked for is consumed. -/
theorem Yields.eat {kind : Token.Kind} (h : s.peek.kind = kind) :
    Yields (eat kind) s (some s.peek) s.advance := by
  refine Yields.bind .peekKind ?_
  rw [if_pos h]
  exact Yields.bind .advance .pure

/-- A token of another kind stays. -/
theorem Yields.eat_none {kind : Token.Kind} (h : s.peek.kind ≠ kind) :
    Yields (Reading.eat kind) s none s := by
  refine Yields.bind .peekKind ?_
  rw [if_neg h]
  exact .pure

theorem Yields.expect {kind : Token.Kind} (h : s.peek.kind = kind) :
    Yields (expect kind) s s.peek s.advance :=
  Yields.bind (.eat h) .pure

/-- Where something else was wanted, reading gives up. -/
theorem Fails.unexpected {α : Type} (wanted : String) :
    ∃ d, Fails (unexpected wanted : Routine α) s d s := by
  by_cases hend : s.peek.kind = .endOfText
  · -- at the end of the text there is no token to describe
    refine ⟨.endOfFile s.peek.span, Yields.bind_fails .peek ?_⟩
    rw [if_pos hend]
    exact .throw
  · refine ⟨.expected s.peek.span wanted s.peek.describe, Yields.bind_fails .peek ?_⟩
    rw [if_neg hend]
    exact .throw

theorem Fails.unexpectedName {α : Type} : ∃ d, Fails (unexpectedName : Routine α) s d s :=
  ⟨.expectedName s.peek.span s.peek.describe, Yields.bind_fails .peek .throw⟩

theorem Fails.expect {kind : Token.Kind} (h : s.peek.kind ≠ kind) :
    ∃ d, Fails (expect kind) s d s := by
  obtain ⟨d, hd⟩ := Fails.unexpected (s := s) (α := Token) kind.description
  exact ⟨d, Yields.bind_fails (.eat_none h) hd⟩

theorem Yields.of_expect {kind : Token.Kind} {t : Token} {s' : State}
    (h : Yields (Reading.expect kind) s t s') :
    s.peek.kind = kind ∧ t = s.peek ∧ s' = s.advance := by
  by_cases hk : s.peek.kind = kind
  · have hrun := Yields.expect hk
    rw [Yields, h] at hrun
    obtain ⟨ht, hs⟩ := EStateM.Result.ok.inj hrun
    exact ⟨hk, ht, hs⟩
  · -- of another kind it would not have been consumed
    obtain ⟨d, hfails⟩ := Fails.expect hk
    exact (hfails.not_yields h).elim

/-- A block that is closed is read up to its closing brace. -/
theorem Yields.skipBlock {closing : Token} {behind : List Entry} (h : s.peek.kind = .leftBrace)
    (hclose : closeBlock 0 s.rest.tail = some (closing, behind)) :
    Yields skipBlock s closing { s with rest := behind } := by
  refine Yields.bind (.expect h) (Yields.bind .get ?_)
  rw [State.rest_advance, hclose]
  exact Yields.bind .set .pure

/-- A block that is never closed is given up, and all that remains is lost. -/
theorem Fails.skipBlock (h : s.peek.kind = .leftBrace) (hclose : closeBlock 0 s.rest.tail = none) :
    Fails skipBlock s ⟨.mismatchedDelimiter, s.peek.span, "'\x7b' is never closed"⟩
      { s with rest := [] } := by
  refine Yields.bind_fails (.expect h) (Yields.bind_fails .get ?_)
  rw [State.rest_advance, hclose]
  exact Yields.bind_fails .set .throw

/-- A write that the draft takes. -/
theorem Yields.write {α : Type} {span : Span} {draft draft' : α} {f : α → Except DraftError α}
    (h : f draft = .ok draft') : Yields (write span draft f) s draft' s := by
  unfold Reading.write
  rw [h]
  exact .pure

/-- A write that the draft refuses. -/
theorem Yields.write_refused {α : Type} {span : Span} {draft : α} {f : α → Except DraftError α}
    {e : DraftError} (h : f draft = .error e) :
    Yields (Reading.write span draft f) s draft (s.report (.ofDraft e span)) := by
  unfold Reading.write
  rw [h]
  exact Yields.bind .modify .pure

/-- Where there is no attribute, none is read. -/
theorem Yields.skipAttributes (h : s.peek.kind ≠ .attributeOpen) :
    Yields skipAttributes s () s := by
  have hnone : passAttributes none s.rest = .ok s.rest := by
    cases hrest : s.rest with
    | nil => rfl
    -- the search for an attribute ends at the first token
    | cons e es =>
      rw [State.peek_of_rest hrest] at h
      have he : e.kind ≠ .attributeOpen := h
      simp [passAttributes, he]
  refine Yields.bind .get ?_
  rw [hnone]
  exact .set

/-- Where there is no modifier, none is read. -/
theorem Yields.modifiers (h : modifierOf? s.peek.kind = none) : Yields modifiers s .empty s := by
  refine Yields.iterate_done (Yields.bind .peek ?_)
  rw [h]
  exact .pure

theorem Yields.promotion (h : promotionOf? s.peek.kind = none) : Yields promotion s .empty s := by
  refine Yields.iterate_done (Yields.bind .peekKind ?_)
  rw [h]
  exact .pure

theorem Yields.docSince {start : List Entry} :
    Yields (docSince start) s (lastDoc (start.take (start.length - s.rest.length + 1))) s := rfl

end Tokens

/-- A routine that adds nothing runs as it does on its own. -/
theorem Yields.reading {α : Type} {r : Routine α} {b : Body} {a : α} {s : State}
    (h : Yields r b.toState a s) : Yields (reading r) b a { b with toState := s } := by
  rw [Yields, Reading.reading, h]

section Adding

variable {b : Body} {span : Span} {f : ClassDraft → Except DraftError ClassDraft}

/-- A write that the class takes. -/
theorem Yields.adding {d : ClassDraft} (h : f b.draft = .ok d) :
    Yields (adding span f) b () { b with draft := d } :=
  Yields.bind .get (Yields.bind (Yields.write h).reading .modify)

/-- A write that the class refuses. -/
theorem Yields.adding_refused {e : DraftError} (h : f b.draft = .error e) :
    Yields (Reading.adding span f) b ()
      { b with toState := b.toState.report (.ofDraft e span) } :=
  Yields.bind .get (Yields.bind (Yields.write_refused h).reading .modify)

end Adding

end Introspect.Reading
