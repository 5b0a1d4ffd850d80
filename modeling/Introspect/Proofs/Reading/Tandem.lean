import Introspect.Proofs.Reading.Contract
import Mathlib.Data.List.Forall2
import Mathlib.Data.Option.Basic

/-!
# Routines in tandem

`Keeps` follows one run of one routine. To compare the runs of two routines, `Tandem I rel r r'`
says that they go side by side: from states that `I` relates, either both yield, values that `rel`
relates, or both give up, with the same diagnostic; and the states that they leave are related by
`I` again.

As for `Keeps` there is one rule for each way in which routines are put together, so that a proof
goes along the texts of both routines at once. A routine that is compared to itself goes in tandem
if it keeps an invariant (`Meets.tandem`), the two states being one and the same (`Shared`).
-/

namespace Introspect.Reading

variable {ε σ α α' β β' : Type}

/-- What two runs are to each other: both have yielded values that `rel` relates, or both have given
up with the same diagnostic, and `I` relates the states that they leave. -/
def Paired (I : σ → σ → Prop) (rel : α → α' → Prop) :
    EStateM.Result ε σ α → EStateM.Result ε σ α' → Prop
  | .ok a t, .ok a' t' => I t t' ∧ rel a a'
  | .error e t, .error e' t' => I t t' ∧ e = e'
  | _, _ => False

/-- **In tandem.** From states that `I` relates, the runs of both routines are paired. -/
def Tandem (I : σ → σ → Prop) (rel : α → α' → Prop) (r : EStateM ε σ α) (r' : EStateM ε σ α') :
    Prop :=
  ∀ s s', I s s' → Paired I rel (r s) (r' s')

/-- One and the same state, of which `inv` holds. -/
def Shared (inv : σ → Prop) (s s' : σ) : Prop := s = s' ∧ inv s

/-- What two rounds of a repetition are to each other: both are done, or both go on. -/
def Rounds (rel : β → β' → Prop) : ForInStep β → ForInStep β' → Prop
  | .done b, .done b' => rel b b'
  | .yield b, .yield b' => rel b b'
  | _, _ => False

/-- What two attempts are to each other: both succeed, or both fail in the same way. -/
def Outcomes (rel : α → α' → Prop) : Except ε α → Except ε α' → Prop
  | .ok a, .ok a' => rel a a'
  | .error e, .error e' => e = e'
  | _, _ => False

/-- A routine that keeps an invariant goes in tandem with itself. -/
theorem Meets.tandem {inv : σ → Prop} {r : EStateM ε σ α}
    (hr : Meets inv r (fun _ => inv) (fun _ => inv)) : Tandem (Shared inv) Eq r r := by
  rintro s _ ⟨rfl, hs⟩
  cases h : r s with
  | ok a t => exact ⟨⟨rfl, hr.of_ok hs h⟩, rfl⟩
  | error e t => exact ⟨⟨rfl, hr.of_error hs h⟩, rfl⟩

/-- Behind two runs that are paired, the rest is run from where they have led to. -/
theorem Paired.bind {I : σ → σ → Prop} {rel : α → α' → Prop} {rel' : β → β' → Prop}
    {r : EStateM ε σ α} {r' : EStateM ε σ α'} {f : α → EStateM ε σ β} {f' : α' → EStateM ε σ β'}
    {s s' : σ} (h : Paired I rel (r s) (r' s'))
    (hf : ∀ a a' t t', r s = .ok a t → I t t' → rel a a' → Paired I rel' (f a t) (f' a' t')) :
    Paired I rel' ((r >>= f) s) ((r' >>= f') s') := by
  change Paired I rel' (EStateM.bind r f s) (EStateM.bind r' f' s')
  unfold EStateM.bind
  revert h
  cases hrun : r s with
  | ok a t =>
    cases r' s' with
    | ok a' t' => exact fun h => hf a a' t t' hrun h.1 h.2
    | error e' t' => exact False.elim
  -- the rest of neither is run
  | error e t =>
    cases r' s' with
    | ok a' t' => exact False.elim
    | error e' t' => exact id

namespace Tandem

variable {I : σ → σ → Prop} {rel : α → α' → Prop} {rel' : β → β' → Prop}
variable {r : EStateM ε σ α} {r' : EStateM ε σ α'}

theorem of_ok (hr : Tandem I rel r r') {s s' t : σ} {a : α} (hs : I s s') (h : r s = .ok a t) :
    ∃ a' t', r' s' = .ok a' t' ∧ I t t' ∧ rel a a' := by
  have hrs := hr s s' hs
  rw [h] at hrs
  cases h' : r' s' with
  | ok a' t' =>
    rw [h'] at hrs
    exact ⟨a', t', rfl, hrs⟩
  | error e' t' =>
    rw [h'] at hrs
    exact hrs.elim

theorem of_error (hr : Tandem I rel r r') {s s' t : σ} {e : ε} (hs : I s s')
    (h : r s = .error e t) : ∃ t', r' s' = .error e t' ∧ I t t' := by
  have hrs := hr s s' hs
  rw [h] at hrs
  cases h' : r' s' with
  | ok a' t' =>
    rw [h'] at hrs
    exact hrs.elim
  | error e' t' =>
    rw [h'] at hrs
    exact ⟨t', by rw [hrs.2], hrs.1⟩

theorem pure {a : α} {a' : α'} (h : rel a a') :
    Tandem I rel (Pure.pure a : EStateM ε σ α) (Pure.pure a') :=
  fun _ _ hs => ⟨hs, h⟩

theorem throw {e : ε} : Tandem I rel (throw e : EStateM ε σ α) (MonadExcept.throw e) :=
  fun _ _ hs => ⟨hs, rfl⟩

/-- What is yielded by the first routines is handed to the rest of both. -/
theorem bind {f : α → EStateM ε σ β} {f' : α' → EStateM ε σ β'} (hr : Tandem I rel r r')
    (hf : ∀ a a', rel a a' → Tandem I rel' (f a) (f' a')) :
    Tandem I rel' (r >>= f) (r' >>= f') :=
  fun s s' hs => (hr s s' hs).bind fun a a' t t' _ ht ha => hf a a' ha t t' ht

theorem map {g : α → β} {g' : α' → β'} (hr : Tandem I rel r r')
    (hg : ∀ a a', rel a a' → rel' (g a) (g' a')) : Tandem I rel' (g <$> r) (g' <$> r') := by
  show Tandem I rel' (r >>= fun a => Pure.pure (g a)) (r' >>= fun a => Pure.pure (g' a))
  exact bind hr fun a a' ha => pure (hg a a' ha)

theorem discard (hr : Tandem I rel r r') : Tandem I Eq (discard r) (discard r') :=
  map hr fun _ _ _ => rfl

/-- Both take the same branch. -/
theorem ite {c : Prop} [Decidable c] {q : EStateM ε σ α} {q' : EStateM ε σ α'}
    (hr : c → Tandem I rel r r') (hq : ¬ c → Tandem I rel q q') :
    Tandem I rel (if c then r else q) (if c then r' else q') := by
  by_cases hc : c
  · rw [if_pos hc, if_pos hc]
    exact hr hc
  · rw [if_neg hc, if_neg hc]
    exact hq hc

/-- The states themselves are handed over. -/
theorem get : Tandem I I (get : EStateM ε σ σ) MonadState.get :=
  fun _ _ hs => ⟨hs, hs⟩

theorem modify {f f' : σ → σ} (h : ∀ s s', I s s' → I (f s) (f' s')) :
    Tandem I Eq (modify f : EStateM ε σ PUnit) (MonadState.modifyGet fun s => (⟨⟩, f' s)) :=
  fun s s' hs => ⟨h s s' hs, rfl⟩

/-- Recoveries see the same outcome. -/
theorem attempt (hr : Tandem I rel r r') :
    Tandem I (Outcomes rel) (attempt r) (Reading.attempt r') := by
  intro s s' hs
  unfold Reading.attempt
  cases h : r s with
  | ok a t =>
    obtain ⟨a', t', h', ht, ha⟩ := hr.of_ok hs h
    rw [h']
    exact ⟨ht, ha⟩
  | error e t =>
    obtain ⟨t', h', ht⟩ := hr.of_error hs h
    rw [h']
    exact ⟨ht, rfl⟩

/-- What follows an attempt is compared where both succeed and where both fail. -/
theorem recover {k : Except ε α → EStateM ε σ β} {k' : Except ε α' → EStateM ε σ β'}
    (hr : Tandem I rel r r')
    (hok : ∀ a a', rel a a' → Tandem I rel' (k (.ok a)) (k' (.ok a')))
    (herror : ∀ e, Tandem I rel' (k (.error e)) (k' (.error e))) :
    Tandem I rel' (Reading.attempt r >>= k) (Reading.attempt r' >>= k') := by
  refine bind (attempt hr) fun o o' ho => ?_
  cases o with
  | ok a =>
    cases o' with
    | ok a' => exact hok a a' ho
    -- one that succeeds has no partner that fails
    | error e' => exact ho.elim
  | error e =>
    cases o' with
    | ok a' => exact ho.elim
    | error e' =>
      obtain rfl : e = e' := ho
      exact herror e

/-- A walk over two lists, element by element. -/
theorem forM {f : α → EStateM ε σ PUnit} {f' : α' → EStateM ε σ PUnit} {l : List α} {l' : List α'}
    (hl : List.Forall₂ rel l l') (hf : ∀ a a', rel a a' → Tandem I Eq (f a) (f' a')) :
    Tandem I Eq (l.forM f) (l'.forM f') := by
  induction hl with
  | nil => exact pure rfl
  | cons ha _ ih => exact bind (hf _ _ ha) fun _ _ _ => ih

/-- **Repetition.** Rounds that go in tandem are repeated equally often, as long as related states
are of one size. -/
theorem iterate {size : σ → Nat} (hsize : ∀ s s', I s s' → size s = size s')
    {step : β → EStateM ε σ (ForInStep β)} {step' : β' → EStateM ε σ (ForInStep β')}
    (hstep : ∀ b b', rel' b b' → Tandem I (Rounds rel') (step b) (step' b')) {b : β} {b' : β'}
    (hb : rel' b b') : Tandem I rel' (iterate size step b) (Reading.iterate size step' b') := by
  intro s
  -- on the size of the state, which every further round makes smaller
  induction hn : size s using Nat.strongRecOn generalizing b b' s with
  | ind n ih =>
    intro s' hs
    rw [Reading.iterate, Reading.iterate]
    cases h : step b s with
    | error e t =>
      obtain ⟨t', h', ht⟩ := (hstep b b' hb).of_error hs h
      rw [h']
      exact ⟨ht, rfl⟩
    | ok round t =>
      obtain ⟨round', t', h', ht, hround⟩ := (hstep b b' hb).of_ok hs h
      rw [h']
      cases round with
      | done c =>
        cases round' with
        | done c' => exact ⟨ht, hround⟩
        | yield c' => exact hround.elim
      | yield c =>
        cases round' with
        | done c' => exact hround.elim
        | yield c' =>
          -- so the guard of the repetition comes out the same for both
          have hsizes : (size t' < size s') = (size t < size s) := by
            rw [hsize t t' ht, hsize s s' hs]
          simp only [hsizes]
          by_cases hless : size t < size s
          · simp only [hless, if_true]
            exact ih (size t) (hn ▸ hless) hround t rfl t' ht
          · simp only [hless, if_false]
            exact ⟨ht, hround⟩

end Tandem

/-! ### Lists and drafts -/

namespace Tandem

variable {inv : State → Prop} {rel : α → α' → Prop}

/-- Lists are read item by item. -/
theorem listOf {item : Routine α} {item' : Routine α'} {more : Routine Bool}
    (hitem : Tandem (Shared inv) rel item item') (hmore : Tandem (Shared inv) Eq more more) :
    Tandem (Shared inv) (List.Forall₂ rel) (listOf item more) (Reading.listOf item' more) := by
  refine iterate (fun s s' hs => by rw [hs.1]) (fun items items' hitems => ?_) List.Forall₂.nil
  refine bind hitem fun a a' ha => ?_
  refine bind hmore fun b _ hb => pure ?_
  -- both lists go on, or both end
  obtain rfl := hb
  have hall : List.Forall₂ rel (items ++ [a]) (items' ++ [a']) :=
    List.rel_append hitems (.cons ha .nil)
  cases b <;> exact hall

theorem report (hreport : ∀ s d, inv s → inv (s.report d)) {d : Diagnostic} :
    Tandem (Shared inv) Eq (report d) (Reading.report d) := by
  refine modify ?_
  rintro s _ ⟨rfl, hs⟩
  exact ⟨rfl, hreport s d hs⟩

/-- Two writes that the drafts take or refuse alike. -/
theorem write (hreport : ∀ s d, inv s → inv (s.report d)) {span : Span} {draft : α} {draft' : α'}
    {f : α → Except DraftError α} {f' : α' → Except DraftError α'} (hdraft : rel draft draft')
    (hf : Outcomes rel (f draft) (f' draft')) :
    Tandem (Shared inv) rel (write span draft f) (Reading.write span draft' f') := by
  unfold Reading.write
  cases h : f draft with
  | ok d =>
    cases h' : f' draft' with
    | ok d' =>
      rw [h, h'] at hf
      exact pure hf
    | error e' =>
      rw [h, h'] at hf
      exact hf.elim
  | error e =>
    cases h' : f' draft' with
    | ok d' =>
      rw [h, h'] at hf
      exact hf.elim
    | error e' =>
      rw [h, h'] at hf
      obtain rfl := hf
      -- both refuse it for the same reason, which is reported
      exact bind (report hreport) fun _ _ _ => pure hdraft

end Tandem

end Introspect.Reading
