import Introspect.Reading.Routine
import Mathlib.Tactic.Common

/-!
# Invariants of routines

A routine yields a value or gives up, and leaves a state either way. `Keeps inv bad good r` says of
a routine `r` that, started where `inv` holds, it ends where `inv` holds, whatever happens on the
way; that what it yields is `good`; and that what it gives up with is `bad`.

There is one rule for each way in which routines are put together, so a proof follows the text of a
routine: `Keeps.bind` for a step and the rest, `Keeps.ite`, `Keeps.attempt` for a recovery, and
`Keeps.iterate` for a repetition. Where a routine is run, `Keeps.of_ok` and `Keeps.of_error` say
what it leaves.
-/

namespace Introspect.Reading

variable {ε σ α β : Type}

/-- **Invariants.** `inv` survives the routine, `good` is true of what it yields and `bad` of what
it gives up with. -/
def Keeps (inv : σ → Prop) (bad : ε → Prop) (good : α → Prop) (r : EStateM ε σ α) : Prop :=
  ∀ s, inv s →
    match r s with
    | .ok a s' => inv s' ∧ good a
    | .error e s' => inv s' ∧ bad e

namespace Keeps

variable {inv : σ → Prop} {bad : ε → Prop} {good : α → Prop} {good' : β → Prop}

theorem of_ok {r : EStateM ε σ α} (hr : Keeps inv bad good r) {s s' : σ} {a : α} (hs : inv s)
    (h : r s = .ok a s') : inv s' ∧ good a := by
  have hrs := hr s hs
  rw [h] at hrs
  exact hrs

theorem of_error {r : EStateM ε σ α} (hr : Keeps inv bad good r) {s s' : σ} {e : ε} (hs : inv s)
    (h : r s = .error e s') : inv s' ∧ bad e := by
  have hrs := hr s hs
  rw [h] at hrs
  exact hrs

theorem pure {a : α} (h : good a) : Keeps inv bad good (Pure.pure a : EStateM ε σ α) :=
  fun _ hs => ⟨hs, h⟩

theorem throw {e : ε} (h : bad e) : Keeps inv bad good (throw e : EStateM ε σ α) :=
  fun _ hs => ⟨hs, h⟩

/-- What is yielded by the first routine is handed to the rest. -/
theorem bind {r : EStateM ε σ α} {f : α → EStateM ε σ β} (hr : Keeps inv bad good r)
    (hf : ∀ a, good a → Keeps inv bad good' (f a)) : Keeps inv bad good' (r >>= f) := by
  intro s hs
  change match EStateM.bind r f s with | .ok a s' => _ | .error e s' => _
  unfold EStateM.bind
  cases h : r s with
  | ok a s' =>
    obtain ⟨hs', ha⟩ := hr.of_ok hs h
    exact hf a ha s' hs'
  -- the rest is not run
  | error e s' => exact hr.of_error hs h

theorem map {r : EStateM ε σ α} {f : α → β} (hr : Keeps inv bad good r)
    (hf : ∀ a, good a → good' (f a)) : Keeps inv bad good' (f <$> r) :=
  bind (f := fun a => Pure.pure (f a)) hr fun a ha => pure (hf a ha)

theorem map_trivial {r : EStateM ε σ α} {f : α → β} (hr : Keeps inv bad good r) :
    Keeps inv bad (fun _ => True) (f <$> r) :=
  map hr fun _ _ => trivial

theorem discard {r : EStateM ε σ α} (hr : Keeps inv bad good r) :
    Keeps inv bad (fun _ => True) (discard r) :=
  map_trivial hr

theorem ite {c : Prop} [Decidable c] {r r' : EStateM ε σ α} (hr : c → Keeps inv bad good r)
    (hr' : ¬ c → Keeps inv bad good r') : Keeps inv bad good (if c then r else r') :=
  iteInduction (motive := fun r : EStateM ε σ α => Keeps inv bad good r) hr hr'

/-- The state itself is handed over with what is known of it. -/
theorem get : Keeps inv bad inv (get : EStateM ε σ σ) :=
  fun _ hs => ⟨hs, hs⟩

theorem set {s : σ} (h : inv s) : Keeps inv bad (fun _ => True) (set s : EStateM ε σ PUnit) :=
  fun _ _ => ⟨h, trivial⟩

theorem modify {f : σ → σ} (h : ∀ s, inv s → inv (f s)) :
    Keeps inv bad (fun _ => True) (modify f : EStateM ε σ PUnit) :=
  fun s hs => ⟨h s hs, trivial⟩

/-- A recovery yields what was yielded, or what was given up with. -/
theorem attempt {r : EStateM ε σ α} (hr : Keeps inv bad good r) :
    Keeps inv bad (fun | .ok a => good a | .error e => bad e) (attempt r) := by
  intro s hs
  unfold Reading.attempt
  cases h : r s with
  | ok a s' => exact hr.of_ok hs h
  | error e s' => exact hr.of_error hs h

/-- A walk over a list. -/
theorem forM {f : α → EStateM ε σ PUnit} {l : List α}
    (hf : ∀ a ∈ l, Keeps inv bad (fun _ => True) (f a)) :
    Keeps inv bad (fun _ => True) (l.forM f) := by
  induction l with
  | nil => exact pure trivial
  | cons a l ih =>
    refine bind (hf a List.mem_cons_self) fun _ _ => ?_
    exact ih fun b hb => hf b (List.mem_cons_of_mem a hb)

/-- **Repetition.** What every round keeps, all of them keep. -/
theorem iterate {size : σ → Nat} {step : β → EStateM ε σ (ForInStep β)}
    (hstep : ∀ b, good' b → Keeps inv bad (fun r : ForInStep β => good' r.value) (step b))
    {b : β} (hb : good' b) : Keeps inv bad good' (iterate size step b) := by
  intro s
  -- on the size of the state, which every further round makes smaller
  induction hn : size s using Nat.strongRecOn generalizing b s with
  | ind n ih =>
    intro hs
    rw [Reading.iterate]
    cases h : step b s with
    | error e s' => exact (hstep b hb).of_error hs h
    | ok r s' =>
      have hround := (hstep b hb).of_ok hs h
      cases r with
      | done b' => exact hround
      | yield b' =>
        by_cases hsize : size s' < size s
        · simp only [hsize, if_true]
          exact ih (size s') (hn ▸ hsize) hround.2 s' rfl hround.1
        · -- a round that reads nothing is the last one
          simp only [hsize, if_false]
          exact hround

theorem iterate_trivial {size : σ → Nat} {step : β → EStateM ε σ (ForInStep β)}
    (hstep : ∀ b, Keeps inv bad (fun _ => True) (step b)) (b : β) :
    Keeps inv bad (fun _ => True) (Reading.iterate size step b) :=
  iterate (fun b _ => hstep b) trivial

end Keeps

end Introspect.Reading
