import Introspect.Proofs.Reading.Invariant
import Introspect.Proofs.Reading.Run

/-!
# Contracts of routines

`Keeps` follows one invariant through a routine. Where what a routine may do depends on the token it
has just looked at, or where the value it yields is about the state it leaves, more is needed:
`Meets pre r post bad` says that `r`, started where `pre` holds, yields a value and a state of which
`post` holds, or gives up with a diagnostic and a state of which `bad` holds.

As for `Keeps` there is one rule for each way in which routines are put together. Two of them matter
most: in `Meets.bind` what the first routine leaves is what the second may start from, and in
`Meets.iterate` what is left in the end is what a round leaves that is done, or that has read
nothing. `Keeps.meets` takes every invariant over, and `Meets.classBody` is about the members of a
class, one after the other.
-/

namespace Introspect.Reading

variable {ε σ α β : Type}

/-- **Contracts.** From `pre`, the routine yields where `post` holds or gives up where `bad`
holds. -/
def Meets (pre : σ → Prop) (r : EStateM ε σ α) (post : α → σ → Prop) (bad : ε → σ → Prop) : Prop :=
  ∀ s, pre s →
    match r s with
    | .ok a s' => post a s'
    | .error e s' => bad e s'

theorem Keeps.meets {inv : σ → Prop} {bad : ε → Prop} {good : α → Prop} {r : EStateM ε σ α}
    (h : Keeps inv bad good r) :
    Meets inv r (fun a s => inv s ∧ good a) (fun e s => inv s ∧ bad e) := h

namespace Meets

variable {pre : σ → Prop} {post : α → σ → Prop} {post' : β → σ → Prop} {bad : ε → σ → Prop}
variable {r : EStateM ε σ α}

theorem of_ok (hr : Meets pre r post bad) {s s' : σ} {a : α} (hs : pre s) (h : r s = .ok a s') :
    post a s' := by
  have hrs := hr s hs
  rw [h] at hrs
  exact hrs

theorem of_error (hr : Meets pre r post bad) {s s' : σ} {e : ε} (hs : pre s)
    (h : r s = .error e s') : bad e s' := by
  have hrs := hr s hs
  rw [h] at hrs
  exact hrs

/-- A routine may be asked for less, from where more is known. -/
theorem weaken {pre' : σ → Prop} {post' : α → σ → Prop} {bad' : ε → σ → Prop}
    (hr : Meets pre r post bad) (hpre : ∀ s, pre' s → pre s) (hpost : ∀ a s, post a s → post' a s)
    (hbad : ∀ e s, bad e s → bad' e s) : Meets pre' r post' bad' := by
  intro s hs
  cases h : r s with
  | ok a s' => exact hpost a s' (hr.of_ok (hpre s hs) h)
  | error e s' => exact hbad e s' (hr.of_error (hpre s hs) h)

theorem of_pre {pre' : σ → Prop} (hr : Meets pre r post bad) (hpre : ∀ s, pre' s → pre s) :
    Meets pre' r post bad :=
  hr.weaken hpre (fun _ _ h => h) fun _ _ h => h

theorem to_post {post' : α → σ → Prop} (hr : Meets pre r post bad)
    (hpost : ∀ a s, post a s → post' a s) : Meets pre r post' bad :=
  hr.weaken (fun _ h => h) hpost fun _ _ h => h

/-- What is known at the beginning, whatever the state is, may be used. -/
theorem assuming {p : Prop} (hp : ∀ s, pre s → p) (hr : p → Meets pre r post bad) :
    Meets pre r post bad :=
  fun s hs => hr (hp s hs) s hs

theorem given {p : Prop} (hr : p → Meets pre r post bad) :
    Meets (fun s => p ∧ pre s) r post bad :=
  fun s hs => hr hs.1 s hs.2

/-- It is enough to look at the states of the precondition one by one. -/
theorem of_each (hr : ∀ s, pre s → Meets (fun s' => s' = s) r post bad) : Meets pre r post bad :=
  fun s hs => hr s hs s rfl

/-- Every routine yields or gives up. -/
theorem any : Meets pre r (fun _ _ => True) (fun _ _ => True) := by
  intro s _
  cases r s <;> trivial

/-- Two contracts hold together. -/
theorem and {post' : α → σ → Prop} {bad' : ε → σ → Prop} (hr : Meets pre r post bad)
    (hr' : Meets pre r post' bad') :
    Meets pre r (fun a s => post a s ∧ post' a s) (fun e s => bad e s ∧ bad' e s) := by
  intro s hs
  cases h : r s with
  | ok a s' => exact ⟨hr.of_ok hs h, hr'.of_ok hs h⟩
  | error e s' => exact ⟨hr.of_error hs h, hr'.of_error hs h⟩

theorem pure {a : α} (h : ∀ s, pre s → post a s) :
    Meets pre (Pure.pure a : EStateM ε σ α) post bad := h

theorem throw {e : ε} (h : ∀ s, pre s → bad e s) :
    Meets pre (throw e : EStateM ε σ α) post bad := h

/-- The rest starts where the first routine has ended. -/
theorem bind {f : α → EStateM ε σ β} (hr : Meets pre r post bad)
    (hf : ∀ a, Meets (post a) (f a) post' bad) : Meets pre (r >>= f) post' bad := by
  intro s hs
  change match EStateM.bind r f s with | .ok a s' => _ | .error e s' => _
  unfold EStateM.bind
  cases h : r s with
  | ok a s' => exact hf a s' (hr.of_ok hs h)
  -- the rest is not run
  | error e s' => exact hr.of_error hs h

theorem map {f : α → β} (hr : Meets pre r post bad) (hf : ∀ a s, post a s → post' (f a) s) :
    Meets pre (f <$> r) post' bad :=
  bind (f := fun a => Pure.pure (f a)) hr fun a => pure (hf a)

theorem map_same {post : σ → Prop} {f : α → β} (hr : Meets pre r (fun _ => post) bad) :
    Meets pre (f <$> r) (fun _ => post) bad :=
  map hr fun _ _ h => h

theorem discard {post : σ → Prop} (hr : Meets pre r (fun _ => post) bad) :
    Meets pre (discard r) (fun _ => post) bad :=
  map_same hr

theorem ite {c : Prop} [Decidable c] {r r' : EStateM ε σ α} (hr : c → Meets pre r post bad)
    (hr' : ¬ c → Meets pre r' post bad) : Meets pre (if c then r else r') post bad :=
  iteInduction (motive := fun r : EStateM ε σ α => Meets pre r post bad) hr hr'

/-- The state itself is handed over. -/
theorem get : Meets pre (get : EStateM ε σ σ) (fun a s => a = s ∧ pre s) bad :=
  fun _ hs => ⟨rfl, hs⟩

theorem set {s : σ} {q : σ → Prop} (h : ∀ s', pre s' → q s) :
    Meets pre (set s : EStateM ε σ PUnit) (fun _ => q) bad := h

theorem modify {f : σ → σ} {q : σ → Prop} (h : ∀ s, pre s → q (f s)) :
    Meets pre (modify f : EStateM ε σ PUnit) (fun _ => q) bad := h

/-- A recovery yields what was yielded, or what was given up with, and never gives up. -/
theorem attempt {bad' : ε → σ → Prop} (hr : Meets pre r post bad) :
    Meets pre (attempt r) (fun | .ok a => post a | .error e => bad e) bad' := by
  intro s hs
  unfold Reading.attempt
  cases h : r s with
  | ok a s' => exact hr.of_ok hs h
  | error e s' => exact hr.of_error hs h

theorem attempt_same {post : σ → Prop} {bad' : ε → σ → Prop}
    (hr : Meets pre r (fun _ => post) (fun _ => post)) :
    Meets pre (Reading.attempt r) (fun _ => post) bad' :=
  hr.attempt.to_post fun o _ h => by cases o <;> exact h

/-- A walk over a list. -/
theorem forM {f : α → EStateM ε σ PUnit} {l : List α}
    (hf : ∀ a ∈ l, Meets pre (f a) (fun _ => pre) bad) :
    Meets pre (l.forM f) (fun _ => pre) bad := by
  induction l with
  | nil => exact pure fun _ h => h
  | cons a l ih =>
    refine bind (hf a List.mem_cons_self) fun _ => ?_
    exact ih fun b hb => hf b (List.mem_cons_of_mem a hb)

/-- **Repetition.** Every round starts from what the one before it has left. One that yields makes
the state smaller, or leaves what is left in the end, since it may be the last one. -/
theorem iterate {size : σ → Nat} {step : β → EStateM ε σ (ForInStep β)} {I : β → σ → Prop}
    (hstep : ∀ b s₀, Meets (fun s => s = s₀ ∧ I b s) (step b)
      (fun
        | .done b' => post' b'
        | .yield b' => fun s => I b' s ∧ (size s < size s₀ ∨ post' b' s)) bad)
    (b : β) : Meets (I b) (iterate size step b) post' bad := by
  intro s
  -- on the size of the state
  induction hn : size s using Nat.strongRecOn generalizing b s with
  | ind n ih =>
    intro hs
    rw [Reading.iterate]
    cases h : step b s with
    -- a round that gives up ends the repetition
    | error e s' => exact (hstep b s).of_error ⟨rfl, hs⟩ h
    | ok r s' =>
      have hround := (hstep b s).of_ok ⟨rfl, hs⟩ h
      cases r with
      | done b' => exact hround
      | yield b' =>
        by_cases hsize : size s' < size s
        · simp only [hsize, if_true]
          exact ih (size s') (hn ▸ hsize) b' s' rfl hround.1
        · simp only [hsize, if_false]
          -- nothing was read, so the round was the last one
          exact hround.2.resolve_left hsize

/-- What every round leaves for the next one is left in the end. -/
theorem iterate_same {size : σ → Nat} {step : β → EStateM ε σ (ForInStep β)} {I : β → σ → Prop}
    (hstep : ∀ b, Meets (I b) (step b) (fun r => I r.value) bad) (b : β) :
    Meets (I b) (Reading.iterate size step b) I bad := by
  refine iterate (fun b s₀ => ((hstep b).of_pre fun _ h => h.2).to_post ?_) b
  rintro (b' | b') s h
  · exact h
  · exact ⟨h, .inr h⟩

end Meets

/-! ### Known runs -/

theorem Keeps.known {ε σ α : Type} {inv : σ → Prop} {bad : ε → Prop} {good : α → Prop}
    {r : EStateM ε σ α} {a : α} (hr : ∀ s, Yields r s a s) (ha : good a) :
    Keeps inv bad good r := by
  intro s hs
  rw [hr s]
  exact ⟨hs, ha⟩

/-! ### Single tokens and drafts -/

section Tokens

variable {pre : State → Prop} {post : α → State → Prop} {bad : Diagnostic → State → Prop}

/-- The next token is looked at, and known from then on. -/
theorem Meets.peek : Meets pre peek (fun t s => t = s.peek ∧ pre s) bad :=
  fun _ hs => ⟨rfl, hs⟩

theorem Meets.peekKind : Meets pre peekKind (fun k s => k = s.peek.kind ∧ pre s) bad :=
  fun _ hs => ⟨rfl, hs⟩

theorem Meets.unexpected (wanted : String) :
    Meets pre (unexpected wanted) post (fun _ => pre) := by
  refine Meets.bind Meets.peek fun t => ?_
  exact Meets.ite (fun _ => Meets.throw fun _ h => h.2) fun _ => Meets.throw fun _ h => h.2

theorem Meets.unexpectedName : Meets pre unexpectedName post (fun _ => pre) :=
  Meets.bind Meets.peek fun _ => Meets.throw fun _ h => h.2

/-- A write is taken, or it is refused and reported. -/
theorem Meets.write_either {span : Span} {draft : α} {f : α → Except DraftError α}
    (hok : ∀ draft' s, f draft = .ok draft' → pre s → post draft' s)
    (hrefused : ∀ s d, pre s → post draft (s.report d)) :
    Meets pre (write span draft f) post bad := by
  unfold Reading.write
  cases hf : f draft with
  | ok draft' => exact Meets.pure fun s h => hok draft' s hf h
  -- a refusal leaves the draft and is reported
  | error e =>
    exact Meets.bind (Meets.modify fun s h => hrefused s _ h) fun _ => Meets.pure fun _ h => h

/-- What survives a report survives a write. -/
theorem Meets.write (hpre : ∀ s d, pre s → pre (s.report d)) {span : Span} (draft : α)
    (f : α → Except DraftError α) : Meets pre (write span draft f) (fun _ => pre) bad :=
  Meets.write_either (fun _ _ _ h => h) hpre

end Tokens

/-! ### Bodies -/

section Bodies

variable {cfg : Setting} {I : Body → Prop} {bad bad' : Diagnostic → Body → Prop}

/-- What holds behind a member, behind the recovery from one, and behind a token that is passed
over, holds behind every round of a body. -/
theorem Meets.memberOrRecover {pre : Body → Prop}
    (hmember : Meets pre (member cfg) (fun _ => I) bad')
    (hrecover : ∀ e, Meets (bad' e) (reading do report e; recoverMember) (fun _ => I) bad)
    (hadvance : Meets I (reading advance) (fun _ => I) bad) :
    Meets pre (memberOrRecover cfg) (fun _ => I) bad := by
  refine Meets.bind (Meets.get.to_post fun _ _ h => h.2) fun _ => ?_
  refine Meets.bind hmember.attempt fun r => ?_
  extract_lets behind
  -- where nothing was read, a token is passed over, so the body goes on
  have hbehind : ∀ u, Meets I (behind u) (fun _ => I) bad := by
    intro _
    refine Meets.bind (Meets.get.to_post fun _ _ h => h.2) fun _ => ?_
    exact Meets.ite (fun _ => Meets.discard hadvance) fun _ => Meets.pure fun _ h => h
  cases r with
  | ok u => exact hbehind u
  | error e => exact Meets.bind (hrecover e) hbehind

/-- What every round keeps, the body keeps. -/
theorem Meets.classBody (hround : Meets I (Reading.memberOrRecover cfg) (fun _ => I) bad) :
    Meets I (classBody cfg) (fun _ => I) bad := by
  refine Meets.iterate_same (I := fun _ => I) (fun _ => ?_) ()
  refine Meets.bind (Meets.get.to_post fun _ _ h => h.2) fun b => ?_
  split
  · exact Meets.pure fun _ h => h
  · exact Meets.pure fun _ h => h
  · exact Meets.bind hround fun _ => Meets.pure fun _ h => h

end Bodies

end Introspect.Reading
