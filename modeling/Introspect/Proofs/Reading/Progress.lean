import Introspect.Proofs.Reading.Counters
import Introspect.Proofs.Reading.Lines

/-!
# The reader gets on

The loops of the reader are written with a guard: a round that reads nothing is the last one. The
guard is never needed. As long as the end of the text is the only token of its kind, every round
behind which another one follows has consumed a token, and so all loops end by themselves, inside of
the tokens.

* `State.StandsAt` is the position of a state in a buffer, and `State.From` a bound for it. A
  routine that reads forward keeps the bound (`State.From.stable`), and one that consumes a token
  raises it;
* `Repeats` is the repetition of a round without any guard, and `LoopsOnward` says of a loop that
  its rounds raise the bound and that it is such a repetition;
* `FileState.step_from`: a step of the reading of a file raises the bound, whatever token it begins
  at;
* `reads_inside` puts together what is known of all loops, of all walks and of whole files.
-/

namespace Introspect.Reading

/-! ### Positions -/

/-- **Closed buffers.** The end of the text is the only token of its kind. -/
structure Buffer.Closed (b : Buffer) : Prop where
  eof_kind : b.eof.kind = .endOfText
  kind_ne : ∀ e ∈ b.entries, e.kind ≠ .endOfText

/-- The tokens of a buffer, with the one at the end. -/
def Buffer.tokens (b : Buffer) : List Token := b.entries.map (·.token) ++ [b.eof]

/-- The index of the token at the end. -/
def Buffer.last (b : Buffer) : Nat := b.entries.length

/-- **Positions.** The state stands in front of the token with the index `p`. -/
structure State.StandsAt (b : Buffer) (p : Nat) (s : State) : Prop where
  le_last : p ≤ b.last
  rest_eq : s.rest = b.entries.drop p
  eof_eq : s.eof = b.eof

/-- The state stands in front of the token with the index `p`, or further on. -/
def State.From (b : Buffer) (p : Nat) (s : State) : Prop := ∃ q, p ≤ q ∧ s.StandsAt b q

section Positions

variable {b : Buffer} {p q : Nat} {s s' : State}

theorem State.StandsAt.length_eq (h : s.StandsAt b p) : p + s.rest.length = b.last := by
  have hle := h.le_last
  rw [h.rest_eq, List.length_drop]
  unfold Buffer.last at hle ⊢
  omega

theorem State.StandsAt.here (h : s.StandsAt b p) : s.From b p := ⟨p, Nat.le_refl p, h⟩

/-- The bound in numbers: as many tokens as stand in front of the state are left out. -/
theorem State.from_iff :
    s.From b p ↔ s.rest <:+ b.entries ∧ s.eof = b.eof ∧ p + s.rest.length ≤ b.last := by
  constructor
  · rintro ⟨q, hq, h⟩
    have hlength := h.length_eq
    exact ⟨h.rest_eq ▸ List.drop_suffix q b.entries, h.eof_eq, by omega⟩
  · rintro ⟨hsuffix, heof, hlength⟩
    have hle := hsuffix.length_le
    refine ⟨b.entries.length - s.rest.length, ?_, ?_, List.suffix_iff_eq_drop.mp hsuffix, heof⟩
    · unfold Buffer.last at hlength
      omega
    · exact Nat.sub_le _ _

namespace State.From

theorem mono (h : s.From b q) (hp : p ≤ q) : s.From b p := by
  obtain ⟨r, hr, hs⟩ := h
  exact ⟨r, hp.trans hr, hs⟩

/-- **Reading forward** keeps the bound. -/
theorem stable : Stable (State.From b p) := by
  intro s s' h hreads
  rw [from_iff] at h ⊢
  obtain ⟨hsuffix, heof, hlength⟩ := h
  have hle := hreads.suffix.length_le
  exact ⟨hreads.suffix.trans hsuffix, hreads.eof_eq.trans heof, by omega⟩

theorem report (h : s.From b p) (d : Diagnostic) : (s.report d).From b p := by
  rw [from_iff] at h ⊢
  exact h

/-- A routine that reads forward, as a contract about positions. -/
theorem meets {α : Type} {good : State → α → Prop} {r : Routine α}
    (hr : ∀ s, Forward s (good s) r) :
    Meets (State.From b p) r (fun _ => State.From b p) (fun _ => State.From b p) :=
  stable.meets hr

theorem to_scope (h : s.From b p) (scope : Scope) : State.From b p { s with scope } := by
  rw [from_iff] at h ⊢
  exact h

theorem to_suffix (h : s.From b p) {rest : List Entry} (hrest : rest <:+ s.rest) :
    State.From b p { s with rest } := by
  rw [from_iff] at h ⊢
  obtain ⟨hsuffix, heof, hlength⟩ := h
  have hle := hrest.length_le
  exact ⟨hrest.trans hsuffix, heof, (Nat.add_le_add_left hle p).trans hlength⟩

/-- The next token raises the bound, unless the bound is the end of the text. -/
theorem advance (h : s.From b p) (hp : p < b.last) : s.advance.From b (p + 1) := by
  rw [from_iff] at h ⊢
  obtain ⟨hsuffix, heof, hlength⟩ := h
  refine ⟨(List.tail_suffix _).trans hsuffix, heof, ?_⟩
  rw [State.rest_advance, List.length_tail]
  omega

/-- Tokens were read from `s` on: the bound is raised. -/
theorem succ_of_reads (h : s.StandsAt b p) (hp : p < b.last) (hreads : Reads s s')
    (hmoved : s'.rest = [] ∨ s'.rest.length < s.rest.length) : s'.From b (p + 1) := by
  have hs' := stable h.here hreads
  have hlength := h.length_eq
  rw [from_iff] at hs' ⊢
  obtain ⟨hsuffix, heof, hle⟩ := hs'
  refine ⟨hsuffix, heof, ?_⟩
  rcases hmoved with hnil | hless
  · rw [hnil, List.length_nil]
    omega
  · omega

end State.From

/-- In a closed buffer, a token of another kind is not the last one. -/
theorem State.StandsAt.lt_last (hb : b.Closed) (h : s.StandsAt b p)
    (hk : s.peek.kind ≠ .endOfText) : p < b.last := by
  rcases Nat.lt_or_eq_of_le h.le_last with hlt | rfl
  · exact hlt
  · have hnil : s.rest = [] := h.rest_eq.trans (List.drop_length (l := b.entries))
    rw [State.peek_of_rest_nil hnil, h.eof_eq, hb.eof_kind] at hk
    exact absurd rfl hk

/-- A token that is not the end of the text raises the bound. -/
theorem State.From.advance_of_ne (hb : b.Closed) (h : s.From b p)
    (hk : s.peek.kind ≠ .endOfText) : s.advance.From b (p + 1) := by
  obtain ⟨q, hq, hs⟩ := h
  exact (hs.here.advance (hs.lt_last hb hk)).mono (Nat.succ_le_succ hq)

/-- What is looked at is inside of the buffer, however far ahead. -/
theorem State.StandsAt.getElem?_tokens (h : s.StandsAt b p) (n : Nat) :
    b.tokens[min (p + n) b.last]? = some (s.peekAt n) := by
  have hlength : (b.entries.map (·.token)).length = b.last := List.length_map ..
  unfold Buffer.tokens State.peekAt
  rw [h.rest_eq, h.eof_eq, List.getElem?_drop]
  -- a token in front of the end, or the end itself
  rcases Nat.lt_or_ge (p + n) b.last with hlt | hge
  · rw [Nat.min_eq_left hlt.le, List.getElem?_append_left (by rw [hlength]; exact hlt),
      List.getElem?_map]
    have hsome : b.entries[p + n]? = some (b.entries.get ⟨p + n, hlt⟩) :=
      List.getElem?_eq_getElem hlt
    rw [hsome]
    rfl
  · have hnone : b.entries[p + n]? = none := List.getElem?_eq_none hge
    rw [Nat.min_eq_right hge, ← hlength, List.getElem?_concat_length, hnone]
    rfl

end Positions

/-! ### Repetition without a guard -/

section Repetition

variable {ε σ β : Type}

/-- **Repetition.** A round is run again and again, until one is done or gives up. There is no other
end, so only what ends is a repetition. -/
inductive Repeats (round : β → EStateM ε σ (ForInStep β)) :
    β → σ → EStateM.Result ε σ β → Prop where
  | fails {x : β} {s s' : σ} {e : ε} (h : round x s = .error e s') :
      Repeats round x s (.error e s')
  | done {x y : β} {s s' : σ} (h : round x s = .ok (.done y) s') : Repeats round x s (.ok y s')
  | yield {x y : β} {s s' : σ} {r : EStateM.Result ε σ β} (h : round x s = .ok (.yield y) s')
      (hrest : Repeats round y s' r) : Repeats round x s r

/-- Where every round that is not the last one makes the state smaller, a repetition needs no
guard. -/
theorem repeats_iterate {size : σ → Nat} {round : β → EStateM ε σ (ForInStep β)} (inv : σ → Prop)
    (hround : ∀ x s₀, Meets (fun s => s = s₀ ∧ inv s) (round x)
      (fun
        | .done _ => fun _ => True
        | .yield _ => fun s => inv s ∧ size s < size s₀) (fun _ _ => True))
    {x : β} {s : σ} (hs : inv s) : Repeats round x s (iterate size round x s) := by
  -- on the size of the state
  induction hn : size s using Nat.strongRecOn generalizing x s with
  | ind n ih =>
    rw [iterate]
    cases h : round x s with
    | error e s' => exact .fails h
    | ok r s' =>
      have hmeets := (hround x s).of_ok ⟨rfl, hs⟩ h
      cases r with
      | done y => exact .done h
      | yield y =>
        obtain ⟨hs', hless⟩ := hmeets
        simp only [hless, if_true]
        exact .yield h (ih (size s') (hn ▸ hless) hs' rfl)

end Repetition

/-! ### Loops -/

/-- The bound behind a routine that says whether it has consumed a token. -/
def State.FromIf (b : Buffer) (p : Nat) : Bool → State → Prop
  | true => State.From b (p + 1)
  | false => State.From b p

theorem State.FromIf.bound {b : Buffer} {p : Nat} {consumed : Bool} {s : State}
    (h : s.FromIf b p consumed) : s.From b p := by
  cases consumed with
  | true => exact State.From.mono h (Nat.le_succ p)
  | false => exact h

/-- Whether another round follows. -/
def another {β : Type} : ForInStep β → Bool
  | .yield _ => true
  | .done _ => false

section Loops

variable {σ β : Type} {b : Buffer} {view : σ → State}

/-- **Rounds.** From any position a round goes forward, and further if another one follows. `view`
is where a state of the loop stands. -/
def GoesOn (b : Buffer) (view : σ → State) (round : β → EStateM Diagnostic σ (ForInStep β)) :
    Prop :=
  ∀ x p, Meets (fun s => (view s).From b p) (round x)
    (fun r s => (view s).FromIf b p (another r)) (fun _ s => (view s).From b p)

/-- **Loops.** What is known of a loop whose rounds go on: each of them moves the position forward
inside of the buffer, strictly if another one follows; and the loop ends without a guard, at the
position where it has begun or behind it. -/
structure LoopsOnward (b : Buffer) (view : σ → State)
    (round : β → EStateM Diagnostic σ (ForInStep β)) : Prop where
  moves : ∀ x p, Meets (fun s => (view s).StandsAt b p) (round x)
    (fun
      | .done _ => fun s => ∃ q, p ≤ q ∧ (view s).StandsAt b q
      | .yield _ => fun s => ∃ q, p < q ∧ (view s).StandsAt b q)
    (fun _ s => ∃ q, p ≤ q ∧ (view s).StandsAt b q)
  ends : ∀ x p s, (view s).StandsAt b p →
    Repeats round x s (iterate (fun s => (view s).size) round x s)
  leaves : ∀ x p, Meets (fun s => (view s).StandsAt b p)
    (iterate (fun s => (view s).size) round x)
    (fun _ s => ∃ q, p ≤ q ∧ (view s).StandsAt b q)
    (fun _ s => ∃ q, p ≤ q ∧ (view s).StandsAt b q)

/-- All rounds together go forward. -/
theorem GoesOn.iterate {round : β → EStateM Diagnostic σ (ForInStep β)} (h : GoesOn b view round)
    (x : β) (p : Nat) :
    Meets (fun s => (view s).From b p) (iterate (fun s => (view s).size) round x)
      (fun _ s => (view s).From b p) (fun _ s => (view s).From b p) := by
  refine Meets.iterate_same (I := fun _ s => (view s).From b p) (fun y => ?_) x
  exact (h y p).to_post fun _ _ hr => hr.bound

/-- A round behind which another one follows makes the state smaller, so there is an end to them. -/
theorem GoesOn.repeats {round : β → EStateM Diagnostic σ (ForInStep β)} (h : GoesOn b view round)
    (x : β) {p : Nat} {s : σ} (hs : (view s).StandsAt b p) :
    Repeats round x s (Reading.iterate (fun s => (view s).size) round x s) := by
  refine repeats_iterate (fun s => ∃ p, (view s).StandsAt b p) (fun y s₀ => ?_) ⟨p, hs⟩
  rintro s ⟨rfl, q, hq⟩
  have hround := h y q s hq.here
  cases hres : round y s with
  | error e s' => trivial
  | ok r s' =>
    rw [hres] at hround
    cases r with
    | done z => trivial
    | yield z =>
      obtain ⟨q', hlt, hs'⟩ := hround
      refine ⟨⟨q', hs'⟩, ?_⟩
      -- the position is what is missing to the end
      have hlength := hq.length_eq
      have hlength' := hs'.length_eq
      unfold State.size
      omega

theorem GoesOn.loopsOnward {round : β → EStateM Diagnostic σ (ForInStep β)}
    (h : GoesOn b view round) : LoopsOnward b view round where
  moves x p := (h x p).weaken (fun _ hs => hs.here)
    (fun r s hr => by cases r <;> exact hr) fun _ _ he => he
  ends x _ _ hs := h.repeats x hs
  leaves x p := (h.iterate x p).of_pre fun _ hs => hs.here

end Loops

/-! ### Tokens that are consumed -/

section Tokens

variable {b : Buffer} {p : Nat} {bad : Diagnostic → State → Prop}

theorem advance_from (hp : p < b.last) :
    Meets (State.From b p) advance (fun _ => State.From b (p + 1)) bad :=
  fun _ hs => hs.advance hp

/-- A token that was looked at is consumed. -/
theorem advance_peeked (hb : b.Closed) {kind : Token.Kind} (hkind : kind ≠ .endOfText) :
    Meets (fun s => kind = s.peek.kind ∧ s.From b p) (discard advance)
      (fun _ => State.From b (p + 1)) bad := by
  rintro s ⟨rfl, hs⟩
  exact hs.advance_of_ne hb hkind

theorem eat_from (hb : b.Closed) {kind : Token.Kind} (hkind : kind ≠ .endOfText) :
    Meets (State.From b p) (eat kind) (fun o => State.FromIf b p o.isSome) bad := by
  intro s hs
  by_cases hk : s.peek.kind = kind
  · have heat := Yields.eat hk
    rw [Yields] at heat
    rw [heat]
    exact hs.advance_of_ne hb (hk ▸ hkind)
  · have heat := Yields.eat_none hk
    rw [Yields] at heat
    rw [heat]
    exact hs

theorem eats_from (hb : b.Closed) {kind : Token.Kind} (hkind : kind ≠ .endOfText) :
    Meets (State.From b p) (do return (← eat kind).isSome) (State.FromIf b p) bad :=
  Meets.bind (eat_from hb hkind) fun _ => Meets.pure fun _ hs => hs

theorem comma_from (hb : b.Closed) : Meets (State.From b p) comma (State.FromIf b p) bad :=
  eats_from hb (by decide)

theorem commaBefore_from (hb : b.Closed) (close : Token.Kind) :
    Meets (State.From b p) (commaBefore close) (State.FromIf b p) bad := by
  refine Meets.bind (comma_from hb) fun eaten => ?_
  cases eaten with
  | false => exact Meets.pure fun _ hs => hs
  | true =>
    refine Meets.bind Meets.peekKind fun kind => Meets.pure fun s hs => ?_
    -- the comma is consumed also where the list ends behind it
    cases decide (kind ≠ close) with
    | true => exact hs.2
    | false => exact State.FromIf.bound hs.2

theorem typeJoin_from (hb : b.Closed) :
    Meets (State.From b p) typeJoin (State.FromIf b p) bad := by
  refine Meets.bind Meets.get fun s => ?_
  refine Meets.ite (fun hjoin => ?_) fun _ => Meets.pure fun _ hs => hs.2
  have hkind : s.peek.kind ≠ .endOfText := by
    simp only [State.atTypeJoin, Bool.and_eq_true, beq_iff_eq] at hjoin
    simp [hjoin.1]
  refine Meets.bind ((advance_peeked hb hkind).of_pre ?_) fun _ => Meets.pure fun _ hs => hs
  rintro s' ⟨rfl, hs⟩
  exact ⟨rfl, hs⟩

/-- One modifier of a class; this round never gives up. -/
theorem classFlagRound_from (hb : b.Closed) (flags : ClassFlags) :
    Meets (State.From b p) (classFlagRound flags)
      (fun r => State.FromIf b p (another r)) bad := by
  refine Meets.bind Meets.peekKind fun kind => ?_
  split
  case h_4 => exact Meets.pure fun _ hs => hs.2
  all_goals
    exact Meets.bind (advance_peeked hb (by decide)) fun _ => Meets.pure fun _ hs => hs

end Tokens

/-! ### The rounds of the reader -/

namespace GoesOn

variable {b : Buffer} {α : Type}

/-- **Lists.** Behind an item, another one is read only if a token was consumed between them. -/
theorem listRound {item : Routine α} {more : Routine Bool} {good : State → α → Prop}
    (hitem : ∀ s, Forward s (good s) item)
    (hmore : ∀ p, Meets (State.From b p) more (State.FromIf b p) (fun _ => State.From b p)) :
    GoesOn b id (listRound item more) := by
  intro items p
  refine Meets.bind (State.From.meets hitem) fun a => ?_
  refine Meets.bind (hmore p) fun again => Meets.pure fun s hs => ?_
  cases again with
  | true => exact hs
  | false => exact hs

theorem modifierRound (hb : b.Closed) : GoesOn b id modifierRound := by
  intro current p
  refine Meets.bind Meets.peek fun t => ?_
  cases hmod : modifierOf? t.kind with
  | none => exact Meets.pure fun _ hs => hs.2
  | some new =>
    have hkind : t.kind ≠ .endOfText := by
      intro hend
      rw [hend] at hmod
      exact nomatch hmod
    refine Meets.bind ((advance_peeked (p := p) hb hkind).of_pre ?_) fun _ => ?_
    · rintro s ⟨rfl, hs⟩
      exact ⟨rfl, hs⟩
    · cases modifierFault? current new t with
      | none => exact Meets.pure fun _ hs => hs
      | some d =>
        exact Meets.bind (Meets.modify fun s hs => hs.report d) fun _ => Meets.pure fun _ hs => hs

theorem promotionRound (hb : b.Closed) : GoesOn b id promotionRound := by
  intro current p
  refine Meets.bind Meets.peekKind fun kind => ?_
  cases hmod : promotionOf? kind with
  | none => exact Meets.pure fun _ hs => hs.2
  | some new =>
    have hkind : kind ≠ .endOfText := by
      rintro rfl
      exact nomatch hmod
    exact Meets.bind (advance_peeked hb hkind) fun _ => Meets.pure fun _ hs => hs

theorem classFlagRound (hb : b.Closed) : GoesOn b id classFlagRound :=
  fun flags _ => classFlagRound_from hb flags

theorem adding_from {p : Nat} {span : Span} (f : ClassDraft → Except DraftError ClassDraft) :
    Meets (fun c : Body => c.From b p) (adding span f) (fun _ c => c.From b p)
      (fun _ c => c.From b p) :=
  Meets.adding (fun _ _ hc _ => hc) fun _ e hc => hc.report e

theorem propertyRound (hb : b.Closed) (cfg : Setting) (mods : Modifiers) (hint : Option TypeHint) :
    GoesOn b Body.toState (propertyRound cfg mods hint) := by
  rintro ⟨doc, line⟩ p
  have hdraft : Meets (State.From b p) (propertyDraft cfg mods hint doc line)
      (fun _ => State.From b p) (fun _ => State.From b p) :=
    State.From.meets fun _ => Forward.propertyDraft cfg mods hint doc line
  refine Meets.bind hdraft.reading fun (property, span) => ?_
  refine Meets.bind (adding_from _) fun _ => ?_
  refine Meets.bind (Meets.reading (comma_from hb)) fun again => ?_
  cases again with
  | false => exact Meets.pure fun _ hs => hs
  | true => exact Meets.bind Meets.get fun _ => Meets.pure fun _ hs => hs.2

theorem constantRound (hb : b.Closed) (cfg : Setting) (mods : Modifiers) (hint : Option TypeHint) :
    GoesOn b Body.toState (constantRound cfg mods hint) := by
  intro _ p
  have hdraft : Meets (State.From b p) (constantDraft cfg mods hint)
      (fun _ => State.From b p) (fun _ => State.From b p) :=
    State.From.meets fun _ => Forward.constantDraft cfg mods hint
  refine Meets.bind hdraft.reading fun (constant, span) => ?_
  refine Meets.bind (adding_from _) fun _ => ?_
  refine Meets.bind (Meets.reading (comma_from hb)) fun again => Meets.pure fun _ hs => ?_
  cases again with
  | true => exact hs
  | false => exact hs

/-- **Members.** A member that is read or recovered from has moved the reader, and the class or the
file ends where there is none. -/
theorem memberRound (hb : b.Closed) (cfg : Setting) :
    GoesOn b Body.toState (memberRound cfg) := by
  intro _ p
  refine Meets.bind Meets.get fun c => ?_
  split
  case h_1 => exact Meets.pure fun _ hs => hs.2
  case h_2 => exact Meets.pure fun _ hs => hs.2
  case h_3 hright hend =>
    -- that the reader has moved is known from its walk, and where it stands from reading forward
    have hmember : Meets (fun c' => c = c' ∧ c'.From b p) (memberOrRecover cfg)
        (fun _ c' => c'.From b (p + 1)) (fun _ c' => c'.From b p) := by
      rintro c' ⟨rfl, q, hq, hc⟩
      have hlt := hc.lt_last hb hend
      have hforward : BodyForward c.toState c.draft.endLine (fun _ => True) (memberOrRecover cfg) :=
        BodyForward.memberOrRecover cfg
      have hwalks : Meets (fun c' => c' = c ∧ Along c.toState c'.toState) (memberOrRecover cfg)
          (fun _ c' => Along c.toState c'.toState ∧
            (c'.rest = [] ∨ c'.rest.length < c.rest.length)) (fun _ _ => False) :=
        BodyWalks.memberOrRecover cfg hright
      have hstart : c = c ∧ Along c.toState c.toState := ⟨rfl, Along.refl _⟩
      cases hres : memberOrRecover cfg c with
      | error e c' => exact (hwalks.of_error hstart hres).elim
      | ok u c' =>
        have hmoved := (hwalks.of_ok hstart hres).2
        have hreads := (hforward.of_ok ⟨Reads.refl _, rfl⟩ hres).1.reads
        exact (State.From.succ_of_reads hc hlt hreads hmoved).mono (Nat.succ_le_succ hq)
    exact Meets.bind hmember fun _ => Meets.pure fun _ hc => hc

end GoesOn

/-! ### Classes -/

section Classes

variable {b : Buffer} {p : Nat} {file : SourceFile} {bad : Diagnostic → State → Prop}

/-- Whether or not there is a modifier, the word `class` or `interface` is consumed. -/
theorem classFlags_from (hb : b.Closed) (hp : p < b.last) :
    Meets (State.From b p) classFlags (fun _ => State.From b (p + 1)) bad := by
  refine Meets.bind (Meets.iterate_same (I := fun _ => State.From b p) (fun flags => ?_)
    ({} : ClassFlags)) fun _ => Meets.bind (advance_from hp) fun _ => Meets.pure fun _ hs => hs
  exact (classFlagRound_from hb flags).to_post fun _ _ hr => hr.bound

theorem classDraft_from (hb : b.Closed) (hp : p < b.last) (start : List Entry) :
    Meets (State.From b p) (classDraft file start) (fun _ => State.From b (p + 1)) bad := by
  rw [classDraft_eq]
  have hadvance : Meets (State.From b (p + 1)) advance (fun _ => State.From b (p + 1)) bad :=
    fun s hs => State.From.stable hs (Reads.refl s).advance
  have hdoc : Meets (State.From b (p + 1)) (docSince start) (fun _ => State.From b (p + 1)) bad :=
    fun _ hs => hs
  refine Meets.bind (Meets.peek.to_post fun _ _ hs => hs.2) fun _ => ?_
  refine Meets.bind (classFlags_from hb hp) fun _ => ?_
  refine Meets.bind hdoc fun _ => ?_
  refine Meets.bind hadvance fun _ => ?_
  exact Meets.bind (Meets.get.to_post fun _ _ hs => hs.2) fun _ => Meets.pure fun _ hs => hs

theorem classEnd_from (start : List Entry) (header : Span) (d : ClassDraft) :
    Meets (State.From b p) (classEnd start header d) (fun _ => State.From b p) bad := by
  have hreport : ∀ s d, State.From b p s → State.From b p (s.report d) := fun _ d hs => hs.report d
  have hexpect : Meets (State.From b p) (expect .rightBrace) (fun _ => State.From b p)
      (fun _ => State.From b p) :=
    State.From.meets fun _ => Forward.expect _
  refine Meets.bind hexpect.attempt_same fun o => ?_
  cases o with
  | ok closing => exact Meets.write hreport _ _
  | error e =>
    exact Meets.bind (Meets.modify fun s hs => hs.report e) fun _ => Meets.write hreport _ _

/-- **Classes.** Behind a class, or where it was recovered from, tokens have been consumed. -/
theorem classDeclaration_from (hb : b.Closed) (hp : p < b.last) (start : List Entry) :
    Meets (State.From b p) (classDeclaration file start) (fun _ => State.From b (p + 1))
      (fun _ => State.From b (p + 1)) := by
  -- no parent has been written where the header begins
  have hunwritten : Gives (fun r : ClassDraft × Token × Span => r.1.parentName = none)
      (classDraft file start) :=
    Forward.gives (fun _ => Forward.classDraft file start) fun _ _ h => h.parentName_eq
  have hdraft : Meets (State.From b p) (classDraft file start)
      (fun r s => r.1.parentName = none ∧ State.From b (p + 1) s) (fun _ => State.From b (p + 1)) :=
    ((hunwritten.meets.of_pre fun _ _ => trivial).and (classDraft_from hb hp start)).weaken
      (fun _ h => h) (fun _ _ h => ⟨h.1.2, h.2⟩) fun _ _ h => h.2
  refine Meets.bind hdraft fun (d, name, header) => Meets.given fun hd => ?_
  have hheader : Meets (State.From b (p + 1)) (classHeader file.resolver d)
      (fun _ => State.From b (p + 1)) (fun _ => State.From b (p + 1)) :=
    State.From.meets fun _ => Forward.classHeader file.resolver hd
  refine Meets.bind hheader.attempt_same fun o => ?_
  cases o with
  | error e =>
    -- the header cannot be read
    refine Meets.bind (Meets.modify fun s hs => hs.report e) fun _ => ?_
    refine Meets.bind (State.From.meets fun _ => Forward.recoverDeclaration) fun _ => ?_
    exact Meets.pure fun _ hs => hs
  -- the bound was raised by the words in front of the name, the rest only has to keep it
  | ok d =>
    refine Meets.bind (State.From.meets fun _ => Forward.classMembers _ d) fun d => ?_
    exact Meets.bind (classEnd_from start header d) fun _ => Meets.pure fun _ hs => hs

/-- Whether a class begins is found out by looking ahead. The looking ahead passes modifiers, and
ends inside of the buffer: its end is no modifier. -/
theorem atClass_looks (hb : b.Closed) {s : State} (hs : s.StandsAt b p) :
    ∃ n, p + n ≤ b.last ∧ (∀ i < n, isClassModifier (s.peekAt i).kind = true) ∧
      isClassModifier (s.peekAt n).kind = false ∧
      atClass s.rest = (((s.peekAt n).kind == .classWord || (s.peekAt n).kind == .interfaceWord)
        && (s.peekAt (n + 1)).kind == .name) := by
  have hlength := hs.length_eq
  have heof : s.eof.kind = .endOfText := hs.eof_eq ▸ hb.eof_kind
  suffices hlook : ∀ es : List Entry, ∃ n ≤ es.length,
      (∀ i < n, isClassModifier ((es[i]?.map (·.token)).getD s.eof).kind = true) ∧
      isClassModifier ((es[n]?.map (·.token)).getD s.eof).kind = false ∧
      atClass es = ((((es[n]?.map (·.token)).getD s.eof).kind == .classWord
          || ((es[n]?.map (·.token)).getD s.eof).kind == .interfaceWord)
        && ((es[n + 1]?.map (·.token)).getD s.eof).kind == .name) by
    obtain ⟨n, hn, hmods, hend, heq⟩ := hlook s.rest
    exact ⟨n, by omega, hmods, hend, heq⟩
  intro es
  induction es with
  | nil =>
    exact ⟨0, Nat.le_refl 0, by simp, by simp [heof, isClassModifier], by simp [atClass, heof]⟩
  | cons e es ih =>
    cases hmod : isClassModifier e.kind with
    -- one modifier more is passed
    | true =>
      obtain ⟨n, hn, hmods, hend, heq⟩ := ih
      refine ⟨n + 1, Nat.succ_le_succ hn, fun i hi => ?_, hend, ?_⟩
      · cases i with
        | zero => exact hmod
        | succ i => exact hmods i (Nat.lt_of_succ_lt_succ hi)
      · rw [atClass, List.dropWhile_cons_of_pos (p := fun e : Entry => isClassModifier e.kind) hmod]
        exact heq
    | false =>
      refine ⟨0, Nat.zero_le _, by simp, hmod, ?_⟩
      rw [atClass, List.dropWhile_cons_of_neg (by simp [hmod])]
      cases es with
      -- behind the last token the reader sees the end of the text, which is no name
      | nil => simp [heof]
      | cons name es => rfl

end Classes

/-! ### Steps -/

section Steps

variable {b : Buffer} {p q : Nat} {f : FileState} {file : SourceFile}

/-- A routine that begins with a token consumes it. -/
theorem Forward.Behind.meets {α : Type} {r : Routine α} (hr : Behind r) (hp : p < b.last) :
    Meets (State.From b p) r (fun _ => State.From b (p + 1)) (fun _ => State.From b (p + 1)) := by
  obtain ⟨r', rfl, hr'⟩ := hr
  exact Meets.bind (Meets.discard (advance_from hp)) fun _ => State.From.meets hr'

theorem readsClass_from (hb : b.Closed) (hp : p < b.last) (start : List Entry) :
    ReadsDeclaration file start (State.From b p) (State.From b (p + 1))
      (fun _ => State.From b (p + 1)) :=
  (classDeclaration_from hb hp start).to_post fun _ _ hs => ⟨hs, fun _ _ => hs.report _⟩

/-- At an attribute, its opening token is consumed. -/
theorem skipAttributes_from (hp : p < b.last) :
    Meets (fun s => s.StandsAt b p ∧ s.peek.kind = .attributeOpen) skipAttributes
      (fun _ => State.From b (p + 1)) (fun _ => State.From b (p + 1)) := by
  rintro s ⟨hs, hk⟩
  have hadvance := hs.here.advance hp
  cases hpass : passAttributes none s.rest with
  | error opening =>
    -- what is never closed is skipped to the end of the text
    obtain ⟨d, hrun⟩ : ∃ d, Fails skipAttributes s d { s with rest := [] } := by
      refine ⟨⟨.mismatchedDelimiter, opening.span, "attribute is never closed"⟩,
        Yields.bind_fails .get ?_⟩
      rw [hpass]
      exact Yields.bind_fails .set .throw
    rw [Fails] at hrun
    rw [hrun]
    exact hadvance.to_suffix List.nil_suffix
  | ok rest =>
    have hrun : Yields skipAttributes s () { s with rest } := by
      refine Yields.bind .get ?_
      rw [hpass]
      exact .set
    rw [Yields] at hrun
    rw [hrun]
    refine hadvance.to_suffix ?_
    -- the attributes end behind the opening token of the first one
    cases hrest : s.rest with
    | nil =>
      have hlength := hs.length_eq
      simp [hrest] at hlength
      omega
    | cons e es =>
      rw [State.peek_of_rest hrest] at hk
      have hk : e.kind = .attributeOpen := hk
      rw [hrest, passAttributes.eq_def] at hpass
      simp only [hk, if_true] at hpass
      rw [State.rest_advance, hrest]
      exact passAttributes_suffix hpass

theorem FileState.readAttributed_from (h : f.StandsAt b p) (hp : p < b.last)
    (hk : f.peek.kind = .attributeOpen) : (f.readAttributed file).From b (p + 1) := by
  -- behind the attributes a class is read forward
  have hclass : Meets (State.From b (p + 1)) (classDeclaration file f.rest)
      (fun _ => State.From b (p + 1)) (fun _ => State.From b (p + 1)) :=
    State.From.meets fun _ => Forward.classDeclaration file f.rest
  refine FileState.of_readAttributed (skipAttributes_from hp) ?_ (fun _ hs => hs)
    (fun e _ hs => hs.report e) ⟨h, hk⟩
  exact (hclass.of_pre fun _ hs => hs.1).to_post fun _ _ hs => ⟨hs, fun _ _ => hs.report _⟩

/-- **One step** moves the reader forward, whatever it begins at. -/
theorem FileState.step_from (hb : b.Closed) (h : f.StandsAt b p) (hp : p < b.last) :
    (f.step file).From b (p + 1) := by
  have hrun : ∀ {α : Type} {r : Routine α}, Forward.Behind r → (f.run r).From b (p + 1) :=
    fun hr => FileState.of_run (hr.meets hp) (fun _ _ hs => State.From.report hs _) h.here
  have hpass : (f.run advance).From b (p + 1) :=
    FileState.of_run (advance_from hp) (fun _ _ hs => State.From.report hs _) h.here
  have hbody : Forward.Behind (do discard advance; skipToBody) :=
    ⟨_, rfl, fun _ => Forward.skipToBody⟩
  cases f.stepsTo_step file with
  -- only the braces differ
  | space _ _ _ heq => exact heq ▸ hrun Forward.namespaceStatement
  | imports _ heq => exact heq ▸ hrun Forward.importStatement
  | attributed hk heq => exact heq ▸ FileState.readAttributed_from h hp hk
  | enters _ heq =>
    rw [heq]
    exact FileState.of_readClass (readsClass_from hb hp f.rest)
      (fun _ _ hs => State.From.report hs _) h.here
  | body _ heq => exact heq ▸ hrun hbody
  | anonymous _ _ heq => exact heq ▸ hrun ⟨_, rfl, fun _ => hbody.forward⟩
  | opens _ heq | closes _ _ heq | passes _ _ _ heq => exact heq ▸ hpass
  | leaves _ _ heq => exact heq ▸ hpass.to_scope _

/-- **All steps.** The reading comes to the end of the text, step by step. -/
theorem FileState.finish_visits (hb : b.Closed) (h : f.StandsAt b p) :
    f.Visits file (f.finish file) ∧ (f.finish file).StandsAt b b.last := by
  suffices hall : ∀ p, f.StandsAt b p →
      f.Visits file (f.finish file) ∧ (f.finish file).StandsAt b b.last from hall p h
  clear h
  fun_induction FileState.finish f file with
  | case1 f hnil =>
    intro p h
    have hlength := h.length_eq
    rw [hnil, List.length_nil] at hlength
    exact ⟨.here f, hlength ▸ h⟩
  | case2 f hcons f' hless ih =>
    intro p h
    obtain ⟨q, -, hq⟩ := State.From.stable h.here ((Reads.refl f.toState).step file)
    obtain ⟨hvisits, hend⟩ := ih q hq
    exact ⟨.step hcons hless hvisits, hend⟩
  | case3 f hcons f' hless =>
    -- a step that reads nothing does not occur
    intro p h
    have hlength := h.length_eq
    have hpos := List.length_pos_iff.mpr hcons
    obtain ⟨q, hq, hf'⟩ : f'.From b (p + 1) := FileState.step_from hb h (by omega)
    have hlength' : q + f'.rest.length = b.last := hf'.length_eq
    omega

end Steps

/-! ### The contract -/

/-- A routine that moves forward inside of a buffer, whether or not it gives up. -/
def Onward {α : Type} (b : Buffer) (r : Routine α) : Prop :=
  ∀ p, Meets (State.StandsAt b p) r (fun _ s => ∃ q, p ≤ q ∧ s.StandsAt b q)
    (fun _ s => ∃ q, p ≤ q ∧ s.StandsAt b q)

theorem Forward.onward {α : Type} {b : Buffer} {good : State → α → Prop} {r : Routine α}
    (hr : ∀ s, Forward s (good s) r) : Onward b r :=
  fun _ => (State.From.meets hr).of_pre fun _ hs => hs.here

/-- **Reading inside of a buffer.** What is known of the reader wherever in the buffer it stands:
what it sees, how far its loops and walks move it, that they end, and that no count falls below
zero. -/
structure ReadsInside (file : SourceFile) (b : Buffer) : Prop where
  /-- However far it looks ahead, the reader sees a token of the buffer. -/
  peeks : ∀ (p : Nat) (s : State), s.StandsAt b p →
    ∀ n, b.tokens[min (p + n) b.last]? = some (s.peekAt n)
  /-- Outside of classes, a step moves the reader. -/
  steps : ∀ (p : Nat) (f : FileState), f.StandsAt b p → p < b.last →
    ∃ q, p < q ∧ (f.step file).StandsAt b q
  /-- The steps lead to the end of the text. -/
  finishes : ∀ (p : Nat) (f : FileState), f.StandsAt b p →
    f.Visits file (f.finish file) ∧ (f.finish file).StandsAt b b.last
  members : ∀ cfg, LoopsOnward b Body.toState (memberRound cfg)
  properties : ∀ cfg mods hint, LoopsOnward b Body.toState (propertyRound cfg mods hint)
  constants : ∀ cfg mods hint, LoopsOnward b Body.toState (constantRound cfg mods hint)
  parameters : ∀ cfg f doc,
    LoopsOnward b id (listRound (parameter cfg f doc) (commaBefore .rightParen))
  promotion : LoopsOnward b id promotionRound
  modifiers : LoopsOnward b id modifierRound
  unions : ∀ f, LoopsOnward b id (listRound (unionMember f) (do return (← eat .pipe).isSome))
  intersections : ∀ f, LoopsOnward b id (listRound (singleType f) typeJoin)
  enclosed : ∀ f, LoopsOnward b id (listRound (singleType f) (do return (← eat .amp).isSome))
  imports : LoopsOnward b id (listRound importItem comma)
  groups : ∀ lead, LoopsOnward b id (listRound (groupItem lead) (commaBefore .rightBrace))
  names : ∀ resolver, LoopsOnward b id (listRound (className resolver) comma)
  classFlags : LoopsOnward b id classFlagRound
  /-- The looking ahead for a class passes modifiers, and ends at a token that is none. -/
  atClass : ∀ (p : Nat) (s : State), s.StandsAt b p →
    ∃ n, p + n ≤ b.last ∧ (∀ i < n, isClassModifier (s.peekAt i).kind = true) ∧
      isClassModifier (s.peekAt n).kind = false ∧
      atClass s.rest = (((s.peekAt n).kind == .classWord || (s.peekAt n).kind == .interfaceWord)
        && (s.peekAt (n + 1)).kind == .name)
  skipBlock : Onward b skipBlock
  skipAttributes : Onward b skipAttributes
  skipStatement : Onward b skipStatement
  skipToBody : Onward b skipToBody
  recoverDeclaration : Onward b recoverDeclaration
  recoverMember : Onward b recoverMember
  initializer : ∀ source stops, Onward b (initializer source stops)
  /-- The counts of the walks do not fall below zero, so each walk of a counter has a result. -/
  block_counts : ∀ es, ∃ k,
    Counter.block.walk 1 es = some (k, ((closeBlock 0 es).map (·.2)).getD []) ∧
      (k = 0 ↔ (closeBlock 0 es).isSome = true)
  attribute_counts : ∀ opening es, ∃ k rest, Counter.bracket.walk 1 es = some (k, rest) ∧
    passAttributes (some (opening, 0)) es
      = if k = 0 then passAttributes none rest else .error opening
  statement_counts : ∀ es, ∃ k, Counter.statement.walk 0 es = some (k, statementEnd 0 es)
  body_counts : ∀ es, ∃ k, Counter.body.walk 0 es = some (k, bodyStart 0 es)
  initializer_counts : ∀ stops es, ∃ k,
    (Counter.initializer stops).walk 0 es = some (k, (splitInitializer stops 0 es).2)

/-- **The reader stays inside of every closed buffer and comes to its end,** from every position. -/
theorem reads_inside (file : SourceFile) {b : Buffer} (hb : b.Closed) : ReadsInside file b where
  peeks _ _ hs := hs.getElem?_tokens
  steps _ _ h hp := FileState.step_from hb h hp
  finishes _ _ h := FileState.finish_visits hb h
  members cfg := (GoesOn.memberRound hb cfg).loopsOnward
  properties cfg mods hint := (GoesOn.propertyRound hb cfg mods hint).loopsOnward
  constants cfg mods hint := (GoesOn.constantRound hb cfg mods hint).loopsOnward
  parameters cfg f doc :=
    (GoesOn.listRound (fun _ => Forward.parameter cfg f doc) fun _ =>
      commaBefore_from hb _).loopsOnward
  promotion := (GoesOn.promotionRound hb).loopsOnward
  modifiers := (GoesOn.modifierRound hb).loopsOnward
  unions f :=
    (GoesOn.listRound (fun _ => Forward.unionMember f) fun _ =>
      eats_from hb (by decide)).loopsOnward
  intersections f :=
    (GoesOn.listRound (fun _ => Forward.singleType f) fun _ => typeJoin_from hb).loopsOnward
  enclosed f :=
    (GoesOn.listRound (fun _ => Forward.singleType f) fun _ =>
      eats_from hb (by decide)).loopsOnward
  imports := (GoesOn.listRound (fun _ => Forward.importItem) fun _ => comma_from hb).loopsOnward
  groups lead :=
    (GoesOn.listRound (fun _ => Forward.groupItem lead) fun _ => commaBefore_from hb _).loopsOnward
  names resolver :=
    (GoesOn.listRound (fun _ => Forward.className resolver) fun _ => comma_from hb).loopsOnward
  classFlags := (GoesOn.classFlagRound hb).loopsOnward
  atClass _ _ hs := atClass_looks hb hs
  skipBlock := Forward.onward fun _ => Forward.skipBlock
  skipAttributes := Forward.onward fun _ => Forward.skipAttributes
  skipStatement := Forward.onward fun _ => Forward.skipStatement
  skipToBody := Forward.onward fun _ => Forward.skipToBody
  recoverDeclaration := Forward.onward fun _ => Forward.recoverDeclaration
  recoverMember := Forward.onward fun _ => Forward.recoverMember
  initializer source stops := Forward.onward fun _ => Forward.initializer source stops
  block_counts := closeBlock_counts 0
  attribute_counts opening := passAttributes_counts opening 0
  statement_counts := statementEnd_counts 0
  body_counts := bodyStart_counts 0
  initializer_counts stops := splitInitializer_counts stops 0

/-- The buffer of a text is closed. -/
theorem closed_start (source : String) :
    Buffer.Closed ⟨(FileState.start source).rest, (FileState.start source).eof⟩ :=
  ⟨FileState.kind_eof_start source, fun _ he => FileState.kind_ne_endOfText_of_mem he⟩

/-- A class that is never closed, for example. -/
theorem reads_inside_unclosed :
    ReadsInside { text := "<?php class A \x7b" }
      ⟨(FileState.start "<?php class A \x7b").rest, (FileState.start "<?php class A \x7b").eof⟩ :=
  reads_inside _ (closed_start _)

end Introspect.Reading
