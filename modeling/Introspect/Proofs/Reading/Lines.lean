import Introspect.Proofs.Reading.Classes

/-!
# The lines of what is read

The tokens of a file stand in order: each of them starts on a line on which those before it have
ended. `Lines last k s` says this of the tokens in front of a state, and that they start on line `k`
or later and, the end of the file apart, end on line `last` or earlier. It stays true when tokens
are read (`Lines.of_reads`), so a routine that reads forward keeps it for every `k` at once
(`Lines.meets`); a routine that yields a token leaves the lines behind that token (`Lines.Behind`).

What a routine yields with lines is `Placed` between the line from which it was read on and the
tokens it leaves: a method, a property, and the properties that parameters declare. The two lemmas
for these are `Lines.methodDraft` and `Lines.propertyDraft`.

Facts that stay true when tokens are read are `Stable`. A `BodyInvariant` is such a fact about the
draft of a class, and what every member keeps of it is kept by the body (`BodyInvariant.classBody`).
-/

namespace Introspect.Reading

/-! ### Tokens in order -/

/-- The tokens in front of a state, with the end of the file. -/
def State.ahead (s : State) : List Token := s.rest.map (·.token) ++ [s.eof]

/-- **Lines.** The tokens in front of the state stand in order, from line `k` on and up to line
`last`, and the file ends there or later. -/
structure Lines (last k : Nat) (s : State) : Prop where
  ordered : s.ahead.Pairwise fun t u => t.span.endLine ≤ u.span.line
  proper : ∀ t ∈ s.ahead, t.span.line ≤ t.span.endLine
  from_le : ∀ t ∈ s.ahead, k ≤ t.span.line
  le_last : ∀ e ∈ s.rest, e.token.span.endLine ≤ last
  last_le : last ≤ s.eof.span.line
  eof_kind : s.eof.kind = .endOfText
  kind_ne : ∀ e ∈ s.rest, e.kind ≠ .endOfText

/-- The token `t`, which stands on line `k` or later, has been read, and the lines behind it are
left. -/
structure Lines.Behind (last k : Nat) (t : Token) (s : State) : Prop where
  le_line : k ≤ t.span.line
  line_le : t.span.line ≤ t.span.endLine
  le_last : t.span.endLine ≤ last
  lines : Lines last t.span.endLine s

/-- A declaration that starts on line `a` and ends on line `z`, both written, was read from line `k`
on, and the lines behind it are left. -/
def Placed (last k : Nat) (a z : Option Nat) (s : State) : Prop :=
  ∃ i j, a = some i ∧ z = some j ∧ k ≤ i ∧ i ≤ j ∧ j ≤ last ∧ Lines last j s

section Lines

variable {last k : Nat} {s s' : State} {t : Token}

theorem State.peek_mem_ahead (s : State) : s.peek ∈ s.ahead := by
  cases hrest : s.rest with
  | nil => simp [State.ahead, State.peek_of_rest_nil hrest]
  | cons e es => simp [State.ahead, State.peek_of_rest hrest, hrest]

/-- The next token stands in front of all others. -/
theorem State.ahead_eq_cons (s : State) : ∃ ts, s.ahead = s.peek :: ts := by
  cases hrest : s.rest with
  | nil => exact ⟨[], by simp [State.ahead, State.peek_of_rest_nil hrest, hrest]⟩
  | cons e es => exact ⟨_, by rw [State.ahead, State.peek_of_rest hrest, hrest]; rfl⟩

theorem State.ahead_suffix (h : s'.rest <:+ s.rest) (heof : s'.eof = s.eof) :
    s'.ahead <:+ s.ahead := by
  obtain ⟨before, hbefore⟩ := h
  refine ⟨before.map (·.token), ?_⟩
  simp [State.ahead, ← hbefore, heof]

namespace Lines

theorem of_reads (h : Lines last k s) (hreads : Reads s s') : Lines last k s' := by
  have hahead := State.ahead_suffix hreads.suffix hreads.eof_eq
  exact
    { ordered := h.ordered.sublist hahead.sublist
      proper := fun t ht => h.proper t (hahead.subset ht)
      from_le := fun t ht => h.from_le t (hahead.subset ht)
      le_last := fun e he => h.le_last e (hreads.suffix.subset he)
      last_le := hreads.eof_eq ▸ h.last_le
      eof_kind := hreads.eof_eq ▸ h.eof_kind
      kind_ne := fun e he => h.kind_ne e (hreads.suffix.subset he) }

theorem mono (h : Lines last k s) {l : Nat} (hl : l ≤ k) : Lines last l s :=
  { h with from_le := fun t ht => hl.trans (h.from_le t ht) }

theorem le_peek (h : Lines last k s) : k ≤ s.peek.span.line := h.from_le _ s.peek_mem_ahead

/-- A token that remains ends on the last line or earlier. -/
theorem peek_le_last (h : Lines last k s) (hne : s.rest ≠ []) : s.peek.span.line ≤ last := by
  cases hrest : s.rest with
  | nil => exact absurd hrest hne
  | cons e es =>
    have hpeek := h.proper _ s.peek_mem_ahead
    rw [State.peek_of_rest hrest] at hpeek ⊢
    exact hpeek.trans (h.le_last e (by simp [hrest]))

theorem rest_eq_nil (h : Lines last k s) (hk : s.peek.kind = .endOfText) : s.rest = [] := by
  cases hrest : s.rest with
  | nil => rfl
  | cons e es =>
    rw [State.peek_of_rest hrest] at hk
    exact absurd hk (h.kind_ne e (by simp [hrest]))

/-- At the end of the file, only its end is ahead. -/
theorem at_end (h : Lines last k s) (hrest : s.rest = []) : Lines last last s := by
  refine { h with from_le := fun t ht => ?_ }
  rw [State.ahead, hrest, List.map_nil, List.nil_append, List.mem_singleton] at ht
  rw [ht]
  exact h.last_le

/-- All that is ahead starts on the line of the next token or later. -/
theorem from_peek (h : Lines last k s) : Lines last s.peek.span.line s := by
  refine { h with from_le := ?_ }
  obtain ⟨ts, hahead⟩ := s.ahead_eq_cons
  have hordered := h.ordered
  have hpeek := h.proper _ s.peek_mem_ahead
  rw [hahead] at hordered ⊢
  intro t ht
  rcases List.mem_cons.mp ht with rfl | ht
  · exact Nat.le_refl _
  · exact hpeek.trans ((List.pairwise_cons.mp hordered).1 t ht)

/-- Behind an entry that has been passed over, the lines go on where it ends. -/
theorem behind_entry (h : Lines last k s) (before : List Entry) {rest : List Entry} {e : Entry}
    (hrest : s.rest = before ++ e :: rest) : Behind last k e.token { s with rest } := by
  have he : e ∈ s.rest := by simp [hrest]
  have hahead : s.ahead
      = before.map (·.token) ++ e.token :: State.ahead { s with rest } := by
    simp [State.ahead, hrest]
  have hmem : e.token ∈ s.ahead := by simp [hahead]
  have hordered := h.ordered
  rw [hahead, List.pairwise_append, List.pairwise_cons] at hordered
  -- what is passed over is read as well
  have hreads : Reads s { s with rest } := by
    refine (Reads.refl s).to_suffix ?_
    rw [hrest]
    exact (List.suffix_cons e rest).trans (List.suffix_append before _)
  exact
    { le_line := h.from_le _ hmem
      line_le := h.proper _ hmem
      le_last := h.le_last e he
      lines := { h.of_reads hreads with from_le := hordered.2.1.1 } }

theorem Behind.mono (h : Behind last k t s) : Lines last k s :=
  h.lines.mono (h.le_line.trans h.line_le)

/-- Behind a token that is not the end of the file. -/
theorem advance_behind (h : Lines last k s) (hk : s.peek.kind ≠ .endOfText) :
    Behind last k s.peek s.advance := by
  cases hrest : s.rest with
  | nil =>
    -- only the end of the file is ahead, which is excluded
    rw [State.peek_of_rest_nil hrest] at hk
    exact absurd h.eof_kind hk
  | cons e es =>
    have hbehind := h.behind_entry [] hrest
    rw [State.peek_of_rest hrest]
    simpa [State.advance, hrest] using hbehind

theorem report (h : Lines last k s) (d : Diagnostic) : Lines last k (s.report d) :=
  ⟨h.ordered, h.proper, h.from_le, h.le_last, h.last_le, h.eof_kind, h.kind_ne⟩

end Lines

end Lines

/-! ### Facts that reading keeps -/

/-- A fact about states that stays true when tokens are read. -/
def Stable (p : State → Prop) : Prop := ∀ ⦃s s' : State⦄, p s → Reads s s' → p s'

theorem Lines.stable {last k : Nat} : Stable (Lines last k) := fun _ _ h => h.of_reads

theorem Placed.stable {last k : Nat} {a z : Option Nat} : Stable (Placed last k a z) := by
  rintro s s' ⟨i, j, ha, hz, hi, hij, hj, hlines⟩ hreads
  exact ⟨i, j, ha, hz, hi, hij, hj, hlines.of_reads hreads⟩

section Stable

variable {α : Type} {p : State → Prop} {r : Routine α} {good : State → α → Prop}

/-- A routine that reads forward keeps every stable fact. -/
theorem Stable.meets (hp : Stable p) (hr : ∀ s, Forward s (good s) r) :
    Meets p r (fun _ => p) (fun _ => p) := by
  intro s hs
  cases h : r s with
  | ok a s' => exact hp hs ((hr s).of_ok (Reads.refl s) h).1
  | error e s' => exact hp hs ((hr s).of_error (Reads.refl s) h).1

/-- **Framing.** Beside what else is known of a routine that reads forward, it keeps every stable
fact. -/
theorem Stable.frame {pre : State → Prop} {post : α → State → Prop}
    {bad : Diagnostic → State → Prop} (hp : Stable p) (hr : ∀ s, Forward s (good s) r)
    (h : Meets pre r post bad) :
    Meets (fun s => pre s ∧ p s) r (fun a s => post a s ∧ p s) (fun e s => bad e s ∧ p s) :=
  (h.of_pre fun _ hs => hs.1).and ((hp.meets hr).of_pre fun _ hs => hs.2)

end Stable

/-! ### Facts that bodies keep -/

/-- **Invariants of bodies.** A fact about the draft of a class and the place of the reading that
stays true when tokens are read and when something is reported. -/
structure BodyInvariant (p : ClassDraft → State → Prop) : Prop where
  stable : ∀ d, Stable (p d)
  report : ∀ d s e, p d s → p d (s.report e)

/-- A routine that keeps a fact about the body, whether it yields or gives up. -/
abbrev KeepsBody {α : Type} (p : ClassDraft → State → Prop) (r : BodyRoutine α) : Prop :=
  Meets (fun b => p b.draft b.toState) r (fun _ b => p b.draft b.toState)
    (fun _ b => p b.draft b.toState)

section BodyInvariant

variable {α : Type} {p : ClassDraft → State → Prop} {cfg : Setting}

theorem KeepsBody.pure {a : α} : KeepsBody p (Pure.pure a) := Meets.pure fun _ h => h

theorem KeepsBody.get : KeepsBody p get := Meets.get.to_post fun _ _ h => h.2

theorem BodyInvariant.reading {r : Routine α} {good : State → α → Prop} (hp : BodyInvariant p)
    (hr : ∀ s, Forward s (good s) r) : KeepsBody p (reading r) :=
  Meets.reading_draft fun d => (hp.stable d).meets hr

/-- What is known behind a member is known also where it cannot be read. -/
theorem BodyInvariant.memberOrRecover {pre : Body → Prop} (hp : BodyInvariant p)
    (hmember : Meets pre (member cfg) (fun _ b => p b.draft b.toState)
      (fun _ b => p b.draft b.toState)) :
    Meets pre (memberOrRecover cfg) (fun _ b => p b.draft b.toState)
      (fun _ b => p b.draft b.toState) := by
  refine Meets.memberOrRecover hmember (fun e => Meets.reading_draft fun d => ?_)
    (hp.reading fun _ => Forward.advance)
  -- the failure is reported, and reading goes on behind the member
  refine Meets.bind (Meets.modify fun s h => hp.report d s e h) fun _ => ?_
  exact (hp.stable d).meets fun _ => Forward.recoverMember

/-- **What every member keeps, the body keeps.** -/
theorem BodyInvariant.classBody (hp : BodyInvariant p) (hmember : KeepsBody p (member cfg)) :
    KeepsBody p (classBody cfg) :=
  Meets.classBody (hp.memberOrRecover hmember)

end BodyInvariant

/-! ### Routines that yield tokens -/

namespace Lines

variable {last k : Nat} {bad : Diagnostic → State → Prop}

theorem peek : Meets (Lines last k) peek
    (fun t s => k ≤ t.span.line ∧ Lines last t.span.line s) bad :=
  fun _ h => ⟨h.le_peek, h.from_peek⟩

theorem eat {kind : Token.Kind} (hkind : kind ≠ .endOfText) :
    Meets (Lines last k) (eat kind)
      (fun | none => Lines last k | some t => Behind last k t) bad := by
  intro s h
  by_cases hk : s.peek.kind = kind
  · rw [Yields.eat hk]
    exact h.advance_behind (hk ▸ hkind)
  · rw [Yields.eat_none hk]
    exact h

theorem expect {kind : Token.Kind} (hkind : kind ≠ .endOfText) :
    Meets (Lines last k) (expect kind) (Behind last k) (fun _ => Lines last k) := by
  refine Meets.bind (eat hkind) fun o => ?_
  cases o with
  | none => exact Meets.unexpected _
  | some t => exact Meets.pure fun _ h => h

theorem skipBlock : Meets (Lines last k) skipBlock (Behind last k) (fun _ => Lines last k) := by
  refine Meets.bind ((expect (by decide)).to_post fun _ _ h => h.mono) fun opening => ?_
  refine Meets.bind Meets.get fun a => ?_
  cases hclose : closeBlock 0 a.rest with
  | none =>
    refine Meets.bind (Meets.set (q := Lines last k) ?_) fun _ => Meets.throw fun _ h => h
    rintro s ⟨rfl, h⟩
    exact h.of_reads ((Reads.refl a).to_suffix List.nil_suffix)
  | some p =>
    obtain ⟨closing, rest⟩ := p
    refine Meets.bind (Meets.set (q := Behind last k closing) ?_) fun _ => Meets.pure fun _ h => h
    rintro s ⟨rfl, h⟩
    -- the closing brace is one of the tokens, so the lines behind it are known
    obtain ⟨before, e, hrest, rfl⟩ := closeBlock_split hclose
    exact h.behind_entry before hrest

theorem methodEnd : Meets (Lines last k) methodEnd (Behind last k) (fun _ => Lines last k) := by
  refine Meets.bind Meets.peekKind fun kind => ?_
  split
  · rintro s ⟨hkind, h⟩
    exact h.advance_behind (by rw [← hkind]; decide)
  · exact skipBlock.of_pre fun _ h => h.2
  · exact (Meets.unexpected _).weaken (fun _ h => h) (fun _ _ h => h) fun _ _ h => h.2

/-- The last token of a value is an entry, and the tokens behind the value are those behind it. -/
theorem splitInitializer_last {stops : List Token.Kind} {es : List Entry} {first : Token}
    {more : List Token} (h : (splitInitializer stops 0 es).1 = first :: more) :
    ∃ before e, es = before ++ e :: (splitInitializer stops 0 es).2 ∧
      e.token = more.getLastD first := by
  obtain ⟨value, hvalue, htokens⟩ := splitInitializer_split stops 0 es
  rw [h] at htokens
  have hne : value ≠ [] := by
    rintro rfl
    simp at htokens
  refine ⟨value.dropLast, value.getLast hne, ?_, ?_⟩
  · conv_lhs => rw [hvalue, ← List.dropLast_append_getLast hne]
    rw [List.append_assoc]
    rfl
  · have hlast := congrArg List.getLast? htokens
    rw [List.getLast?_map, List.getLast?_eq_some_getLast hne, Option.map_some,
      List.getLast?_eq_some_getLast (List.cons_ne_nil first more), Option.some.injEq] at hlast
    rw [hlast, List.getLast_eq_getLastD]

/-- The last token of a value is yielded with it. -/
theorem initializer (source : String) (stops : List Token.Kind) :
    Meets (Lines last k) (initializer source stops) (fun p => Behind last k p.2)
      (fun _ => Lines last k) := by
  refine Meets.bind Meets.get fun a => ?_
  dsimp only
  let behindValue : State → Prop := fun s =>
    s = { a with rest := (splitInitializer stops 0 a.rest).2 } ∧ Lines last k a
  have hlines : ∀ s, behindValue s → Lines last k s := by
    rintro s ⟨rfl, h⟩
    exact h.of_reads ((Reads.refl a).to_suffix (splitInitializer_spec stops 0 a.rest).1)
  refine Meets.bind (Meets.set (q := behindValue) ?_) fun _ => ?_
  · rintro s ⟨rfl, h⟩
    exact ⟨rfl, h⟩
  refine Meets.ite (fun _ => Meets.throw hlines) fun _ => ?_
  split
  case h_1 => exact (Meets.unexpected _).of_pre hlines
  case h_2 first more htokens =>
    refine Meets.pure ?_
    rintro s ⟨rfl, h⟩
    -- the value ends with one of the tokens
    obtain ⟨before, e, hrest, htoken⟩ := splitInitializer_last htokens
    dsimp only
    rw [← htoken]
    exact h.behind_entry before hrest

theorem defaultValue? (cfg : Setting) (stops : List Token.Kind) :
    Meets (Lines last k) (defaultValue? cfg stops)
      (fun | none => Lines last k | some p => Behind last k p.2) (fun _ => Lines last k) := by
  refine Meets.bind (eat (by decide)) fun o => ?_
  cases o with
  -- without a closing brace the rest of the file is consumed
  | none => exact Meets.pure fun _ h => h
  | some t =>
    refine Meets.bind ((initializer _ _).of_pre fun _ h => h.mono) fun p => ?_
    exact Meets.pure fun _ h => h

/-! ### Members -/

/-- What follows a token starts from the line on which it ends. -/
theorem Behind.meets {α : Type} {t : Token} {r : Routine α} {post : α → State → Prop}
    (hr : k ≤ t.span.line → t.span.line ≤ t.span.endLine → t.span.endLine ≤ last →
      Meets (Lines last t.span.endLine) r post bad) : Meets (Behind last k t) r post bad :=
  fun s h => hr h.le_line h.line_le h.le_last s h.lines

/-- A routine that reads forward from a later line on. -/
theorem later {α : Type} {l : Nat} {r : Routine α} {good : State → α → Prop} (hl : k ≤ l)
    (hr : ∀ s, Forward s (good s) r) :
    Meets (Lines last l) r (fun _ => Lines last l) (fun _ => Lines last k) :=
  (stable.meets hr).weaken (fun _ h => h) (fun _ _ h => h) fun _ _ h => h.mono hl

/-- A parameter, with the property that it declares: the property starts where the parameter does
and ends with its name. -/
theorem parameter (cfg : Setting) (f : Frame) (doc : Option DocBlock) :
    Meets (Lines last k) (parameter cfg f doc)
      (fun p s => Lines last k s ∧ ∀ q ∈ p.2, Placed last k q.startLine q.endLine s)
      (fun _ => Lines last k) := by
  rw [parameter_eq]
  refine Meets.bind (stable.meets fun _ => Forward.skipAttributes) fun _ => ?_
  refine Meets.bind peek fun first => Meets.given fun hfirst => ?_
  refine Meets.bind (later hfirst fun _ => Forward.promotion) fun mods => ?_
  refine Meets.bind (later hfirst fun _ => Forward.declaredType? f) fun declared => ?_
  refine Meets.bind (later hfirst fun _ => Forward.eat _) fun _ => ?_
  refine Meets.bind (later hfirst fun _ => Forward.eat _) fun _ => ?_
  refine Meets.bind ((expect (by decide)).weaken (fun _ h => h) (fun _ _ h => h)
    fun _ _ h => h.mono hfirst) fun var => ?_
  refine Behind.meets fun hstart hline hlast => ?_
  have hend : k ≤ var.span.endLine := hfirst.trans (hstart.trans hline)
  refine Meets.bind (later hend fun _ => Forward.defaultValue? _ _) fun value => ?_
  refine Meets.bind (Meets.get.to_post fun _ _ h => h.2) fun s => ?_
  refine Meets.pure fun s h => ⟨h.mono hend, fun q hq => ?_⟩
  obtain ⟨-, rfl⟩ := mem_promoted.mp hq
  exact ⟨_, _, rfl, rfl, hfirst, hstart.trans hline, hlast, h⟩

/-- What is known of every item of a list, and stays true when more is read, is known in the end. -/
theorem listOf {α : Type} {item : Routine α} {more : Routine Bool} {good : State → α → Prop}
    {good' : State → Bool → Prop} {q : α → State → Prop} (hq : ∀ a, Stable (q a))
    (hforward : ∀ s, Forward s (good s) item) (hmore : ∀ s, Forward s (good' s) more)
    (hitem : Meets (Lines last k) item (fun a s => Lines last k s ∧ q a s)
      (fun _ => Lines last k)) :
    Meets (Lines last k) (listOf item more) (fun l s => Lines last k s ∧ ∀ a ∈ l, q a s)
      (fun _ => Lines last k) := by
  have hall : ∀ l : List α, Stable fun s => ∀ a ∈ l, q a s :=
    fun l s s' h hreads a ha => hq a (h a ha) hreads
  have hboth : ∀ l : List α, Stable fun s => Lines last k s ∧ ∀ a ∈ l, q a s :=
    fun l s s' h hreads => ⟨h.1.of_reads hreads, hall l h.2 hreads⟩
  refine Meets.of_pre (Meets.iterate_same (I := fun l s => Lines last k s ∧ ∀ a ∈ l, q a s)
    (fun items => ?_) []) fun s h => ⟨h, by simp⟩
  -- the items read before are known beside the next one
  refine Meets.bind (((hall items).frame hforward hitem).weaken (fun _ h => h) (fun _ _ h => h)
    fun _ _ h => h.1) fun a => ?_
  have hmore' : Meets (fun s => Lines last k s ∧ ∀ b ∈ items ++ [a], q b s) more
      (fun _ s => Lines last k s ∧ ∀ b ∈ items ++ [a], q b s) (fun _ => Lines last k) :=
    ((hboth (items ++ [a])).meets hmore).weaken (fun _ h => h) (fun _ _ h => h) fun _ _ h => h.1
  refine Meets.bind (hmore'.of_pre ?_) fun b => Meets.pure ?_
  · rintro s ⟨⟨hlines, ha⟩, hitems⟩
    refine ⟨hlines, fun b hb => ?_⟩
    rcases List.mem_append.mp hb with hb | hb
    · exact hitems b hb
    · rw [List.mem_singleton.mp hb]
      exact ha
  · intro s h
    cases b <;> exact h

/-- The properties that parameters declare, each with its parameter. -/
theorem parameterList (cfg : Setting) (f : Frame) (doc : Option DocBlock) :
    Meets (Lines last k) (parameterList cfg f doc)
      (fun ps s => Lines last k s ∧
        ∀ p ∈ ps, ∀ q ∈ p.2, Placed last k q.startLine q.endLine s)
      (fun _ => Lines last k) := by
  refine Meets.bind (stable.meets fun _ => Forward.peekKind) fun _ => ?_
  refine Meets.ite (fun _ => Meets.pure fun _ h => ⟨h, by simp⟩) fun _ => ?_
  exact listOf (fun p s s' h hreads q hq => Placed.stable (h q hq) hreads)
    (fun _ => Forward.parameter cfg f doc) (fun _ => Forward.commaBefore _) (parameter cfg f doc)

/-- The properties that parameters declare. -/
theorem parameters (cfg : Setting) (f : Frame) (doc : Option DocBlock) :
    Meets (Lines last k) (parameters cfg f doc)
      (fun p s => Lines last k s ∧ ∀ q ∈ p.2, Placed last k q.startLine q.endLine s)
      (fun _ => Lines last k) := by
  rw [parameters_eq]
  refine Meets.bind (stable.meets fun _ => Forward.parametersOpen) fun _ => ?_
  refine Meets.bind (parameterList cfg f doc) fun ps => ?_
  -- the closing parenthesis reads on, and what is placed stays placed
  have hstable : Stable fun s => Lines last k s ∧
      ∀ p ∈ ps, ∀ q ∈ p.2, Placed last k q.startLine q.endLine s :=
    fun s s' h hreads => ⟨h.1.of_reads hreads, fun p hp q hq => (h.2 p hp q hq).stable hreads⟩
  refine Meets.bind (Meets.discard ((hstable.meets fun _ => Forward.expect _).weaken
    (fun _ h => h) (fun _ _ h => h) fun _ _ h => h.1)) fun _ => Meets.pure ?_
  rintro s ⟨hlines, h⟩
  refine ⟨hlines, fun q hq => ?_⟩
  obtain ⟨p, hp, hpq⟩ := List.mem_filterMap.mp hq
  exact h p hp q hpq

/-- A method starts on the line it is given and ends with its last token. -/
theorem methodDraft (cfg : Setting) (d : ClassDraft) (mods : Modifiers) (doc : Option String) :
    Meets (Lines last k) (methodDraft cfg d mods doc k)
      (fun p s => (p.1.startLine = some k ∧ Placed last k p.1.startLine p.1.endLine s) ∧
        ∀ q ∈ p.2.2, Placed last k q.startLine q.endLine s)
      (fun _ => Lines last k) := by
  rw [methodDraft_eq]
  refine Meets.bind (Meets.discard (stable.meets fun _ => Forward.expect _)) fun _ => ?_
  refine Meets.bind (stable.meets fun _ => Forward.eat _) fun _ => ?_
  refine Meets.bind (stable.meets fun _ => Forward.memberName) fun name => ?_
  refine Meets.bind (parameters _ _ _) fun (params, promoted) => ?_
  -- what the parameters declare stays where it is
  have hpromoted : Stable fun s => ∀ q ∈ promoted, Placed last k q.startLine q.endLine s :=
    fun s s' h hreads q hq => Placed.stable (h q hq) hreads
  refine Meets.bind ((hpromoted.frame (fun _ => Forward.returnType _ _)
    (stable.meets fun _ => Forward.returnType _ _)).weaken (fun _ h => h) (fun _ _ h => h)
    fun _ _ h => h.1) fun hint => ?_
  refine Meets.bind ((hpromoted.frame (fun _ => Forward.methodEnd) methodEnd).weaken (fun _ h => h)
    (fun _ _ h => h) fun _ _ h => h.1) fun closing => ?_
  refine Meets.pure ?_
  rintro s ⟨h, hplaced⟩
  exact ⟨⟨rfl, _, _, rfl, rfl, Nat.le_refl k, h.le_line.trans h.line_le, h.le_last, h.lines⟩,
    hplaced⟩

/-- A property starts on the line it is given and ends with its name or its value. -/
theorem propertyDraft (cfg : Setting) (mods : Modifiers) (hint : Option TypeHint)
    (doc : Option String) :
    Meets (Lines last k) (propertyDraft cfg mods hint doc k)
      (fun p => Placed last k p.1.startLine p.1.endLine) (fun _ => Lines last k) := by
  rw [propertyDraft_eq]
  refine Meets.bind (expect (by decide)) fun var => ?_
  refine Behind.meets fun hstart hline hlast => ?_
  have hend : k ≤ var.span.endLine := hstart.trans hline
  -- the last token is that of the value, or else the name
  have hvalue : Meets (Lines last var.span.endLine) (Reading.defaultValue? cfg [.comma, .semicolon])
      (fun value s => (var.span.endLine ≤ ((value.map (·.2)).getD var).span.endLine ∧
          ((value.map (·.2)).getD var).span.endLine ≤ last) ∧
        Lines last ((value.map (·.2)).getD var).span.endLine s) (fun _ => Lines last k) := by
    refine (defaultValue? _ _).weaken (fun _ h => h) ?_ fun _ _ h => h.mono hend
    rintro (_ | p) s h
    · exact ⟨⟨Nat.le_refl _, hlast⟩, h⟩
    · exact ⟨⟨h.le_line.trans h.line_le, h.le_last⟩, h.lines⟩
  refine Meets.bind hvalue fun value => Meets.given fun hlines => ?_
  refine Meets.pure fun s h => ?_
  exact ⟨k, _, rfl, rfl, Nat.le_refl k, hend.trans hlines.1, hlines.2, h⟩

end Lines

/-! ### The buffer of a file -/

/-- The entries of a file and the end of its text are tokens of it, in order. -/
theorem entries_sublist {ts : List Token} {t : Token} (hlast : ts.getLast? = some t)
    (hkind : t.kind = .endOfText) (doc : Option String) :
    ((entries doc ts).map (·.token) ++ [t]).Sublist ts := by
  induction ts generalizing doc with
  | nil => simp at hlast
  | cons u us ih =>
    cases us with
    | nil =>
      -- the last token makes no entry
      obtain rfl : u = t := by simpa using hlast
      simp [entries, hkind]
    | cons v vs =>
      rw [List.getLast?_cons_cons] at hlast
      rw [entries]
      split <;> try exact (ih hlast _).cons u
      · exact (List.singleton_sublist.mpr (List.mem_of_getLast? hlast)).cons u
      · exact (ih hlast none).cons_cons u

/-- The line on which the last of some entries ends. -/
def lastLine (es : List Entry) : Nat := (es.getLast?.map (·.token.span.endLine)).getD 0

/-- Of entries in order, none ends behind the last one. -/
theorem le_lastLine {es : List Entry} {e : Entry}
    (hordered : (es.map (·.token)).Pairwise fun t u => t.span.endLine ≤ u.span.line)
    (hproper : ∀ e ∈ es, e.token.span.line ≤ e.token.span.endLine) (he : e ∈ es) :
    e.token.span.endLine ≤ lastLine es := by
  obtain rfl | ⟨before, b, rfl⟩ := es.eq_nil_or_concat
  · simp at he
  · have hlast : lastLine (before.concat b) = b.token.span.endLine := by simp [lastLine]
    rw [hlast]
    rw [List.concat_eq_append] at he hordered hproper
    rcases List.mem_append.mp he with he | he
    · rw [List.map_append, List.pairwise_append] at hordered
      have hle := hordered.2.2 e.token (List.mem_map_of_mem he) b.token (by simp)
      exact hle.trans (hproper b (by simp))
    · rw [List.mem_singleton.mp he]

/-- The reading of a file begins with all its tokens in order. -/
theorem FileState.lines_start (source : String) :
    Lines (lastLine (FileState.start source).rest) 1 (FileState.start source).toState := by
  have htiles := (Token.Scanner.stands_start .html source).tiles
  obtain ⟨t, hlast, hkind, -⟩ := htiles.last_eq
  have heof : (FileState.start source).eof = t := by
    show (Token.Scanner.ofFile source).tokens.getLastD default = t
    rw [List.getLastD_eq_getLast?, Token.Scanner.ofFile, hlast, Option.getD_some]
  have hahead : (FileState.start source).ahead.Sublist
      (Token.Scanner.start .html source).tokens := by
    rw [State.ahead, heof]
    exact entries_sublist hlast hkind none
  have hordered := htiles.endLine_le.sublist hahead
  have hproper : ∀ u ∈ (FileState.start source).ahead, u.span.line ≤ u.span.endLine := by
    intro u hu
    obtain ⟨gap, text, after, -, hcovers⟩ := htiles.covers_of_mem (hahead.subset hu)
    exact hcovers.endLine_le.1
  obtain ⟨hentries, -, heofs⟩ := List.pairwise_append.mp hordered
  refine
    { ordered := hordered
      proper := hproper
      from_le := fun u hu => htiles.line_le (hahead.subset hu)
      le_last := fun e he => le_lastLine hentries (fun e he => hproper _ ?_) he
      last_le := ?_
      eof_kind := FileState.kind_eof_start source
      kind_ne := fun _ => FileState.kind_ne_endOfText_of_mem }
  · exact List.mem_append_left _ (List.mem_map_of_mem he)
  · -- the last entry ends where the end of the file starts, or earlier
    obtain hnil | ⟨before, b, hconcat⟩ := (FileState.start source).rest.eq_nil_or_concat
    · simp [lastLine, hnil]
    · have hb : b.token ∈ (FileState.start source).rest.map (·.token) := by simp [hconcat]
      have hlast : lastLine (FileState.start source).rest = b.token.span.endLine := by
        simp [lastLine, hconcat]
      rw [hlast]
      exact heofs b.token hb _ (by simp)

end Introspect.Reading
