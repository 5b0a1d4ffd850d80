import Introspect.Proofs.Reading.DocStretches
import Introspect.Proofs.Reading.MemberTypes

/-!
# What members add, with its types

Whatever stands in the body of a class, the types of a member that is added to it are written for
this member, and for no other. A body is read in rounds: in each of them a member is read or
recovered from, and what the class gains meanwhile has its types in the tokens of the round.

* `SourcedSince` is what is known of a class since a member began, and `BodyAt` adds where the
  reading stands. The routines that add to a class keep it, up to `Body.Round.sourced`;
* `HasType` are the types of a class with what they are for;
* `Body.Rounds.exists_writtenIn`: each of them is written in the round that adds its member.
-/

namespace Introspect.Reading

/-! ### Bodies -/

/-- The list has gained elements that are good, behind those that it had. -/
def Gained {α : Type} (old new : List α) (good : α → Prop) : Prop :=
  ∃ gained, new = old ++ gained ∧ ∀ a ∈ gained, good a

/-- **What has been added since** the member began at `b`, so that the class is `d` where the
reading stands at `s`. The class had no members of these names, and their types are written. -/
structure SourcedSince (b : Body) (P : Scope → Prop) (f : Frame) (d : ClassDraft) (s : State) :
    Prop where
  methods : Gained b.draft.methods d.methods fun m =>
    b.draft.hasMethod m.name = false ∧ SourcedMethod b s.rest P f m
  properties : Gained b.draft.properties d.properties fun p =>
    b.draft.hasProperty p.name = false ∧ SourcedIn b s.rest P f (.property p.name) p.typeHint
  constants : Gained b.draft.constants d.constants fun c =>
    (∀ c' ∈ b.draft.constants, c'.name ≠ c.name) ∧
      SourcedIn b s.rest P f (.constant c.name) c.typeHint

/-- Where the reading of the member stands that begins at `b`. The class and its parent keep their
names. -/
structure BodyAt (P : Scope → Prop) (cfg : Setting) (b : Body) (d : ClassDraft) (s : State) :
    Prop where
  state : At b.rest P s
  frame_eq : cfg.frame d = cfg.frame b.draft
  since : SourcedSince b P (cfg.frame b.draft) d s

section Gained

variable {α : Type} {old new : List α} {a : α} {good good' : α → Prop}

theorem Gained.refl (l : List α) : Gained l l good := ⟨[], (List.append_nil l).symm, by simp⟩

theorem Gained.mono (h : Gained old new good) (hgood : ∀ a, good a → good' a) :
    Gained old new good' := by
  obtain ⟨gained, rfl, hgained⟩ := h
  exact ⟨gained, rfl, fun a ha => hgood a (hgained a ha)⟩

theorem Gained.concat (h : Gained old new good) (ha : good a) : Gained old (new ++ [a]) good := by
  obtain ⟨gained, rfl, hgained⟩ := h
  exact ⟨gained ++ [a], List.append_assoc _ _ _,
    List.forall_mem_append.mpr ⟨hgained, List.forall_mem_singleton.mpr ha⟩⟩

/-- What is nowhere in the longer list is nowhere in the shorter one. -/
theorem Gained.any_eq_false (h : Gained old new good) {p : α → Bool} (hnew : new.any p = false) :
    old.any p = false := by
  obtain ⟨gained, rfl, -⟩ := h
  rw [List.any_append, Bool.or_eq_false_iff] at hnew
  exact hnew.1

end Gained

section Bodies

variable {text : String} {P : Scope → Prop} {cfg : Setting} {b : Body} {d d' : ClassDraft}
  {s : State} {α : Type}

theorem SourcedMethod.mono {f : Frame} {rest rest' : List Entry} {m : MethodDraft}
    (h : SourcedMethod b rest P f m) (hrest : rest' <:+ rest) : SourcedMethod b rest' P f m :=
  ⟨h.1.mono hrest, fun p hp => (h.2 p hp).mono hrest⟩

theorem SourcedSince.stable {f : Frame} : Stable (SourcedSince b P f d) := fun _ _ h hreads =>
  ⟨h.methods.mono fun _ hm => ⟨hm.1, hm.2.mono hreads.suffix⟩,
    h.properties.mono fun _ hp => ⟨hp.1, hp.2.mono hreads.suffix⟩,
    h.constants.mono fun _ hc => ⟨hc.1, hc.2.mono hreads.suffix⟩⟩

theorem BodyAt.addMethod {m : MethodDraft} (h : BodyAt P cfg b d s)
    (hm : SourcedMethod b s.rest P (cfg.frame b.draft) m) (hadd : d.addMethod m = .ok d') :
    BodyAt P cfg b d' s := by
  obtain ⟨hnew, rfl⟩ := ClassDraft.of_addMethod hadd
  exact ⟨h.state, h.frame_eq, h.since.methods.concat ⟨h.since.methods.any_eq_false hnew, hm⟩,
    h.since.properties, h.since.constants⟩

theorem BodyAt.addProperty {p : PropertyDraft} (h : BodyAt P cfg b d s)
    (hp : SourcedIn b s.rest P (cfg.frame b.draft) (.property p.name) p.typeHint)
    (hadd : d.addProperty p = .ok d') : BodyAt P cfg b d' s := by
  obtain ⟨hnew, rfl⟩ := ClassDraft.of_addProperty hadd
  exact ⟨h.state, h.frame_eq, h.since.methods,
    h.since.properties.concat ⟨h.since.properties.any_eq_false hnew, hp⟩, h.since.constants⟩

theorem BodyAt.addConstant {c : Constant} (h : BodyAt P cfg b d s)
    (hc : SourcedIn b s.rest P (cfg.frame b.draft) (.constant c.name) c.typeHint)
    (hadd : d.addConstant c = .ok d') : BodyAt P cfg b d' s := by
  obtain ⟨hnew, rfl⟩ := ClassDraft.of_addConstant hadd
  obtain ⟨gained, hgained, -⟩ := id h.since.constants
  refine ⟨h.state, h.frame_eq, h.since.methods, h.since.properties,
    h.since.constants.concat ⟨fun c' hc' => hnew c' ?_, hc⟩⟩
  rw [hgained]
  exact List.mem_append_left _ hc'

theorem BodyAt.report (h : BodyAt P cfg b d s) (e : Diagnostic) :
    BodyAt P cfg b d (s.report e) :=
  ⟨h.state.report e, h.frame_eq, h.since.methods, h.since.properties, h.since.constants⟩

namespace BodyAt

/-- A routine that adds nothing, with what is known before and behind it. -/
theorem routine_known {r : Routine α} {good : State → α → Prop} {pre : State → Prop}
    {post : α → State → Prop} (hr : Meets pre r (fun a s => At b.rest P s ∧ post a s)
      (fun _ => At b.rest P)) (hforward : ∀ s, Forward s (good s) r) (d : ClassDraft) :
    Meets (fun s => pre s ∧ BodyAt P cfg b d s) r (fun a s => post a s ∧ BodyAt P cfg b d s)
      (fun _ => BodyAt P cfg b d) := by
  refine Meets.assuming (fun _ h => h.2.frame_eq) fun hframe => ?_
  exact (SourcedSince.stable.frame hforward hr).weaken (fun _ h => ⟨h.1, h.2.since⟩)
    (fun _ _ h => ⟨h.1.2, h.1.1, hframe, h.2⟩) fun _ _ h => ⟨h.1, hframe, h.2⟩

theorem reading_known {r : Routine α} {good : State → α → Prop} {pre : State → Prop}
    {post : α → State → Prop} (hr : Meets pre r (fun a s => At b.rest P s ∧ post a s)
      (fun _ => At b.rest P)) (hforward : ∀ s, Forward s (good s) r) :
    Meets (fun b' : Body => pre b'.toState ∧ BodyAt P cfg b b'.draft b'.toState) (reading r)
      (fun a b' => post a b'.toState ∧ BodyAt P cfg b b'.draft b'.toState)
      (fun _ b' => BodyAt P cfg b b'.draft b'.toState) :=
  Meets.reading_draft (routine_known hr hforward)

theorem reading {r : Routine α} {good : State → α → Prop} (hr : KeepsAt b.rest P r)
    (hforward : ∀ s, Forward s (good s) r) : KeepsBody (BodyAt P cfg b) (reading r) :=
  (reading_known (hr.to_post fun _ _ h => ⟨h, trivial⟩) hforward).weaken
    (fun _ h => ⟨h.state, h⟩) (fun _ _ h => h.2) fun _ _ h => h

/-- What is added to the class is written. No token is read meanwhile. -/
theorem adding {O Q : List Entry → Prop} {span : Span}
    {f : ClassDraft → Except DraftError ClassDraft} (hQ : ∀ rest, O rest → Q rest)
    (hadd : ∀ d s d', O s.rest → BodyAt P cfg b d s → f d = .ok d' → BodyAt P cfg b d' s) :
    Meets (fun b' : Body => O b'.rest ∧ BodyAt P cfg b b'.draft b'.toState)
      (Reading.adding span f) (fun _ b' => Q b'.rest ∧ BodyAt P cfg b b'.draft b'.toState)
      (fun _ b' => BodyAt P cfg b b'.draft b'.toState) :=
  Meets.adding (fun _ _ h hok => ⟨hQ _ h.1, hadd _ _ _ h.1 h.2 hok⟩)
    fun _ e h => ⟨hQ _ h.1, h.2.report e⟩

/-- What is known of a member that goes on is known behind a comma. -/
theorem comma {O : List Entry → Prop} (hO : ∀ rest rest', rest' <:+ rest → O rest → O rest') :
    Meets (fun b' : Body => O b'.rest ∧ BodyAt P cfg b b'.draft b'.toState)
      (Reading.reading comma) (fun _ b' => O b'.rest ∧ BodyAt P cfg b b'.draft b'.toState)
      (fun _ b' => BodyAt P cfg b b'.draft b'.toState) := by
  have hcomma : Meets (fun s => At b.rest P s ∧ O s.rest) Reading.comma
      (fun _ s => At b.rest P s ∧ O s.rest) (fun _ => At b.rest P) :=
    KeepsAt.comma.known (fun _ => Forward.comma) hO
  exact (reading_known hcomma fun _ => Forward.comma).of_pre fun _ h => ⟨⟨h.2.state, h.1⟩, h.2⟩

section Members

variable (hes : b.rest <:+ entriesOf text)

include hes

theorem method {raw : Option String} (mods : Modifiers) (line : Nat)
    (hraw : ∀ r ∈ raw, b.HasDoc r) : KeepsBody (BodyAt P cfg b) (method cfg mods raw line) := by
  refine Meets.bind Meets.get fun b₁ => ?_
  refine Meets.assuming (fun b' h => h.1 ▸ h.2.frame_eq) fun hframe => ?_
  refine Meets.bind ((reading_known (methodDraft_sourced hes hraw b₁.draft mods line)
    fun _ => Forward.methodDraft _ _ _ _ _).of_pre fun b' h => ⟨h.2.state, h.2⟩)
    fun (m, name, promoted) => ?_
  rw [hframe]
  -- what a parameter declares is added behind the method
  let O : List Entry → Prop := fun rest => SourcedMethod b rest P (cfg.frame b.draft) m ∧
    ∀ q ∈ promoted, SourcedIn b rest P (cfg.frame b.draft) (.property q.name) q.typeHint
  refine Meets.bind (adding (O := O) (fun _ h => h) fun _ _ _ h hb hok => hb.addMethod h.1 hok)
    fun _ => ?_
  refine Meets.ite (fun _ => ?_) fun _ => Meets.pure fun _ h => h.2
  exact (Meets.forM fun q hq => adding (O := O) (fun _ h => h) fun _ _ _ h hb hok =>
    hb.addProperty (h.2 q hq) hok).to_post fun _ _ h => h.2

/-- Where properties are read. Whichever variable comes next, the type is written for its
property, if a variable is next at all. -/
def Offering (b : Body) (P : Scope → Prop) (f : Frame) (hint : Option TypeHint) (s : State) :
    Prop :=
  (∃ e ∈ s.rest.head?, e.kind = .variableName) → OffersProperty b P f hint s.rest

omit hes in
theorem propertyRound (mods : Modifiers) (hint : Option TypeHint) (r : Option String × Nat) :
    Meets (fun b' : Body => Offering b P (cfg.frame b.draft) hint b'.toState ∧
        BodyAt P cfg b b'.draft b'.toState) (propertyRound cfg mods hint r)
      (fun _ b' => Offering b P (cfg.frame b.draft) hint b'.toState ∧
        BodyAt P cfg b b'.draft b'.toState) (fun _ b' => BodyAt P cfg b b'.draft b'.toState) := by
  obtain ⟨raw, line⟩ := r
  refine Meets.bind ((reading_known (propertyDraft_sourced mods raw line)
    fun _ => Forward.propertyDraft _ _ _ _ _).of_pre fun b' h => ⟨⟨h.2.state, h.1⟩, h.2⟩)
    fun (p, span) => ?_
  let O : List Entry → Prop := fun rest =>
    SourcedIn b rest P (cfg.frame b.draft) (.property p.name) p.typeHint ∧
      OffersProperty b P (cfg.frame b.draft) hint rest
  refine Meets.bind (adding (O := O) (fun _ h => h.2) fun _ _ _ h hb hok => hb.addProperty h.1 hok)
    fun _ => ?_
  -- behind a comma the type is still offered
  refine Meets.bind (comma fun _ _ hrest h => h.mono hrest) fun more => ?_
  refine Meets.ite (fun _ => ?_) fun _ => Meets.pure fun _ h => ⟨fun _ => h.1, h.2⟩
  exact Meets.bind Meets.get fun _ => Meets.pure fun _ h => ⟨fun _ => h.2.1, h.2.2⟩

omit hes in
/-- The type of properties is the declared one, or a documented one. -/
theorem properties {raw : Option String} (mods : Modifiers) {declared : Option TypeHint}
    (line : Nat) (hraw : ∀ r ∈ raw, b.HasDoc r) :
    Meets (fun b' : Body => Offering b P (cfg.frame b.draft) declared b'.toState ∧
        BodyAt P cfg b b'.draft b'.toState) (properties cfg mods declared raw line)
      (fun _ b' => BodyAt P cfg b b'.draft b'.toState)
      (fun _ b' => BodyAt P cfg b b'.draft b'.toState) := by
  refine Meets.bind Meets.get fun b₁ => ?_
  extract_lets documented hint
  have hoffers : BodyAt P cfg b b₁.draft b₁.toState → ∀ rest,
      OffersProperty b P (cfg.frame b.draft) declared rest →
        OffersProperty b P (cfg.frame b.draft) hint rest := by
    intro hb₁ rest h v tail hv hk
    refine (h v tail hv hk).or ?_
    rw [hb₁.frame_eq]
    exact sourcedIn_documented hb₁.state.scope hraw fun _ _ h => .inl h
  refine Meets.assuming (fun b' h => h.1 ▸ h.2.2) fun hb₁ => ?_
  refine Meets.bind (Meets.discard ((Meets.iterate_same (fun r => propertyRound mods hint r)
    (raw, line)).weaken (fun b' h => ⟨fun hnext => hoffers hb₁ _ (h.2.1 hnext), h.2.2⟩)
      (fun _ _ h => h.2) fun _ _ h => h)) fun _ => ?_
  exact Meets.discard (reading (KeepsAt.expect _) fun _ => Forward.expect _)

/-- The type of constants, if they have one, stands behind their word. -/
theorem constantType? {b₀ : Body} (hframe : cfg.frame b₀.draft = cfg.frame b.draft) :
    Meets (fun b' : Body => AtBehind b.rest P [.constWord] b'.toState ∧
        BodyAt P cfg b b'.draft b'.toState) (constantType? cfg b₀)
      (fun hint b' => OffersConstant b P (cfg.frame b.draft) hint b'.rest ∧
        BodyAt P cfg b b'.draft b'.toState) (fun _ b' => BodyAt P cfg b b'.draft b'.toState) := by
  refine Meets.ite (fun _ => Meets.pure fun _ h => ⟨fun _ _ _ => sourcedIn_none, h.2⟩) fun _ => ?_
  rw [hframe]
  refine Meets.map ((reading_known (typeHint_read hes _ [.constWord])
    fun _ => Forward.typeHint _).of_pre fun b' h => ⟨⟨?_, h.1⟩, h.2⟩) fun hint b' h =>
      ⟨h.1.offersConstant, h.2⟩
  have hword : AtBehind b.rest P ([] ++ [.constWord]) b'.toState := h.1
  exact hword.atType rfl

theorem constants (mods : Modifiers) : KeepsBody (BodyAt P cfg b) (constants cfg mods) := by
  rw [constants_eq]
  have hconst : Meets (AtBehind b.rest P []) (expect .constWord)
      (fun _ s => At b.rest P s ∧ AtBehind b.rest P [.constWord] s) (fun _ => At b.rest P) :=
    (AtBehind.expect (by decide)).to_post fun _ _ h => ⟨h.toAt, h⟩
  refine Meets.bind (Meets.discard ((reading_known hconst fun _ => Forward.expect _).of_pre
    fun b' h => ⟨h.state.behind_nil, h⟩)) fun _ => ?_
  refine Meets.bind Meets.get fun b₁ => ?_
  refine Meets.assuming (fun b' h => h.1 ▸ h.2.2.frame_eq) fun hframe => ?_
  refine Meets.bind ((constantType? hes hframe).of_pre fun _ h => h.2) fun hint => ?_
  -- between two constants the type is still offered, whatever the next one is called
  let I : Body → Prop := fun b' => OffersConstant b P (cfg.frame b.draft) hint b'.rest ∧
    BodyAt P cfg b b'.draft b'.toState
  have hround : ∀ u, Meets I (constantRound cfg mods hint u) (fun _ => I)
      (fun _ b' => BodyAt P cfg b b'.draft b'.toState) := by
    intro _
    refine Meets.bind ((reading_known (constantDraft_sourced mods)
      fun _ => Forward.constantDraft _ _ _).of_pre fun b' h => ⟨⟨h.2.state, h.1⟩, h.2⟩)
      fun (c, span) => ?_
    let O : List Entry → Prop := fun rest =>
      SourcedIn b rest P (cfg.frame b.draft) (.constant c.name) c.typeHint ∧
        OffersConstant b P (cfg.frame b.draft) hint rest
    refine Meets.bind (adding (O := O) (fun _ h => h.2) fun _ _ _ h hb hok =>
      hb.addConstant h.1 hok) fun _ => ?_
    exact Meets.bind (comma fun _ _ hrest h => h.mono hrest) fun _ => Meets.pure fun _ h => h
  refine Meets.bind (Meets.discard ((Meets.iterate_same hround ()).to_post fun _ _ h => h.2))
    fun _ => ?_
  exact Meets.discard (reading (KeepsAt.expect _) fun _ => Forward.expect _)

theorem modifiedMember {raw : Option String} (mods : Modifiers) (line : Nat)
    (hraw : ∀ r ∈ raw, b.HasDoc r) :
    Meets (fun b' : Body => (mods.isEmpty = false → AtType b.rest P b'.toState) ∧
        BodyAt P cfg b b'.draft b'.toState) (modifiedMember cfg mods raw line)
      (fun _ b' => BodyAt P cfg b b'.draft b'.toState)
      (fun _ b' => BodyAt P cfg b b'.draft b'.toState) := by
  refine Meets.bind Meets.get fun b₁ => ?_
  refine Meets.ite (fun _ => (method hes mods line hraw).of_pre fun _ h => h.2.2) fun _ => ?_
  refine Meets.ite (fun _ => (constants hes mods).of_pre fun _ h => h.2.2) fun _ => ?_
  refine Meets.ite (fun _ => (properties mods line hraw).of_pre fun _ h =>
    ⟨fun _ _ _ _ _ => sourcedIn_none, h.2.2⟩) fun _ => ?_
  -- a type that is declared stands behind modifiers
  refine Meets.ite (fun hbegins => ?_) fun _ => Meets.throw fun _ h => h.2.2
  refine Meets.bind (Meets.get.of_pre fun _ h => h.2) fun b₂ => ?_
  refine Meets.assuming (fun b' h => h.1 ▸ h.2.2.frame_eq) fun hframe => ?_
  rw [hframe]
  refine Meets.bind ((reading_known (typeHint_read hes _ []) fun _ => Forward.typeHint _).of_pre
    fun b' h => ?_) fun hint => ?_
  · have htype : AtType b.rest P b'.toState := h.2.1 (by simpa using hbegins.2)
    exact ⟨⟨htype, htype.toAt.behind_nil⟩, h.2.2⟩
  · exact (properties mods line hraw).of_pre fun b' h => ⟨h.1.offersProperty, h.2⟩

end Members

/-- **Members.** The types of what a member adds are written for it. -/
theorem member (hes : b.rest <:+ entriesOf text) (hb : At b.rest P b.toState) :
    Meets (fun b' => b' = b) (member cfg) (fun _ b' => BodyAt P cfg b b'.draft b'.toState)
      (fun _ b' => BodyAt P cfg b b'.draft b'.toState) := by
  have hstart : BodyAt P cfg b b.draft b.toState :=
    ⟨hb, rfl, .refl _, .refl _, .refl _⟩
  refine Meets.bind Meets.get fun b₁ => Meets.assuming (fun b' h => h.1.trans h.2) ?_
  rintro rfl
  have hattributes : Meets (fun b' => b' = b₁) (Reading.reading skipAttributes)
      (fun _ b' => (∃ first, Yields skipAttributes b₁.toState () first ∧
          b' = { b₁ with toState := first }) ∧ BodyAt P cfg b₁ b'.draft b'.toState)
      (fun _ b' => BodyAt P cfg b₁ b'.draft b'.toState) := by
    refine (Meets.reading_run.and ((reading KeepsAt.skipAttributes fun _ =>
      Forward.skipAttributes).of_pre ?_)).weaken (fun _ h => h) (fun _ _ h => h) fun _ _ h => h.2
    rintro b' rfl
    exact hstart
  refine Meets.bind (hattributes.of_pre fun _ h => h.2) fun _ => Meets.of_each ?_
  rintro _ ⟨⟨first, hfirst, rfl⟩, hat⟩
  refine Meets.bind Meets.get fun b₂ => Meets.assuming (fun b' h => h.1.trans h.2) ?_
  rintro rfl
  refine Meets.of_pre ?_ fun _ h => h.2
  have hpassed : ∀ {α : Type} {r : BodyRoutine α}, KeepsBody (BodyAt P cfg b₁) r →
      Meets (fun b' => b' = { b₁ with toState := first }) r
        (fun _ b' => BodyAt P cfg b₁ b'.draft b'.toState)
        (fun _ b' => BodyAt P cfg b₁ b'.draft b'.toState) := fun hr =>
    hr.of_pre fun b' h => h ▸ hat
  split
  -- the use of a trait and a lone semicolon add nothing
  · exact hpassed (reading (Meets.bind (Meets.discard KeepsAt.advance) fun _ =>
      KeepsAt.skipStatement) fun _ => Keeps.bind (Keeps.discard Forward.advance) fun _ _ =>
        Forward.skipStatement)
  · exact hpassed (Meets.discard (reading KeepsAt.advance fun _ => Forward.advance))
  · have hdoc : Meets (fun b' => b' = { b₁ with toState := first })
        (Reading.reading (docSince b₁.rest))
        (fun doc b' => (∀ r ∈ doc, b₁.HasDoc r) ∧ BodyAt P cfg b₁ b'.draft b'.toState)
        (fun _ b' => BodyAt P cfg b₁ b'.draft b'.toState) := by
      rintro b' rfl
      exact ⟨fun r hr => ⟨first, hfirst, hr⟩, hat⟩
    refine Meets.bind hdoc fun raw => Meets.given fun hraw => ?_
    refine Meets.bind (Meets.get.to_post fun _ _ h => h.2) fun b₃ => ?_
    refine Meets.bind ((reading_known AtType.modifiers fun _ => Forward.modifiers).of_pre
      fun b' h => ⟨h.state, h⟩) fun mods => ?_
    exact modifiedMember hes mods _ hraw

/-- A failure is reported, and reading goes on behind the member. -/
theorem recover (e : Diagnostic) (d : ClassDraft) :
    Meets (BodyAt P cfg b d) (do Reading.report e; recoverMember) (fun _ => BodyAt P cfg b d)
      (fun _ => BodyAt P cfg b d) := by
  have hskip : KeepsAt b.rest P recoverMember := KeepsAt.skipTo fun _ => List.dropWhile_suffix _
  have hreport : Meets (BodyAt P cfg b d) (Reading.report e) (fun _ => BodyAt P cfg b d)
      (fun _ => BodyAt P cfg b d) :=
    Meets.modify fun _ h => h.report e
  refine Meets.bind hreport fun _ => ?_
  exact (routine_known (hskip.to_post fun _ _ h => ⟨h, trivial⟩)
    (fun _ => Forward.recoverMember) d).weaken (fun _ h => ⟨h.state, h⟩) (fun _ _ h => h.2)
      fun _ _ h => h

end BodyAt

/-- **One round.** The types of what it adds are written for it, also where it is recovered from a
member that cannot be read. -/
theorem Body.Round.sourced {b' : Body} (h : Body.Round cfg b b') (hes : b.rest <:+ entriesOf text)
    (hb : At b.rest P b.toState) : BodyAt P cfg b b'.draft b'.toState := by
  have hround : Meets (fun b' => b' = b) (memberOrRecover cfg)
      (fun _ b' => BodyAt P cfg b b'.draft b'.toState)
      (fun _ b' => BodyAt P cfg b b'.draft b'.toState) :=
    Meets.memberOrRecover (BodyAt.member hes hb) (fun e => Meets.reading_draft (BodyAt.recover e))
      (BodyAt.reading KeepsAt.advance fun _ => Forward.advance)
  exact hround.of_ok rfl h.run

end Bodies

/-! ### Rounds -/

section Rounds

variable {text : String} {es es' : List Entry} {P : Scope → Prop} {cfg : Setting}
  {b b' b₀ last : Body} {s : State} {site : TypeSite} {hint : TypeHint} {linked : Bool}

theorem At.here (h : At es P s) : At s.rest P s :=
  ⟨⟨List.suffix_refl _, h.within.eof_kind⟩, h.scope⟩

theorem At.of_suffix (h : At es P s) (hes : es <:+ es') : At es' P s :=
  ⟨⟨h.within.suffix.trans hes, h.within.eof_kind⟩, h.scope⟩

/-- Round by round the reading stays in the text, and the class keeps its name and its parent. -/
theorem Body.Rounds.at (h : Body.Rounds cfg b₀ b) (hb₀ : At (entriesOf text) P b₀.toState) :
    At (entriesOf text) P b.toState ∧ cfg.frame b.draft = cfg.frame b₀.draft := by
  induction h with
  | refl => exact ⟨hb₀, rfl⟩
  | tail _ hround ih =>
    obtain ⟨hat, hframe⟩ := ih
    have hbody := hround.sourced hat.within.suffix hat.here
    exact ⟨hbody.state.of_suffix hat.within.suffix, hbody.frame_eq.trans hframe⟩

/-- What a class has in the end, and did not have at first, it has got in one of the rounds. -/
theorem Body.Rounds.exists_gained {α : Type} {g : ClassDraft → List α}
    {good : Body → Body → α → Prop} (h : Body.Rounds cfg b₀ last)
    (hround : ∀ b b', Body.Rounds cfg b₀ b → Body.Round cfg b b' →
      Gained (g b.draft) (g b'.draft) (good b b'))
    {a : α} (ha : a ∈ g last.draft) (hnew : a ∉ g b₀.draft) :
    ∃ b b', Body.Rounds cfg b₀ b ∧ Body.Round cfg b b' ∧ a ∈ g b'.draft ∧ good b b' a := by
  induction h with
  | refl => exact absurd ha hnew
  | @tail b b' hrounds hlast ih =>
    obtain ⟨gained, hgained, hgood⟩ := hround b b' hrounds hlast
    by_cases hb : a ∈ g b.draft
    · exact ih hb
    · -- the last round is the one
      refine ⟨b, b', hrounds, hlast, ha, hgood a ?_⟩
      rw [hgained] at ha
      exact (List.mem_append.mp ha).resolve_left hb

/-! ### The types of a class -/

/-- **The types of a class,** with what they are for. -/
inductive HasType (c : Class) : TypeSite → TypeHint → Prop where
  | constant {k : Constant} {hint : TypeHint} (hk : k ∈ c.constants)
    (h : k.typeHint = some hint) : HasType c (.constant k.name) hint
  | property {p : Property} {hint : TypeHint} (hp : p ∈ c.properties)
    (h : p.typeHint = some hint) : HasType c (.property p.name) hint
  | returned {m : Method} {hint : TypeHint} (hm : m ∈ c.methods)
    (h : m.returnType = some hint) : HasType c (.returned m.name) hint
  | parameter {m : Method} {p : Parameter} {hint : TypeHint} (hm : m ∈ c.methods)
    (hp : p ∈ m.parameters) (h : p.typeHint = some hint) :
    HasType c (.parameter m.name p.name) hint

/-- There are no other types. -/
theorem mem_types_iff {c : Class} : hint ∈ c.types ↔ ∃ site, HasType c site hint := by
  constructor
  · intro h
    rw [Class.types, List.mem_append, List.mem_append] at h
    -- the types of constants, of methods and of properties, in this order
    rcases h with (h | h) | h
    · obtain ⟨k, hk, hsome⟩ := List.mem_filterMap.mp h
      exact ⟨_, .constant hk hsome⟩
    · obtain ⟨m, hm, h⟩ := List.mem_flatMap.mp h
      rw [Method.types, List.mem_append] at h
      rcases h with h | h
      · exact ⟨_, .returned hm (Option.mem_toList.mp h)⟩
      · obtain ⟨p, hp, hsome⟩ := List.mem_filterMap.mp h
        exact ⟨_, .parameter hm hp hsome⟩
    · obtain ⟨p, hp, hsome⟩ := List.mem_filterMap.mp h
      exact ⟨_, .property hp hsome⟩
  · rintro ⟨site, h⟩
    have hmethod : ∀ m ∈ c.methods, hint ∈ m.types → hint ∈ c.types := fun m hm h =>
      List.mem_append_left _ (List.mem_append_right _ (List.mem_flatMap.mpr ⟨m, hm, h⟩))
    cases h with
    | constant hk h =>
      exact List.mem_append_left _ (List.mem_append_left _ (List.mem_filterMap.mpr ⟨_, hk, h⟩))
    | property hp h => exact List.mem_append_right _ (List.mem_filterMap.mpr ⟨_, hp, h⟩)
    | returned hm h => exact hmethod _ hm (List.mem_append_left _ (Option.mem_toList.mpr h))
    | parameter hm hp h =>
      exact hmethod _ hm (List.mem_append_right _ (List.mem_filterMap.mpr ⟨_, hp, h⟩))

/-- The types are those of the members. -/
theorem HasType.congr {c c' : Class} (h : HasType c site hint)
    (hconstants : c.constants = c'.constants) (hproperties : c.properties = c'.properties)
    (hmethods : c.methods = c'.methods) : HasType c' site hint := by
  cases h with
  | constant hk h => exact .constant (hconstants ▸ hk) h
  | property hp h => exact .property (hproperties ▸ hp) h
  | returned hm h => exact .returned (hmethods ▸ hm) h
  | parameter hm hp h => exact .parameter (hmethods ▸ hm) hp h

/-- **The round of a type.** In this round the class gets the member that has the type, and the type
is written for it there. -/
structure WrittenIn (cfg : Setting) (P : Scope → Prop) (f : Frame) (b₀ b b' : Body)
    (site : TypeSite) (hint : TypeHint) : Prop where
  rounds : Body.Rounds cfg b₀ b
  round : Body.Round cfg b b'
  not_before : site.isIn b.draft = false
  behind : site.isIn b'.draft = true
  sourced : SourcedIn b b'.rest P f site (some hint)

/-- **Every type of a class** is written in the round that adds its member. -/
theorem Body.Rounds.exists_writtenIn (h : Body.Rounds cfg b₀ last)
    (hb₀ : At (entriesOf text) P b₀.toState) (hbare : Bare b₀.draft)
    (htype : HasType (last.draft.build linked) site hint) :
    ∃ b b', WrittenIn cfg P (cfg.frame b₀.draft) b₀ b b' site hint := by
  -- what is gained in a round, in the frame of the class
  have hround : ∀ b b', Body.Rounds cfg b₀ b → Body.Round cfg b b' →
      SourcedSince b P (cfg.frame b₀.draft) b'.draft b'.toState := by
    intro b b' hrounds hround
    obtain ⟨hat, hframe⟩ := hrounds.at hb₀
    exact hframe ▸ (hround.sourced hat.within.suffix hat.here).since
  -- a method is written as a whole, with its parameters
  have hmethod : ∀ m ∈ last.draft.methods, ∃ b b', Body.Rounds cfg b₀ b ∧ Body.Round cfg b b' ∧
      b.draft.hasMethod m.name = false ∧ b'.draft.hasMethod m.name = true ∧
      SourcedMethod b b'.rest P (cfg.frame b₀.draft) m := by
    intro m hm
    obtain ⟨b, b', hrounds, hlast, hmem, hnew, hsourced⟩ :=
      h.exists_gained (fun b b' hb hb' => (hround b b' hb hb').methods) hm (by simp [hbare.methods])
    exact ⟨b, b', hrounds, hlast, hnew, List.any_eq_true.mpr ⟨m, hmem, by simp⟩, hsourced⟩
  cases htype with
  | @constant k _ hk hsome =>
    obtain ⟨b, b', hrounds, hlast, hmem, hnew, hsourced⟩ :=
      h.exists_gained (fun b b' hb hb' => (hround b b' hb hb').constants) hk
        (by simp [hbare.constants])
    refine ⟨b, b', hrounds, hlast, ?_, List.any_eq_true.mpr ⟨k, hmem, by simp⟩, hsome ▸ hsourced⟩
    simpa [TypeSite.isIn] using hnew
  | property hp hsome =>
    obtain ⟨p, hpd, rfl⟩ := List.mem_map.mp hp
    obtain ⟨b, b', hrounds, hlast, hmem, hnew, hsourced⟩ :=
      h.exists_gained (fun b b' hb hb' => (hround b b' hb hb').properties) hpd
        (by simp [hbare.properties])
    exact ⟨b, b', hrounds, hlast, hnew, List.any_eq_true.mpr ⟨p, hmem, beq_self_eq_true _⟩,
      hsome ▸ hsourced⟩
  | returned hm hsome =>
    obtain ⟨m, hmd, rfl⟩ := List.mem_map.mp hm
    obtain ⟨b, b', hrounds, hlast, hnew, hbehind, hsourced⟩ := hmethod m hmd
    exact ⟨b, b', hrounds, hlast, hnew, hbehind, hsome ▸ hsourced.1⟩
  | parameter hm hp hsome =>
    obtain ⟨m, hmd, rfl⟩ := List.mem_map.mp hm
    obtain ⟨b, b', hrounds, hlast, hnew, hbehind, hsourced⟩ := hmethod m hmd
    obtain ⟨i, hi⟩ := List.mem_iff_getElem?.mp hp
    obtain ⟨p, hpd, rfl⟩ := ParameterDraft.exists_of_getElem?_buildAll hi
    exact ⟨b, b', hrounds, hlast, hnew, hbehind,
      hsome ▸ hsourced.2 p (List.mem_of_getElem? hpd)⟩

end Rounds

end Introspect.Reading
