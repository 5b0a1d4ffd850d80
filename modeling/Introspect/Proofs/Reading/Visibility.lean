import Introspect.Proofs.Reading.Agreement
import Introspect.Proofs.Reading.Descriptors

/-!
# The modifiers of accepted members

Of the modifiers in front of a member, those that exclude each other are reported, and the first of
them counts. So a member has one visibility, and no method is both abstract and final. There are two
ways around this: the modifiers in front of a parameter, which declare a property, are only
collected, and the methods of an interface are made abstract after their modifiers have been read.

* `Modifiers.Consistent` is what `modifiers` yields, and `Reading.PromotionRun` describes the words
  in front of a parameter, all of which `promotion` yields;
* `Reading.Tidy` is what holds of the draft of a class as long as nothing has been reported. Every
  routine of the body keeps it, and `Reading.Tidied` takes it over to files;
* `SourceFile.accepted_modifiers`: in an accepted file every method and every constant has exactly
  one visibility, only methods of interfaces are abstract and final, and a property has exactly one
  visibility unless it is declared by a parameter of a constructor with two different ones;
* `SourceFile.conflicting_modifiers_accepted`: both exceptions occur.
-/

namespace Introspect

/-! ### Sets of modifiers -/

namespace Modifiers

variable {m n : Modifiers}

/-- The number of visibilities in a set. -/
def visibilities (m : Modifiers) : Nat :=
  m.hasPublic.toNat + m.hasProtected.toNat + m.hasPrivate.toNat

/-- **Consistent sets.** There is at most one visibility, and not both of `abstract` and
`final`. -/
structure Consistent (m : Modifiers) : Prop where
  visibilities_le : m.visibilities ≤ 1
  not_both : ¬ (m.hasAbstract = true ∧ m.hasFinal = true)

theorem consistent_empty : empty.Consistent := ⟨by decide, by decide⟩

theorem visibilities_union_le (m n : Modifiers) :
    (m ∪ n).visibilities ≤ m.visibilities + n.visibilities := by
  -- each visibility of the union is one of the first set or of the second
  have hor : ∀ a b : Bool, (a || b).toNat ≤ a.toNat + b.toNat := by decide
  have hpublic := hor m.hasPublic n.hasPublic
  have hprotected := hor m.hasProtected n.hasProtected
  have hprivate := hor m.hasPrivate n.hasPrivate
  show (m.hasPublic || n.hasPublic).toNat + (m.hasProtected || n.hasProtected).toNat
    + (m.hasPrivate || n.hasPrivate).toNat ≤ _
  unfold visibilities
  omega

theorem visibilities_eq_zero (h : ¬ m.hasVisibility = true) : m.visibilities = 0 := by
  simp only [hasVisibility, Bool.or_eq_true, not_or, Bool.not_eq_true] at h
  obtain ⟨⟨hpublic, hprotected⟩, hprivate⟩ := h
  simp [visibilities, hpublic, hprotected, hprivate]

/-- With the default, a set with at most one visibility has exactly one. -/
theorem visibilities_withVisibility (h : m.visibilities ≤ 1) :
    m.withVisibility.visibilities = 1 := by
  unfold withVisibility
  split_ifs with hsome
  · have hpos : m.visibilities ≠ 0 := by
      intro hzero
      unfold visibilities at hzero
      simp only [hasVisibility, Bool.or_eq_true] at hsome
      rcases hsome with (h | h) | h <;> simp [h] at hzero
    omega
  · simp only [hasVisibility, Bool.or_eq_true, not_or, Bool.not_eq_true] at hsome
    simp [visibilities, hsome]

theorem hasAbstract_withVisibility (m : Modifiers) :
    m.withVisibility.hasAbstract = m.hasAbstract := by
  unfold withVisibility
  split_ifs <;> rfl

theorem hasFinal_withVisibility (m : Modifiers) : m.withVisibility.hasFinal = m.hasFinal := by
  unfold withVisibility
  split_ifs <;> rfl

end Modifiers

namespace Reading

/-! ### Tokens that remain -/

/-- The tokens that remain are the last ones of `es`, and the text ends behind them. -/
structure Within (es : List Entry) (s : State) : Prop where
  suffix : s.rest <:+ es
  eof_kind : s.eof.kind = .endOfText

section Within

variable {es : List Entry}

theorem Within.stable : Stable (Within es) := fun _ _ h hreads =>
  ⟨hreads.suffix.trans h.suffix, hreads.eof_eq ▸ h.eof_kind⟩

theorem Within.report {s : State} (h : Within es s) (d : Diagnostic) : Within es (s.report d) :=
  ⟨h.suffix, h.eof_kind⟩

/-- A routine that reads forward, with what is known of its value from wherever it starts. -/
theorem Within.gives {α : Type} {r : Routine α} {good : α → Prop} (hr : ∀ s, Forward s good r) :
    Keeps (Within es) (fun _ => True) good r := by
  refine Meets.of_each fun s hs => (Keeps.meets (hr s)).weaken ?_ ?_ ?_
  · rintro _ rfl
    exact Reads.refl _
  · exact fun _ _ h => ⟨Within.stable hs h.1, h.2⟩
  · exact fun _ _ h => ⟨Within.stable hs h.1, trivial⟩

theorem Within.keeps {α : Type} {r : Routine α} {good : State → α → Prop}
    (hr : ∀ s, Forward s (good s) r) :
    Keeps (Within es) (fun _ => True) (fun _ => True) r :=
  (Within.stable.meets hr).weaken (fun _ h => h) (fun _ _ h => ⟨h, trivial⟩)
    fun _ _ h => ⟨h, trivial⟩

end Within

/-! ### Modifiers in front of a member -/

/-- A modifier without a fault joins a consistent set. -/
theorem consistent_union {current new : Modifiers} {t : Token} (h : current.Consistent)
    (hnew : modifierOf? t.kind = some new) (hfault : modifierFault? current new t = none) :
    (current ∪ new).Consistent := by
  -- a single word stands for at most one visibility
  have hone : new.visibilities ≤ 1 := by
    unfold modifierOf? at hnew
    split at hnew <;> first | exact Option.some.inj hnew ▸ (by decide) | exact nomatch hnew
  have hle := Modifiers.visibilities_union_le current new
  have hcurrent := h.visibilities_le
  unfold modifierFault? at hfault
  split_ifs at hfault with _ hsecond hboth
  refine ⟨?_, hboth⟩
  by_cases hvisible : new.hasVisibility = true
  · -- a visibility is the first one
    have hnone := Modifiers.visibilities_eq_zero fun hc => hsecond ⟨hvisible, hc⟩
    omega
  · have hnone := Modifiers.visibilities_eq_zero hvisible
    omega

/-- **Modifiers in front of a member** are consistent, whatever is written. -/
theorem modifiers_consistent {es : List Entry} :
    Keeps (Within es) (fun _ => True) Modifiers.Consistent modifiers := by
  refine Keeps.iterate (fun current hcurrent => ?_) Modifiers.consistent_empty
  refine Keeps.bind (Within.keeps fun _ => Forward.peek) fun t _ => ?_
  cases hnew : modifierOf? t.kind with
  | none => exact Keeps.pure hcurrent
  | some new =>
    refine Keeps.bind (Keeps.discard (Within.keeps fun _ => Forward.advance)) fun _ _ => ?_
    cases hfault : modifierFault? current new t with
    | none => exact Keeps.pure (consistent_union hcurrent hnew hfault)
    | some d =>
      -- what is reported does not join
      exact Keeps.bind (Keeps.modify fun _ h => h.report d) fun _ _ => Keeps.pure hcurrent

/-! ### Modifiers in front of a parameter -/

section Promotion

variable {es ws : List Entry}

/-- All modifiers that words in front of a parameter stand for. -/
def promotions (ws : List Entry) : Modifiers :=
  ws.foldl (fun m e => m ∪ (promotionOf? e.kind).getD .empty) .empty

theorem promotions_concat {e : Entry} {new : Modifiers} (h : promotionOf? e.kind = some new) :
    promotions (ws ++ [e]) = promotions ws ∪ new := by
  rw [promotions, List.foldl_append, ← promotions, List.foldl_cons, List.foldl_nil, h,
    Option.getD_some]

/-- **Runs of words.** Words that stand next to each other among the tokens, each of them a modifier
that declares a property. -/
structure PromotionRun (es ws : List Entry) : Prop where
  consecutive : ws <:+: es
  words : ∀ e ∈ ws, (promotionOf? e.kind).isSome = true

/-- **Modifiers in front of a parameter** are all that is written there. -/
theorem promotion_run :
    Keeps (Within es) (fun _ => True) (fun m => ∃ ws, PromotionRun es ws ∧ m = promotions ws)
      promotion := by
  -- the words read so far stand in front of the tokens that remain
  let I : Modifiers → State → Prop := fun m s => s.eof.kind = .endOfText ∧
    ∃ ws, ws ++ s.rest <:+ es ∧ (∀ e ∈ ws, (promotionOf? e.kind).isSome = true) ∧
      m = promotions ws
  have hround : ∀ m, Meets (I m) (promotionRound m) (fun r => I r.value) (fun _ => Within es) := by
    intro m
    refine Meets.bind Meets.peekKind fun kind => ?_
    cases hmod : promotionOf? kind with
    | none => exact Meets.pure fun _ h => h.2
    | some new =>
      have hword : Meets (fun s => kind = s.peek.kind ∧ I m s) (discard advance)
          (fun _ => I (m ∪ new)) (fun _ => Within es) := by
        rintro s ⟨rfl, heof, ws, hws, hwords, rfl⟩
        show I (promotions ws ∪ new) s.advance
        cases hrest : s.rest with
        | nil =>
          rw [State.peek_of_rest_nil hrest, heof] at hmod
          exact nomatch hmod
        | cons e rest =>
          rw [State.peek_of_rest hrest] at hmod
          refine ⟨heof, ws ++ [e], ?_, ?_, (promotions_concat hmod).symm⟩
          · rw [State.rest_advance, hrest, List.tail_cons, List.append_assoc]
            rw [hrest] at hws
            exact hws
          · intro e' he'
            rcases List.mem_append.mp he' with he' | he'
            · exact hwords e' he'
            · rw [List.mem_singleton.mp he']
              exact Option.isSome_iff_exists.mpr ⟨new, hmod⟩
      exact Meets.bind hword fun _ => Meets.pure fun _ h => h
  refine (Meets.iterate_same hround .empty).weaken ?_ ?_ fun _ _ h => ⟨h, trivial⟩
  · exact fun s h => ⟨h.eof_kind, [], h.suffix, by simp, rfl⟩
  · rintro m s ⟨heof, ws, ⟨before, hbefore⟩, hwords, rfl⟩
    have hes : before ++ ws ++ s.rest = es := by rw [List.append_assoc, hbefore]
    exact ⟨⟨⟨before ++ ws, hes⟩, heof⟩, ws, ⟨⟨before, s.rest, hes⟩, hwords⟩, rfl⟩

/-- The words that declare a visibility. -/
def visibilityWords : List Token.Kind := [.publicWord, .protectedWord, .privateWord]

/-- What words stand for was written as a word of its own. -/
theorem exists_word {has : Modifiers → Bool} {kind : Token.Kind}
    (hunion : ∀ m n, has (m ∪ n) = (has m || has n)) (hempty : has .empty = false)
    (hword : ∀ k, has ((promotionOf? k).getD .empty) = true → k = kind)
    (h : has (promotions ws) = true) : ∃ e ∈ ws, e.kind = kind := by
  induction ws using List.reverseRecOn with
  | nil => exact absurd (hempty.symm.trans h) (by simp)
  | append_singleton ws e ih =>
    rw [promotions, List.foldl_append, ← promotions, List.foldl_cons, List.foldl_nil, hunion,
      Bool.or_eq_true] at h
    rcases h with h | h
    · obtain ⟨e', he', hk⟩ := ih h
      exact ⟨e', List.mem_append_left _ he', hk⟩
    · exact ⟨e, List.mem_append_right _ (List.mem_singleton_self e), hword _ h⟩

/-- Words that declare more than one visibility are two different words. -/
theorem exists_two_visibilities (h : (promotions ws).withVisibility.visibilities ≠ 1) :
    ∃ e ∈ ws, ∃ e' ∈ ws, e.kind ≠ e'.kind ∧ e.kind ∈ visibilityWords ∧
      e'.kind ∈ visibilityWords := by
  have hpublic : (promotions ws).hasPublic = true → ∃ e ∈ ws, e.kind = .publicWord :=
    exists_word (fun _ _ => rfl) rfl fun k hk => by cases k <;> first | rfl | exact nomatch hk
  have hprotected : (promotions ws).hasProtected = true → ∃ e ∈ ws, e.kind = .protectedWord :=
    exists_word (fun _ _ => rfl) rfl fun k hk => by cases k <;> first | rfl | exact nomatch hk
  have hprivate : (promotions ws).hasPrivate = true → ∃ e ∈ ws, e.kind = .privateWord :=
    exists_word (fun _ _ => rfl) rfl fun k hk => by cases k <;> first | rfl | exact nomatch hk
  have htwo : ∀ {k k' : Token.Kind}, k ≠ k' → k ∈ visibilityWords → k' ∈ visibilityWords →
      (∃ e ∈ ws, e.kind = k) → (∃ e ∈ ws, e.kind = k') →
      ∃ e ∈ ws, ∃ e' ∈ ws, e.kind ≠ e'.kind ∧ e.kind ∈ visibilityWords ∧
        e'.kind ∈ visibilityWords := by
    rintro k k' hne hk hk' ⟨e, he, rfl⟩ ⟨e', he', rfl⟩
    exact ⟨e, he, e', he', hne, hk, hk'⟩
  -- the default is taken only where there is none, so there were at least two before it
  have hmany : ¬ (promotions ws).visibilities ≤ 1 := mt Modifiers.visibilities_withVisibility h
  unfold Modifiers.visibilities at hmany
  cases hp : (promotions ws).hasPublic <;> cases hr : (promotions ws).hasProtected <;>
    cases hv : (promotions ws).hasPrivate <;> simp [hp, hr, hv] at hmany
  · exact htwo (by decide) (by decide) (by decide) (hprotected hr) (hprivate hv)
  · exact htwo (by decide) (by decide) (by decide) (hpublic hp) (hprivate hv)
  · exact htwo (by decide) (by decide) (by decide) (hpublic hp) (hprotected hr)
  · exact htwo (by decide) (by decide) (by decide) (hpublic hp) (hprotected hr)

end Promotion

/-! ### Drafts of members -/

/-- A parameter declares a property: the modifiers of the property are all those in front of the
parameter. -/
structure Declares (es : List Entry) (p : ParameterDraft) (q : PropertyDraft) : Prop where
  promoted : p.promoted = true
  name_eq : p.name = q.name
  modifiers_eq : ∃ ws, PromotionRun es ws ∧ q.modifiers = (promotions ws).withVisibility

section Drafts

variable {es : List Entry}

theorem parameter_declares (cfg : Setting) (f : Frame) (doc : Option DocBlock) :
    Keeps (Within es) (fun _ => True)
      (fun r : ParameterDraft × Option PropertyDraft => ∀ q ∈ r.2, Declares es r.1 q)
      (parameter cfg f doc) := by
  rw [parameter_eq]
  refine Keeps.bind (Within.keeps fun _ => Forward.skipAttributes) fun _ _ => ?_
  refine Keeps.bind (Within.keeps fun _ => Forward.peek) fun first _ => ?_
  refine Keeps.bind promotion_run fun mods hmods => ?_
  refine Keeps.bind (Within.keeps fun _ => Forward.declaredType? f) fun declared _ => ?_
  refine Keeps.bind (Within.keeps fun _ => Forward.eat _) fun _ _ => ?_
  refine Keeps.bind (Within.keeps fun _ => Forward.eat _) fun _ _ => ?_
  refine Keeps.bind (Within.keeps fun _ => Forward.expect _) fun var _ => ?_
  refine Keeps.bind (Within.keeps fun _ => Forward.defaultValue? _ _) fun value _ => ?_
  refine Keeps.bind Keeps.get fun s _ => Keeps.pure fun q hq => ?_
  -- the parameter has the name of the property, and is marked if there is one
  obtain ⟨hmodified, rfl⟩ := mem_promoted.mp hq
  obtain ⟨ws, hrun, rfl⟩ := hmods
  exact ⟨by simp [parameterOf, ParameterDraft.ofName, hmodified], rfl, ws, hrun, rfl⟩

theorem parameterList_declares (cfg : Setting) (f : Frame) (doc : Option DocBlock) :
    Keeps (Within es) (fun _ => True)
      (fun ps : List (ParameterDraft × Option PropertyDraft) =>
        ∀ p ∈ ps, ∀ q ∈ p.2, Declares es p.1 q) (parameterList cfg f doc) := by
  refine Keeps.bind (Within.keeps fun _ => Forward.peekKind) fun _ _ => ?_
  refine Keeps.ite (fun _ => Keeps.pure (by simp)) fun _ => ?_
  exact Keeps.listOf (parameter_declares cfg f doc) (Within.keeps fun _ => Forward.commaBefore _)

theorem parameters_declare (cfg : Setting) (f : Frame) (doc : Option DocBlock) :
    Keeps (Within es) (fun _ => True)
      (fun r : List ParameterDraft × List PropertyDraft => ∀ q ∈ r.2, ∃ p ∈ r.1, Declares es p q)
      (parameters cfg f doc) := by
  rw [parameters_eq]
  refine Keeps.bind (Within.keeps fun _ => Forward.parametersOpen) fun _ _ => ?_
  refine Keeps.bind (parameterList_declares cfg f doc) fun ps hps => ?_
  refine Keeps.bind (Keeps.discard (Within.keeps fun _ => Forward.expect _)) fun _ _ => ?_
  refine Keeps.pure fun q hq => ?_
  -- a property comes with the parameter that declares it
  obtain ⟨p, hp, hpq⟩ := List.mem_filterMap.mp hq
  exact ⟨p.1, List.mem_map_of_mem hp, hps p hp q hpq⟩

/-- The modifiers of a method: in an interface, all methods are abstract. -/
def methodModifiers (flags : ClassFlags) (mods : Modifiers) : Modifiers :=
  (if flags.hasInterface then { mods with hasAbstract := true } else mods).withVisibility

/-- What is known of a method that is read, beside its name and the properties that its parameters
declare. -/
structure MethodRead (es : List Entry) (flags : ClassFlags) (mods : Modifiers)
    (r : MethodDraft × Token × List PropertyDraft) : Prop where
  modifiers_eq : r.1.modifiers = methodModifiers flags mods
  name_eq : r.1.name = r.2.1.lexeme
  declared : ∀ q ∈ r.2.2, ∃ p ∈ r.1.parameters.getD [], Declares es p q

theorem methodDraft_read (cfg : Setting) (d : ClassDraft) (mods : Modifiers) (doc : Option String)
    (line : Nat) :
    Keeps (Within es) (fun _ => True) (MethodRead es d.flags mods)
      (methodDraft cfg d mods doc line) := by
  rw [methodDraft_eq]
  refine Keeps.bind (Keeps.discard (Within.keeps fun _ => Forward.expect _)) fun _ _ => ?_
  refine Keeps.bind (Within.keeps fun _ => Forward.eat _) fun _ _ => ?_
  refine Keeps.bind (Within.keeps fun _ => Forward.memberName) fun name _ => ?_
  refine Keeps.bind (parameters_declare _ _ _) fun (params, promoted) hparams => ?_
  refine Keeps.bind (Within.keeps fun _ => Forward.returnType _ _) fun hint _ => ?_
  refine Keeps.bind (Within.keeps fun _ => Forward.methodEnd) fun closing _ => ?_
  exact Keeps.pure ⟨rfl, rfl, hparams⟩

theorem propertyDraft_modifiers (cfg : Setting) (mods : Modifiers) (hint : Option TypeHint)
    (doc : Option String) (line : Nat) :
    Keeps (Within es) (fun _ => True)
      (fun r : PropertyDraft × Span => r.1.modifiers = mods.withVisibility)
      (propertyDraft cfg mods hint doc line) := by
  rw [propertyDraft_eq]
  refine Keeps.bind (Within.keeps fun _ => Forward.expect _) fun var _ => ?_
  refine Keeps.bind (Within.keeps fun _ => Forward.defaultValue? _ _) fun value _ => ?_
  exact Keeps.pure rfl

theorem constantDraft_modifiers (cfg : Setting) (mods : Modifiers) (hint : Option TypeHint) :
    Keeps (Within es) (fun _ => True)
      (fun r : Constant × Span => r.1.modifiers = mods.withVisibility)
      (constantDraft cfg mods hint) := by
  refine Keeps.bind (Within.keeps fun _ => Forward.memberName) fun name _ => ?_
  refine Keeps.bind (Keeps.discard (Within.keeps fun _ => Forward.expect _)) fun _ _ => ?_
  exact Keeps.bind (Within.keeps fun _ => Forward.initializer _ _) fun _ _ => Keeps.pure rfl

end Drafts

/-! ### Drafts of classes -/

/-- The property is declared by a parameter of a constructor of the class. -/
def Promotes (es : List Entry) (d : ClassDraft) (q : PropertyDraft) : Prop :=
  ∃ m ∈ d.methods, Text.eqIgnoringCase m.name Method.constructorName = true ∧
    ∃ p ∈ m.parameters.getD [], Declares es p q

/-- **Tidy drafts.** What holds of the members of a class as long as nothing has been reported. -/
structure Tidy (es : List Entry) (d : ClassDraft) : Prop where
  methods : ∀ m ∈ d.methods, m.modifiers.visibilities = 1 ∧
    (m.modifiers.hasAbstract = true → m.modifiers.hasFinal = true → d.flags.hasInterface = true)
  constants : ∀ c ∈ d.constants, c.modifiers.visibilities = 1
  properties : ∀ q ∈ d.properties, q.modifiers.visibilities = 1 ∨ Promotes es d q

section Tidy

variable {es : List Entry} {d d' : ClassDraft} {mods : Modifiers}

/-- A class begins without members. -/
theorem Tidy.of_empty (hmethods : d.methods = []) (hconstants : d.constants = [])
    (hproperties : d.properties = []) : Tidy es d where
  methods := by simp [hmethods]
  constants := by simp [hconstants]
  properties := by simp [hproperties]

/-- Only in an interface are modifiers made to contradict each other. -/
theorem methodModifiers_tidy (flags : ClassFlags) (hmods : mods.Consistent) :
    (methodModifiers flags mods).visibilities = 1 ∧
      ((methodModifiers flags mods).hasAbstract = true →
        (methodModifiers flags mods).hasFinal = true → flags.hasInterface = true) := by
  unfold methodModifiers
  split_ifs with hinterface
  · exact ⟨Modifiers.visibilities_withVisibility (m := { mods with hasAbstract := true })
      hmods.visibilities_le, fun _ _ => hinterface⟩
  · refine ⟨Modifiers.visibilities_withVisibility hmods.visibilities_le, ?_⟩
    rw [Modifiers.hasAbstract_withVisibility, Modifiers.hasFinal_withVisibility]
    exact fun habstract hfinal => absurd ⟨habstract, hfinal⟩ hmods.not_both

theorem Promotes.addMethod {q : PropertyDraft} {m : MethodDraft} (h : Promotes es d q)
    (hadd : d.addMethod m = .ok d') : Promotes es d' q := by
  obtain ⟨-, rfl⟩ := ClassDraft.of_addMethod hadd
  obtain ⟨m', hm', hrest⟩ := h
  exact ⟨m', List.mem_append_left _ hm', hrest⟩

theorem Promotes.addProperty {q p : PropertyDraft} (h : Promotes es d q)
    (hadd : d.addProperty p = .ok d') : Promotes es d' q := by
  obtain ⟨-, rfl⟩ := ClassDraft.of_addProperty hadd
  exact h

theorem Tidy.addMethod {r : MethodDraft × Token × List PropertyDraft} (h : Tidy es d)
    (hmods : mods.Consistent) (hread : MethodRead es d.flags mods r)
    (hadd : d.addMethod r.1 = .ok d') : Tidy es d' := by
  -- a constructor that has declared a property stays in the class
  have hpromotes : ∀ q, Promotes es d q → Promotes es d' q := fun q hq => hq.addMethod hadd
  obtain ⟨-, rfl⟩ := ClassDraft.of_addMethod hadd
  refine ⟨fun m hm => ?_, h.constants, fun q hq => (h.properties q hq).imp_right (hpromotes q)⟩
  rcases List.mem_append.mp hm with hm | hm
  · exact h.methods m hm
  · rw [List.mem_singleton.mp hm]
    show r.1.modifiers.visibilities = 1 ∧ _
    rw [hread.modifiers_eq]
    exact methodModifiers_tidy d.flags hmods

theorem Tidy.addProperty {q : PropertyDraft} (h : Tidy es d)
    (hq : q.modifiers.visibilities = 1 ∨ Promotes es d q) (hadd : d.addProperty q = .ok d') :
    Tidy es d' := by
  obtain ⟨-, rfl⟩ := ClassDraft.of_addProperty hadd
  refine ⟨h.methods, h.constants, fun q' hq' => ?_⟩
  rcases List.mem_append.mp hq' with hq' | hq'
  · exact h.properties q' hq'
  · rw [List.mem_singleton.mp hq']
    refine hq.imp_right ?_
    rintro ⟨m, hm, hname, p, hp, hdeclares⟩
    exact ⟨m, hm, hname, p, hp, hdeclares.promoted, hdeclares.name_eq, hdeclares.modifiers_eq⟩

theorem Tidy.addConstant {c : Constant} (h : Tidy es d) (hc : c.modifiers.visibilities = 1)
    (hadd : d.addConstant c = .ok d') : Tidy es d' := by
  obtain ⟨-, rfl⟩ := ClassDraft.of_addConstant hadd
  refine ⟨h.methods, fun c' hc' => ?_, h.properties⟩
  rcases List.mem_append.mp hc' with hc' | hc'
  · exact h.constants c' hc'
  · rw [List.mem_singleton.mp hc']
    exact hc

end Tidy

/-! ### Bodies -/

/-- The draft is tidy, unless something has been reported. -/
structure Kept (es : List Entry) (d : ClassDraft) (s : State) : Prop where
  within : Within es s
  tidy : s.diagnostics = [] → Tidy es d

section Kept

variable {es : List Entry} {d d' : ClassDraft} {s : State}

theorem Kept.stable : Stable (Kept es d) := fun _ _ h hreads =>
  ⟨Within.stable h.within hreads, fun hquiet => h.tidy (hreads.diagnostics_eq_nil hquiet)⟩

/-- Behind a report nothing is asked of the draft. -/
theorem Within.kept (h : Within es s) (e : Diagnostic) : Kept es d (s.report e) :=
  ⟨h.report e, fun hquiet => absurd hquiet (s.diagnostics_report_ne_nil e)⟩

end Kept

/-- The draft of a body is kept tidy where its reading stands. -/
def BodyKept (es : List Entry) (b : Body) : Prop := Kept es b.draft b.toState

/-- A routine that keeps the draft tidy, whether it yields or gives up. -/
abbrev KeepsTidy {α : Type} (es : List Entry) (r : BodyRoutine α) : Prop :=
  KeepsBody (Kept es) r

namespace KeepsTidy

variable {es : List Entry} {α : Type} {mods : Modifiers}

theorem invariant : BodyInvariant (Kept es) :=
  ⟨fun _ => Kept.stable, fun _ _ e h => h.within.kept e⟩

theorem pure {a : α} : KeepsTidy es (Pure.pure a) := KeepsBody.pure

theorem get : KeepsTidy es get := KeepsBody.get

theorem reading {r : Routine α} {good : State → α → Prop} (hr : ∀ s, Forward s (good s) r) :
    KeepsTidy es (reading r) :=
  invariant.reading hr

/-- What a routine yields is known behind it. -/
theorem reading_good {β : Type} {r : Routine α} {k : α → BodyRoutine β} {good : State → α → Prop}
    {good' : α → Prop} (hr : ∀ s, Forward s (good s) r)
    (h : Keeps (Within es) (fun _ => True) good' r) (hk : ∀ a, good' a → KeepsTidy es (k a)) :
    KeepsTidy es (Reading.reading r >>= k) := by
  have hread : ∀ d, Meets (Kept es d) r (fun a s => good' a ∧ Kept es d s) (fun _ => Kept es d) :=
    fun d => (Kept.stable.frame hr (Keeps.meets h)).weaken (fun _ hs => ⟨hs.within, hs⟩)
      (fun _ _ hs => ⟨hs.1.2, hs.2⟩) fun _ _ hs => hs.2
  exact Meets.bind (Meets.reading_draft hread) fun a => Meets.given (hk a)

/-- A write that keeps tidy drafts tidy. -/
theorem adding {span : Span} {f : ClassDraft → Except DraftError ClassDraft}
    (hf : ∀ d d', Tidy es d → f d = .ok d' → Tidy es d') : KeepsTidy es (adding span f) :=
  Meets.adding
    (fun b d' h hadd => ⟨h.within, fun hquiet => hf b.draft d' (h.tidy hquiet) hadd⟩)
    fun _ e h => h.within.kept e

theorem method (cfg : Setting) (hmods : mods.Consistent) (doc : Option String) (line : Nat) :
    KeepsTidy es (method cfg mods doc line) := by
  refine Meets.bind Meets.get fun b₀ => ?_
  have hread : ∀ d, Meets (fun s => d = b₀.draft ∧ Kept es d s)
      (methodDraft cfg b₀.draft mods doc line)
      (fun r s => MethodRead es d.flags mods r ∧ Kept es d s) (fun _ => Kept es d) := by
    refine fun d => Meets.given fun hd => ?_
    subst hd
    exact (Kept.stable.frame (fun _ => Forward.methodDraft _ _ _ _ _)
      (Keeps.meets (methodDraft_read _ _ _ _ _))).weaken (fun _ hs => ⟨hs.within, hs⟩)
      (fun _ _ hs => ⟨hs.1.2, hs.2⟩) fun _ _ hs => hs.2
  refine Meets.bind ((Meets.reading_draft hread).of_pre ?_) fun (m, name, promoted) => ?_
  · rintro b ⟨rfl, h⟩
    exact ⟨rfl, h⟩
  -- behind the method, a constructor promotes all that its parameters declare
  let ready : Body → Prop := fun b => BodyKept es b ∧
    (Text.eqIgnoringCase name.lexeme Method.constructorName = true → b.diagnostics = [] →
      ∀ q ∈ promoted, Promotes es b.draft q)
  have hrefused : ∀ b e, BodyKept es b → ready { b with toState := b.toState.report e } :=
    fun b e h => ⟨h.within.kept e, fun _ hquiet =>
      absurd hquiet (b.toState.diagnostics_report_ne_nil e)⟩
  have hadded : ∀ b d', MethodRead es b.draft.flags mods (m, name, promoted) ∧ BodyKept es b →
      b.draft.addMethod m = .ok d' → ready { b with draft := d' } := by
    rintro b d' ⟨hm, h⟩ hadd
    refine ⟨⟨h.within, fun hquiet => (h.tidy hquiet).addMethod hmods hm hadd⟩, ?_⟩
    intro hname _ q hq
    obtain ⟨-, rfl⟩ := ClassDraft.of_addMethod hadd
    -- the constructor is the method that was just added
    refine ⟨_, List.mem_append_right _ (List.mem_singleton_self _), ?_, hm.declared q hq⟩
    exact (congrArg (Text.eqIgnoringCase · _) hm.name_eq).trans hname
  refine Meets.bind (Meets.adding hadded fun b e h => hrefused b e h.2) fun _ => ?_
  refine Meets.ite (fun hname => ?_) fun _ => Meets.pure fun _ h => h.1
  refine (Meets.forM fun q hq => ?_).to_post fun _ _ h => h.1
  refine Meets.adding ?_ fun b e h => hrefused b e h.1
  rintro b d' ⟨h, hpromotes⟩ hadd
  refine ⟨⟨h.within, fun hquiet => ?_⟩, fun _ hquiet q' hq' => ?_⟩
  · exact (h.tidy hquiet).addProperty (.inr (hpromotes hname hquiet q hq)) hadd
  · exact (hpromotes hname hquiet q' hq').addProperty hadd

theorem properties (cfg : Setting) (hmods : mods.Consistent) (declared : Option TypeHint)
    (doc : Option String) (line : Nat) :
    KeepsTidy es (properties cfg mods declared doc line) := by
  have hone := Modifiers.visibilities_withVisibility hmods.visibilities_le
  refine Meets.bind get fun b₀ => ?_
  extract_lets documented hint
  refine Meets.bind (Meets.discard (Meets.iterate_same (I := fun _ => BodyKept es)
    (fun (doc, line) => ?_) (doc, line))) fun _ => Meets.discard (reading fun _ => Forward.expect _)
  refine reading_good (fun _ => Forward.propertyDraft _ _ _ _ _)
    (propertyDraft_modifiers _ _ _ _ _) fun (q, span) hq => ?_
  refine Meets.bind (adding fun d d' h hadd => ?_) fun _ => ?_
  · exact h.addProperty (.inl (hq ▸ hone)) hadd
  refine Meets.bind (reading fun _ => Forward.comma) fun more => ?_
  refine Meets.ite (fun _ => ?_) fun _ => pure
  exact Meets.bind get fun _ => pure

theorem constants (cfg : Setting) (hmods : mods.Consistent) :
    KeepsTidy es (constants cfg mods) := by
  rw [constants_eq]
  have hone := Modifiers.visibilities_withVisibility hmods.visibilities_le
  refine Meets.bind (Meets.discard (reading fun _ => Forward.expect _)) fun _ => ?_
  refine Meets.bind get fun b₀ => ?_
  have htype : KeepsTidy es (constantType? cfg b₀) :=
    Meets.ite (fun _ => pure) fun _ => Meets.map_same (reading fun _ => Forward.typeHint _)
  refine Meets.bind htype fun hint => ?_
  refine Meets.bind (Meets.discard (Meets.iterate_same (I := fun _ => BodyKept es)
    (fun _ => ?_) ())) fun _ => Meets.discard (reading fun _ => Forward.expect _)
  refine reading_good (fun _ => Forward.constantDraft _ _ _)
    (constantDraft_modifiers _ _ _) fun (c, span) hc => ?_
  refine Meets.bind (adding fun d d' h hadd => ?_) fun _ => ?_
  · exact h.addConstant (hc ▸ hone) hadd
  · exact Meets.bind (reading fun _ => Forward.comma) fun _ => pure

theorem modifiedMember (cfg : Setting) (hmods : mods.Consistent) (doc : Option String)
    (line : Nat) : KeepsTidy es (modifiedMember cfg mods doc line) := by
  refine Meets.bind get fun b₀ => ?_
  refine Meets.ite (fun _ => method cfg hmods doc line) fun _ => ?_
  refine Meets.ite (fun _ => constants cfg hmods) fun _ => ?_
  refine Meets.ite (fun _ => properties cfg hmods none doc line) fun _ => ?_
  refine Meets.ite (fun _ => ?_) fun _ => Meets.throw fun _ h => h
  refine Meets.bind get fun _ => ?_
  exact Meets.bind (reading fun _ => Forward.typeHint _) fun _ => properties cfg hmods _ doc line

theorem member (cfg : Setting) : KeepsTidy es (member cfg) := by
  refine Meets.bind get fun _ => ?_
  refine Meets.bind (reading fun _ => Forward.skipAttributes) fun _ => ?_
  refine Meets.bind get fun b => ?_
  split
  · exact reading fun _ =>
      Keeps.bind (Keeps.discard Forward.advance) fun _ _ => Forward.skipStatement
  · exact Meets.discard (reading fun _ => Forward.advance)
  · refine Meets.bind (reading fun _ => Forward.docSince _) fun _ => ?_
    refine Meets.bind get fun first => ?_
    exact reading_good (fun _ => Forward.modifiers) modifiers_consistent fun _ hmods =>
      modifiedMember cfg hmods _ _

theorem classBody (cfg : Setting) : KeepsTidy es (classBody cfg) :=
  invariant.classBody (member cfg)

end KeepsTidy

/-! ### Classes -/

/-- A class in whose draft there are no members yet. -/
structure Bare (d : ClassDraft) : Prop where
  methods : d.methods = []
  constants : d.constants = []
  properties : d.properties = []

section Classes

variable {es : List Entry} {d : ClassDraft} {start : List Entry}

theorem classDraft_bare (file : SourceFile) (start : List Entry) :
    Keeps (Within es) (fun _ => True)
      (fun r : ClassDraft × Token × Span => r.1.parentName = none ∧ Bare r.1)
      (classDraft file start) := by
  rw [classDraft_eq]
  refine Keeps.bind (Within.keeps fun _ => Forward.peek) fun first _ => ?_
  refine Keeps.bind (Within.keeps fun _ => Forward.classFlags) fun flags _ => ?_
  refine Keeps.bind (Within.keeps fun _ => Forward.docSince _) fun doc _ => ?_
  refine Keeps.bind (Within.keeps fun _ => Forward.advance) fun name _ => ?_
  refine Keeps.bind Keeps.get fun s _ => ?_
  exact Keeps.pure ⟨rfl, rfl, rfl, rfl⟩

theorem Bare.of_headed {d' : ClassDraft} (h : Bare d) (hd : Headed d d') : Bare d' := by
  obtain ⟨parent, interfaces, rfl⟩ := hd
  exact ⟨h.methods, h.constants, h.properties⟩

theorem classMembers_kept (cfg : Setting) (h : Bare d) :
    Meets (Within es) (classMembers cfg d) (Kept es) (fun _ => Within es) := by
  intro s hs
  have hbody : BodyKept es { s with draft := d } :=
    ⟨hs, fun _ => Tidy.of_empty h.methods h.constants h.properties⟩
  unfold classMembers
  cases hres : classBody cfg { s with draft := d } with
  | ok u b => exact (KeepsTidy.classBody cfg).of_ok hbody hres
  | error e b => exact ((KeepsTidy.classBody cfg).of_error hbody hres).within

theorem classEnd_kept (start : List Entry) (header : Span) (d : ClassDraft) :
    Meets (Kept es d) (classEnd start header d) (Kept es) (fun _ => Within es) := by
  have hwrite : ∀ {span : Span} {line : Nat}, Meets (Kept es d) (write span d (·.writeEndLine line))
      (Kept es) (fun _ => Within es) := by
    intro span line
    refine Meets.write_either (fun d' s hok h => ⟨h.within, fun hquiet => ?_⟩) fun s e h =>
      h.within.kept e
    have hd := h.tidy hquiet
    rw [ClassDraft.of_writeEndLine hok]
    exact ⟨hd.methods, hd.constants, hd.properties⟩
  refine Meets.bind (Meets.attempt_same (Kept.stable.meets fun _ => Forward.expect _)) fun r => ?_
  cases r with
  | ok closing => exact hwrite
  | error e => exact Meets.bind (Meets.modify fun _ h => h.within.kept e) fun _ => hwrite

/-- **A class that is read** is tidy, unless something has been reported. -/
theorem classDeclaration_kept (file : SourceFile) (start : List Entry) :
    Meets (Within es) (classDeclaration file start)
      (fun o s => Within es s ∧ ∀ c ∈ o, Kept es c.1 s) (fun _ => Within es) := by
  refine Meets.bind ((Keeps.meets (classDraft_bare file start)).weaken (fun _ h => h)
    (fun _ _ h => h.symm) fun _ _ h => h.1) fun (d, name, header) => Meets.given fun hd => ?_
  have hheader : Keeps (Within es) (fun _ => True) (Headed d) (classHeader file.resolver d) :=
    Within.gives fun _ => Forward.classHeader file.resolver hd.1
  refine Meets.bind (Meets.attempt (Keeps.meets hheader)) fun r => ?_
  cases r with
  | error e =>
    -- a class without a header is passed over
    refine Meets.bind (Meets.modify (q := Within es) fun _ h => h.1.report e) fun _ => ?_
    refine Meets.bind (Within.stable.meets fun _ => Forward.recoverDeclaration) fun _ => ?_
    exact Meets.pure fun _ h => ⟨h, by simp⟩
  | ok d =>
    refine Meets.bind (Meets.assuming (fun _ h => h.2) fun hheaded =>
      (classMembers_kept _ (hd.2.of_headed hheaded)).of_pre fun _ h => h.1) fun d => ?_
    refine Meets.bind (classEnd_kept start header d) fun d => Meets.pure fun s h => ⟨h.within, ?_⟩
    intro c hc
    rw [← Option.mem_some.mp hc]
    exact h

end Classes

end Reading

/-! ### Files -/

open Reading

/-- The property is declared by a parameter of a constructor in front of which words with two
different visibilities stand. It has the modifiers of all these words. -/
def Class.PromotesTwice (es : List Reading.Entry) (c : Class) (p : Property) : Prop :=
  ∃ m ∈ c.methods, Text.eqIgnoringCase m.name Method.constructorName = true ∧
    (∃ q ∈ m.parameters, q.promoted = true ∧ q.name = p.name) ∧
    ∃ ws, PromotionRun es ws ∧ p.modifiers = (promotions ws).withVisibility ∧
      ∃ e ∈ ws, ∃ e' ∈ ws, e.kind ≠ e'.kind ∧ e.kind ∈ visibilityWords ∧ e'.kind ∈ visibilityWords

/-- **The modifiers of a class** that was read from the tokens `es` without a report. -/
structure Class.TidyModifiers (es : List Reading.Entry) (c : Class) : Prop where
  methods : ∀ m ∈ c.methods, m.modifiers.visibilities = 1 ∧
    (m.modifiers.hasAbstract = true → m.modifiers.hasFinal = true → c.flags.hasInterface = true)
  constants : ∀ k ∈ c.constants, k.modifiers.visibilities = 1
  properties : ∀ p ∈ c.properties, p.modifiers.visibilities = 1 ∨ c.PromotesTwice es p

theorem ParameterDraft.exists_mem_buildAll {ds : List ParameterDraft} {p : ParameterDraft}
    (h : p ∈ ds) : ∃ q ∈ buildAll ds, q.promoted = p.promoted ∧ q.name = p.name := by
  obtain ⟨i, hi⟩ := List.mem_iff_getElem?.mp h
  have hmem : (p, i) ∈ ds.zipIdx := List.mk_mem_zipIdx_iff_getElem?.mpr hi
  exact ⟨p.build i (requiredCount ds), List.mem_map.mpr ⟨(p, i), hmem, rfl⟩, rfl, rfl⟩

namespace Reading

section Files

variable {es : List Entry} {f g : FileState} {file : SourceFile}

/-- A tidy draft builds a class with tidy modifiers. -/
theorem Tidy.build {d : ClassDraft} (h : Tidy es d) (linked : Bool) :
    (d.build linked).TidyModifiers es where
  methods := by
    intro m hm
    obtain ⟨m₀, hm₀, rfl⟩ := List.mem_map.mp hm
    exact h.methods m₀ hm₀
  constants := h.constants
  properties := by
    intro p hp
    obtain ⟨q, hq, rfl⟩ := List.mem_map.mp hp
    by_cases hone : q.modifiers.visibilities = 1
    · exact .inl hone
    · obtain ⟨m, hm, hname, p, hp, hdeclares⟩ := (h.properties q hq).resolve_left hone
      -- the words in front of the parameter are those with two visibilities
      obtain ⟨ws, hrun, hmodifiers⟩ := hdeclares.modifiers_eq
      obtain ⟨p', hp', hpromoted, hpname⟩ := ParameterDraft.exists_mem_buildAll hp
      refine .inr ⟨m.build, List.mem_map_of_mem hm, hname, ⟨p', hp', ?_, ?_⟩, ws, hrun, hmodifiers,
        exists_two_visibilities (hmodifiers ▸ hone)⟩
      · rw [hpromoted, hdeclares.promoted]
      · rw [hpname, hdeclares.name_eq]
        rfl

/-- **Tidied files.** The classes that have been read so far have tidy modifiers, unless something
has been reported. -/
structure Tidied (es : List Entry) (f : FileState) : Prop where
  within : Within es f.toState
  classes : f.diagnostics = [] → ∀ c ∈ f.classes, c.TidyModifiers es

theorem Tidied.of_reads (h : Tidied es f) (hreads : Reads f.toState g.toState)
    (hclasses : g.classes = f.classes) : Tidied es g where
  within := Within.stable h.within hreads
  classes hquiet := by
    rw [hclasses]
    exact h.classes (hreads.diagnostics_eq_nil hquiet)

theorem Tidied.publish {s : State} {d : ClassDraft} {span : Span} (h : Tidied es f)
    (hkept : Kept es d s)
    (hreads : Reads f.toState (FileState.publish { f with toState := s } file d span).toState) :
    Tidied es (FileState.publish { f with toState := s } file d span) := by
  cases hlookup : f.declared.lookup (Name.lookupKey d.name) with
  | some earlier =>
    -- the key is taken, and no class is added
    exact h.of_reads hreads
      (FileState.publish_of_taken (f := { f with toState := s }) file span hlookup).1
  | none =>
    rw [FileState.publish_of_new (f := { f with toState := s }) file span hlookup] at hreads ⊢
    refine ⟨hkept.within, fun hquiet c hc => ?_⟩
    rcases List.mem_append.mp hc with hc | hc
    · exact h.classes (hreads.diagnostics_eq_nil hquiet) c hc
    -- the new class was read without a report, as there is none even now
    · rw [List.mem_singleton.mp hc]
      exact (hkept.tidy hquiet).build file.linked

theorem Tidied.readClass {s : State} (h : Tidied es f) (henters : f.Enters s)
    (hreads : Reads f.toState (FileState.readClass { f with toState := s } file f.rest).toState) :
    Tidied es (FileState.readClass { f with toState := s } file f.rest) := by
  have hs : Within es s := Within.stable h.within (henters.reads (Reads.refl _))
  unfold FileState.readClass at hreads ⊢
  cases hres : classDeclaration file f.rest s with
  | error e s' =>
    simp only [hres] at hreads ⊢
    exact h.of_reads hreads rfl
  | ok o s' =>
    have hclass := (classDeclaration_kept file f.rest).of_ok hs hres
    cases o with
    | none =>
      simp only [hres] at hreads ⊢
      exact h.of_reads hreads rfl
    | some c =>
      simp only [hres] at hreads ⊢
      exact h.publish (hclass.2 c rfl) hreads

/-- **One step** keeps the modifiers tidy. -/
theorem Tidied.step (h : Tidied es f) (file : SourceFile) : Tidied es (f.step file) := by
  have hreads := (Reads.refl f.toState).step file
  by_cases henters : ∃ s, f.Enters s
  · obtain ⟨s, henters⟩ := henters
    rw [henters.step_eq] at hreads ⊢
    exact h.readClass henters hreads
  · have hnone : ∀ s, ¬ f.Enters s := fun s hs => henters ⟨s, hs⟩
    exact h.of_reads hreads (FileState.step_of_not_enters hnone).1

/-- **All steps** do. -/
theorem Tidied.finish (h : Tidied es f) (file : SourceFile) : Tidied es (f.finish file) :=
  FileState.finish_keeps (fun _ hf => hf.step file) h

end Files

end Reading

namespace SourceFile

/-- **The modifiers of accepted members.** In a file that is read strictly, every method and every
constant has exactly one visibility, and so has every property that is not declared by a parameter
with two different ones; a method that is both abstract and final is one of an interface. -/
theorem accepted_modifiers {file : SourceFile} {classes : List Class}
    (h : file.readStrictly = .ok classes) :
    ∀ c ∈ classes, c.TidyModifiers (FileState.start file.text).rest := by
  have hquiet := quiet_of_readStrictly h
  have hstart : Tidied (FileState.start file.text).rest (FileState.start file.text) :=
    { within := ⟨List.suffix_refl _, FileState.kind_eof_start file.text⟩
      classes := fun _ _ hc => absurd hc List.not_mem_nil }
  rw [readStrictly_of_quiet hquiet] at h
  rw [← Except.ok.inj h]
  exact (hstart.finish file).classes hquiet

/-- A class with a member of each sort. -/
def oneOfEach : SourceFile where
  text := "<?php class A \x7b const K = 1; protected $p; final function f() \x7b\x7d \x7d"

/-- Its modifiers, for example. -/
theorem accepted_modifiers_oneOfEach :
    ∃ classes, oneOfEach.readStrictly = .ok classes ∧
      ∀ c ∈ classes, c.TidyModifiers (FileState.start oneOfEach.text).rest := by
  have hquiet : oneOfEach.read.2 = [] := by decide +kernel
  have haccepted := readStrictly_of_quiet hquiet
  exact ⟨_, haccepted, accepted_modifiers haccepted⟩

/-- A parameter with two visibilities. -/
def promotedTwice : SourceFile where
  text := "<?php class A \x7b function __construct(public private $x) \x7b\x7d \x7d"

/-- A final method of an interface. -/
def finalInInterface : SourceFile where
  text := "<?php interface I \x7b final function f(); \x7d"

/-- **Modifiers that exclude each other** are accepted in front of a parameter and in an
interface. -/
theorem conflicting_modifiers_accepted :
    (∃ classes, promotedTwice.readStrictly = .ok classes ∧
      ∃ c ∈ classes, ∃ p ∈ c.properties, p.modifiers.visibilities ≠ 1) ∧
    ∃ classes, finalInInterface.readStrictly = .ok classes ∧
      ∃ c ∈ classes, ∃ m ∈ c.methods,
        m.modifiers.hasAbstract = true ∧ m.modifiers.hasFinal = true :=
  ⟨⟨_, readStrictly_of_quiet (by decide +kernel), by decide +kernel⟩,
    ⟨_, readStrictly_of_quiet (by decide +kernel), by decide +kernel⟩⟩

end SourceFile

end Introspect
