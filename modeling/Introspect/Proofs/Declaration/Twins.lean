import Introspect.Proofs.Hierarchy.Unrooted
import Introspect.Proofs.Reading.Tandem

/-!
# Twins

Two descriptions of the same declarations are **twins** if they differ in the spelling of class
names only: the first one has every name as it is written, the second one has it resolved outside of
all namespaces and without imports. There, a name and what it is resolved to are equal up to leading
separators, unless the name begins with the word `namespace`.

* `Name.Twins`, with `Name.twins_resolve`: every name and what it is resolved to are twins;
* `TypeHint.Twins` and the twins of drafts carry this over to types, parameters, methods,
  properties, constants and classes;
* twins take a write or refuse it alike, and are twins behind it, with one lemma for each field or
  list of a class that is written behind its name;
* `ClassDraft.Twins.build`: twin drafts become classes that are equal without leading separators, if
  the types of the first one are plain.
-/

namespace Introspect

open Reading (Outcomes)

/-! ### Names -/

/-- **Plain names** do not begin with the word `namespace`. -/
def Name.Plain (n : String) : Prop := Name.afterNamespaceWord? n = none

instance (n : String) : Decidable (Name.Plain n) := inferInstanceAs (Decidable (_ = none))

/-- **Twin names.** They are equal up to leading separators, if the first one is plain. -/
def Name.Twins (n n' : String) : Prop := Name.Plain n → Name.relative n = Name.relative n'

theorem Name.Twins.of_relative_eq {n n' : String} (h : Name.relative n = Name.relative n') :
    Name.Twins n n' := fun _ => h

/-- In the global namespace and without imports, resolution does no more than to drop a leading
separator. -/
theorem Name.twins_resolve (n : String) :
    Name.Twins n (Resolver.namespaced.resolve .empty n) := by
  intro hplain
  unfold Name.Plain at hplain
  by_cases hempty : n = ""
  · rw [hempty]
    rfl
  by_cases hhead : n.toList.head? = some Name.separator
  · have hresolve : Resolver.namespaced.resolve .empty n = String.ofList (n.toList.drop 1) := by
      simp only [Resolver.resolve, hempty, hhead, if_true, if_false]
    -- the separator that is dropped is one of those in front
    obtain ⟨cs, hcs⟩ := List.head?_eq_some_iff.mp hhead
    rw [hresolve, hcs, List.drop_one, List.tail_cons]
    unfold Name.relative Text.dropLeading
    rw [hcs, String.toList_ofList, List.dropWhile_cons]
    simp
  · -- a name that is neither absolute nor imported continues the namespace, which has no name
    have hjoin : Name.join Scope.empty.ns n = n := if_pos rfl
    have hresolve : Resolver.namespaced.resolve .empty n = n := by
      simp only [Resolver.resolve, hempty, hhead, if_false, hplain, Scope.imported?, Scope.empty,
        List.lookup_nil]
      split
      · rfl
      · exact hjoin
    rw [hresolve]

/-! ### Types -/

namespace TypeHint

mutual
/-- The names of the classes in a type. -/
def classNames : TypeHint → List String
  | named name => [name]
  | nullable inner => inner.classNames
  | union members => classNamesAll members
  | intersection members => classNamesAll members
  | _ => []

/-- The names of the classes in some types. -/
def classNamesAll : List TypeHint → List String
  | [] => []
  | t :: ts => t.classNames ++ classNamesAll ts
end

/-- A type in which the names of all classes are plain. -/
def Plain (h : TypeHint) : Prop := ∀ n ∈ h.classNames, Name.Plain n

instance (h : TypeHint) : Decidable h.Plain := inferInstanceAs (Decidable (∀ n ∈ _, _))

/-- **Twin types.** They are equal up to leading separators, if the first one is plain. -/
def Twins (h h' : TypeHint) : Prop := h.Plain → h.unrooted = h'.unrooted

theorem twins_self (h : TypeHint) : Twins h h := fun _ => rfl

theorem twins_named {n n' : String} (h : Name.Twins n n') : Twins (named n) (named n') := by
  intro hplain
  rw [unrooted, unrooted, h (hplain n (by simp [classNames]))]

theorem Twins.nullable {h h' : TypeHint} (htwins : Twins h h') :
    Twins (nullable h) (nullable h') := by
  intro hplain
  rw [unrooted, unrooted, htwins (by simpa only [Plain, classNames] using hplain)]

theorem unrootedAll_eq_of_twins {hs hs' : List TypeHint} (htwins : List.Forall₂ Twins hs hs')
    (hplain : ∀ n ∈ classNamesAll hs, Name.Plain n) : unrootedAll hs = unrootedAll hs' := by
  induction htwins with
  | nil => rfl
  | cons hh _ ih =>
    rw [classNamesAll] at hplain
    rw [unrootedAll, unrootedAll, hh fun n hn => hplain n (List.mem_append_left _ hn),
      ih fun n hn => hplain n (List.mem_append_right _ hn)]

theorem twins_union {hs hs' : List TypeHint} (htwins : List.Forall₂ Twins hs hs') :
    Twins (union hs) (union hs') := by
  intro hplain
  rw [unrooted, unrooted, unrootedAll_eq_of_twins htwins
    (by simpa only [Plain, classNames] using hplain)]

theorem twins_intersection {hs hs' : List TypeHint} (htwins : List.Forall₂ Twins hs hs') :
    Twins (intersection hs) (intersection hs') := by
  intro hplain
  rw [unrooted, unrooted, unrootedAll_eq_of_twins htwins
    (by simpa only [Plain, classNames] using hplain)]

end TypeHint

/-! ### Drafts -/

/-- **Twin parameters.** They have twin types and all else in common. -/
inductive ParameterDraft.Twins : ParameterDraft → ParameterDraft → Prop
  | mk (base : ParameterDraft) {hint hint' : Option TypeHint}
      (hhint : Option.Rel TypeHint.Twins hint hint') :
      Twins { base with typeHint := hint } { base with typeHint := hint' }

/-- **Twin properties.** -/
inductive PropertyDraft.Twins : PropertyDraft → PropertyDraft → Prop
  | mk (base : PropertyDraft) {hint hint' : Option TypeHint}
      (hhint : Option.Rel TypeHint.Twins hint hint') :
      Twins { base with typeHint := hint } { base with typeHint := hint' }

/-- **Twin methods.** -/
inductive MethodDraft.Twins : MethodDraft → MethodDraft → Prop
  | mk (base : MethodDraft) {hint hint' : Option TypeHint}
      {parameters parameters' : Option (List ParameterDraft)}
      (hhint : Option.Rel TypeHint.Twins hint hint')
      (hparameters : Option.Rel (List.Forall₂ ParameterDraft.Twins) parameters parameters') :
      Twins { base with returnType := hint, parameters := parameters }
        { base with returnType := hint', parameters := parameters' }

/-- **Twin constants.** -/
inductive Constant.Twins : Constant → Constant → Prop
  | mk (base : Constant) {hint hint' : Option TypeHint}
      (hhint : Option.Rel TypeHint.Twins hint hint') :
      Twins { base with typeHint := hint } { base with typeHint := hint' }

/-- **Twin classes.** They have twin members, and parents and interfaces that are equal up to
leading separators. -/
inductive ClassDraft.Twins : ClassDraft → ClassDraft → Prop
  | mk (base : ClassDraft) {parent parent' : Option String} {interfaces interfaces' : List String}
      {constants constants' : List Constant} {methods methods' : List MethodDraft}
      {properties properties' : List PropertyDraft}
      (hparent : parent.map Name.relative = parent'.map Name.relative)
      (hinterfaces : interfaces.map Name.relative = interfaces'.map Name.relative)
      (hconstants : List.Forall₂ Constant.Twins constants constants')
      (hmethods : List.Forall₂ MethodDraft.Twins methods methods')
      (hproperties : List.Forall₂ PropertyDraft.Twins properties properties') :
      Twins
        { base with parentName := parent, interfaceNames := interfaces, constants := constants,
                    methods := methods, properties := properties }
        { base with parentName := parent', interfaceNames := interfaces', constants := constants',
                    methods := methods', properties := properties' }

theorem rel_self {α : Type} {R : α → α → Prop} (hR : ∀ a, R a a) (o : Option α) :
    Option.Rel R o o := by
  cases o with
  | none => exact .none
  | some a => exact .some (hR a)

theorem rel_or {α : Type} {R : α → α → Prop} {o o' q q' : Option α} (ho : Option.Rel R o o')
    (hq : Option.Rel R q q') : Option.Rel R (o.or q) (o'.or q') := by
  cases ho with
  | none => exact hq
  | some h => exact .some h

theorem ParameterDraft.twins_self (p : ParameterDraft) : Twins p p :=
  ⟨p, rel_self TypeHint.twins_self p.typeHint⟩

theorem PropertyDraft.twins_self (p : PropertyDraft) : Twins p p :=
  ⟨p, rel_self TypeHint.twins_self p.typeHint⟩

theorem Constant.twins_self (c : Constant) : Twins c c :=
  ⟨c, rel_self TypeHint.twins_self c.typeHint⟩

theorem MethodDraft.twins_self (m : MethodDraft) : Twins m m :=
  ⟨m, rel_self TypeHint.twins_self m.returnType,
    rel_self (fun _ => List.forall₂_same.mpr fun p _ => p.twins_self) m.parameters⟩

theorem ClassDraft.twins_self (d : ClassDraft) : Twins d d :=
  ⟨d, rfl, rfl, List.forall₂_same.mpr fun c _ => c.twins_self,
    List.forall₂_same.mpr fun m _ => m.twins_self, List.forall₂_same.mpr fun p _ => p.twins_self⟩

/-! ### Writes -/

/-- Fields of twins are written alike: both are empty, or both refuse. -/
theorem outcomes_writeOnce {α α' δ δ' : Type} {rel : δ → δ' → Prop} {slot : Option α}
    {slot' : Option α'} {field : DraftField} {element : String} {value : α} {value' : α'}
    {fill : Option α → δ} {fill' : Option α' → δ'} (hslot : slot.isSome = slot'.isSome)
    (hfill : rel (fill (some value)) (fill' (some value'))) :
    Outcomes rel (do let s ← writeOnce slot field element value; pure (fill s))
      (do let s ← writeOnce slot' field element value'; pure (fill' s)) := by
  cases slot with
  | none =>
    cases slot' with
    | none => exact hfill
    | some old' => cases hslot
  | some old =>
    cases slot' with
    | none => cases hslot
    | some old' => exact (rfl : DraftError.alreadyWritten field element = _)

theorem PropertyDraft.Twins.writeClass {p p' : PropertyDraft} (h : PropertyDraft.Twins p p')
    (owner : String) : Outcomes PropertyDraft.Twins (p.writeClass owner) (p'.writeClass owner) := by
  obtain ⟨base, hhint⟩ := h
  exact outcomes_writeOnce rfl ⟨{ base with className := some owner }, hhint⟩

theorem MethodDraft.Twins.writeClass {m m' : MethodDraft} (h : MethodDraft.Twins m m')
    (owner : String) : Outcomes MethodDraft.Twins (m.writeClass owner) (m'.writeClass owner) := by
  obtain ⟨base, hhint, hparameters⟩ := h
  exact outcomes_writeOnce rfl ⟨{ base with className := some owner }, hhint, hparameters⟩

theorem MethodDraft.Twins.name_eq {m m' : MethodDraft} (h : MethodDraft.Twins m m') :
    m.name = m'.name := by
  cases h
  rfl

theorem PropertyDraft.Twins.name_eq {p p' : PropertyDraft} (h : PropertyDraft.Twins p p') :
    p.name = p'.name := by
  cases h
  rfl

theorem Constant.Twins.name_eq {c c' : Constant} (h : Constant.Twins c c') : c.name = c'.name := by
  cases h
  rfl

theorem any_eq_of_forall₂ {α β : Type} {R : α → β → Prop} {l : List α} {l' : List β}
    {p : α → Bool} {q : β → Bool} (h : List.Forall₂ R l l') (hp : ∀ a b, R a b → p a = q b) :
    l.any p = l'.any q := by
  induction h with
  | nil => rfl
  | cons hab _ ih => rw [List.any_cons, List.any_cons, hp _ _ hab, ih]

/-- What two attempts have in common is carried on. -/
theorem outcomes_map {ε α α' β β' : Type} {rel : α → α' → Prop} {rel' : β → β' → Prop}
    {o : Except ε α} {o' : Except ε α'} {g : α → β} {g' : α' → β'} (h : Outcomes rel o o')
    (hg : ∀ a a', rel a a' → rel' (g a) (g' a')) :
    Outcomes rel' (do let a ← o; pure (g a)) (do let a ← o'; pure (g' a)) := by
  cases o with
  | ok a =>
    cases o' with
    | ok a' => exact hg a a' h
    | error e' => exact h.elim
  | error e =>
    cases o' with
    | ok a' => exact h.elim
    | error e' => exact h

namespace ClassDraft.Twins

variable {d d' : ClassDraft}

theorem writeEndLine (h : ClassDraft.Twins d d') (line : Nat) :
    Outcomes ClassDraft.Twins (d.writeEndLine line) (d'.writeEndLine line) := by
  obtain ⟨base, hparent, hinterfaces, hconstants, hmethods, hproperties⟩ := h
  exact outcomes_writeOnce rfl
    ⟨{ base with endLine := some line }, hparent, hinterfaces, hconstants, hmethods, hproperties⟩

theorem writeParent (h : ClassDraft.Twins d d') {name name' : String}
    (hname : Name.relative name = Name.relative name') :
    Outcomes ClassDraft.Twins (d.writeParent name) (d'.writeParent name') := by
  obtain ⟨base, hparent, hinterfaces, hconstants, hmethods, hproperties⟩ := h
  refine outcomes_writeOnce ?_
    ⟨base, congrArg some hname, hinterfaces, hconstants, hmethods, hproperties⟩
  rw [← Option.isSome_map, hparent, Option.isSome_map]

/-- Interfaces are compared by key, and keys know nothing of leading separators. -/
theorem addInterface (h : ClassDraft.Twins d d') {name name' : String}
    (hname : Name.relative name = Name.relative name') :
    ClassDraft.Twins (d.addInterface name) (d'.addInterface name') := by
  obtain ⟨base, hparent, hinterfaces, hconstants, hmethods, hproperties⟩ := h
  rename_i interfaces interfaces' _ _ _ _ _ _
  have hkey : Name.lookupKey name = Name.lookupKey name' := congrArg Text.foldCase hname
  have hany : interfaces.any (Name.lookupKey · == Name.lookupKey name) =
      interfaces'.any (Name.lookupKey · == Name.lookupKey name') := by
    rw [hkey, ← any_lookupKey_relative, hinterfaces, any_lookupKey_relative]
  unfold ClassDraft.addInterface
  dsimp only
  rw [hany]
  split
  · exact ⟨base, hparent, hinterfaces, hconstants, hmethods, hproperties⟩
  · refine ⟨base, hparent, ?_, hconstants, hmethods, hproperties⟩
    rw [List.map_append, List.map_append, hinterfaces, List.map_singleton, List.map_singleton,
      hname]

theorem addConstant (h : ClassDraft.Twins d d') {c c' : Constant} (hc : Constant.Twins c c') :
    Outcomes ClassDraft.Twins (d.addConstant c) (d'.addConstant c') := by
  obtain ⟨base, hparent, hinterfaces, hconstants, hmethods, hproperties⟩ := h
  -- twins have the same names, so a name is taken in both classes or in neither
  have hany := any_eq_of_forall₂ (p := (·.name == c.name)) (q := (·.name == c'.name)) hconstants
    fun a a' ha => by rw [ha.name_eq, hc.name_eq]
  unfold ClassDraft.addConstant
  dsimp only
  rw [hany, hc.name_eq]
  split
  · exact (rfl : DraftError.duplicateMember .constant c'.name base.name = _)
  · exact ⟨base, hparent, hinterfaces, List.rel_append hconstants (.cons hc .nil), hmethods,
      hproperties⟩

theorem addMethod (h : ClassDraft.Twins d d') {m m' : MethodDraft} (hm : MethodDraft.Twins m m') :
    Outcomes ClassDraft.Twins (d.addMethod m) (d'.addMethod m') := by
  obtain ⟨base, hparent, hinterfaces, hconstants, hmethods, hproperties⟩ := h
  have hany := any_eq_of_forall₂ (p := (Text.eqIgnoringCase ·.name m.name))
    (q := (Text.eqIgnoringCase ·.name m'.name)) hmethods fun a a' ha => by
      rw [ha.name_eq, hm.name_eq]
  unfold ClassDraft.addMethod ClassDraft.hasMethod
  dsimp only
  rw [hany, hm.name_eq]
  split
  · exact (rfl : DraftError.duplicateMember .method m'.name base.name = _)
  · -- the method is added once the name of the class is noted in it, which may be refused
    refine outcomes_map (hm.writeClass base.name) fun a a' ha => ?_
    exact ⟨base, hparent, hinterfaces, hconstants, List.rel_append hmethods (.cons ha .nil),
      hproperties⟩

theorem addProperty (h : ClassDraft.Twins d d') {p p' : PropertyDraft}
    (hp : PropertyDraft.Twins p p') :
    Outcomes ClassDraft.Twins (d.addProperty p) (d'.addProperty p') := by
  obtain ⟨base, hparent, hinterfaces, hconstants, hmethods, hproperties⟩ := h
  have hany := any_eq_of_forall₂ (p := (·.name == p.name)) (q := (·.name == p'.name)) hproperties
    fun a a' ha => by rw [ha.name_eq, hp.name_eq]
  unfold ClassDraft.addProperty ClassDraft.hasProperty
  dsimp only
  rw [hany, hp.name_eq]
  split
  · exact (rfl : DraftError.duplicateMember .property p'.name base.name = _)
  · refine outcomes_map (hp.writeClass base.name) fun a a' ha => ?_
    exact ⟨base, hparent, hinterfaces, hconstants, hmethods,
      List.rel_append hproperties (.cons ha .nil)⟩

end ClassDraft.Twins

/-! ### Classes without leading separators -/

/-- The types in the signature of a method. -/
def Method.types (m : Method) : List TypeHint :=
  m.returnType.toList ++ m.parameters.filterMap (·.typeHint)

/-- The types of the members of a class. -/
def Class.types (c : Class) : List TypeHint :=
  c.constants.filterMap (·.typeHint) ++ c.methods.flatMap Method.types ++
    c.properties.filterMap (·.typeHint)

theorem map_eq_of_forall₂ {α β γ : Type} {R : α → β → Prop} {l : List α} {l' : List β} {f : α → γ}
    {g : β → γ} (h : List.Forall₂ R l l') (hfg : ∀ a ∈ l, ∀ b, R a b → f a = g b) :
    l.map f = l'.map g := by
  induction h with
  | nil => rfl
  | cons hab _ ih =>
    rw [List.map_cons, List.map_cons, hfg _ List.mem_cons_self _ hab,
      ih fun a ha => hfg a (List.mem_cons_of_mem _ ha)]

theorem map_unrooted_eq_of_rel {hint hint' : Option TypeHint}
    (h : Option.Rel TypeHint.Twins hint hint') (hplain : ∀ t ∈ hint, t.Plain) :
    hint.map TypeHint.unrooted = hint'.map TypeHint.unrooted := by
  cases h with
  | none => rfl
  | some ht => exact congrArg some (ht (hplain _ rfl))

theorem Constant.Twins.unrooted_eq {c c' : Constant} (h : Constant.Twins c c')
    (hplain : ∀ t ∈ c.typeHint, t.Plain) : c.unrooted = c'.unrooted := by
  obtain ⟨base, hhint⟩ := h
  unfold Constant.unrooted
  rw [map_unrooted_eq_of_rel hhint hplain]

theorem PropertyDraft.Twins.unrooted_eq {p p' : PropertyDraft} (h : PropertyDraft.Twins p p')
    (hplain : ∀ t ∈ p.typeHint, t.Plain) : p.build.unrooted = p'.build.unrooted := by
  obtain ⟨base, hhint⟩ := h
  unfold Property.unrooted PropertyDraft.build
  rw [map_unrooted_eq_of_rel hhint hplain]

/-- The draft without separators in front of the classes in its type. -/
def ParameterDraft.unrooted (d : ParameterDraft) : ParameterDraft :=
  { d with typeHint := d.typeHint.map TypeHint.unrooted }

/-- Neither the place of a parameter nor whether it is required depends on its type. -/
theorem ParameterDraft.buildAll_unrooted (ds : List ParameterDraft) :
    buildAll (ds.map unrooted) = (buildAll ds).map Parameter.unrooted := by
  have hrequired : requiredCount (ds.map unrooted) = requiredCount ds := by
    unfold requiredCount
    rw [← List.map_reverse, List.dropWhile_map, List.length_map]
    rfl
  unfold buildAll
  rw [hrequired, List.zipIdx_map, List.map_map, List.map_map]
  rfl

theorem ParameterDraft.typeHints_buildAll (ds : List ParameterDraft) :
    (buildAll ds).filterMap (·.typeHint) = ds.filterMap (·.typeHint) := by
  calc (buildAll ds).filterMap (·.typeHint)
      = (ds.zipIdx.map Prod.fst).filterMap (·.typeHint) := by
        rw [buildAll, List.filterMap_map, List.filterMap_map]
        rfl
    _ = ds.filterMap (·.typeHint) := by rw [List.zipIdx_map_fst]

theorem ParameterDraft.Twins.unrooted_eq {p p' : ParameterDraft} (h : ParameterDraft.Twins p p')
    (hplain : ∀ t ∈ p.typeHint, t.Plain) : p.unrooted = p'.unrooted := by
  obtain ⟨base, hhint⟩ := h
  unfold ParameterDraft.unrooted
  rw [map_unrooted_eq_of_rel hhint hplain]

theorem MethodDraft.Twins.unrooted_eq {m m' : MethodDraft} (h : MethodDraft.Twins m m')
    (hplain : ∀ t ∈ m.build.types, t.Plain) : m.build.unrooted = m'.build.unrooted := by
  obtain ⟨base, hhint, hparameters⟩ := h
  rename_i hint hint' parameters parameters'
  -- parameters that were not written are none
  have hlists : List.Forall₂ ParameterDraft.Twins (parameters.getD []) (parameters'.getD []) := by
    cases hparameters with
    | none => exact .nil
    | some hps => exact hps
  -- the types of the method are those of the draft
  have htypes : ∀ t, t ∈ hint ∨ t ∈ (parameters.getD []).filterMap (·.typeHint) → t.Plain := by
    intro t ht
    refine hplain t (List.mem_append.mpr (ht.imp Option.mem_toList.mpr fun hmem => ?_))
    show t ∈ (ParameterDraft.buildAll (parameters.getD [])).filterMap (·.typeHint)
    rwa [ParameterDraft.typeHints_buildAll]
  have hbuilt : (ParameterDraft.buildAll (parameters.getD [])).map Parameter.unrooted =
      (ParameterDraft.buildAll (parameters'.getD [])).map Parameter.unrooted := by
    rw [← ParameterDraft.buildAll_unrooted, ← ParameterDraft.buildAll_unrooted]
    congr 1
    refine map_eq_of_forall₂ hlists fun p hp p' htwins => htwins.unrooted_eq fun t ht => ?_
    exact htypes t (.inr (List.mem_filterMap.mpr ⟨p, hp, ht⟩))
  unfold Method.unrooted MethodDraft.build
  dsimp only
  rw [map_unrooted_eq_of_rel hhint fun t ht => htypes t (.inl ht), hbuilt]

/-- **Twin drafts become classes that are equal without leading separators,** if the types of the
first one are plain. -/
theorem ClassDraft.Twins.build {d d' : ClassDraft} (h : ClassDraft.Twins d d') (linked : Bool)
    (hplain : ∀ t ∈ (d.build linked).types, t.Plain) :
    (d.build linked).unrooted = (d'.build linked).unrooted := by
  obtain ⟨base, hparent, hinterfaces, hconstants, hmethods, hproperties⟩ := h
  rename_i constants constants' methods methods' properties properties'
  -- the types of the class are those of its members, each of which has twins of its own
  have htypes : ∀ t, (t ∈ constants.filterMap (·.typeHint) ∨
      t ∈ (methods.map MethodDraft.build).flatMap Method.types) ∨
      t ∈ (properties.map PropertyDraft.build).filterMap (·.typeHint) → t.Plain := by
    intro t ht
    refine hplain t ?_
    unfold Class.types ClassDraft.build
    rwa [List.mem_append, List.mem_append]
  have hconstants' : constants.map Constant.unrooted = constants'.map Constant.unrooted := by
    refine map_eq_of_forall₂ hconstants fun c hc c' htwins => htwins.unrooted_eq fun t ht => ?_
    exact htypes t (.inl (.inl (List.mem_filterMap.mpr ⟨c, hc, ht⟩)))
  have hmethods' : (methods.map MethodDraft.build).map Method.unrooted =
      (methods'.map MethodDraft.build).map Method.unrooted := by
    rw [List.map_map, List.map_map]
    refine map_eq_of_forall₂ hmethods fun m hm m' htwins => htwins.unrooted_eq fun t ht => ?_
    exact htypes t (.inl (.inr (List.mem_flatMap.mpr ⟨_, List.mem_map_of_mem hm, ht⟩)))
  have hproperties' : (properties.map PropertyDraft.build).map Property.unrooted =
      (properties'.map PropertyDraft.build).map Property.unrooted := by
    rw [List.map_map, List.map_map]
    refine map_eq_of_forall₂ hproperties fun p hp p' htwins => htwins.unrooted_eq fun t ht => ?_
    exact htypes t (.inr (List.mem_filterMap.mpr ⟨_, List.mem_map_of_mem hp, ht⟩))
  unfold Class.unrooted ClassDraft.build
  dsimp only
  rw [hparent, hinterfaces, hconstants', hmethods', hproperties']

end Introspect
