import Introspect.Proofs.Distinct
import Introspect.Proofs.Hierarchy.Descent

/-!
# Members by name and by list

A member of a class can be asked for by name, and all members can be listed. The search by name
stops at the first class that has the member; the list walks through all classes and passes over
the names that have come up before. This module shows that both follow one rule, whatever is hidden,
private, spelled in another letter case, or reached twice because an interface is an ancestor as
well or the hierarchy runs in a circle.

* `Class.method?_eq_find?`, `Class.constant?_eq_find?`, `Class.property?_eq_find?`: a search by name
  is a search through the whole list from which the listing keeps the first occurrences;
* `Class.method?_eq_some_iff`: it finds the method of the first class that declares it;
* `Class.MembersAgree` says what lookup and listing have to do with each other, and
  `Class.membersAgree_of_isBuilt` that they do.

Two properties of one class never have the same name if the class is built from a draft. Only
because of that it does not matter that the search looks at the name first and at the visibility
then, while the list drops private properties first.
-/

namespace Introspect

/-! ### Built classes -/

/-- **Built classes.** The class is what the edits of a new draft come to. -/
def Class.IsBuilt (c : Class) : Prop :=
  ∃ name flags es linked, c = ClassDraft.built (.ofName name flags) es linked

namespace Registry

/-- All classes of the registry are built from drafts. -/
def AllBuilt (r : Registry) : Prop := ∀ c ∈ r.classes, c.IsBuilt

theorem AllBuilt.register {r : Registry} {c : Class} (hr : r.AllBuilt) (hc : c.IsBuilt) :
    (r.register c).AllBuilt := by
  intro d hd
  unfold Registry.register at hd
  split at hd
  · exact hr d hd
  · rcases List.mem_append.mp hd with hd | hd
    · exact hr d hd
    · rw [List.mem_singleton.mp hd]
      exact hc

theorem allBuilt_registerAll {cs : List Class} (hcs : ∀ c ∈ cs, c.IsBuilt) :
    (empty.registerAll cs).AllBuilt := by
  -- along the registrations, from any registry that has only built classes
  suffices hfrom : ∀ r : Registry, r.AllBuilt → (r.registerAll cs).AllBuilt from
    hfrom empty fun c hc => absurd hc List.not_mem_nil
  induction cs with
  | nil => exact fun r hr => hr
  | cons c cs ih =>
    intro r hr
    exact ih (fun d hd => hcs d (List.mem_cons_of_mem c hd)) (r.register c)
      (hr.register (hcs c List.mem_cons_self))

end Registry

namespace Class

variable {r : Registry} {c d : Class} {name : String}

theorem IsBuilt.className_eq (h : c.IsBuilt) {m : Method} (hm : m ∈ c.methods) :
    m.className = c.name := by
  obtain ⟨name, flags, es, linked, rfl⟩ := h
  have hcollects := ClassDraft.collects_ofName name flags es linked
  rw [hcollects.method_className m hm, hcollects.name_eq]

theorem IsBuilt.properties_distinct (h : c.IsBuilt) :
    c.properties.Pairwise fun p p' => p.name ≠ p'.name := by
  obtain ⟨name, flags, es, linked, rfl⟩ := h
  exact List.pairwise_map.mpr (ClassDraft.properties_distinct_after rfl es)

/-- Members are inherited from registered classes. -/
theorem holds_of_mem_sources (h : d ∈ c.sources r) : r.Holds d := by
  rcases List.mem_append.mp h with h | h
  · exact holds_of_mem_ancestors h
  · obtain ⟨name, -, hname⟩ := List.mem_filterMap.mp h
    exact Registry.holds_of_findClass (get?_of_resolve? hname)

theorem isBuilt_of_mem (hr : r.AllBuilt) (hc : c.IsBuilt) (h : d ∈ c :: c.sources r) :
    d.IsBuilt := by
  rcases List.mem_cons.mp h with rfl | h
  · exact hc
  · exact hr d (holds_of_mem_sources h).mem

/-! ### Methods -/

/-- A search that notes the class in which it succeeds ends in the first class where it can. -/
theorem findSome?_noting_eq_some_iff {α : Type} {f : Class → Option α} {ds : List Class}
    {e : Class × α} :
    (ds.findSome? fun d => (f d).map fun a => (d, a)) = some e ↔
      ds.find? (fun d => (f d).isSome) = some e.1 ∧ f e.1 = some e.2 := by
  induction ds with
  | nil => simp
  | cons d ds ih =>
    rw [List.findSome?_cons]
    cases hd : f d with
    | none =>
      -- the class has nothing, so both searches pass it
      rw [List.find?_cons_of_neg (by simp [hd])]
      exact ih
    | some a =>
      rw [List.find?_cons_of_pos (by simp [hd]), Option.some_inj]
      show some (d, a) = some e ↔ _
      rw [Option.some_inj]
      constructor
      · rintro rfl
        exact ⟨rfl, hd⟩
      · rintro ⟨rfl, he⟩
        exact Prod.ext rfl (Option.some.inj (hd.symm.trans he))

theorem method?_eq_findSome? (c : Class) (r : Registry) (name : String) :
    c.method? r name
      = (c :: c.sources r).findSome? fun d => (d.ownMethod? name).map fun m => (d, m) := by
  rw [method?, List.findSome?_cons]
  cases c.ownMethod? name with
  | some m => rfl
  | none => rfl

/-- **Methods by name.** A method is found in the first class that declares it. -/
theorem method?_eq_some_iff {e : Class × Method} :
    c.method? r name = some e ↔
      (c :: c.sources r).find? (·.declaresMethod name) = some e.1 ∧
        e.1.ownMethod? name = some e.2 := by
  rw [method?_eq_findSome?]
  exact findSome?_noting_eq_some_iff

/-- The search by name runs through the list of which the listing keeps the first occurrences. -/
theorem method?_eq_find? (c : Class) (r : Registry) (name : String) :
    c.method? r name
      = ((c :: c.sources r).flatMap ownedMethods).find? (·.2.key == Text.foldCase name) := by
  rw [method?_eq_findSome?, List.find?_flatMap]
  congr 1
  funext d
  rw [ownedMethods, List.find?_map]
  rfl

/-- **Methods by name and by list.** -/
theorem method?_eq_some_iff_mem {e : Class × Method} :
    c.method? r name = some e ↔
      e ∈ c.allMethods r ∧ Text.eqIgnoringCase e.2.name name = true := by
  rw [method?_eq_find?, Text.eqIgnoringCase_iff]
  exact find?_eq_some_iff_mem_distinctBy fun e : Class × Method => e.2.key

/-! ### Constants -/

theorem constant?_eq_find? (c : Class) (r : Registry) (name : String) :
    c.constant? r name
      = ((c :: c.sources r).flatMap (·.constants)).find? (·.name == name) := by
  rw [List.find?_flatMap]
  show _ = (c :: c.sources r).findSome? (·.ownConstant? name)
  rw [constant?, List.findSome?_cons]
  cases c.ownConstant? name with
  | some k => rfl
  | none => rfl

/-- **Constants by name and by list.** -/
theorem constant?_eq_some_iff_mem {k : Constant} :
    c.constant? r name = some k ↔ k ∈ c.allConstants r ∧ k.name = name := by
  rw [constant?_eq_find?]
  exact find?_eq_some_iff_mem_distinctBy Constant.name

/-! ### Properties -/

/-- The properties of the class, each with the class. -/
def ownedProperties (c : Class) : List (Class × Property) :=
  c.properties.map fun p => (c, p)

/-- The properties that the ancestors leave to the class, nearest ancestor first. -/
def heritage (c : Class) (r : Registry) : List (Class × Property) :=
  (c.ancestors r).flatMap fun d => (d.properties.filter (! ·.isPrivate)).map fun p => (d, p)

theorem allProperties_eq (c : Class) (r : Registry) :
    c.allProperties r
      = distinctBy (fun e : Class × Property => e.2.name) (c.ownedProperties ++ c.heritage r) := rfl

/-- **Private properties.** Where names are different it does not matter whether one looks at the
name first or at the visibility. -/
theorem heritable?_eq (h : d.properties.Pairwise fun p p' => p.name ≠ p'.name) (name : String) :
    d.heritable? name
      = (d.properties.filter (! ·.isPrivate)).find? (·.name == Text.dropLeading '$' name) := by
  apply Option.ext
  intro p
  -- both find the elements that have the name and are visible
  rw [heritable?, Option.filter_eq_some_iff, ownProperty?, find?_eq_some_iff_mem h,
    find?_eq_some_iff_mem (h.filter _), List.mem_filter]
  tauto

theorem property?_eq_find? (hr : r.AllBuilt) (c : Class) (name : String) :
    c.property? r name
      = (c.ownedProperties ++ c.heritage r).find? (·.2.name == Text.dropLeading '$' name) := by
  have hown : c.ownedProperties.find? (·.2.name == Text.dropLeading '$' name)
      = (c.ownProperty? name).map fun p => (c, p) := by
    rw [ownedProperties, List.find?_map]
    rfl
  have hheritage : (c.heritage r).find? (·.2.name == Text.dropLeading '$' name)
      = (c.ancestors r).findSome? fun d => (d.heritable? name).map fun p => (d, p) := by
    rw [heritage, List.find?_flatMap, ← List.head?_filterMap, ← List.head?_filterMap]
    congr 1
    -- an ancestor leaves one property of the name, however it is looked for
    apply List.filterMap_congr
    intro d hd
    have hdistinct := (hr d (holds_of_mem_ancestors hd).mem).properties_distinct
    rw [heritable?_eq hdistinct, List.find?_map]
    rfl
  rw [List.find?_append, hown, hheritage]
  unfold property?
  cases c.ownProperty? name with
  | some p => rfl
  | none => rfl

/-- **Properties by name and by list.** -/
theorem property?_eq_some_iff_mem (hr : r.AllBuilt) {e : Class × Property} :
    c.property? r name = some e ↔
      e ∈ c.allProperties r ∧ e.2.name = Text.dropLeading '$' name := by
  rw [property?_eq_find? hr]
  exact find?_eq_some_iff_mem_distinctBy fun e : Class × Property => e.2.name

/-! ### Agreement -/

/-- **Lookup and listing agree.** What a class answers when it is asked for a member by name, and
what it lists. -/
structure MembersAgree (c : Class) (r : Registry) : Prop where
  /-- No name is listed twice, in whatever letter case. -/
  methods_distinct : (c.allMethods r).Pairwise fun e e' =>
    ¬ Text.eqIgnoringCase e.2.name e'.2.name = true
  /-- The method of a name is the listed one. -/
  method?_iff : ∀ name e, c.method? r name = some e ↔
    e ∈ c.allMethods r ∧ Text.eqIgnoringCase e.2.name name = true
  /-- Every declared name is listed, with the method of the first class that declares it. -/
  methods_first : ∀ d ∈ c :: c.sources r, ∀ m ∈ d.methods, ∃ e ∈ c.allMethods r,
    Text.eqIgnoringCase e.2.name m.name = true ∧
      (c :: c.sources r).find? (·.declaresMethod m.name) = some e.1 ∧
      e.2 ∈ e.1.methods ∧ e.2.className = e.1.name
  /-- The constant of a name is the listed one. -/
  constant?_iff : ∀ name k, c.constant? r name = some k ↔ k ∈ c.allConstants r ∧ k.name = name
  /-- The property of a name is the listed one. Dollar signs in front of the name do not count. -/
  property?_iff : ∀ name e, c.property? r name = some e ↔
    e ∈ c.allProperties r ∧ e.2.name = Text.dropLeading '$' name
  /-- The properties of the class come first. Behind them there are, in their order, those that the
  ancestors leave to it: of each name the nearest one, unless the class has the name itself. -/
  properties_split : ∃ inherited, c.allProperties r = c.ownedProperties ++ inherited ∧
    inherited.Sublist (c.heritage r) ∧
    ∀ e, e ∈ inherited ↔
      (c.heritage r).find? (·.2.name == e.2.name) = some e ∧
        ∀ p ∈ c.properties, e.2.name ≠ p.name
  /-- No name is listed twice. -/
  properties_distinct : (c.allProperties r).Pairwise fun e e' => e.2.name ≠ e'.2.name

theorem methods_first (hr : r.AllBuilt) (hc : c.IsBuilt) (hd : d ∈ c :: c.sources r) {m : Method}
    (hm : m ∈ d.methods) :
    ∃ e ∈ c.allMethods r, Text.eqIgnoringCase e.2.name m.name = true ∧
      (c :: c.sources r).find? (·.declaresMethod m.name) = some e.1 ∧
      e.2 ∈ e.1.methods ∧ e.2.className = e.1.name := by
  have hdeclares : d.declaresMethod m.name = true := by
    rw [declaresMethod, ownMethod?, List.find?_isSome]
    exact ⟨m, hm, beq_self_eq_true _⟩
  -- some class declares the name, so that there is a first one
  have hsome : ((c :: c.sources r).find? (·.declaresMethod m.name)).isSome = true :=
    List.find?_isSome.mpr ⟨d, hd, hdeclares⟩
  obtain ⟨first, hfirst⟩ := Option.isSome_iff_exists.mp hsome
  obtain ⟨own, hown⟩ := Option.isSome_iff_exists.mp
    (List.find?_some (p := fun d : Class => d.declaresMethod m.name) hfirst)
  have hmem : own ∈ first.methods := List.mem_of_find?_eq_some hown
  obtain ⟨hlisted, hname⟩ := method?_eq_some_iff_mem.mp
    (method?_eq_some_iff (e := (first, own)).mpr ⟨hfirst, hown⟩)
  have hbuilt := isBuilt_of_mem hr hc (List.mem_of_find?_eq_some hfirst)
  exact ⟨(first, own), hlisted, hname, hfirst, hmem, hbuilt.className_eq hmem⟩

theorem properties_split (hc : c.IsBuilt) (r : Registry) :
    ∃ inherited, c.allProperties r = c.ownedProperties ++ inherited ∧
      inherited.Sublist (c.heritage r) ∧
      ∀ e, e ∈ inherited ↔
        (c.heritage r).find? (·.2.name == e.2.name) = some e ∧
          ∀ p ∈ c.properties, e.2.name ≠ p.name := by
  have hown : c.ownedProperties.Pairwise fun e e' => e.2.name ≠ e'.2.name :=
    List.pairwise_map.mpr hc.properties_distinct
  rw [allProperties_eq, distinctBy_append, distinctBy_of_pairwise hown]
  refine ⟨_, rfl, List.filter_sublist.trans (distinctBy_sublist _ _), fun e => ?_⟩
  rw [List.mem_filter, mem_distinctBy_iff, decide_eq_true_eq]
  -- the names of the class are those of its properties, whether or not they carry the class
  refine and_congr_right fun _ => ⟨fun h p hp => ?_, fun h e' he' => ?_⟩
  · exact h (c, p) (List.mem_map_of_mem hp)
  · obtain ⟨p, hp, rfl⟩ := List.mem_map.mp he'
    exact h p hp

/-- **Members by name and by list agree,** in every registry of built classes, whatever circles its
hierarchies have, for every built class, registered or not. -/
theorem membersAgree_of_isBuilt (hr : r.AllBuilt) (hc : c.IsBuilt) : c.MembersAgree r where
  methods_distinct := by
    -- names are compared by their keys, which ignore letter case
    refine (pairwise_distinctBy _ _).imp fun hne => ?_
    rw [Text.eqIgnoringCase_iff]
    exact hne
  method?_iff := fun _ _ => method?_eq_some_iff_mem
  methods_first := fun _ hd _ hm => methods_first hr hc hd hm
  constant?_iff := fun _ _ => constant?_eq_some_iff_mem
  property?_iff := fun _ _ => property?_eq_some_iff_mem hr
  properties_split := properties_split hc r
  properties_distinct := pairwise_distinctBy _ _

end Class

/-! ### A circle with hidden members -/

/-- `Left` extends `Right` and implements `Common`. -/
def rivalLeft : Class :=
  ClassDraft.built (.ofName "Left" {})
    [.parent "Right", .interface "Common", .method (.ofName "run" {} false),
      .property (.ofName "$x" { hasPrivate := true })] true

/-- `Right` extends `Left`, and has what `Left` has in another spelling. -/
def rivalRight : Class :=
  ClassDraft.built (.ofName "Right" {})
    [.parent "LEFT", .method (.ofName "RUN" {} false), .method (.ofName "stop" {} false),
      .property (.ofName "x" {}), .property (.ofName "y" { hasPrivate := true })] true

/-- The interface `Common` extends itself. -/
def rivalCommon : Class :=
  ClassDraft.built (.ofName "Common" { hasInterface := true })
    [.interface "\\Common", .method (.ofName "Stop" {} false),
      .constant { name := "LIMIT", value := "1", line := 1 }] true

/-- Two classes that extend each other. -/
def rivals : Registry := Registry.empty.registerAll [rivalLeft, rivalRight, rivalCommon]

/-- In the circle of the two classes, for example. -/
theorem membersAgree_rivals :
    rivals.AllBuilt ∧ rivalLeft.IsBuilt ∧ rivalLeft.MembersAgree rivals := by
  have hall : rivals.AllBuilt := by
    apply Registry.allBuilt_registerAll
    intro c hc
    simp only [List.mem_cons, List.not_mem_nil, or_false] at hc
    rcases hc with rfl | rfl | rfl <;> exact ⟨_, _, _, _, rfl⟩
  have hleft : rivalLeft.IsBuilt := ⟨_, _, _, _, rfl⟩
  exact ⟨hall, hleft, Class.membersAgree_of_isBuilt hall hleft⟩

end Introspect
