import Introspect.Proofs.Hierarchy.Members
import Mathlib.Logic.Relation

/-!
# Origins of methods

A class says of each of its methods whether it introduces the method, overrides one or inherits it.
It finds this out by comparing names: that of the class in which the method was found with its own,
and then by asking its **parent** for a method of the same name. The parent has a hierarchy of its
own, with other ancestors and other interfaces. This module says what the answers mean in terms of
the hierarchy of the class.

* `Class.ancestors_of_parent?`: outside of circles the ancestors are the parent and the ancestors of
  the parent;
* `Class.methodOrigin?_of_declares` and `Class.methodOrigin?_of_not_declares` give the answer for
  what the class declares itself and for what it does not;
* `Class.OriginsFaithful` says what the answers have to mean, and
  `Class.originsFaithful_of_acyclic` that they mean it.

On a circle the parent may lead back to the class, which then overrides what only the class itself
declares. This is why circles are excluded. The names that are compared are those which the drafts
wrote into the methods, so the classes have to be built from drafts.
-/

namespace Introspect

/-! ### Hierarchies without circles -/

/-- **References.** The class finds the other one under a name that it declares, as its parent or as
an interface. -/
def Class.Refers (r : Registry) (c d : Class) : Prop :=
  ∃ name, (c.parentName = some name ∨ name ∈ c.interfaceNames) ∧ c.resolve? r name = some d

/-- **No circles.** References, to parents and to interfaces, never lead back to where they
started. -/
def Registry.Acyclic (r : Registry) : Prop :=
  ∀ c, r.Holds c → ¬ Relation.TransGen (Class.Refers r) c c

/-- There are no circles where the registered classes refer to lower ones only. -/
theorem Registry.acyclic_of_rank {r : Registry} (rank : Class → Nat)
    (hrank : ∀ c ∈ r.classes, ∀ name ∈ c.parentName.toList ++ c.interfaceNames,
      (r.get? name).all (rank · < rank c) = true) : r.Acyclic := by
  have hstep : ∀ c ∈ r.classes, ∀ d, Class.Refers r c d → d ∈ r.classes ∧ rank d < rank c := by
    rintro c hc d ⟨name, hname, hfound⟩
    have hget := Class.get?_of_resolve? hfound
    have hmem : name ∈ c.parentName.toList ++ c.interfaceNames :=
      List.mem_append.mpr (hname.imp_left Option.mem_toList.mpr)
    have hlower := hrank c hc name hmem
    rw [hget] at hlower
    exact ⟨mem_of_findClass hget, of_decide_eq_true hlower⟩
  intro c hc hcircle
  -- every path leads to a lower rank, so none leads back
  have hlower : ∀ d, Relation.TransGen (Class.Refers r) c d → d ∈ r.classes ∧ rank d < rank c := by
    intro d hd
    induction hd with
    | single href => exact hstep c hc.mem _ href
    | tail _ href ih =>
      obtain ⟨hmem, hless⟩ := hstep _ ih.1 _ href
      exact ⟨hmem, hless.trans ih.2⟩
  exact absurd (hlower c hcircle).2 (lt_irrefl _)

namespace Class

variable {r : Registry} {c d p : Class} {name : String}

theorem refers_of_parent? (hparent : c.parent? r = some p) : Refers r c p := by
  obtain ⟨name, hname, hfound⟩ := Option.bind_eq_some_iff.mp hparent
  exact ⟨name, .inl hname, hfound⟩

theorem transGen_refers_of_mem_line (hparent : c.parent? r = some p) (hd : d ∈ p :: p.ancestors r) :
    Relation.TransGen (Refers r) c d := by
  have hp : Relation.TransGen (Refers r) c p := .single (refers_of_parent? hparent)
  rcases List.mem_cons.mp hd with rfl | hd
  · exact hp
  · exact (p.parentLine_ancestors r).bound.cons_induction (Relation.TransGen (Refers r) c) _
      (fun _ _ hnext hup => hup.tail (refers_of_parent? hnext)) hp d hd

/-- **Ancestors through the parent.** They are the parent and its ancestors, if the parents do not
lead back to the class. -/
theorem ancestors_of_parent? (hr : r.Acyclic) (hc : r.Holds c) (hparent : c.parent? r = some p) :
    c.ancestors r = p :: p.ancestors r := by
  have hline := p.parentLine_ancestors r
  -- the class itself is not on the line of its parent, as there are no circles
  have hfresh : c.key ∉ (p :: p.ancestors r).map key := by
    intro hmem
    obtain ⟨d, hd, hkey⟩ := List.mem_map.mp hmem
    obtain rfl := (holds_of_mem_line (holds_of_parent? hparent) hd).eq_of_key_eq hc hkey
    exact hr d hc (transGen_refers_of_mem_line hparent hd)
  have hlonger : c.ParentLine r (p :: p.ancestors r) :=
    ⟨List.isChain_cons_cons.mpr ⟨hparent, hline.bound⟩,
      List.nodup_cons.mpr ⟨hfresh, hline.distinct⟩⟩
  -- the ancestors begin with this line, and nothing follows, because the line of `p` is the longest
  obtain ⟨more, hmore⟩ := hlonger.prefix_ancestors
  have hall := c.parentLine_ancestors r
  rw [← hmore, List.cons_append] at hall
  have hrest : p.ParentLine r (p.ancestors r ++ more) :=
    ⟨(List.isChain_cons_cons.mp hall.bound).2, (List.nodup_cons.mp hall.distinct).2⟩
  have hlength := hrest.prefix_ancestors.length_le
  rw [List.length_append] at hlength
  have hnil : more = [] := List.length_eq_zero_iff.mp (by omega)
  rw [← hmore, hnil, List.append_nil]

theorem ancestors_of_parent?_none (h : c.parent? r = none) : c.ancestors r = [] := by
  have hbound := (c.parentLine_ancestors r).bound
  cases hancestors : c.ancestors r with
  | nil => rfl
  | cons p ps =>
    -- the first ancestor would be the parent
    rw [hancestors, List.isChain_cons_cons, h] at hbound
    exact absurd hbound.1.symm (Option.some_ne_none p)

/-! ### Who declares a method -/

/-- The interfaces of the class that are available, in the order in which they are found. -/
def boundInterfaces (c : Class) (r : Registry) : List Class :=
  (c.allInterfaceNames r).filterMap (c.resolve? r)

/-- The class has a method if some class declares it from which the class has members. -/
theorem hasMethod_iff :
    c.hasMethod r name = true ↔ ∃ d ∈ c :: c.sources r, d.declaresMethod name = true := by
  rw [hasMethod, method?_eq_findSome?, List.findSome?_isSome_iff]
  refine exists_congr fun d => and_congr_right fun _ => ?_
  rw [Option.isSome_map]
  rfl

theorem hasMethod_of_declares (h : c.declaresMethod name = true) : c.hasMethod r name = true :=
  hasMethod_iff.mpr ⟨c, List.mem_cons_self, h⟩

/-- What the class does not declare it has from its ancestors or its interfaces. -/
theorem hasMethod_iff_of_not_declares (h : c.declaresMethod name = false) :
    c.hasMethod r name = true ↔
      (∃ d ∈ c.ancestors r, d.declaresMethod name = true) ∨
        ∃ i ∈ c.boundInterfaces r, i.declaresMethod name = true := by
  rw [hasMethod_iff]
  simp only [List.mem_cons, or_and_right, exists_or, exists_eq_left, h, Bool.false_eq_true,
    false_or, sources, boundInterfaces, List.mem_append]

/-- Letter case does not matter. -/
theorem hasMethod_congr {name' : String} (h : Text.foldCase name = Text.foldCase name') :
    c.hasMethod r name = c.hasMethod r name' := by
  rw [hasMethod, hasMethod, method?_eq_find?, method?_eq_find?, h]

/-- Someone above the class declares the method: an ancestor, or an interface of the parent. -/
def DeclaredAbove (c : Class) (r : Registry) (name : String) : Prop :=
  (∃ d ∈ c.ancestors r, d.declaresMethod name = true) ∨
    ∃ p, c.parent? r = some p ∧ ∃ i ∈ p.boundInterfaces r, i.declaresMethod name = true

/-- **Asking the parent.** Outside of circles the parent has a method if someone above the class
declares it. -/
theorem parent_hasMethod_iff (hr : r.Acyclic) (hc : r.Holds c) :
    (c.parent? r).any (·.hasMethod r name) = true ↔ c.DeclaredAbove r name := by
  unfold DeclaredAbove
  cases hparent : c.parent? r with
  | none =>
    rw [ancestors_of_parent?_none hparent]
    simp
  | some p =>
    -- where the parent looks: along the ancestors of the class, and then in its own interfaces
    have hsources : p :: p.sources r = c.ancestors r ++ p.boundInterfaces r := by
      rw [ancestors_of_parent? hr hc hparent]
      rfl
    rw [Option.any_some, hasMethod_iff, hsources]
    simp only [List.mem_append, or_and_right, exists_or, Option.some_inj, exists_eq_left']

/-! ### What the class answers -/

/-- **Declared methods.** The class calls them its own and asks its parent. -/
theorem methodOrigin?_of_declares (hc : c.IsBuilt) (h : c.declaresMethod name = true) :
    c.methodOrigin? r name
      = some (if (c.parent? r).any (·.hasMethod r name) then .overridden else .introduced) := by
  obtain ⟨m, hm⟩ := Option.isSome_iff_exists.mp h
  have hfound : c.method? r name = some (c, m) := by
    rw [method?, hm]
  -- the method carries the name of the class in which it was declared
  have hown : Name.lookupKey m.className = c.key := by
    rw [hc.className_eq (List.mem_of_find?_eq_some hm)]
    rfl
  have hname : Text.foldCase m.name = Text.foldCase name :=
    beq_iff_eq.mp (List.find?_some (p := fun m : Method => m.key == Text.foldCase name) hm)
  rw [methodOrigin?, hfound]
  show some (m.originIn c r) = _
  rw [Method.originIn, if_neg (not_not_intro hown)]
  simp only [hasMethod_congr hname]

/-- **Other methods.** They are inherited, because nothing else has the name of the class. -/
theorem methodOrigin?_of_not_declares (hr : r.AllBuilt) (hc : r.Holds c)
    (h : c.declaresMethod name = false) :
    c.methodOrigin? r name = if c.hasMethod r name then some .inherited else none := by
  rw [methodOrigin?, hasMethod]
  cases hfound : c.method? r name with
  | none => rfl
  | some e =>
    obtain ⟨hfirst, hown⟩ := method?_eq_some_iff.mp hfound
    rw [List.find?_cons_of_neg (by rw [h]; exact Bool.false_ne_true)] at hfirst
    have hholds : r.Holds e.1 := holds_of_mem_sources (List.mem_of_find?_eq_some hfirst)
    have hother : Name.lookupKey e.2.className ≠ c.key := by
      rw [(hr e.1 hholds.mem).className_eq (List.mem_of_find?_eq_some hown)]
      intro hkey
      -- the class that was found declares the method, and so is not `c`
      have hdeclares : e.1.declaresMethod name = true := Option.isSome_of_mem hown
      rw [hholds.eq_of_key_eq hc hkey, h] at hdeclares
      exact absurd hdeclares Bool.false_ne_true
    show some (e.2.originIn c r) = some .inherited
    rw [Method.originIn, if_pos hother]

/-- **Four answers.** Which of them a class gives depends on whether it declares the method, and
then on whether someone above declares it, or else on whether there is one at all. -/
theorem methodOrigin?_cases (hbuilt : r.AllBuilt) (hr : r.Acyclic) (hc : r.Holds c)
    (name : String) :
    (c.declaresMethod name = true ∧ c.DeclaredAbove r name ∧
        c.methodOrigin? r name = some .overridden) ∨
      (c.declaresMethod name = true ∧ ¬ c.DeclaredAbove r name ∧
        c.methodOrigin? r name = some .introduced) ∨
      (c.declaresMethod name = false ∧ c.hasMethod r name = true ∧
        c.methodOrigin? r name = some .inherited) ∨
      (c.declaresMethod name = false ∧ c.hasMethod r name = false ∧
        c.methodOrigin? r name = none) := by
  cases h : c.declaresMethod name with
  | true =>
    rw [methodOrigin?_of_declares (hbuilt c hc.mem) h]
    by_cases habove : c.DeclaredAbove r name
    · exact .inl ⟨rfl, habove, by rw [if_pos ((parent_hasMethod_iff hr hc).mpr habove)]⟩
    · exact .inr (.inl ⟨rfl, habove, by rw [if_neg (habove ∘ (parent_hasMethod_iff hr hc).mp)]⟩)
  | false =>
    rw [methodOrigin?_of_not_declares hbuilt hc h]
    cases c.hasMethod r name with
    | true => exact .inr (.inr (.inl ⟨rfl, rfl, rfl⟩))
    | false => exact .inr (.inr (.inr ⟨rfl, rfl, rfl⟩))

/-- **Origins mean what they say.** -/
structure OriginsFaithful (c : Class) (r : Registry) : Prop where
  /-- Only a method that the class does not have has no origin. -/
  none_iff : ∀ name, c.methodOrigin? r name = none ↔ c.hasMethod r name = false
  /-- Inherited: an ancestor or an interface declares it, and the class does not. -/
  inherited_iff : ∀ name, c.methodOrigin? r name = some .inherited ↔
    c.declaresMethod name = false ∧
      ((∃ d ∈ c.ancestors r, d.declaresMethod name = true) ∨
        ∃ i ∈ c.boundInterfaces r, i.declaresMethod name = true)
  /-- Overridden: the class declares it, and so does someone above. -/
  overridden_iff : ∀ name, c.methodOrigin? r name = some .overridden ↔
    c.declaresMethod name = true ∧ c.DeclaredAbove r name
  /-- Introduced: the class declares it, and no one above does. -/
  introduced_iff : ∀ name, c.methodOrigin? r name = some .introduced ↔
    c.declaresMethod name = true ∧ ¬ c.DeclaredAbove r name

/-- **Origins mean what they say,** for every registered class of a hierarchy without circles. Names
may lead nowhere, and may be spelled in any letter case. -/
theorem originsFaithful_of_acyclic (hbuilt : r.AllBuilt) (hr : r.Acyclic) (hc : r.Holds c) :
    c.OriginsFaithful r := by
  refine ⟨fun name => ?_, fun name => ?_, fun name => ?_, fun name => ?_⟩
  -- each of the answers is tested in each of the four cases
  all_goals
    obtain ⟨h, habove, horigin⟩ | ⟨h, habove, horigin⟩ | ⟨h, hhas, horigin⟩ | ⟨h, hhas, horigin⟩ :=
      methodOrigin?_cases hbuilt hr hc name
    · simp [h, habove, horigin, hasMethod_of_declares h]
    · simp [h, habove, horigin, hasMethod_of_declares h]
    · simp [h, hhas, horigin, ← hasMethod_iff_of_not_declares h]
    · simp [h, hhas, horigin, ← hasMethod_iff_of_not_declares h]

end Class

/-! ### A hierarchy without circles -/

/-- The interface `Drawable`. -/
def drawable : Class :=
  ClassDraft.built (.ofName "Drawable" { hasInterface := true })
    [.method (.ofName "draw" {} false)] true

/-- `Base` implements `Drawable`, and an interface that is missing. -/
def drawingBase : Class :=
  ClassDraft.built (.ofName "Base" {})
    [.interface "\\drawable", .interface "Missing", .method (.ofName "move" {} false),
      .method (.ofName "hide" {} false)] true

/-- `Shape` extends `Base`. It overrides `draw` of the interface and `move`, introduces `area`, and
inherits `hide`. -/
def drawingShape : Class :=
  ClassDraft.built (.ofName "Shape" {})
    [.parent "BASE", .method (.ofName "Draw" {} false), .method (.ofName "MOVE" {} false),
      .method (.ofName "area" {} false)] true

/-- Three classes, registered before what they refer to. -/
def drawing : Registry := Registry.empty.registerAll [drawingShape, drawingBase, drawable]

/-- The number of classes that a class of the drawing stands on. -/
def drawingRank (c : Class) : Nat :=
  if c.key = drawingShape.key then 2 else if c.key = drawingBase.key then 1 else 0

theorem acyclic_drawing : drawing.Acyclic := by
  apply Registry.acyclic_of_rank drawingRank
  decide +kernel

/-- In the drawing, for example. -/
theorem originsFaithful_drawing :
    drawing.AllBuilt ∧ drawing.Acyclic ∧ drawing.Holds drawingShape ∧
      drawingShape.OriginsFaithful drawing := by
  have hbuilt : drawing.AllBuilt := by
    apply Registry.allBuilt_registerAll
    intro c hc
    simp only [List.mem_cons, List.not_mem_nil, or_false] at hc
    rcases hc with rfl | rfl | rfl <;> exact ⟨_, _, _, _, rfl⟩
  have hholds : drawing.Holds drawingShape :=
    Registry.holds_registerAll (by decide +kernel) List.mem_cons_self
  exact ⟨hbuilt, acyclic_drawing, hholds,
    Class.originsFaithful_of_acyclic hbuilt acyclic_drawing hholds⟩

end Introspect
