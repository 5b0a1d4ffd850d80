import Introspect.Proofs.Hierarchy.Members

/-!
# The constructor of a class

Every method of a class can be asked on its own whether it is a constructor, and answers with a look
at its class. In a built class the answers fit together: at most one method says yes. It is the one
that is named as constructors are, in any letter case, and only if the class has no method of that
name the one that is named as the class. An abstract method is never a constructor; yet one with the
name of constructors keeps the method that is named as the class from being one.

* `Class.constructorName` is the name that decides, and `Class.IsBuilt.isConstructor_iff` says that
  every method answers by it;
* `Class.IsBuilt.constructors_eq` and `Class.constructors_eq_nil`: the methods that say yes, with
  and without a method of that name;
* `Class.OneConstructor` says of all methods what the answers come to, and
  `Class.oneConstructor_of_isBuilt` that they do in every built class.
-/

namespace Introspect

/-- Where all keys are different, a search for the key of one element finds this element alone. -/
theorem filter_eq_singleton_of_distinct {α : Type} {key : α → String} {l : List α}
    (h : l.Pairwise fun a b => key a ≠ key b) {a : α} (ha : a ∈ l) {p : α → Bool}
    (hp : ∀ b ∈ l, p b = true ↔ key b = key a) : l.filter p = [a] := by
  induction l with
  | nil => cases ha
  | cons b l ih =>
    obtain ⟨hb, hl⟩ := List.pairwise_cons.mp h
    have hpb := hp b List.mem_cons_self
    have hpl : ∀ c ∈ l, p c = true ↔ key c = key a := fun c hc => hp c (List.mem_cons_of_mem b hc)
    rcases List.mem_cons.mp ha with rfl | ha
    · -- behind the element there is none with its key
      have hnil : l.filter p = [] :=
        List.filter_eq_nil_iff.mpr fun c hc hpc => hb c hc ((hpl c hc).mp hpc).symm
      rw [List.filter_cons_of_pos (hpb.mpr rfl), hnil]
    · rw [List.filter_cons_of_neg fun hpb' => hb a ha (hpb.mp hpb')]
      exact ih hl ha hpl

namespace Class

/-- The methods that the class declares and that say they are its constructor, as long as the class
is there to be asked. -/
def constructors (c : Class) : List Method := c.methods.filter (·.isConstructor (some c))

/-- The name that a constructor of the class has, in any letter case. -/
def constructorName (c : Class) : String :=
  if c.declaresMethod Method.constructorName then Method.constructorName else Name.short c.name

variable {c : Class} {m : Method}

theorem IsBuilt.methods_distinct (h : c.IsBuilt) :
    c.methods.Pairwise fun m m' => m.key ≠ m'.key := by
  obtain ⟨name, flags, es, linked, rfl⟩ := h
  exact List.pairwise_map.mpr (ClassDraft.methods_distinct_after rfl es)

theorem declaresMethod_iff (c : Class) (name : String) :
    c.declaresMethod name = true ↔ ∃ m ∈ c.methods, m.key = Text.foldCase name := by
  simp [declaresMethod, ownMethod?]

/-- **The answer of one method.** It is a constructor if it is not abstract and has the name that
decides. -/
theorem IsBuilt.isConstructor_iff (h : c.IsBuilt) (hm : m ∈ c.methods) :
    m.isConstructor (some c) = true ↔
      m.modifiers.hasAbstract = false ∧ m.key = Text.foldCase c.constructorName := by
  -- the name of its class that a method has noted is that of the class
  rw [Method.isConstructor, h.className_eq hm, Option.any_some, constructorName, Bool.and_eq_true,
    Bool.not_eq_true']
  refine and_congr_right fun _ => ?_
  cases hdeclares : c.declaresMethod Method.constructorName with
  | true => simp [Method.key]
  | false =>
    -- no method is named as constructors are, and so this one is not
    have hne : m.key ≠ Text.foldCase Method.constructorName := by
      intro heq
      rw [(declaresMethod_iff c _).mpr ⟨m, hm, heq⟩] at hdeclares
      exact absurd hdeclares (by decide)
    rw [Method.key] at hne
    simp [Method.key, hne]

/-- The method with the name that decides is the only constructor, or it is abstract and there is
none. -/
theorem IsBuilt.constructors_eq (h : c.IsBuilt) (hm : m ∈ c.methods)
    (hname : m.key = Text.foldCase c.constructorName) :
    c.constructors = if m.modifiers.hasAbstract then [] else [m] := by
  have hsame : ∀ n ∈ c.methods, n.key = m.key → n = m := fun n hn heq =>
    Option.some.inj (((find?_eq_some_iff_mem h.methods_distinct).mpr ⟨hn, heq⟩).symm.trans
      ((find?_eq_some_iff_mem h.methods_distinct).mpr ⟨hm, rfl⟩))
  have hanswer : ∀ n ∈ c.methods, n.isConstructor (some c) = true ↔
      n.modifiers.hasAbstract = false ∧ n.key = m.key := by
    intro n hn
    rw [h.isConstructor_iff hn, hname]
  cases habstract : m.modifiers.hasAbstract with
  | true =>
    refine List.filter_eq_nil_iff.mpr fun n hn hyes => ?_
    obtain ⟨hconcrete, hkey⟩ := (hanswer n hn).mp hyes
    rw [hsame n hn hkey, habstract] at hconcrete
    exact absurd hconcrete (by decide)
  | false =>
    refine filter_eq_singleton_of_distinct h.methods_distinct hm fun n hn => ?_
    rw [hanswer n hn, and_iff_right_iff_imp]
    intro hkey
    rw [hsame n hn hkey, habstract]

theorem IsBuilt.constructors_eq_nil (h : c.IsBuilt)
    (hnone : ∀ m ∈ c.methods, m.key ≠ Text.foldCase c.constructorName) : c.constructors = [] :=
  List.filter_eq_nil_iff.mpr fun m hm hyes => hnone m hm ((h.isConstructor_iff hm).mp hyes).2

/-- **One constructor.** Which of the methods of a class is its constructor, and when there is
none. -/
structure OneConstructor (c : Class) : Prop where
  /-- No two methods are constructors. -/
  length_le_one : c.constructors.length ≤ 1
  /-- A method with the name of constructors is the constructor, if it is not abstract. -/
  of_named : ∀ m ∈ c.methods, Text.eqIgnoringCase m.name Method.constructorName = true →
    m.modifiers.hasAbstract = false → c.constructors = [m]
  /-- If it is abstract, there is no constructor, whatever other methods there are. -/
  of_abstract : ∀ m ∈ c.methods, Text.eqIgnoringCase m.name Method.constructorName = true →
    m.modifiers.hasAbstract = true → c.constructors = []
  /-- If there is no method with that name, a method with the short name of the class is the
  constructor, if it is not abstract. -/
  of_short : (∀ m ∈ c.methods, Text.eqIgnoringCase m.name Method.constructorName = false) →
    ∀ m ∈ c.methods, Text.eqIgnoringCase m.name (Name.short c.name) = true →
      m.modifiers.hasAbstract = false → c.constructors = [m]
  /-- Otherwise there is none. -/
  of_none : (∀ m ∈ c.methods, Text.eqIgnoringCase m.name Method.constructorName = false) →
    (∀ m ∈ c.methods, Text.eqIgnoringCase m.name (Name.short c.name) = true →
      m.modifiers.hasAbstract = true) → c.constructors = []

/-- Where a method has the name of constructors, this name decides. -/
theorem constructorName_of_named (hm : m ∈ c.methods)
    (hname : Text.eqIgnoringCase m.name Method.constructorName = true) :
    m.key = Text.foldCase c.constructorName := by
  have hkey : m.key = Text.foldCase Method.constructorName := Text.eqIgnoringCase_iff.mp hname
  rw [constructorName, if_pos ((declaresMethod_iff c _).mpr ⟨m, hm, hkey⟩), hkey]

/-- Where no method has the name of constructors, the short name of the class decides. -/
theorem constructorName_of_not_named
    (hnone : ∀ m ∈ c.methods, Text.eqIgnoringCase m.name Method.constructorName = false) :
    c.constructorName = Name.short c.name := by
  refine if_neg fun hdeclares => ?_
  obtain ⟨m, hm, hkey⟩ := (declaresMethod_iff c _).mp hdeclares
  have hname := hnone m hm
  rw [Text.eqIgnoringCase_iff.mpr hkey] at hname
  exact absurd hname (by decide)

/-- **Every built class has at most one constructor,** and it is the one that the rule names. -/
theorem oneConstructor_of_isBuilt (h : c.IsBuilt) : c.OneConstructor where
  length_le_one := by
    -- the constructor is the method with the one name that counts, and names are distinct
    by_cases hname : ∃ m ∈ c.methods, m.key = Text.foldCase c.constructorName
    · obtain ⟨m, hm, hkey⟩ := hname
      rw [h.constructors_eq hm hkey]
      cases m.modifiers.hasAbstract <;> simp
    · rw [h.constructors_eq_nil fun m hm hkey => hname ⟨m, hm, hkey⟩]
      exact Nat.zero_le 1
  of_named := by
    intro m hm hname hconcrete
    rw [h.constructors_eq hm (constructorName_of_named hm hname), hconcrete]
    rfl
  of_abstract := by
    intro m hm hname habstract
    rw [h.constructors_eq hm (constructorName_of_named hm hname), habstract]
    rfl
  of_short := by
    intro hnone m hm hname hconcrete
    have hkey : m.key = Text.foldCase c.constructorName := by
      rw [constructorName_of_not_named hnone]
      exact Text.eqIgnoringCase_iff.mp hname
    rw [h.constructors_eq hm hkey, hconcrete]
    rfl
  of_none := by
    intro hnone habstract
    refine List.filter_eq_nil_iff.mpr fun m hm hyes => ?_
    obtain ⟨hconcrete, hkey⟩ := (h.isConstructor_iff hm).mp hyes
    rw [constructorName_of_not_named hnone] at hkey
    rw [habstract m hm (Text.eqIgnoringCase_iff.mpr hkey)] at hconcrete
    exact absurd hconcrete (by decide)

/-- In a class of a namespace with an abstract constructor, and a method that is named as the class
is, there is no constructor. -/
theorem oneConstructor_abstract :
    (ClassDraft.built (.ofName "App\\Shape" { hasAbstract := true })
      [.method (.ofName "shape" {} false),
        .method (.ofName "__Construct" { hasAbstract := true } false)] true).IsBuilt ∧
    (ClassDraft.built (.ofName "App\\Shape" { hasAbstract := true })
      [.method (.ofName "shape" {} false),
        .method (.ofName "__Construct" { hasAbstract := true } false)] true).OneConstructor :=
  ⟨⟨_, _, _, _, rfl⟩, oneConstructor_of_isBuilt ⟨_, _, _, _, rfl⟩⟩

end Class

end Introspect
