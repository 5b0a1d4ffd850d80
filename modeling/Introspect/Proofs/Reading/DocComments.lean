import Introspect.Proofs.Reading.DocStretches

/-!
# What doc comments document

**A doc comment documents one declaration at most.** The doc comment of a declaration is the last
one of its stretch, and the stretches of a file do not meet. This is said of whole files: wherever a
class stands, whatever its members are, and also where the reading has recovered from one of them.

* `Attached` says which doc comment is attached to which declaration;
* `Stretch.doc?_iff` and `exists_stretch`: a declaration has the last doc comment of its stretch,
  and none if it has no stretch;
* `Stretch.class_ends`, `Stretch.member_behind` and `Stretch.member_ends`: where stretches begin and
  end;
* `SourceFile.documentsOnce` puts all of this together.

Between a doc comment and its member there may be more than attributes: what is no significant token
does not count (`SourceFile.documented_across_tags`).
-/

namespace Introspect.Reading

/-- The doc comment of the declaration, among those of the classes `cs`. -/
def Documented.doc? (cs : List Class) : Documented → Option String
  | cls k => cs[k]?.bind (·.docComment)
  | method k j => (cs[k]?.bind (·.methods[j]?)).bind (·.docComment)
  | property k j => (cs[k]?.bind (·.properties[j]?)).bind (·.docComment)

/-- **Attached doc comments.** The token with the index `i` is the doc comment of the declaration,
and its text is `raw`. -/
def Attached (file : SourceFile) (D : Documented) (i : Nat) (raw : String) : Prop :=
  ∃ p q, Stretch file D p q ∧ LastDoc (tokensOf file) p q i raw

/-! ### Doc comments of stretches -/

section Stretches

variable {file : SourceFile} {k p q : Nat} {b b' c c' body : Body} {first s s' name : State}
  {f : FileState} {D : Documented} {raw : String}

/-- The last doc comment of the tokens between two states. -/
theorem lastDoc_between_iff (h : s.StandsAt (bufferOf file) p) (h' : s'.StandsAt (bufferOf file) q)
    (hpq : p ≤ q) (hq : q < (bufferOf file).last) :
    lastDoc (s.rest.take (s.rest.length - s'.rest.length + 1)) = some raw ↔
      ∃ i, LastDoc (tokensOf file) p q i raw := by
  have hp := h.length_eq
  have hq' := h'.length_eq
  rw [← lastDoc_eq_some_iff hpq hq, h.rest_eq]
  have hlength : ((bufferOf file).entries.drop p).length - s'.rest.length = q - p := by
    rw [← h.rest_eq]
    omega
  rw [hlength]
  rfl

/-- The members that a class has at the end of a round stay what they are. -/
theorem MemberAt.exists_class (hat : MemberAt file k b b') :
    ∃ (d : ClassDraft) (ms : List MethodDraft) (ps : List PropertyDraft),
      file.read.1[k]? = some (d.build file.linked) ∧ d.methods = b'.draft.methods ++ ms ∧
        d.properties = b'.draft.properties ++ ps := by
  obtain ⟨f, name, body, hclass, hrounds⟩ := hat.inside
  obtain ⟨last, d, hread⟩ := hclass.read
  -- the rounds behind this one only add members, and so does the end of the body
  obtain ⟨ms, ps, hgrown⟩ := (hread.rounds_to_last (hrounds.tail hat.round)).grown
  have hbuilt := hread.getElem?_read hclass.visited
  rw [hclass.index_eq] at hbuilt
  have hall := hgrown.trans hread.grown
  rw [List.append_nil, List.append_nil] at hall
  exact ⟨d, ms, ps, hbuilt, hall.methods_eq, hall.properties_eq⟩

/-- A method that a round adds is a method of the class. -/
theorem MemberAt.doc?_method (hat : MemberAt file k b b') {m : MethodDraft}
    (hm : b'.draft.methods = b.draft.methods ++ [m]) :
    (Documented.method k b.draft.methods.length).doc? file.read.1 = m.docComment := by
  obtain ⟨d, ms, ps, hclass, hmethods, -⟩ := hat.exists_class
  simp [Documented.doc?, hclass, ClassDraft.build, hmethods, hm, MethodDraft.build]

theorem MemberAt.doc?_property (hat : MemberAt file k b b') {j : Nat} {added : PropertyDraft}
    (hadded : b'.draft.properties[j]? = some added) :
    (Documented.property k j).doc? file.read.1 = added.docComment := by
  obtain ⟨d, ms, ps, hclass, -, hproperties⟩ := hat.exists_class
  have hget : d.properties[j]? = some added := by
    rw [hproperties, List.getElem?_append_left (List.getElem?_eq_some_iff.mp hadded).1, hadded]
  simp [Documented.doc?, hclass, ClassDraft.build, hget, PropertyDraft.build]

/-- A class has the doc comment with which its draft begins. -/
theorem ClassStretch.doc?_eq {last : Body} {d : ClassDraft}
    (h : ClassStretch file k f name body last d p q) :
    (Documented.cls k).doc? file.read.1
      = lastDoc (f.rest.take (f.rest.length - name.rest.length + 1)) := by
  obtain ⟨ms, ps, hgrown⟩ := h.read.rounds.grown
  have hbuilt := h.read.getElem?_read h.hat.visited
  rw [h.hat.index_eq] at hbuilt
  rw [Documented.doc?, hbuilt, ← h.read.begun.docComment_eq]
  exact (hgrown.trans h.read.grown).docComment_eq

/-- **A declaration has the last doc comment of its stretch.** -/
theorem Stretch.doc?_iff (h : Stretch file D p q) :
    D.doc? file.read.1 = some raw ↔ ∃ i, LastDoc (tokensOf file) p q i raw := by
  obtain ⟨hle, hlt⟩ := h.bounds
  cases h with
  | @cls k _ _ f name body hat hfrom hto =>
    obtain ⟨last, d, p', q', hclass⟩ := hat.exists_stretch
    rw [hclass.doc?_eq]
    exact lastDoc_between_iff hfrom hto hle hlt
  | @method k j _ _ b b' first s mods hat hbegins hindex hadded hfrom hto =>
    obtain ⟨first', s', mods', m, hbegins', -, hm, hdoc⟩ := hat.round.method_added (hindex ▸ hadded)
    -- a round begins a member in one way, so the stretch is the one of the added method
    obtain ⟨rfl, -⟩ := hbegins.unique hbegins'
    rw [← hindex, hat.doc?_method hm, hdoc]
    exact lastDoc_between_iff hfrom hto hle hlt
  | @property k j _ _ b b' first s added hat hbegins hindex hadded hname hfrom hto =>
    rcases hat.round.property_added hindex.le hadded with
      ⟨first', s', hbegins', -, -, -, hdoc⟩ | ⟨-, hother⟩
    · obtain ⟨rfl, -⟩ := hbegins.unique hbegins'
      rw [hat.doc?_property hadded, hdoc]
      exact lastDoc_between_iff hfrom hto hle hlt
    · exact absurd hname (hother first s hbegins)

/-! ### Documented declarations have stretches -/

/-- In the rounds of a body, every member is added in one of them. -/
theorem Body.Rounds.exists_round {cfg : Setting} (h : Body.Rounds cfg body b) (D : Documented)
    (hlo : D.count body.draft ≤ D.index) (hhi : D.index < D.count b.draft) :
    ∃ c c', Body.Rounds cfg body c ∧ Body.Round cfg c c' ∧ D.count c.draft ≤ D.index ∧
      D.index < D.count c'.draft := by
  induction h with
  | refl => omega
  | @tail c c' hrounds hround ih =>
    by_cases hc : D.index < D.count c.draft
    · exact ih hc
    · exact ⟨c, c', hrounds, hround, Nat.le_of_not_lt hc, hhi⟩

/-- Every member of a class that is read is added in a round. -/
theorem exists_memberAt {c : Class} (hc : file.read.1[D.classIndex]? = some c)
    (hlt : ∀ d : ClassDraft, c = d.build file.linked → D.index < D.count d) :
    ∃ b b', MemberAt file D.classIndex b b' ∧ D.count b.draft ≤ D.index ∧
      D.index < D.count b'.draft := by
  obtain ⟨f, name, body, hat⟩ := exists_classAt hc
  obtain ⟨last, d, hread⟩ := hat.read
  have hbuilt := hread.getElem?_read hat.visited
  rw [hat.index_eq, hc] at hbuilt
  have hzero : D.count body.draft ≤ D.index := by
    cases D <;> simp [hread.begun.methods_eq, hread.begun.properties_eq]
  have hlast : D.index < D.count last.draft :=
    hread.grown.count_eq D ▸ hlt d (Option.some.inj hbuilt)
  obtain ⟨b, b', hrounds, hround, hcount⟩ := hread.rounds.exists_round D hzero hlast
  exact ⟨b, b', ⟨⟨f, name, body, hat, hrounds⟩, hround⟩, hcount⟩

/-- **Every documented declaration has a stretch.** -/
theorem exists_stretch (h : D.doc? file.read.1 = some raw) : ∃ p q, Stretch file D p q := by
  cases D with
  | cls k =>
    obtain ⟨c, hc, -⟩ := Option.bind_eq_some_iff.mp h
    obtain ⟨f, name, body, hat⟩ := exists_classAt hc
    obtain ⟨last, d, p, q, hclass⟩ := hat.exists_stretch
    exact ⟨p, q, .cls hat hclass.standsAt hclass.name_standsAt⟩
  | method k j =>
    obtain ⟨m, hm, -⟩ := Option.bind_eq_some_iff.mp h
    obtain ⟨c, hc, hm⟩ := Option.bind_eq_some_iff.mp hm
    obtain ⟨b, b', hat, hlo, hhi⟩ := exists_memberAt (D := .method k j) hc (by
      rintro d rfl
      simpa [ClassDraft.build] using (List.getElem?_eq_some_iff.mp hm).1)
    obtain ⟨first, s, mods, m', hbegins, -, hm', -⟩ := hat.round.method_added (hlo.trans_lt hhi)
    -- the round adds one method, which is the one with the index
    have hindex : b.draft.methods.length = j := by
      have hlength := congrArg List.length hm'
      simp only [Documented.count, Documented.index, List.length_append, List.length_singleton]
        at hlength hlo hhi
      omega
    obtain ⟨p, q, hp, hq⟩ := hat.exists_positions hbegins.memberBegins
    exact ⟨p, q, .method hat hbegins hindex hhi hp hq⟩
  | property k j =>
    obtain ⟨m, hm, -⟩ := Option.bind_eq_some_iff.mp h
    obtain ⟨c, hc, hm⟩ := Option.bind_eq_some_iff.mp hm
    obtain ⟨b, b', hat, hlo, hhi⟩ := exists_memberAt (D := .property k j) hc (by
      rintro d rfl
      simpa [ClassDraft.build] using (List.getElem?_eq_some_iff.mp hm).1)
    have hadded : b'.draft.properties[j]? = some b'.draft.properties[j] :=
      List.getElem?_eq_getElem hhi
    rcases hat.round.property_added hlo hadded with
      ⟨first, s, hbegins, -, hindex, hname, -⟩ | ⟨hnone, -⟩
    · obtain ⟨p, q, hp, hq⟩ := hat.exists_positions hbegins.memberBegins
      exact ⟨p, q, .property hat hbegins hindex hadded hname hp hq⟩
    · have hdoc : (Documented.property k j).doc? file.read.1 = none :=
        (hat.doc?_property hadded).trans hnone
      rw [h] at hdoc
      cases hdoc

/-! ### Where stretches begin and end -/

/-- Whether a class can begin with the kind of token. -/
def beginsClass (kind : Token.Kind) : Bool :=
  kind == .attributeOpen || isClassModifier kind || kind == .classWord || kind == .interfaceWord

theorem FileState.Enters.beginsClass (h : f.Enters s) : beginsClass f.peek.kind = true := by
  by_cases hattribute : f.peek.kind = .attributeOpen
  · simp [Reading.beginsClass, hattribute]
  · obtain rfl := h.eq_toState hattribute
    have hall : ∀ kind ∈ classStarts, Reading.beginsClass kind = true := by decide
    exact hall _ (mem_classStarts_of_atClass h.2)

/-- The body of a class begins behind an opening brace. -/
theorem ClassAt.behind_brace (h : ClassAt file k f name body) :
    ∃ p e, (bufferOf file).entries[p]? = some e ∧ e.kind = .leftBrace ∧
      body.toState.StandsAt (bufferOf file) (p + 1) := by
  obtain ⟨s, flags, d, token, header, s₂, henters, hflags, hopening, rfl⟩ := h.begins
  obtain ⟨s₁, hs₁, hbrace, rfl⟩ := classOpening_behind hopening
  obtain ⟨r, hr⟩ := h.visited.exists_standsAt
  have hs := State.From.stable hr.here (henters.reads (Reads.refl _))
  obtain ⟨p, -, hp⟩ := State.From.stable hs hs₁
  have hlt := hp.lt_last (closed_bufferOf file) (by rw [hbrace]; decide)
  obtain ⟨e, he, htoken⟩ := hp.exists_entry hlt
  exact ⟨p, e, he, (congrArg Token.kind htoken).trans hbrace, hp.advance hlt⟩

/-- A class begins with an attribute, a modifier or its word, and its stretch ends with its name. -/
theorem Stretch.class_ends (h : Stretch file (.cls k) p q) :
    (∃ e, (bufferOf file).entries[p]? = some e ∧ beginsClass e.kind = true) ∧
      ∃ e, (bufferOf file).entries[q]? = some e ∧ e.kind = .name := by
  rcases h.split with ⟨_, f, name, body, last, d, -, hclass⟩ | ⟨hD, -⟩
  · obtain ⟨s, _, _, _, _, _, henters, -⟩ := hclass.hat.begins
    obtain ⟨e, he, htoken⟩ := hclass.standsAt.exists_entry (hclass.le.trans_lt hclass.lt_last)
    obtain ⟨e', he', htoken'⟩ := hclass.name_standsAt.exists_entry hclass.lt_last
    exact ⟨⟨e, he, (congrArg (beginsClass ·.kind) htoken).trans henters.beginsClass⟩,
      e', he', (congrArg Token.kind htoken').trans hclass.read.name_kind⟩
  · cases hD

/-- The stretch of a member begins behind the opening brace of the class, or where the member before
it has ended, recovery included. -/
theorem Stretch.member_behind (h : Stretch file D p q) (hD : D.isMember = true) :
    (∃ f name body r e, ClassAt file D.classIndex f name body ∧
        body.toState.StandsAt (bufferOf file) p ∧ p = r + 1 ∧
        (bufferOf file).entries[r]? = some e ∧ e.kind = .leftBrace) ∨
      ∃ b₀ b, MemberAt file D.classIndex b₀ b ∧ b.toState.StandsAt (bufferOf file) p := by
  obtain ⟨b, b', first, hmember⟩ := h.exists_member hD
  obtain ⟨f, name, body, hclass, hrounds⟩ := hmember.hat.inside
  -- the round of the member is the first one of the body, or there is one before it
  rcases hrounds.cases_tail with rfl | ⟨b₀, hrounds, hround⟩
  · obtain ⟨r, e, he, hk, hbody⟩ := hclass.behind_brace
    exact .inl ⟨f, name, b, r, e, hclass, hmember.standsAt, hmember.standsAt.unique hbody, he, hk⟩
  · exact .inr ⟨b₀, b, ⟨⟨f, name, body, hclass, hrounds⟩, hround⟩, hmember.standsAt⟩

/-! ### Attributes -/

/-- The tokens are those of consecutive attributes. -/
def AreAttributes (es : List Entry) : Prop := passAttributes none es = .ok []

/-- What is passed over as attributes would be on its own. -/
theorem exists_passAttributes {inside : Option (Token × Nat)} {es rest : List Entry}
    (h : passAttributes inside es = .ok rest) :
    ∃ attrs, es = attrs ++ rest ∧ passAttributes inside attrs = .ok [] := by
  fun_induction passAttributes inside es with
  | case1 => exact ⟨[], Except.ok.inj h, rfl⟩
  | case2 => exact absurd h (by simp)
  | case4 => exact ⟨[], Except.ok.inj h, rfl⟩
  -- in all other cases one token more is passed over
  | case3 e es hk ih | case5 e es _ _ hk ih | case6 e es _ _ hk ih | case7 e es _ hk ih
  | case8 e es _ hk _ ih | case9 e es _ _ hk₁ hk₂ hk₃ ih =>
    obtain ⟨attrs, rfl, hattrs⟩ := ih h
    refine ⟨e :: attrs, rfl, ?_⟩
    rw [passAttributes.eq_def]
    simp_all

/-- What is passed over in front of a member are attributes. -/
theorem exists_attributes {s s' : State} (h : Yields skipAttributes s () s') :
    ∃ attrs, s.rest = attrs ++ s'.rest ∧ AreAttributes attrs := by
  obtain ⟨_, _, hget, h⟩ := h.of_bind
  obtain ⟨rfl, rfl⟩ := EStateM.Result.ok.inj hget
  cases hpass : passAttributes none s.rest with
  | ok rest =>
    rw [hpass] at h
    obtain ⟨-, rfl⟩ := EStateM.Result.ok.inj h
    exact exists_passAttributes hpass
  | error opening =>
    rw [hpass] at h
    obtain ⟨_, _, -, h⟩ := h.of_bind
    cases h

/-- **Attributes in between.** Between the doc comment with the index `i` and the significant token
`q` there are only tokens of attributes, which begin at the significant token `p` or later, and
tokens that are left out of the significant ones. -/
def OnlyAttributes (ts : List Token) (p q i : Nat) : Prop :=
  ∃ attrs, (entries none ts).drop p = attrs ++ (entries none ts).drop q ∧ AreAttributes attrs ∧
    ∀ j t, i < j → ts[j]? = some t → place ts (j + 1) ≤ q →
      isLeftOut t.kind = true ∨ ∃ e ∈ attrs, e.token = t

/-- What stands in a stretch of entries in front of others is one of the first part. -/
theorem mem_of_drop_eq_append {es attrs : List Entry} {n : Nat} {e : Entry}
    (h : es.drop p = attrs ++ es.drop q) (hq : q ≤ es.length) (hpn : p ≤ n) (hnq : n < q)
    (he : es[n]? = some e) : e ∈ attrs := by
  have hlength := congrArg List.length h
  simp only [List.length_drop, List.length_append] at hlength
  have hget : (es.drop p)[n - p]? = some e := by
    rw [List.getElem?_drop, Nat.add_sub_cancel' hpn, he]
  rw [h, List.getElem?_append_left (by omega)] at hget
  exact List.mem_of_getElem? hget

/-- In front of a member, behind its doc comment, there are only attributes. -/
theorem MemberStretch.onlyAttributes (h : MemberStretch file D b b' first p q) {i : Nat}
    (hlast : LastDoc (tokensOf file) p q i raw) : OnlyAttributes (tokensOf file) p q i := by
  obtain ⟨attrs, hattrs, hare⟩ := exists_attributes h.attributes
  rw [h.standsAt.rest_eq, h.first_standsAt.rest_eq] at hattrs
  have hlt : q < (entries none (tokensOf file)).length := h.lt_last
  refine ⟨attrs, hattrs, hare, fun j t hij ht hj => ?_⟩
  have hle : p ≤ place (tokensOf file) j := hlast.within.le_place.trans (place_mono _ hij.le)
  rcases token_cases ht (hj.trans_lt hlt) with hout | hdoc | ⟨e, he, rfl, hplace⟩
  · exact .inl hout
  · -- a doc comment further on would be the last one
    have hwithin : DocWithin (tokensOf file) p q j t.lexeme :=
      ⟨⟨t, ht, hdoc, rfl⟩, hle, (place_mono _ (Nat.le_succ j)).trans hj⟩
    exact absurd (hlast.last hwithin) (Nat.not_le.mpr hij)
  · -- a significant token in between is one of the attributes
    exact .inr ⟨e, mem_of_drop_eq_append hattrs hlt.le hle (hplace.trans_le hj) he, rfl⟩

/-- A member begins with a modifier, a type, the word `function` or a variable, and in front of it
there are only attributes. -/
theorem Stretch.member_ends (h : Stretch file D p q) (hD : D.isMember = true) :
    (∃ e, (bufferOf file).entries[q]? = some e ∧ beginsMember e.kind = true) ∧
      ∀ {i raw}, LastDoc (tokensOf file) p q i raw → OnlyAttributes (tokensOf file) p q i := by
  obtain ⟨b, b', first, hmember⟩ := h.exists_member hD
  obtain ⟨e, he, htoken⟩ := hmember.first_standsAt.exists_entry hmember.lt_last
  exact ⟨⟨e, he, (congrArg (beginsMember ·.kind) htoken).trans hmember.first_kind⟩,
    hmember.onlyAttributes⟩

end Stretches

end Reading

open Reading

namespace SourceFile

/-- **Doc comments of a file.** Which doc comment documents which declaration. -/
structure DocumentsOnce (file : SourceFile) : Prop where
  /-- A declaration that is read has the doc comment that is attached to it, and no other. -/
  documented : ∀ D raw, D.doc? file.read.1 = some raw ↔ ∃ i, Attached file D i raw
  /-- A doc comment is attached to one declaration at most. -/
  once : ∀ D D' i raw raw', Attached file D i raw → Attached file D' i raw' → D = D'
  /-- One doc comment at most is attached to a declaration. -/
  single : ∀ D i j raw raw', Attached file D i raw → Attached file D j raw' → i = j
  /-- A class takes the last doc comment between its first token and its name. -/
  class_ends : ∀ k p q, Stretch file (.cls k) p q →
    (∃ e, (bufferOf file).entries[p]? = some e ∧ beginsClass e.kind = true) ∧
      ∃ e, (bufferOf file).entries[q]? = some e ∧ e.kind = .name
  /-- A member takes none from in front of the end of the member before it, or of the opening brace
  of the class. -/
  member_behind : ∀ D p q, D.isMember = true → Stretch file D p q →
    (∃ f name body r e, ClassAt file D.classIndex f name body ∧
        body.toState.StandsAt (bufferOf file) p ∧ p = r + 1 ∧
        (bufferOf file).entries[r]? = some e ∧ e.kind = .leftBrace) ∨
      ∃ b₀ b, MemberAt file D.classIndex b₀ b ∧ b.toState.StandsAt (bufferOf file) p
  /-- It takes one in front of its first modifier, type, word `function` or variable, and only
  attributes stand in between. -/
  member_ends : ∀ D p q, D.isMember = true → Stretch file D p q →
    (∃ e, (bufferOf file).entries[q]? = some e ∧ beginsMember e.kind = true) ∧
      ∀ i raw, LastDoc (tokensOf file) p q i raw → OnlyAttributes (tokensOf file) p q i

/-- **Doc comments document once,** in every file, whatever it holds. -/
theorem documentsOnce (file : SourceFile) : file.DocumentsOnce where
  documented D raw := by
    constructor
    · intro h
      obtain ⟨p, q, hstretch⟩ := exists_stretch h
      obtain ⟨i, hlast⟩ := hstretch.doc?_iff.mp h
      exact ⟨i, p, q, hstretch, hlast⟩
    · rintro ⟨i, p, q, hstretch, hlast⟩
      exact hstretch.doc?_iff.mpr ⟨i, hlast⟩
  once D D' i raw raw' := by
    rintro ⟨p, q, hstretch, hlast⟩ ⟨p', q', hstretch', hlast'⟩
    exact hstretch.disjoint hstretch' ⟨hlast.within.le_place, hlast.within.place_le⟩
      ⟨hlast'.within.le_place, hlast'.within.place_le⟩
  single D i j raw raw' := by
    rintro ⟨p, q, hstretch, hlast⟩ ⟨p', q', hstretch', hlast'⟩
    obtain ⟨rfl, rfl⟩ := hstretch.unique hstretch'
    exact (hlast.unique hlast').1
  class_ends _ _ _ h := h.class_ends
  member_behind _ _ _ hD h := h.member_behind hD
  member_ends _ _ _ hD h := ⟨(h.member_ends hD).1, fun _ _ => (h.member_ends hD).2⟩

/-- A method behind text that stands outside of code. -/
def acrossTags : SourceFile where
  text := "<?php class A \x7b /** d */ ?>x<?php function f() \x7b\x7d \x7d"

/-- **A doc comment reaches across tags.** The method has the doc comment, and between the two there
is a closing tag. -/
theorem documented_across_tags :
    ∃ p q i raw j t, Stretch acrossTags (.method 0 0) p q ∧
      LastDoc (tokensOf acrossTags) p q i raw ∧
      (Documented.method 0 0).doc? acrossTags.read.1 = some raw ∧
      i < j ∧ (tokensOf acrossTags)[j]? = some t ∧ place (tokensOf acrossTags) (j + 1) ≤ q ∧
      t.kind = .closeTag := by
  obtain ⟨hdoc, honly, hclose, hplace⟩ :
      (Documented.method 0 0).doc? acrossTags.read.1 = some "/** d */" ∧
        (∀ i < (tokensOf acrossTags).length,
          ((tokensOf acrossTags)[i]?.map (·.kind)) = some .docComment → i = 4) ∧
        ((tokensOf acrossTags)[5]?.map (·.kind)) = some .closeTag ∧
        place (tokensOf acrossTags) 6 = place (tokensOf acrossTags) 4 := by
    decide +kernel
  obtain ⟨p, q, hstretch⟩ := exists_stretch hdoc
  obtain ⟨i, hlast⟩ := hstretch.doc?_iff.mp hdoc
  obtain ⟨t, ht, hkind, -⟩ := hlast.within.token
  obtain rfl : i = 4 := honly i hlast.within.lt_length (by rw [ht, Option.map_some, hkind])
  obtain ⟨u, hu, hclose⟩ := Option.map_eq_some_iff.mp hclose
  exact ⟨p, q, 4, _, 5, u, hstretch, hlast, hdoc, by decide, hu,
    hplace ▸ hlast.within.place_le, hclose⟩

end SourceFile

end Introspect
