import Introspect.Proofs.Reading.DocTokens
import Introspect.Proofs.Reading.DocumentedClasses

/-!
# Stretches of declarations

A declaration takes its doc comment from a stretch of significant tokens: a class from its first
token to its name, a member from where it begins to the first token behind its attributes. The
stretches of a file do not meet. That of a class ends in front of its body, and that of a member in
front of a token that is consumed before the next member begins.

* `Documented` are the declarations that can be documented, and `Stretch` are their stretches;
* `ClassStretch` and `MemberStretch` are what is known of the two sorts, and `Stretch.split` says
  that a stretch is of one of them;
* `Stretch.disjoint`: a token belongs to the stretch of one declaration at most, and
  `Stretch.unique`: a declaration has one stretch at most.
-/

namespace Introspect.Reading

/-! ### Documented declarations -/

/-- **Declarations that can be documented,** by their indices: the class `k` of a file, and its
method `j` and its property `j`. -/
inductive Documented where
  | cls (k : Nat)
  | method (k j : Nat)
  | property (k j : Nat)
  deriving DecidableEq, Repr

/-- The index of the class. -/
@[simp]
def Documented.classIndex : Documented → Nat
  | cls k | method k _ | property k _ => k

/-- Whether it is a member of a class. -/
@[simp]
def Documented.isMember : Documented → Bool
  | cls _ => false
  | method _ _ | property _ _ => true

/-- The index of the member in its class. -/
@[simp]
def Documented.index : Documented → Nat
  | cls _ => 0
  | method _ j | property _ j => j

/-- The number of members of this sort that the class has. -/
@[simp]
def Documented.count : Documented → ClassDraft → Nat
  | cls _, _ => 0
  | method _ _, d => d.methods.length
  | property _ _, d => d.properties.length

theorem Grown.count_le {d d' : ClassDraft} {ms : List MethodDraft} {ps : List PropertyDraft}
    (h : Grown d ms ps d') (D : Documented) : D.count d ≤ D.count d' := by
  cases D <;> simp [h.methods_eq, h.properties_eq]

theorem Grown.count_eq {d d' : ClassDraft} (h : Grown d [] [] d') (D : Documented) :
    D.count d' = D.count d := by
  cases D <;> simp [h.methods_eq, h.properties_eq]

/-! ### Stretches -/

/-- **A member of a class.** In the body of the class `k` the reading comes to `b`, where a member
begins, and behind it, or where it has recovered from it, to `b'`. -/
structure MemberAt (file : SourceFile) (k : Nat) (b b' : Body) : Prop where
  inside : ∃ f name body, ClassAt file k f name body ∧ Body.Rounds (.ofFile file) body b
  round : Body.Round (.ofFile file) b b'

/-- **Stretches.** The declaration is documented with the last doc comment in front of any of the
significant tokens from `p` to `q`. -/
inductive Stretch (file : SourceFile) : Documented → Nat → Nat → Prop where
  /-- A class, from its first token to its name. -/
  | cls {k p q : Nat} {f : FileState} {name : State} {body : Body}
      (hat : ClassAt file k f name body) (hfrom : f.StandsAt (bufferOf file) p)
      (hto : name.StandsAt (bufferOf file) q) : Stretch file (.cls k) p q
  /-- A method, from where the member before it has ended to its first token behind attributes. -/
  | method {k j p q : Nat} {b b' : Body} {first s : State} {mods : Modifiers}
      (hat : MemberAt file k b b') (hbegins : MethodBegins b first s mods)
      (hindex : b.draft.methods.length = j) (hadded : j < b'.draft.methods.length)
      (hfrom : b.toState.StandsAt (bufferOf file) p) (hto : first.StandsAt (bufferOf file) q) :
      Stretch file (.method k j) p q
  /-- A property, likewise, if it is the one that the first variable of the member declares. -/
  | property {k j p q : Nat} {b b' : Body} {first s : State} {added : PropertyDraft}
      (hat : MemberAt file k b b') (hbegins : PropertyBegins (.ofFile file) b first s)
      (hindex : b.draft.properties.length = j) (hadded : b'.draft.properties[j]? = some added)
      (hname : added.name = s.propertyName)
      (hfrom : b.toState.StandsAt (bufferOf file) p) (hto : first.StandsAt (bufferOf file) q) :
      Stretch file (.property k j) p q

section Positions

variable {buffer : Buffer} {s : State} {p q : Nat}

theorem State.StandsAt.unique (h : s.StandsAt buffer p) (h' : s.StandsAt buffer q) : p = q := by
  have hp := h.length_eq
  have hq := h'.length_eq
  omega

theorem State.From.le (h : s.From buffer p) (h' : s.StandsAt buffer q) : p ≤ q := by
  obtain ⟨r, hr, hs⟩ := h
  exact hs.unique h' ▸ hr

/-- In front of the end, a state has an entry in front of it. -/
theorem State.StandsAt.exists_entry (h : s.StandsAt buffer p) (hp : p < buffer.last) :
    ∃ e, buffer.entries[p]? = some e ∧ e.token = s.peek := by
  have hrest := h.rest_eq
  rw [List.drop_eq_getElem_cons hp] at hrest
  exact ⟨_, List.getElem?_eq_getElem hp, (State.peek_of_rest hrest).symm⟩

theorem State.StandsAt.advance (h : s.StandsAt buffer p) (hp : p < buffer.last) :
    s.advance.StandsAt buffer (p + 1) :=
  ⟨hp, by rw [State.rest_advance, h.rest_eq, List.tail_drop], h.eof_eq⟩

end Positions

/-! ### Stretches of classes -/

/-- **The stretch of a class,** which ends in front of its body. -/
structure ClassStretch (file : SourceFile) (k : Nat) (f : FileState) (name : State)
    (body last : Body) (d : ClassDraft) (p q : Nat) : Prop where
  hat : ClassAt file k f name body
  read : ClassRead file f name body last d
  standsAt : f.StandsAt (bufferOf file) p
  name_standsAt : name.StandsAt (bufferOf file) q
  le : p ≤ q
  lt_last : q < (bufferOf file).last
  body_from : body.toState.From (bufferOf file) (q + 1)

section Stretches

variable {file : SourceFile} {k p q p' q' n : Nat} {b b' c c' body body' last : Body}
  {first first' s name name' : State} {f f' : FileState} {d : ClassDraft} {D D' : Documented}

/-- Every class has a stretch. -/
theorem ClassAt.exists_stretch (hat : ClassAt file k f name body) :
    ∃ last d p q, ClassStretch file k f name body last d p q := by
  obtain ⟨last, d, hread⟩ := hat.read
  obtain ⟨p, hp⟩ := hat.visited.exists_standsAt
  obtain ⟨q, hq, hle, hlt, hbody⟩ := hread.exists_standsAt hp
  exact ⟨last, d, p, q, hat, hread, hp, hq, hle, hlt, hbody⟩

/-- The step that reads a class goes on behind its members. -/
theorem ClassStretch.step_from (h : ClassStretch file k f name body last d p q)
    (hb : Body.Rounds (.ofFile file) body b) (hn : b.toState.From (bufferOf file) n) :
    (f.step file).toState.From (bufferOf file) n :=
  State.From.stable (State.From.stable hn ((h.read.rounds_to_last hb).reads (Reads.refl _)))
    h.read.step_reads

/-! ### Stretches of members -/

/-- What a member declares is said by how it begins. -/
inductive DeclaresMember (cfg : Setting) (k : Nat) (b : Body) : Documented → Prop where
  | method {first s : State} {mods : Modifiers} (h : MethodBegins b first s mods) :
      DeclaresMember cfg k b (.method k b.draft.methods.length)
  | property {first s : State} (h : PropertyBegins cfg b first s) :
      DeclaresMember cfg k b (.property k b.draft.properties.length)

/-- What is declared is the next one of its sort. -/
theorem DeclaresMember.index_eq {cfg : Setting} (h : DeclaresMember cfg k b D) :
    D.index = D.count b.draft := by
  cases h <;> rfl

theorem DeclaresMember.unique {cfg : Setting} (h : DeclaresMember cfg k b D)
    (h' : DeclaresMember cfg k b D') : D = D' := by
  cases h with
  | method h =>
    cases h' with
    | method h' => rfl
    | property h' => exact absurd h' h.not_propertyBegins
  | property h =>
    cases h' with
    | method h' => exact absurd h h'.not_propertyBegins
    | property h' => rfl

/-- **The stretch of a member** that begins at `b`, behind its attributes at `first`. A token behind
the stretch is consumed with the member, and the doc comment is that of the stretch. -/
structure MemberStretch (file : SourceFile) (D : Documented) (b b' : Body) (first : State)
    (p q : Nat) : Prop where
  hat : MemberAt file D.classIndex b b'
  declares : DeclaresMember (.ofFile file) D.classIndex b D
  lt_count : D.index < D.count b'.draft
  attributes : Yields skipAttributes b.toState () first
  first_kind : beginsMember first.peek.kind = true
  standsAt : b.toState.StandsAt (bufferOf file) p
  first_standsAt : first.StandsAt (bufferOf file) q
  le : p ≤ q
  lt_last : q < (bufferOf file).last
  behind : b'.toState.From (bufferOf file) (q + 1)

/-- What has consumed the token that says what a member is, is behind its stretch. -/
theorem MemberBegins.stretch (h : MemberBegins b first s)
    (hat : MemberAt file D.classIndex b b') (hbehind : b'.rest <:+ s.rest.tail)
    (hdeclares : DeclaresMember (.ofFile file) D.classIndex b D) (hlt : D.index < D.count b'.draft)
    (hp : b.toState.StandsAt (bufferOf file) p) (hq : first.StandsAt (bufferOf file) q) :
    MemberStretch file D b b' first p q := by
  obtain ⟨r, hqr, hs⟩ := State.From.stable hq.here h.reads
  have hr : r < (bufferOf file).last := hs.lt_last (closed_bufferOf file) h.kind_ne
  have hround := State.From.stable hp.here (hat.round.reads (Reads.refl _))
  -- that the end of the round is behind `q` is seen from what remains there
  have hlength := hbehind.length_le
  have hslength := hs.length_eq
  refine ⟨hat, hdeclares, hlt, h.attributes, h.first_kind, hp, hq,
    (State.From.stable hp.here h.first_reads).le hq, by omega, ?_⟩
  rw [State.from_iff] at hround ⊢
  rw [List.length_tail] at hlength
  exact ⟨hround.1, hround.2.1, by omega⟩

/-- A stretch is that of a class or that of a member. -/
theorem Stretch.split (h : Stretch file D p q) :
    (∃ k f name body last d, D = .cls k ∧ ClassStretch file k f name body last d p q) ∨
      D.isMember = true ∧ ∃ b b' first, MemberStretch file D b b' first p q := by
  cases h with
  | @cls k _ _ f name body hat hfrom hto =>
    obtain ⟨last, d, p', q', hclass⟩ := hat.exists_stretch
    obtain rfl := hfrom.unique hclass.standsAt
    obtain rfl := hto.unique hclass.name_standsAt
    exact .inl ⟨k, f, name, body, last, d, rfl, hclass⟩
  | @method k j _ _ b b' first s mods hat hbegins hindex hadded hfrom hto =>
    -- the round has added a method, and a method begins in one way only
    obtain ⟨first', s', mods', m, hbegins', hbehind, -⟩ :=
      hat.round.method_added (hindex ▸ hadded)
    obtain ⟨rfl, rfl⟩ := hbegins.unique hbegins'
    exact .inr ⟨rfl, b, b', first, hbegins.memberBegins.stretch (D := .method k j) hat hbehind
      (hindex ▸ .method hbegins) hadded hfrom hto⟩
  | @property k j _ _ b b' first s added hat hbegins hindex hadded hname hfrom hto =>
    rcases hat.round.property_added hindex.le hadded with
      ⟨first', s', hbegins', hbehind, -⟩ | ⟨-, hother⟩
    · obtain ⟨rfl, rfl⟩ := hbegins.unique hbegins'
      exact .inr ⟨rfl, b, b', first, hbegins.memberBegins.stretch (D := .property k j) hat hbehind
        (hindex ▸ .property hbegins) (List.getElem?_eq_some_iff.mp hadded).1 hfrom hto⟩
    · exact absurd hname (hother first s hbegins)

/-- Of a member it is known how its stretch looks. -/
theorem Stretch.exists_member (h : Stretch file D p q) (hD : D.isMember = true) :
    ∃ b b' first, MemberStretch file D b b' first p q := by
  rcases h.split with ⟨_, _, _, _, _, _, rfl, -⟩ | ⟨-, hmember⟩
  · cases hD
  · exact hmember

theorem Stretch.bounds (h : Stretch file D p q) : p ≤ q ∧ q < (bufferOf file).last := by
  rcases h.split with ⟨k, f, name, body, last, d, rfl, hclass⟩ | ⟨-, b, b', first, hmember⟩
  · exact ⟨hclass.le, hclass.lt_last⟩
  · exact ⟨hmember.le, hmember.lt_last⟩

/-- Where a member begins, and where its attributes end, are positions. -/
theorem MemberAt.exists_positions (hat : MemberAt file k b b') (hbegins : MemberBegins b first s) :
    ∃ p q, b.toState.StandsAt (bufferOf file) p ∧ first.StandsAt (bufferOf file) q := by
  obtain ⟨f, name, body, hclass, hrounds⟩ := hat.inside
  obtain ⟨last, d, p₀, q₀, hclass⟩ := hclass.exists_stretch
  obtain ⟨p, -, hp⟩ := State.From.stable hclass.body_from (hrounds.reads (Reads.refl _))
  obtain ⟨q, -, hq⟩ := State.From.stable hp.here hbegins.first_reads
  exact ⟨p, q, hp, hq⟩

/-! ### Stretches do not meet -/

/-- The stretch of a member lies in the body of its class. -/
theorem MemberStretch.inside (h : MemberStretch file D b b' first p q) :
    ∃ f name body last d p₀ q₀, ClassStretch file D.classIndex f name body last d p₀ q₀ ∧ q₀ < p ∧
      (f.step file).toState.From (bufferOf file) (q + 1) := by
  obtain ⟨f, name, body, hat, hrounds⟩ := h.hat.inside
  obtain ⟨last, d, p₀, q₀, hclass⟩ := hat.exists_stretch
  have hb := State.From.stable hclass.body_from (hrounds.reads (Reads.refl _))
  exact ⟨f, name, body, last, d, p₀, q₀, hclass, hb.le h.standsAt,
    hclass.step_from (hrounds.tail h.hat.round) h.behind⟩

/-- A stretch begins with its class or behind it, and the class ends behind the stretch. -/
theorem Stretch.inside (h : Stretch file D p q) :
    ∃ f name body last d p₀ q₀, ClassStretch file D.classIndex f name body last d p₀ q₀ ∧ p₀ ≤ p ∧
      (f.step file).toState.From (bufferOf file) (q + 1) := by
  rcases h.split with ⟨k, f, name, body, last, d, rfl, hclass⟩ | ⟨-, b, b', first, hmember⟩
  · exact ⟨f, name, body, last, d, p, q, hclass, Nat.le_refl p,
      hclass.step_from .refl hclass.body_from⟩
  · obtain ⟨f, name, body, last, d, p₀, q₀, hclass, hlt, hstep⟩ := hmember.inside
    exact ⟨f, name, body, last, d, p₀, q₀, hclass, hclass.le.trans hlt.le, hstep⟩

/-- Classes that are read at different places do not overlap. -/
theorem Stretch.classIndex_eq (h : Stretch file D p q) (h' : Stretch file D' p' q')
    (hn : p ≤ n ∧ n ≤ q) (hn' : p' ≤ n ∧ n ≤ q') : D.classIndex = D'.classIndex := by
  obtain ⟨f, _, _, _, _, p₀, _, hclass, hp, hstep⟩ := h.inside
  obtain ⟨f', _, _, _, _, p₀', _, hclass', hp', hstep'⟩ := h'.inside
  -- of two classes, one ends before the other begins, and the token would be in both
  rcases hclass.hat.visited.trichotomy hclass'.hat.visited with rfl | hbehind | hbehind
  · exact hclass.hat.index_eq.symm.trans hclass'.hat.index_eq
  · have hle := (State.From.stable hstep hbehind.reads).le hclass'.standsAt
    omega
  · have hle := (State.From.stable hstep' hbehind.reads).le hclass.standsAt
    omega

/-- The stretch of a class ends in front of those of its members. -/
theorem ClassStretch.lt_member (h : ClassStretch file D.classIndex f name body last d p q)
    (h' : MemberStretch file D b b' first p' q') : q < p' := by
  obtain ⟨f', name', body', last', d', p₀, q₀, hclass, hlt, -⟩ := h'.inside
  obtain ⟨rfl, rfl, rfl⟩ := h.hat.unique hclass.hat
  exact h.name_standsAt.unique hclass.name_standsAt ▸ hlt

/-- Two members of a class stand in order, as the rounds do in which they are read. -/
theorem MemberAt.trichotomy (h : MemberAt file k b b') (h' : MemberAt file k c c') :
    b = c ∨ Body.Rounds (.ofFile file) b' c ∨ Body.Rounds (.ofFile file) c' b := by
  obtain ⟨f, name, body, hclass, hrounds⟩ := h.inside
  obtain ⟨f', name', body', hclass', hrounds'⟩ := h'.inside
  obtain ⟨rfl, rfl, rfl⟩ := hclass.unique hclass'
  exact hrounds.trichotomy h.round hrounds' h'.round

/-- Of two members, one is the other, or is consumed before the other begins. -/
theorem MemberStretch.apart (h : MemberStretch file D b b' first p q)
    (h' : MemberStretch file D' c c' first' p' q') (hclass : D.classIndex = D'.classIndex) :
    D = D' ∨ q < p' ∨ q' < p := by
  rcases h.hat.trichotomy (hclass ▸ h'.hat) with rfl | hbehind | hbehind
  · exact .inl (h.declares.unique (hclass ▸ h'.declares))
  · have hc := State.From.stable h.behind (hbehind.reads (Reads.refl _))
    exact .inr (.inl (hc.le h'.standsAt))
  · have hb := State.From.stable h'.behind (hbehind.reads (Reads.refl _))
    exact .inr (.inr (hb.le h.standsAt))

/-- **Stretches do not meet:** a token belongs to the stretch of one declaration at most. -/
theorem Stretch.disjoint (h : Stretch file D p q) (h' : Stretch file D' p' q')
    (hn : p ≤ n ∧ n ≤ q) (hn' : p' ≤ n ∧ n ≤ q') : D = D' := by
  have hclass := h.classIndex_eq h' hn hn'
  rcases h.split with ⟨k, f, name, body, last, d, rfl, hcls⟩ | ⟨-, b, b', first, hmember⟩ <;>
    rcases h'.split with ⟨k', f', name', body', last', d', rfl, hcls'⟩ |
      ⟨-, c, c', first', hmember'⟩
  · exact congrArg Documented.cls hclass
  · -- a class, and one of its members
    obtain rfl : k = D'.classIndex := hclass
    have hlt := hcls.lt_member hmember'
    omega
  · obtain rfl : k' = D.classIndex := hclass.symm
    have hlt := hcls'.lt_member hmember
    omega
  · -- two members of one class
    rcases hmember.apart hmember' hclass with heq | hlt | hlt
    · exact heq
    · omega
    · omega

/-- Behind a member there is one more of its sort. -/
theorem MemberStretch.not_rounds (h : MemberStretch file D b b' first p q)
    (h' : MemberStretch file D c c' first' p' q') : ¬ Body.Rounds (.ofFile file) b' c := by
  intro hrounds
  obtain ⟨ms, ps, hgrown⟩ := hrounds.grown
  have hle := hgrown.count_le D
  have hlt := h.lt_count
  have hindex := h'.declares.index_eq
  omega

/-- A declaration has one stretch only. -/
theorem Stretch.unique (h : Stretch file D p q) (h' : Stretch file D p' q') :
    p = p' ∧ q = q' := by
  rcases h.split with ⟨k, f, name, body, last, d, rfl, hcls⟩ | ⟨hD, b, b', first, hmember⟩ <;>
    rcases h'.split with ⟨k', f', name', body', last', d', hk, hcls'⟩ |
      ⟨hD', c, c', first', hmember'⟩
  · obtain rfl := Documented.cls.inj hk
    obtain ⟨rfl, rfl, rfl⟩ := hcls.hat.unique hcls'.hat
    exact ⟨hcls.standsAt.unique hcls'.standsAt, hcls.name_standsAt.unique hcls'.name_standsAt⟩
  · cases hD'
  · rw [hk] at hD
    cases hD
  · -- the same member is not added in two rounds
    rcases hmember.hat.trichotomy hmember'.hat with rfl | hc | hb
    · obtain ⟨-, rfl⟩ := hmember.attributes.unique hmember'.attributes
      exact ⟨hmember.standsAt.unique hmember'.standsAt,
        hmember.first_standsAt.unique hmember'.first_standsAt⟩
    · exact absurd hc (hmember.not_rounds hmember')
    · exact absurd hb (hmember'.not_rounds hmember)

end Stretches

end Introspect.Reading
