import Introspect.Proofs.Declaration.Parameters
import Introspect.Proofs.Declaration.WriteOnce
import Introspect.Proofs.Reading.Lines

/-!
# Well-formed classes

Whatever a file holds, the classes that are read from it are well formed. Of members with the same
name one is kept, parameters know their positions, and lines nest: a member lies inside its class,
methods follow each other, and so do classes.

* `Class.WellFormed` is what is said of a single class;
* `Sound last n d s` is what holds of a draft while its class is read from line `n` on. Every write
  to a draft keeps it (`Sound.addMethod`, `Sound.addProperty`, `Sound.addConstant`), and so does
  every routine of the body (`BodySound`);
* `Finished` is what holds of the draft of a class behind its end, and `Published` of a file whose
  classes have been read so far;
* `classes_wellFormed` puts these together for a whole file.
-/

namespace Introspect

/-- **Well-formed classes.** Members have different names, parameters know their positions, and
members lie inside the class. -/
structure Class.WellFormed (c : Class) : Prop where
  methods_distinct : c.methods.Pairwise fun m m' => m.key ≠ m'.key
  properties_distinct : c.properties.Pairwise fun p p' => p.name ≠ p'.name
  constants_distinct : c.constants.Pairwise fun k k' => k.name ≠ k'.name
  interfaces_distinct : c.interfaceNames.Pairwise fun i i' => Name.lookupKey i ≠ Name.lookupKey i'
  positions : ∀ m ∈ c.methods, ∀ (i : Nat) (p : Parameter), m.parameters[i]? = some p →
    p.position = i
  one_le_startLine : 1 ≤ c.startLine
  startLine_le : c.startLine ≤ c.endLine
  method_lines : ∀ m ∈ c.methods,
    c.startLine ≤ m.startLine ∧ m.startLine ≤ m.endLine ∧ m.endLine ≤ c.endLine
  property_lines : ∀ p ∈ c.properties,
    c.startLine ≤ p.startLine ∧ p.startLine ≤ p.endLine ∧ p.endLine ≤ c.endLine
  methods_ordered : c.methods.Pairwise fun m m' => m.endLine ≤ m'.startLine

namespace Reading

/-! ### Drafts in the making -/

/-- **Sound drafts.** What holds of the draft of a class that began on line `n` while its body is
read. -/
structure Sound (last n : Nat) (d : ClassDraft) (s : State) : Prop where
  lines : Lines last n s
  le_last : n ≤ last
  startLine_eq : d.startLine = some n
  endLine_eq : d.endLine = none
  methods_placed : ∀ m ∈ d.methods, Placed last n m.startLine m.endLine s
  properties_placed : ∀ p ∈ d.properties, Placed last n p.startLine p.endLine s
  methods_ordered : d.methods.Pairwise fun m m' => m.endLine.getD 0 ≤ m'.startLine.getD 0
  methods_distinct : d.methods.Pairwise fun m m' => Text.foldCase m.name ≠ Text.foldCase m'.name
  properties_distinct : d.properties.Pairwise fun p p' => p.name ≠ p'.name
  constants_distinct : d.constants.Pairwise fun c c' => c.name ≠ c'.name
  interfaces_distinct : d.interfaceNames.Pairwise fun i i' => Name.lookupKey i ≠ Name.lookupKey i'

section Sound

variable {last n : Nat} {d d' : ClassDraft} {s : State}

theorem Sound.stable : Stable (Sound last n d) := fun _ _ h hreads =>
  { h with
    lines := h.lines.of_reads hreads
    methods_placed := fun m hm => Placed.stable (h.methods_placed m hm) hreads
    properties_placed := fun p hp => Placed.stable (h.properties_placed p hp) hreads }

/-- A class begins without members. -/
theorem Sound.of_empty (hlines : Lines last n s) (hlast : n ≤ last) (hstart : d.startLine = some n)
    (hend : d.endLine = none) (hmethods : d.methods = []) (hproperties : d.properties = [])
    (hconstants : d.constants = []) (hinterfaces : d.interfaceNames = []) : Sound last n d s where
  lines := hlines
  le_last := hlast
  startLine_eq := hstart
  endLine_eq := hend
  methods_placed := by simp [hmethods]
  properties_placed := by simp [hproperties]
  methods_ordered := by simp [hmethods]
  methods_distinct := by simp [hmethods]
  properties_distinct := by simp [hproperties]
  constants_distinct := by simp [hconstants]
  interfaces_distinct := by simp [hinterfaces]

/-- What is reported changes no lines. -/
theorem Placed.report {k : Nat} {a z : Option Nat} (h : Placed last k a z s) (e : Diagnostic) :
    Placed last k a z (s.report e) := by
  obtain ⟨i, j, ha, hz, hi, hij, hj, hlines⟩ := h
  exact ⟨i, j, ha, hz, hi, hij, hj, hlines.report e⟩

theorem Placed.mono {k l : Nat} {a z : Option Nat} (h : Placed last k a z s) (hl : l ≤ k) :
    Placed last l a z s := by
  obtain ⟨i, j, ha, hz, hi, hrest⟩ := h
  exact ⟨i, j, ha, hz, hl.trans hi, hrest⟩

theorem Sound.report (h : Sound last n d s) (e : Diagnostic) : Sound last n d (s.report e) :=
  { h with
    lines := h.lines.report e
    methods_placed := fun m hm => (h.methods_placed m hm).report e
    properties_placed := fun p hp => (h.properties_placed p hp).report e }

/-- A relation between all elements of a list holds of one more if it holds of that one with those
before it. -/
theorem pairwise_concat {α : Type} {r : α → α → Prop} {l : List α} {a : α} (h : l.Pairwise r)
    (ha : ∀ b ∈ l, r b a) : (l ++ [a]).Pairwise r := by
  rw [List.pairwise_append]
  refine ⟨h, List.pairwise_singleton r a, fun b hb c hc => ?_⟩
  rw [List.mem_singleton.mp hc]
  exact ha b hb

/-- A method that follows all others, and has another name, may be added. -/
theorem Sound.addMethod {m : MethodDraft} (h : Sound last n d s)
    (hplaced : Placed last n m.startLine m.endLine s)
    (hafter : ∀ m' ∈ d.methods, m'.endLine.getD 0 ≤ m.startLine.getD 0)
    (hadd : d.addMethod m = .ok d') : Sound last n d' s := by
  obtain ⟨hname, rfl⟩ := ClassDraft.of_addMethod hadd
  have hnew : ∀ m' ∈ d.methods, Text.foldCase m'.name ≠ Text.foldCase m.name := by
    intro m' hm' heq
    have hany : d.hasMethod m.name = true :=
      List.any_eq_true.mpr ⟨m', hm', Text.eqIgnoringCase_iff.mpr heq⟩
    rw [hname] at hany
    exact absurd hany (by decide)
  exact
    { h with
      methods_placed := by
        intro m' hm'
        rcases List.mem_append.mp hm' with hm' | hm'
        · exact h.methods_placed m' hm'
        · rw [List.mem_singleton.mp hm']
          exact hplaced
      methods_ordered := pairwise_concat h.methods_ordered hafter
      methods_distinct := pairwise_concat h.methods_distinct hnew }

theorem Sound.addProperty {p : PropertyDraft} (h : Sound last n d s)
    (hplaced : Placed last n p.startLine p.endLine s) (hadd : d.addProperty p = .ok d') :
    Sound last n d' s := by
  obtain ⟨hname, rfl⟩ := ClassDraft.of_addProperty hadd
  have hnew : ∀ p' ∈ d.properties, p'.name ≠ p.name := by
    intro p' hp' heq
    have hany : d.hasProperty p.name = true := List.any_eq_true.mpr ⟨p', hp', by simpa using heq⟩
    rw [hname] at hany
    exact absurd hany (by decide)
  exact
    { h with
      properties_placed := by
        intro p' hp'
        rcases List.mem_append.mp hp' with hp' | hp'
        · exact h.properties_placed p' hp'
        · rw [List.mem_singleton.mp hp']
          exact hplaced
      properties_distinct := pairwise_concat h.properties_distinct hnew }

theorem Sound.addConstant {c : Constant} (h : Sound last n d s) (hadd : d.addConstant c = .ok d') :
    Sound last n d' s := by
  obtain ⟨hnew, rfl⟩ := ClassDraft.of_addConstant hadd
  exact { h with constants_distinct := pairwise_concat h.constants_distinct hnew }

theorem Sound.addInterface (h : Sound last n d s) (name : String) :
    Sound last n (d.addInterface name) s := by
  unfold ClassDraft.addInterface
  split_ifs with hany
  · exact h
  · refine { h with
      interfaces_distinct := pairwise_concat h.interfaces_distinct fun i hi heq => ?_ }
    exact hany (List.any_eq_true.mpr ⟨i, hi, by simpa using heq⟩)

end Sound

/-! ### Bodies -/

/-- The draft of a body is sound where its reading stands. -/
def BodySound (last n : Nat) (b : Body) : Prop := Sound last n b.draft b.toState

/-- A member begins on a line: it lies behind the beginning of the class and behind all methods. -/
structure Ready (last n line : Nat) (d : ClassDraft) (s : State) : Prop where
  sound : Sound last n d s
  le_line : n ≤ line
  lines : Lines last line s
  after : ∀ m ∈ d.methods, m.endLine.getD 0 ≤ line

theorem Ready.stable {last n line : Nat} {d : ClassDraft} : Stable (Ready last n line d) :=
  fun _ _ h hreads =>
    { h with sound := Sound.stable h.sound hreads, lines := h.lines.of_reads hreads }

/-- A routine that keeps the draft sound, whether it yields or gives up. -/
abbrev KeepsSound {α : Type} (last n : Nat) (r : BodyRoutine α) : Prop :=
  KeepsBody (Sound last n) r

namespace BodySound

variable {last n line : Nat} {α : Type}

theorem invariant : BodyInvariant (Sound last n) :=
  ⟨fun _ => Sound.stable, fun _ _ e h => h.report e⟩

theorem pure {a : α} : KeepsSound last n (Pure.pure a) := KeepsBody.pure

theorem get : KeepsSound last n get := KeepsBody.get

theorem reading {r : Routine α} {good : State → α → Prop} (hr : ∀ s, Forward s (good s) r) :
    KeepsSound last n (reading r) :=
  invariant.reading hr

/-- Reading on, a member that has begun stays where it is. -/
theorem reading_ready {r : Routine α} {good : State → α → Prop} (hr : ∀ s, Forward s (good s) r) :
    Meets (fun b : Body => Ready last n line b.draft b.toState) (Reading.reading r)
      (fun _ b => Ready last n line b.draft b.toState) (fun _ => BodySound last n) := by
  refine Meets.reading_draft fun d => ?_
  exact (Ready.stable.meets hr).weaken (fun _ h => h) (fun _ _ h => h) fun _ _ h => h.sound

/-- A write to the class. `p` is what the write rests on, and `q` what is needed behind it. -/
theorem adding {span : Span} {f : ClassDraft → Except DraftError ClassDraft} {p : Body → Prop}
    {q : State → Prop} {bad : Diagnostic → Body → Prop} (hpq : ∀ b, p b → q b.toState)
    (hq : ∀ s e, q s → q (s.report e))
    (hf : ∀ b d', BodySound last n b → p b → f b.draft = .ok d' → Sound last n d' b.toState) :
    Meets (fun b => BodySound last n b ∧ p b) (adding span f)
      (fun _ b => BodySound last n b ∧ q b.toState) bad :=
  Meets.adding (fun b d' h hadd => ⟨hf b d' h.1 h.2 hadd, hpq b h.2⟩)
    fun b e h => ⟨Sound.report h.1 e, hq b.toState e (hpq b h.2)⟩

/-- A method that begins on a line, with the properties that its parameters declare. -/
theorem method (cfg : Setting) (mods : Modifiers) (doc : Option String) :
    Meets (fun b : Body => Ready last n line b.draft b.toState) (method cfg mods doc line)
      (fun _ => BodySound last n) (fun _ => BodySound last n) := by
  refine Meets.bind (Meets.get.to_post fun _ _ h => h.2) fun b₀ => ?_
  -- reading the method leaves the draft of the class, and places the method behind its line
  have hdraft : ∀ d, Meets (Ready last n line d) (methodDraft cfg b₀.draft mods doc line)
      (fun p s => Ready last n line d s ∧ p.1.startLine = some line ∧
        Placed last n p.1.startLine p.1.endLine s ∧
        ∀ q ∈ p.2.2, Placed last n q.startLine q.endLine s)
      (fun _ => Sound last n d) := by
    intro d
    refine (Ready.stable.frame (fun _ => Forward.methodDraft _ _ _ _ _)
      (Lines.methodDraft _ _ _ _)).weaken (fun _ h => ⟨h.lines, h⟩) ?_ fun _ _ h => h.2.sound
    rintro p s ⟨⟨⟨hstart, hplaced⟩, hpromoted⟩, h⟩
    exact ⟨h, hstart, hplaced.mono h.le_line, fun q hq => (hpromoted q hq).mono h.le_line⟩
  refine Meets.bind (Meets.reading_draft hdraft) fun (m, name, promoted) => ?_
  -- the properties that parameters declare are added behind the method
  let placed : State → Prop := fun s => ∀ q ∈ promoted, Placed last n q.startLine q.endLine s
  have hreport : ∀ s e, placed s → placed (s.report e) := fun s e h q hq => (h q hq).report e
  refine Meets.bind ((adding (q := placed) (fun _ h => h.2.2.2) hreport ?_).of_pre
    fun b h => ⟨h.1.sound, h⟩) fun _ => ?_
  · rintro b d' - ⟨hready, hstart, hplaced, -⟩ hadd
    refine hready.sound.addMethod hplaced (fun m' hm' => ?_) hadd
    rw [hstart]
    exact hready.after m' hm'
  · refine Meets.ite (fun _ => ?_) fun _ => Meets.pure fun _ h => h.1
    refine (Meets.forM fun p hp => ?_).to_post fun _ _ h => h.1
    refine adding (fun _ h => h) hreport fun b d' hb hplaced hadd => ?_
    exact hb.addProperty (hplaced p hp) hadd

/-- The properties of a declaration, of which the first begins on the given line. -/
theorem properties (cfg : Setting) (mods : Modifiers) (declared : Option TypeHint)
    (doc : Option String) :
    Meets (fun b : Body => Ready last n line b.draft b.toState)
      (properties cfg mods declared doc line) (fun _ => BodySound last n)
      (fun _ => BodySound last n) := by
  refine Meets.bind (Meets.get.to_post fun _ _ h => h.2) fun b₀ => ?_
  extract_lets documented hint
  -- every variable begins on a line behind the beginning of the class
  let begun : Option String × Nat → Body → Prop := fun p b =>
    BodySound last n b ∧ n ≤ p.2 ∧ Lines last p.2 b.toState
  refine Meets.bind (Meets.discard ((Meets.iterate_same (I := begun) (fun (doc, line) => ?_)
    (doc, line)).weaken (fun _ h => ⟨h.sound, h.le_line, h.lines⟩) (fun _ _ h => h.1)
    fun _ _ h => h)) fun _ => Meets.discard (reading fun _ => Forward.expect _)
  refine Meets.assuming (fun _ h => h.2.1) fun hline => ?_
  have hstable : ∀ d, Stable fun s => Sound last n d s ∧ Lines last line s :=
    fun d s s' h hreads => ⟨Sound.stable h.1 hreads, h.2.of_reads hreads⟩
  have hdraft : ∀ d, Meets (fun s => Sound last n d s ∧ Lines last line s)
      (propertyDraft cfg mods hint doc line)
      (fun p s => Sound last n d s ∧ Lines last line s ∧
        Placed last n p.1.startLine p.1.endLine s) (fun _ => Sound last n d) := by
    intro d
    refine ((hstable d).frame (fun _ => Forward.propertyDraft _ _ _ _ _)
      (Lines.propertyDraft _ _ _ _)).weaken (fun _ h => ⟨h.2, h⟩) ?_ fun _ _ h => h.2.1
    rintro p s ⟨hplaced, hsound, hlines⟩
    exact ⟨hsound, hlines, hplaced.mono hline⟩
  refine Meets.bind ((Meets.reading_draft hdraft).of_pre fun _ h => ⟨h.1, h.2.2⟩)
    fun (p, span) => ?_
  refine Meets.bind (adding (fun _ h => h.1) (fun _ e h => Lines.report h e) ?_) fun _ => ?_
  · rintro b d' hb ⟨-, hplaced⟩ hadd
    exact hb.addProperty hplaced hadd
  refine Meets.bind (Meets.reading_draft fun d => ((hstable d).meets fun _ =>
    Forward.comma).weaken (fun _ h => h) (fun _ _ h => h) fun _ _ h => h.1) fun more => ?_
  refine Meets.ite (fun _ => ?_) fun _ => Meets.pure fun _ h => ⟨h.1, hline, h.2⟩
  refine Meets.bind Meets.get fun b => Meets.pure ?_
  rintro b' ⟨rfl, hsound, -⟩
  exact ⟨hsound, hsound.lines.le_peek, hsound.lines.from_peek⟩

theorem constants (cfg : Setting) (mods : Modifiers) : KeepsSound last n (constants cfg mods) := by
  rw [constants_eq]
  refine Meets.bind (Meets.discard (reading fun _ => Forward.expect _)) fun _ => ?_
  refine Meets.bind get fun b => ?_
  have htype : KeepsSound last n (constantType? cfg b) :=
    Meets.ite (fun _ => pure) fun _ => Meets.map_same (reading fun _ => Forward.typeHint _)
  refine Meets.bind htype fun hint => ?_
  refine Meets.bind (Meets.discard ?_) fun _ =>
    Meets.discard (reading fun _ => Forward.expect _)
  refine Meets.iterate_same (I := fun _ => BodySound last n) (fun _ => ?_) ()
  refine Meets.bind (reading fun _ => Forward.constantDraft _ _ _) fun (c, span) => ?_
  refine Meets.bind ((adding (p := fun _ => True) (q := fun _ => True) (fun _ _ => trivial)
    (fun _ _ _ => trivial) fun b d' hb _ hadd => hb.addConstant hadd).weaken
      (fun _ h => ⟨h, trivial⟩) (fun _ _ h => h.1) fun _ _ h => h) fun _ => ?_
  exact Meets.bind (reading fun _ => Forward.comma) fun _ => pure

theorem modifiedMember (cfg : Setting) (mods : Modifiers) (doc : Option String) :
    Meets (fun b : Body => Ready last n line b.draft b.toState) (modifiedMember cfg mods doc line)
      (fun _ => BodySound last n) (fun _ => BodySound last n) := by
  refine Meets.bind (Meets.get.to_post fun _ _ h => h.2) fun b₀ => ?_
  refine Meets.ite (fun _ => method cfg mods doc) fun _ => ?_
  refine Meets.ite (fun _ => (constants cfg mods).of_pre fun _ h => h.sound) fun _ => ?_
  refine Meets.ite (fun _ => properties cfg mods none doc) fun _ => ?_
  refine Meets.ite (fun _ => ?_) fun _ => Meets.throw fun _ h => h.sound
  refine Meets.bind (Meets.get.to_post fun _ _ h => h.2) fun _ => ?_
  exact Meets.bind (reading_ready fun _ => Forward.typeHint _) fun _ => properties _ _ _ _

/-- A member begins on the line of the next token. -/
theorem ready_peek {b : Body} (h : BodySound last n b) :
    Ready last n b.peek.span.line b.draft b.toState where
  sound := h
  le_line := Lines.le_peek (Sound.lines h)
  lines := Lines.from_peek (Sound.lines h)
  after := by
    intro m hm
    obtain ⟨i, j, -, hend, -, -, -, hlines⟩ := Sound.methods_placed h m hm
    rw [hend]
    exact hlines.le_peek

theorem member (cfg : Setting) : KeepsSound last n (member cfg) := by
  refine Meets.bind get fun _ => ?_
  refine Meets.bind (reading fun _ => Forward.skipAttributes) fun _ => ?_
  refine Meets.bind get fun b => ?_
  split
  · exact reading fun _ =>
      Keeps.bind (Keeps.discard Forward.advance) fun _ _ => Forward.skipStatement
  · exact Meets.discard (reading fun _ => Forward.advance)
  · refine Meets.bind (reading fun _ => Forward.docSince _) fun _ => ?_
    refine Meets.bind Meets.get fun first => ?_
    refine Meets.bind ((reading_ready fun _ => Forward.modifiers).of_pre ?_) fun _ =>
      modifiedMember _ _ _
    rintro b ⟨rfl, h⟩
    exact ready_peek h

theorem classBody (cfg : Setting) : KeepsSound last n (classBody cfg) :=
  invariant.classBody (member cfg)

end BodySound

/-! ### Classes -/

/-- **Finished drafts.** What holds of the draft of a class that began on line `n` and ended on line
`z`: it was sound up to its end, nothing that was read before reaches behind `z`, and the lines
behind `z` are left. -/
def Finished (last n z : Nat) (d : ClassDraft) (s : State) : Prop :=
  ∃ d₀ s₀, Sound last n d₀ s₀ ∧ d = { d₀ with endLine := some z } ∧
    (∀ j ≤ last, Lines last j s₀ → j ≤ z) ∧ Lines last z s

section Classes

variable {last n : Nat} {d : ClassDraft} {s : State} {start : List Entry}

theorem classDraft_sound (file : SourceFile) (start : List Entry) :
    Meets (fun s => s.peek.span.line = n ∧ n ≤ last ∧ Lines last n s) (classDraft file start)
      (fun p => Sound last n p.1) (fun _ _ => True) := by
  rw [classDraft_eq]
  refine Meets.bind Meets.peek fun first => ?_
  refine Meets.assuming (p := first.span.line = n ∧ n ≤ last)
    (fun s h => ⟨by rw [h.1]; exact h.2.1, h.2.2.1⟩) fun ⟨hline, hlast⟩ => ?_
  refine Meets.of_pre ?_ fun s h => h.2.2.2
  have hlines : ∀ {α : Type} {r : Routine α} {good : State → α → Prop},
      (∀ s, Forward s (good s) r) →
        Meets (Lines last n) r (fun _ => Lines last n) fun _ _ => True :=
    fun hr => (Lines.stable.meets hr).weaken (fun _ h => h) (fun _ _ h => h) fun _ _ _ => trivial
  refine Meets.bind (hlines fun _ => Forward.classFlags) fun flags => ?_
  refine Meets.bind (hlines fun _ => Forward.docSince _) fun doc => ?_
  refine Meets.bind (hlines fun _ => Forward.advance) fun name => ?_
  refine Meets.bind (Meets.get.to_post fun _ _ h => h.2) fun s => ?_
  refine Meets.pure fun s h => ?_
  exact Sound.of_empty h hlast (congrArg some hline) rfl rfl rfl rfl rfl

theorem Sound.addInterfaces (h : Sound last n d s) (names : List String) :
    Sound last n (names.foldl ClassDraft.addInterface d) s := by
  induction names generalizing d with
  | nil => exact h
  | cons name names ih => exact ih (h.addInterface name)

theorem Sound.meets {α : Type} {r : Routine α} {good : State → α → Prop}
    (hr : ∀ s, Forward s (good s) r) :
    Meets (Sound last n d) r (fun _ => Sound last n d) (fun _ _ => True) :=
  (Sound.stable.meets hr).weaken (fun _ h => h) (fun _ _ h => h) fun _ _ _ => trivial

theorem interfaceList_sound (resolver : Resolver) (d : ClassDraft) :
    Meets (Sound last n d) (interfaceList resolver d) (Sound last n) (fun _ _ => True) := by
  refine Meets.bind (Sound.meets fun _ => Forward.listOf (Forward.className _) Forward.comma)
    fun names => ?_
  exact Meets.pure fun _ h => h.addInterfaces names

theorem classHeader_sound (resolver : Resolver) (d : ClassDraft) :
    Meets (Sound last n d) (classHeader resolver d) (Sound last n) (fun _ _ => True) := by
  have hextends : Meets (Sound last n d) (extendsClause resolver d) (Sound last n)
      (fun _ _ => True) := by
    refine Meets.bind (Sound.meets fun _ => Forward.eat _) fun o => ?_
    refine Meets.ite (fun _ => Meets.pure fun _ h => h) fun _ => ?_
    refine Meets.ite (fun _ => interfaceList_sound _ _) fun _ => ?_
    refine Meets.bind (Sound.meets fun _ => Forward.peek) fun _ => ?_
    refine Meets.bind (Sound.meets fun _ => Forward.className _) fun parent => ?_
    refine Meets.write_either (fun d' s hok h => ?_) fun s e h => h.report e
    rw [ClassDraft.of_writeParent hok]
    exact { h with }
  have himplements : ∀ d, Meets (Sound last n d) (implementsClause resolver d) (Sound last n)
      (fun _ _ => True) := fun d =>
    Meets.bind (Sound.meets fun _ => Forward.eat _) fun o =>
      Meets.ite (fun _ => interfaceList_sound _ _) fun _ => Meets.pure fun _ h => h
  rw [classHeader_eq]
  refine Meets.bind hextends fun d => ?_
  refine Meets.bind (himplements d) fun d => ?_
  exact Meets.bind (Meets.discard (Sound.meets fun _ => Forward.expect _)) fun _ =>
    Meets.pure fun _ h => h

/-- The body of a class is read up to a closing brace or the end of the file. -/
theorem classMembers_sound (cfg : Setting) (d : ClassDraft) :
    Meets (Sound last n d) (classMembers cfg d)
      (fun d' s => Sound last n d' s ∧ (s.rest = [] ∨ s.peek.kind = .rightBrace))
      (fun _ _ => True) := by
  intro s h
  have hsound : BodySound last n { s with draft := d } := h
  unfold Reading.classMembers
  -- the body keeps the draft sound, and stops at the brace or where nothing is left
  cases hbody : classBody cfg { s with draft := d } with
  | error e b => trivial
  | ok u b =>
    have hb := (BodySound.classBody cfg).of_ok hsound hbody
    refine ⟨hb, ?_⟩
    rcases ((BodyWalks.classBody cfg).of_ok (Along.refl s) hbody).2 with hnil | hright | hend
    · exact .inl hnil
    · exact .inr hright
    · exact .inl (hb.lines.rest_eq_nil hend)

/-- A class ends with its closing brace, or with the last token of the file. -/
theorem classEnd_finished (hlast : lastLine start = last) (header : Span) (d : ClassDraft) :
    Meets (fun s => Sound last n d s ∧ (s.rest = [] ∨ s.peek.kind = .rightBrace))
      (classEnd start header d) (fun d' s => ∃ z, Finished last n z d' s) (fun _ _ => True) := by
  rintro s ⟨h, hend⟩
  by_cases hk : s.peek.kind = .rightBrace
  · -- the brace ends the class
    have hwrite : d.writeEndLine s.peek.span.endLine
        = .ok { d with endLine := some s.peek.span.endLine } := by
      rw [ClassDraft.writeEndLine, h.endLine_eq]
      rfl
    have hrun : Yields (classEnd start header d) s _ s.advance :=
      Yields.bind (Yields.expect hk).attempt (Yields.write hwrite)
    have hbehind := h.lines.advance_behind (by rw [hk]; decide)
    rw [hrun]
    refine ⟨_, d, s, h, rfl, fun j _ hj => ?_, hbehind.lines⟩
    exact hj.le_peek.trans hbehind.line_le
  · -- without a brace, the class ends with the file
    have hnil := hend.resolve_right hk
    obtain ⟨e, hfails⟩ := Fails.expect hk
    have hwrite : d.writeEndLine last = .ok { d with endLine := some last } := by
      rw [ClassDraft.writeEndLine, h.endLine_eq]
      rfl
    have hrun : Yields (classEnd start header d) s { d with endLine := some last }
        (s.report e) := by
      refine Yields.bind hfails.attempt (Yields.bind .modify ?_)
      rw [← hlast] at hwrite ⊢
      exact Yields.write hwrite
    rw [hrun]
    exact ⟨last, d, s, h, rfl, fun j hj _ => hj, (h.lines.at_end hnil).report e⟩

/-- **A class that is read** is finished, and begins on the line of its first token. -/
theorem classDeclaration_finished (file : SourceFile) (hlast : lastLine start = last) :
    Meets (fun s => s.peek.span.line = n ∧ n ≤ last ∧ Lines last n s) (classDeclaration file start)
      (fun o s => ∀ c ∈ o, ∃ z, Finished last n z c.1 s) (fun _ _ => True) := by
  refine Meets.bind (classDraft_sound file start) fun (d, name, header) => ?_
  refine Meets.bind (Meets.attempt (classHeader_sound _ _)) fun r => ?_
  cases r with
  | error e =>
    -- a class without a header is passed over
    refine Meets.bind Meets.any fun _ => ?_
    exact Meets.bind Meets.any fun _ => Meets.pure fun _ _ => nofun
  | ok d =>
    refine Meets.bind (classMembers_sound _ _) fun d => ?_
    refine Meets.bind (classEnd_finished hlast header d) fun d => Meets.pure fun s h c hc => ?_
    rw [← Option.mem_some.mp hc]
    exact h

/-- A declaration that was placed in a finished class lies inside of it. -/
theorem Placed.inside {z : Nat} {a e : Option Nat} (h : Placed last n a e s)
    (hz : ∀ j ≤ last, Lines last j s → j ≤ z) :
    n ≤ a.getD 0 ∧ a.getD 0 ≤ e.getD (a.getD 0) ∧ e.getD (a.getD 0) ≤ z := by
  obtain ⟨i, j, rfl, rfl, hi, hij, hj, hlines⟩ := h
  exact ⟨hi, hij, hz j hj hlines⟩

/-- A finished draft builds a well-formed class. -/
theorem Finished.wellFormed {z : Nat} (h : Finished last n z d s) (hn : 1 ≤ n) (linked : Bool) :
    (d.build linked).WellFormed ∧ (d.build linked).startLine = n ∧
      (d.build linked).endLine = z := by
  obtain ⟨d₀, s₀, hsound, rfl, hz, -⟩ := h
  have hstart : (ClassDraft.build { d₀ with endLine := some z } linked).startLine = n := by
    show d₀.startLine.getD 0 = n
    rw [hsound.startLine_eq, Option.getD_some]
  refine ⟨?_, hstart, rfl⟩
  exact
    { methods_distinct := List.pairwise_map.mpr hsound.methods_distinct
      properties_distinct := List.pairwise_map.mpr hsound.properties_distinct
      constants_distinct := hsound.constants_distinct
      interfaces_distinct := hsound.interfaces_distinct
      positions := by
        -- a parameter gets its position when its method is built
        intro m hm i p hp
        obtain ⟨m₀, -, rfl⟩ := List.mem_map.mp hm
        exact ParameterDraft.position_of_getElem?_buildAll hp
      one_le_startLine := hstart ▸ hn
      startLine_le := hstart ▸ hz n hsound.le_last hsound.lines
      method_lines := by
        intro m hm
        obtain ⟨m₀, hm₀, rfl⟩ := List.mem_map.mp hm
        rw [hstart]
        exact (hsound.methods_placed m₀ hm₀).inside hz
      property_lines := by
        intro p hp
        obtain ⟨p₀, hp₀, rfl⟩ := List.mem_map.mp hp
        rw [hstart]
        exact (hsound.properties_placed p₀ hp₀).inside hz
      methods_ordered := by
        refine List.pairwise_map.mpr (hsound.methods_ordered.imp_of_mem ?_)
        intro m m' hm _ hle
        obtain ⟨i, j, -, hj, -⟩ := hsound.methods_placed m hm
        -- a method that has been placed has an end line, so no other line counts for it
        show m.endLine.getD (m.startLine.getD 0) ≤ m'.startLine.getD 0
        rw [hj] at hle ⊢
        exact hle }

end Classes

/-! ### Files -/

/-- **Published classes.** What holds of the classes that have been read so far. -/
structure Published (last : Nat) (f : FileState) : Prop where
  lines : Lines last 1 f.toState
  lastLine_eq : f.rest ≠ [] → lastLine f.rest = last
  classes : ∀ c ∈ f.classes, c.WellFormed ∧ Lines last c.endLine f.toState
  ordered : f.classes.Pairwise fun c c' => c.key ≠ c'.key ∧ c.endLine ≤ c'.startLine
  declared_eq : f.declared.map (·.1) = f.classes.map Class.key

section Files

variable {last : Nat} {f g : FileState}

theorem lastLine_of_suffix {es es' : List Entry} (h : es' <:+ es) (hne : es' ≠ []) :
    lastLine es' = lastLine es := by
  obtain ⟨before, rfl⟩ := h
  rw [lastLine, lastLine, List.getLast?_append_of_ne_nil _ hne]

/-- Reading on without a class keeps what is published. -/
theorem Published.of_reads (h : Published last f) (hreads : Reads f.toState g.toState)
    (hclasses : g.classes = f.classes) (hdeclared : g.declared = f.declared) :
    Published last g where
  lines := h.lines.of_reads hreads
  lastLine_eq := by
    intro hne
    have hrest : f.rest ≠ [] := fun hnil => hne (List.suffix_nil.mp (hnil ▸ hreads.suffix))
    rw [lastLine_of_suffix hreads.suffix hne, h.lastLine_eq hrest]
  classes := by
    intro c hc
    rw [hclasses] at hc
    obtain ⟨hwell, hlines⟩ := h.classes c hc
    exact ⟨hwell, hlines.of_reads hreads⟩
  ordered := hclasses ▸ h.ordered
  declared_eq := by rw [hclasses, hdeclared, h.declared_eq]

/-- A class is published behind those before it, under a key of its own. -/
theorem Published.publish {n z : Nat} {s : State} {d : ClassDraft} {file : SourceFile} {span : Span}
    (h : Published last f) (hfinished : Finished last n z d s) (hn : 1 ≤ n)
    (hafter : ∀ c ∈ f.classes, c.endLine ≤ n)
    (hreads : Reads f.toState (FileState.publish { f with toState := s } file d span).toState) :
    Published last (FileState.publish { f with toState := s } file d span) := by
  obtain ⟨hwell, hstart, hend⟩ := hfinished.wellFormed hn file.linked
  cases hlookup : f.declared.lookup (Name.lookupKey d.name) with
  | some earlier =>
    -- the key is taken, and the class reported or passed over in silence
    obtain ⟨hclasses, hdeclared⟩ :=
      FileState.publish_of_taken (f := { f with toState := s }) file span hlookup
    exact h.of_reads hreads hclasses hdeclared
  | none =>
    rw [FileState.publish_of_new (f := { f with toState := s }) file span hlookup] at hreads ⊢
    obtain ⟨d₀, s₀, -, -, -, hlines⟩ := hfinished
    have hs : Published last { f with toState := s } := h.of_reads hreads rfl rfl
    -- the keys of the published classes are those that are declared
    have hkey : ∀ c ∈ f.classes, c.key ≠ (d.build file.linked).key := by
      intro c hc heq
      have hmem : Name.lookupKey d.name ∈ f.declared.map (·.1) := by
        rw [h.declared_eq]
        exact List.mem_map.mpr ⟨c, hc, heq⟩
      obtain ⟨p, hp, hp'⟩ := List.mem_map.mp hmem
      exact absurd hp'.symm (by simpa using List.lookup_eq_none_iff.mp hlookup p hp)
    exact
      { hs with
        classes := by
          intro c hc
          rcases List.mem_append.mp hc with hc | hc
          · exact hs.classes c hc
          · rw [List.mem_singleton.mp hc, hend]
            exact ⟨hwell, hlines⟩
        ordered := by
          refine pairwise_concat hs.ordered fun c hc => ⟨hkey c hc, ?_⟩
          rw [hstart]
          exact hafter c hc
        declared_eq := by
          rw [List.map_append, List.map_append, hs.declared_eq]
          rfl }

/-- A class that is entered is published behind those before it. -/
theorem Published.readClass {s : State} {file : SourceFile} (h : Published last f)
    (henters : f.Enters s)
    (hreads : Reads f.toState (FileState.readClass { f with toState := s } file f.rest).toState) :
    Published last (FileState.readClass { f with toState := s } file f.rest) := by
  have hs : Reads f.toState s := henters.reads (Reads.refl _)
  have hrest : s.rest ≠ [] := fun hnil => by simpa [hnil, atClass] using henters.2
  have hlast : lastLine f.rest = last :=
    h.lastLine_eq fun hnil => hrest (List.suffix_nil.mp (hnil ▸ hs.suffix))
  have hlines : Lines last 1 s := h.lines.of_reads hs
  -- the classes in front have ended where this one begins
  have hafter : ∀ c ∈ f.classes, c.endLine ≤ s.peek.span.line := fun c hc =>
    ((h.classes c hc).2.of_reads hs).le_peek
  unfold FileState.readClass at hreads ⊢
  cases hres : classDeclaration file f.rest s with
  | error e s' =>
    simp only [hres] at hreads ⊢
    exact h.of_reads hreads rfl rfl
  | ok o s' =>
    have hclass := (classDeclaration_finished file hlast).of_ok
      ⟨rfl, hlines.peek_le_last hrest, hlines.from_peek⟩ hres
    cases o with
    | none =>
      simp only [hres] at hreads ⊢
      exact h.of_reads hreads rfl rfl
    | some c =>
      obtain ⟨z, hfinished⟩ := hclass c rfl
      simp only [hres] at hreads ⊢
      exact h.publish hfinished hlines.le_peek hafter hreads

/-- **One step** keeps the published classes well formed. -/
theorem Published.step (h : Published last f) (file : SourceFile) :
    Published last (f.step file) := by
  have hreads := (Reads.refl f.toState).step file
  by_cases henters : ∃ s, f.Enters s
  · obtain ⟨s, henters⟩ := henters
    rw [henters.step_eq] at hreads ⊢
    exact h.readClass henters hreads
  · -- only entering a class changes what is published
    have hnone : ∀ s, ¬ f.Enters s := fun s hs => henters ⟨s, hs⟩
    obtain ⟨hclasses, hdeclared⟩ := FileState.step_of_not_enters hnone
    exact h.of_reads hreads hclasses hdeclared

/-- **All steps** do. -/
theorem Published.finish (h : Published last f) (file : SourceFile) :
    Published last (f.finish file) :=
  FileState.finish_keeps (fun _ hf => hf.step file) h

end Files

end Reading

/-- **Well-formed descriptors.** Whatever a file holds and however its names are resolved, the
classes read from it are well formed, no two of them have the same key, and each begins where those
before it have ended. -/
theorem SourceFile.classes_wellFormed (file : SourceFile) :
    (∀ c ∈ file.read.1, c.WellFormed) ∧
      file.read.1.Pairwise fun c c' => c.key ≠ c'.key ∧ c.endLine ≤ c'.startLine := by
  have hstart : Reading.Published (Reading.lastLine (Reading.FileState.start file.text).rest)
      (Reading.FileState.start file.text) :=
    { lines := Reading.FileState.lines_start file.text
      lastLine_eq := fun _ => rfl
      classes := nofun
      ordered := .nil
      declared_eq := rfl }
  have hfinish := hstart.finish file
  exact ⟨fun c hc => (hfinish.classes c hc).1, hfinish.ordered⟩

end Introspect
