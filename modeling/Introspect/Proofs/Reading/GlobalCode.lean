import Introspect.Proofs.Reading.Classes
import Introspect.Proofs.Reading.Places
import Introspect.Proofs.Reading.Resolvers

/-!
# Two resolvers on one file

A file is read twice, once with every name as it is written and once with names resolved. If it is
in the global namespace, without imports, and refers to no class by a name that begins with the word
`namespace`, then both readings give the same classes and the same diagnostics, up to separators in
front of names.

* `GlobalTandem.classHeader`: parents and interfaces that are read are equal up to leading
  separators, since the names that are listed are plain;
* `FileState.Twins` is kept by one step of the reader (`FileState.Twins.step`) and so by all of them
  (`FileState.Twins.finish`);
* `SourceFile.resolvers_agree` puts the two readings side by side, and says that their classes
  answer alike in hierarchies of their own.
-/

namespace Introspect

namespace Reading

/-! ### Headers of classes -/

/-- A list of plain names begins here. -/
structure State.ListsPlain (s : State) : Prop where
  eof_kind : s.eof.kind = .endOfText
  plain : ∀ n ∈ listedNames s.rest, Name.Plain n

/-- The name that is read here is plain, and so are those that are listed behind it. -/
theorem className_plain :
    Meets State.ListsPlain (className .verbatim)
      (fun n s => Name.Plain n ∧ s.eof.kind = .endOfText ∧
        ∀ n ∈ furtherNames s.rest, Name.Plain n) (fun _ _ => True) := by
  intro s hs
  by_cases hk : s.peek.kind = .name
  · have hrun : Yields (className .verbatim) s s.peek.lexeme s.advance :=
      Yields.bind (.eat hk) (Yields.bind .get .pure)
    rw [hrun]
    cases hrest : s.rest with
    | nil =>
      -- the end of the file is no name
      rw [State.peek_of_rest_nil hrest, hs.eof_kind] at hk
      exact absurd hk (by decide)
    | cons e es =>
      have hplain := hs.plain
      have he : e.kind = .name := by rwa [State.peek_of_rest hrest] at hk
      rw [hrest, listedNames, if_pos he] at hplain
      refine ⟨?_, hs.eof_kind, fun n hn => ?_⟩
      · rw [State.peek_of_rest hrest]
        exact hplain _ List.mem_cons_self
      · rw [State.rest_advance, hrest, List.tail_cons] at hn
        exact hplain n (List.mem_cons_of_mem _ hn)
  · have hrun : Fails (className .verbatim) s (.expectedName s.peek.span s.peek.describe) s :=
      Yields.bind_fails (.eat_none hk) (Yields.bind_fails .peek .throw)
    rw [hrun]
    trivial

/-- Behind a comma, the list goes on. -/
theorem comma_plain :
    Meets (fun s => s.eof.kind = .endOfText ∧ ∀ n ∈ furtherNames s.rest, Name.Plain n) comma
      (fun more s => more = true → s.ListsPlain) (fun _ _ => True) := by
  rintro s ⟨heof, hplain⟩
  by_cases hk : s.peek.kind = .comma
  · have hrun : Yields comma s true s.advance := Yields.bind (.eat hk) .pure
    rw [hrun]
    refine fun _ => ⟨heof, fun n hn => ?_⟩
    cases hrest : s.rest with
    | nil =>
      rw [State.rest_advance, hrest] at hn
      exact absurd hn List.not_mem_nil
    | cons e es =>
      have he : e.kind = .comma := by rwa [State.peek_of_rest hrest] at hk
      rw [State.rest_advance, hrest, List.tail_cons] at hn
      rw [hrest, furtherNames, if_pos he] at hplain
      exact hplain n hn
  · have hrun : Yields comma s false s := Yields.bind (.eat_none hk) .pure
    rw [hrun]
    exact fun h => absurd h Bool.false_ne_true

/-- All names of a list are plain. -/
theorem nameList_plain :
    Meets State.ListsPlain (listOf (className .verbatim) comma)
      (fun names _ => ∀ n ∈ names, Name.Plain n) (fun _ _ => True) := by
  have hrounds : Meets (fun s => (∀ n ∈ ([] : List String), Name.Plain n) ∧ s.ListsPlain)
      (listOf (className .verbatim) comma) (fun names _ => ∀ n ∈ names, Name.Plain n)
      (fun _ _ => True) := by
    refine Meets.iterate (I := fun names (s : State) => (∀ n ∈ names, Name.Plain n) ∧ s.ListsPlain)
      (fun names s₀ => Meets.of_pre (Meets.given fun hnames => ?_) fun _ h => h.2) []
    -- one name, and whether there is another
    refine Meets.bind className_plain fun n => Meets.given fun hn => ?_
    refine Meets.bind comma_plain fun more => Meets.pure fun s hs => ?_
    have hall : ∀ m ∈ names ++ [n], Name.Plain m := by
      intro m hm
      rcases List.mem_append.mp hm with hm | hm
      · exact hnames m hm
      · rw [List.mem_singleton.mp hm]
        exact hn
    cases more with
    | false => exact hall
    | true => exact ⟨⟨hall, hs rfl⟩, .inr hall⟩
  exact hrounds.of_pre fun s hs => ⟨fun n hn => absurd hn List.not_mem_nil, hs⟩

/-- Behind the word `extends` or `implements` a list of plain names begins. -/
theorem State.Global.listsPlain {s t : State} {kind : Token.Kind} {o : Option Token}
    (hs : s.Global) (hkind : kind = .extendsWord ∨ kind = .implementsWord)
    (heat : Yields (eat kind) s o t) (hsome : o.isSome) : t.ListsPlain := by
  by_cases hk : s.peek.kind = kind
  · have hrun := Yields.eat hk
    rw [Yields, heat] at hrun
    obtain ⟨-, rfl⟩ := EStateM.Result.ok.inj hrun
    refine ⟨hs.eof_kind, fun n hn => hs.headers n ?_⟩
    cases hrest : s.rest with
    | nil =>
      rw [State.rest_advance, hrest] at hn
      exact absurd hn List.not_mem_nil
    | cons e es =>
      rw [State.rest_advance, hrest, List.tail_cons] at hn
      -- the word is consumed, and the names behind it are those of the header
      have he : e.kind = .extendsWord ∨ e.kind = .implementsWord := by
        have hek : e.kind = kind := by rwa [State.peek_of_rest hrest] at hk
        rwa [hek]
      rw [headerNames, if_pos he]
      exact List.mem_append_left _ hn
  · have hrun := Yields.eat_none hk
    rw [Yields, heat] at hrun
    obtain ⟨rfl, -⟩ := EStateM.Result.ok.inj hrun
    exact absurd hsome Bool.false_ne_true

namespace GlobalTandem

theorem className :
    GlobalTandem Name.Twins (className .verbatim) (Reading.className .namespaced) := by
  refine Tandem.bind (eat _) ?_
  rintro o _ rfl
  cases o with
  | none => exact Tandem.bind peek fun _ _ h => h ▸ Tandem.throw
  | some t =>
    refine Tandem.bind Tandem.get ?_
    rintro s _ ⟨rfl, hs⟩
    rw [hs.scope_eq]
    exact Tandem.pure (Name.twins_resolve t.lexeme)

/-- Where a list of plain names begins, the names that both readers add are equal up to leading
separators. -/
theorem interfaceList {s : State} (hs : s.Global) (hplain : s.ListsPlain) {d d' : ClassDraft}
    (hd : ClassDraft.Twins d d') :
    Paired (Shared State.Global) ClassDraft.Twins (interfaceList .verbatim d s)
      (Reading.interfaceList .namespaced d' s) := by
  refine Paired.bind (Tandem.listOf className comma s s ⟨rfl, hs⟩) ?_
  rintro names names' t t' hrun ht hnames
  refine ⟨ht, ?_⟩
  have hall := nameList_plain.of_ok hplain hrun
  clear hrun
  -- name by name
  induction hnames generalizing d d' with
  | nil => exact hd
  | @cons n n' _ _ hn _ ih =>
    refine ih (hd.addInterface (hn (hall n List.mem_cons_self))) fun m hm => ?_
    exact hall m (List.mem_cons_of_mem n hm)

/-- A parent is the first name of such a list. -/
theorem parent {s : State} (hs : s.Global) (hplain : s.ListsPlain) {d d' : ClassDraft}
    (hd : ClassDraft.Twins d d') (span : Span) :
    Paired (Shared State.Global) ClassDraft.Twins
      ((do let name ← Reading.className .verbatim
           Reading.write span d (·.writeParent name) : Routine ClassDraft) s)
      ((do let name ← Reading.className .namespaced
           Reading.write span d' (·.writeParent name) : Routine ClassDraft) s) := by
  refine Paired.bind (className s s ⟨rfl, hs⟩) fun n n' t t' hrun ht hn => ?_
  have hname := hn (className_plain.of_ok hplain hrun).1
  exact write hd (hd.writeParent hname) t t' ht

theorem extendsClause {d d' : ClassDraft} (hd : ClassDraft.Twins d d') :
    GlobalTandem ClassDraft.Twins (extendsClause .verbatim d)
      (Reading.extendsClause .namespaced d') := by
  rintro s _ ⟨rfl, hs⟩
  have hflags : d.flags = d'.flags := by
    cases hd
    rfl
  refine Paired.bind (eat _ s s ⟨rfl, hs⟩) ?_
  rintro o _ t _ heat ⟨rfl, ht⟩ rfl
  cases o with
  | none => exact ⟨⟨rfl, ht⟩, hd⟩
  | some word =>
    have hplain : t.ListsPlain := hs.listsPlain (.inl rfl) heat rfl
    simp only [Option.isNone_some, Bool.false_eq_true, if_false, hflags]
    -- an interface extends a list of them, a class one other
    split
    · exact interfaceList ht hplain hd
    · exact parent ht hplain hd t.peek.span

theorem implementsClause {d d' : ClassDraft} (hd : ClassDraft.Twins d d') :
    GlobalTandem ClassDraft.Twins (implementsClause .verbatim d)
      (Reading.implementsClause .namespaced d') := by
  rintro s _ ⟨rfl, hs⟩
  refine Paired.bind (eat _ s s ⟨rfl, hs⟩) ?_
  rintro o _ t _ heat ⟨rfl, ht⟩ rfl
  cases o with
  | none => exact ⟨⟨rfl, ht⟩, hd⟩
  | some word => exact interfaceList ht (hs.listsPlain (.inr rfl) heat rfl) hd

theorem classHeader {d d' : ClassDraft} (hd : ClassDraft.Twins d d') :
    GlobalTandem ClassDraft.Twins (classHeader .verbatim d)
      (Reading.classHeader .namespaced d') := by
  rw [classHeader_eq, classHeader_eq]
  refine Tandem.bind (extendsClause hd) fun d d' hd => ?_
  refine Tandem.bind (implementsClause hd) fun d d' hd => ?_
  exact Tandem.bind (Tandem.discard (expect _)) fun _ _ _ => Tandem.pure hd

/-! ### Classes -/

theorem classFlags : GlobalTandem Eq classFlags Reading.classFlags := by
  refine Tandem.bind (Tandem.iterate (fun s s' hs => by rw [hs.1]) ?_ rfl) ?_
  · -- one modifier
    rintro flags _ rfl
    refine Tandem.bind peekKind ?_
    rintro k _ rfl
    split
    · exact Tandem.bind (Tandem.discard advance) fun _ _ _ => Tandem.pure rfl
    · exact Tandem.bind (Tandem.discard advance) fun _ _ _ => Tandem.pure rfl
    · exact Tandem.bind (Tandem.discard advance) fun _ _ _ => Tandem.pure rfl
    · exact Tandem.pure rfl
  · rintro flags _ rfl
    refine Tandem.bind advance ?_
    rintro word _ rfl
    exact Tandem.pure rfl

/-- The draft of a class begins the same for both, since nothing is resolved in it. -/
theorem classDraft (file : SourceFile) (start : List Entry) :
    GlobalTandem Eq (classDraft { file with resolver := .verbatim } start)
      (Reading.classDraft { file with resolver := .namespaced } start) := by
  rw [classDraft_eq, classDraft_eq]
  refine Tandem.bind peek ?_
  rintro first _ rfl
  refine Tandem.bind classFlags ?_
  rintro flags _ rfl
  refine Tandem.bind (docSince start) ?_
  rintro doc _ rfl
  refine Tandem.bind advance ?_
  rintro name _ rfl
  refine Tandem.bind Tandem.get ?_
  rintro s _ ⟨rfl, hs⟩
  exact Tandem.pure rfl

theorem classMembers (source : String) {d d' : ClassDraft} (hd : ClassDraft.Twins d d') :
    GlobalTandem ClassDraft.Twins (classMembers ⟨source, .verbatim⟩ d)
      (Reading.classMembers ⟨source, .namespaced⟩ d') := by
  rintro s _ ⟨rfl, hs⟩
  have hstart : Body.Twins ⟨s, d⟩ ⟨s, d'⟩ := ⟨hs, hd⟩
  have hbody := BodyTandem.classBody source
  unfold Reading.classMembers
  cases h : classBody ⟨source, .verbatim⟩ ⟨s, d⟩ with
  | ok u b =>
    obtain ⟨u', _, h', ⟨ht, hd⟩, -⟩ := hbody.of_ok hstart h
    rw [h']
    exact ⟨⟨rfl, ht⟩, hd⟩
  | error e b =>
    obtain ⟨_, h', ⟨ht, hd⟩⟩ := hbody.of_error hstart h
    rw [h']
    exact ⟨⟨rfl, ht⟩, rfl⟩

theorem classEnd (start : List Entry) (header : Span) {d d' : ClassDraft}
    (hd : ClassDraft.Twins d d') :
    GlobalTandem ClassDraft.Twins (classEnd start header d) (Reading.classEnd start header d') := by
  refine Tandem.recover (expect _) ?_ fun e => ?_
  · rintro closing _ rfl
    exact write hd (hd.writeEndLine _)
  · refine Tandem.bind (Tandem.report State.Global.report) fun _ _ _ => ?_
    exact write hd (hd.writeEndLine _)

theorem classDeclaration (file : SourceFile) (start : List Entry) :
    GlobalTandem (Option.Rel fun p p' => ClassDraft.Twins p.1 p'.1 ∧ p.2 = p'.2)
      (classDeclaration { file with resolver := .verbatim } start)
      (Reading.classDeclaration { file with resolver := .namespaced } start) := by
  refine Tandem.bind (classDraft file start) ?_
  rintro ⟨d, name, header⟩ _ rfl
  refine Tandem.recover (classHeader (ClassDraft.twins_self d)) (fun d d' hd => ?_) fun e => ?_
  · refine Tandem.bind (classMembers file.text hd) fun d d' hd => ?_
    refine Tandem.bind (classEnd start header hd) fun d d' hd => ?_
    exact Tandem.pure (.some ⟨hd, rfl⟩)
  · refine Tandem.bind (Tandem.report State.Global.report) fun _ _ _ => ?_
    refine Tandem.bind (skipTo fun _ => List.dropWhile_suffix _) fun _ _ _ => ?_
    exact Tandem.pure .none

end GlobalTandem

/-! ### Steps -/

/-- **Twin files.** Both readers stand at the same place of global code and have read classes, one
for one, that are equal without leading separators as far as the types of the first are plain. -/
inductive FileState.Twins : FileState → FileState → Prop
  | mk {s : State} (hs : s.Global) (braces : List Bool) (declared : List (String × Bool))
      {classes classes' : List Class}
      (hclasses : List.Forall₂
        (fun c c' => (∀ t ∈ c.types, t.Plain) → c.unrooted = c'.unrooted) classes classes') :
      Twins ⟨s, braces, classes, declared⟩ ⟨s, braces, classes', declared⟩

namespace FileState.Twins

variable {f f' : FileState}

theorem run {α : Type} {r : Routine α} {rel : α → α → Prop} (h : FileState.Twins f f')
    (hr : GlobalTandem rel r r) : FileState.Twins (f.run r) (f'.run r) := by
  obtain ⟨hs, braces, declared, hclasses⟩ := h
  rename_i s classes classes'
  unfold FileState.run
  dsimp only
  cases hrun : r s with
  | ok a t =>
    obtain ⟨a', _, -, ⟨rfl, ht⟩, -⟩ := hr.of_ok ⟨rfl, hs⟩ hrun
    exact ⟨ht, braces, declared, hclasses⟩
  | error e t =>
    obtain ⟨_, -, ⟨rfl, ht⟩⟩ := hr.of_error ⟨rfl, hs⟩ hrun
    exact ⟨State.Global.report t e ht, braces, declared, hclasses⟩

theorem publish (h : FileState.Twins f f') (file : SourceFile) {d d' : ClassDraft}
    (hd : ClassDraft.Twins d d') (span : Span) :
    FileState.Twins (f.publish { file with resolver := .verbatim } d span)
      (f'.publish { file with resolver := .namespaced } d' span) := by
  obtain ⟨hs, braces, declared, hclasses⟩ := h
  have hname : d.name = d'.name := by
    cases hd
    rfl
  have hbuilt := hd.build file.linked
  unfold FileState.publish FileState.isConditional
  dsimp only
  rw [hname]
  -- both classes have the same name, so both are duplicates or neither is
  cases declared.lookup (Name.lookupKey d'.name) with
  | some earlier =>
    dsimp only
    split
    · exact ⟨hs, braces, declared, hclasses⟩
    · exact ⟨State.Global.report _ _ hs, braces, declared, hclasses⟩
  | none => exact ⟨hs, braces, _, List.rel_append hclasses (.cons hbuilt .nil)⟩

theorem readClass (h : FileState.Twins f f') (file : SourceFile) (start : List Entry) :
    FileState.Twins (f.readClass { file with resolver := .verbatim } start)
      (f'.readClass { file with resolver := .namespaced } start) := by
  obtain ⟨hs, braces, declared, hclasses⟩ := h
  rename_i s classes classes'
  have hclass := GlobalTandem.classDeclaration file start
  unfold FileState.readClass
  dsimp only
  cases hrun : classDeclaration { file with resolver := .verbatim } start s with
  | error e t =>
    obtain ⟨_, hrun', ⟨rfl, ht⟩⟩ := hclass.of_error ⟨rfl, hs⟩ hrun
    rw [hrun']
    exact ⟨State.Global.report t e ht, braces, declared, hclasses⟩
  | ok o t =>
    obtain ⟨o', _, hrun', ⟨rfl, ht⟩, ho⟩ := hclass.of_ok ⟨rfl, hs⟩ hrun
    rw [hrun']
    -- behind the declaration the two files still agree
    have hread : FileState.Twins ⟨t, braces, classes, declared⟩ ⟨t, braces, classes', declared⟩ :=
      ⟨ht, braces, declared, hclasses⟩
    cases ho with
    | none => exact hread
    | @some p p' hp =>
      obtain ⟨d, span⟩ := p
      obtain ⟨d', span'⟩ := p'
      obtain ⟨hd, rfl⟩ := hp
      exact hread.publish file hd span

theorem readAttributed (h : FileState.Twins f f') (file : SourceFile) :
    FileState.Twins (f.readAttributed { file with resolver := .verbatim })
      (f'.readAttributed { file with resolver := .namespaced }) := by
  obtain ⟨hs, braces, declared, hclasses⟩ := h
  rename_i s classes classes'
  unfold FileState.readAttributed
  dsimp only
  cases hrun : skipAttributes s with
  | error e t =>
    obtain ⟨_, -, ⟨rfl, ht⟩⟩ := GlobalTandem.skipAttributes.of_error ⟨rfl, hs⟩ hrun
    exact ⟨State.Global.report t e ht, braces, declared, hclasses⟩
  | ok u t =>
    obtain ⟨_, _, -, ⟨rfl, ht⟩, -⟩ := GlobalTandem.skipAttributes.of_ok ⟨rfl, hs⟩ hrun
    have hread : FileState.Twins ⟨t, braces, classes, declared⟩ ⟨t, braces, classes', declared⟩ :=
      ⟨ht, braces, declared, hclasses⟩
    dsimp only
    split
    · exact hread.readClass file s.rest
    · exact hread

/-- Neither a namespace nor an import begins in global code. -/
theorem peek_plain {s : State} (hs : s.Global) :
    s.peek.kind ≠ .namespaceWord ∧ s.peek.kind ≠ .useWord := by
  cases hrest : s.rest with
  | nil =>
    rw [State.peek_of_rest_nil hrest, hs.eof_kind]
    exact ⟨by decide, by decide⟩
  | cons e es =>
    rw [State.peek_of_rest hrest]
    exact hs.plain e (hrest ▸ List.mem_cons_self)

theorem withBraces (h : FileState.Twins f f') (braces : List Bool) :
    FileState.Twins { f with braces } { f' with braces } := by
  obtain ⟨hs, -, declared, hclasses⟩ := h
  exact ⟨hs, braces, declared, hclasses⟩

/-- Behind the last brace of a namespace names are global, as they were before. -/
theorem leaveNamespace (h : FileState.Twins f f') :
    FileState.Twins { f with scope := f.scope.enter "" }
      { f' with scope := f'.scope.enter "" } := by
  obtain ⟨hs, braces, declared, hclasses⟩ := h
  rename_i s classes classes'
  have hleft : State.Global { s with scope := s.scope.enter "" } :=
    ⟨rfl, hs.plain, hs.headers, hs.eof_kind⟩
  exact ⟨hleft, braces, declared, hclasses⟩

/-- **One step.** Whatever begins at the next token, both readers do the same. -/
theorem step (h : FileState.Twins f f') (file : SourceFile) :
    FileState.Twins (f.step { file with resolver := .verbatim })
      (f'.step { file with resolver := .namespaced }) := by
  have hadvance := h.run GlobalTandem.advance
  have hskip : GlobalTandem Eq (do discard advance; skipToBody) (do discard advance; skipToBody) :=
    Tandem.bind (Tandem.discard GlobalTandem.advance) fun _ _ _ =>
      GlobalTandem.skipTo (bodyStart_suffix 0)
  have htwins := h
  obtain ⟨hs, braces, declared, hclasses⟩ := h
  unfold FileState.step
  dsimp only
  split
  case h_1 hk => exact absurd hk (peek_plain hs).1
  case h_2 hk => exact absurd hk (peek_plain hs).2
  case h_3 => exact htwins.readAttributed file
  case h_9 | h_10 => exact htwins.run hskip
  case h_11 =>
    -- an anonymous class is passed over
    split
    · exact htwins.run (Tandem.bind (Tandem.discard GlobalTandem.advance) fun _ _ _ => hskip)
    · exact hadvance
  case h_12 => exact hadvance.withBraces _
  case h_13 =>
    split
    · exact (hadvance.withBraces braces.tail).leaveNamespace
    · exact hadvance.withBraces _
  case h_14 => exact hadvance
  -- a class, or a word of one
  all_goals
    split
    · exact htwins.readClass file _
    · exact hadvance

/-- **All steps.** -/
theorem finish (h : FileState.Twins f f') (file : SourceFile) :
    FileState.Twins (f.finish { file with resolver := .verbatim })
      (f'.finish { file with resolver := .namespaced }) := by
  have hrest : ∀ {g g' : FileState}, FileState.Twins g g' → g.rest = g'.rest := by
    rintro _ _ ⟨-, -, -, -⟩
    rfl
  -- on the tokens that are left: the readers go on as long as a step takes some
  induction hn : f.rest.length using Nat.strongRecOn generalizing f f' with
  | ind n ih =>
    have hstep := h.step file
    rw [FileState.finish, FileState.finish, ← hrest h]
    split
    · exact h
    · dsimp only
      rw [← hrest hstep]
      split
      · next hless => exact ih _ (hn ▸ hless) hstep rfl
      · exact hstep

/-- Classes with plain types are equal without leading separators. -/
theorem agree (h : FileState.Twins f f') (htypes : ∀ c ∈ f.classes, ∀ t ∈ c.types, t.Plain) :
    f.diagnostics = f'.diagnostics ∧
      List.Forall₂ (fun c c' => c.unrooted = c'.unrooted) f.classes f'.classes := by
  obtain ⟨hs, braces, declared, hclasses⟩ := h
  refine ⟨rfl, ?_⟩
  clear hs
  induction hclasses with
  | nil => exact .nil
  | cons hc _ ih =>
    refine .cons (hc (htypes _ List.mem_cons_self)) (ih fun c hmem => ?_)
    exact htypes c (List.mem_cons_of_mem _ hmem)

end FileState.Twins

end Reading

/-! ### Whole files -/

namespace SourceFile

open Reading

/-- The file, read with every name as it is written. -/
def asWritten (file : SourceFile) : SourceFile := { file with resolver := .verbatim }

/-- The file, read by the rules of namespaces and imports. -/
def resolved (file : SourceFile) : SourceFile := { file with resolver := .namespaced }

/-- **Global files.** There is neither a namespace nor an import, and no class is referred to by a
name that begins with the word `namespace`: not as a parent or an interface, and not in the types of
the members. The latter are taken from the classes that are read without resolving anything: these
hold every reference as it is written, in code and in doc comments, and for `self` the class. -/
structure IsGlobal (file : SourceFile) : Prop where
  tokens : ∀ t ∈ (Token.Scanner.ofFile file.text).tokens,
    t.kind ≠ .namespaceWord ∧ t.kind ≠ .useWord
  headers : ∀ n ∈ headerNames (FileState.start file.text).rest, Name.Plain n
  types : ∀ c ∈ file.asWritten.read.1, ∀ t ∈ c.types, t.Plain

theorem IsGlobal.start {file : SourceFile} (h : file.IsGlobal) :
    (FileState.start file.text).toState.Global where
  scope_eq := rfl
  plain := fun _ he => h.tokens _ (mem_of_mem_entries he)
  headers := h.headers
  eof_kind := FileState.kind_eof_start file.text

/-- **The two resolvers agree on global files.** They report the same and give the same classes in
the same order, up to separators in front of the names of parents, interfaces and classes in types;
and in a registry of its own, each class answers every question about its hierarchy as its
counterpart does. -/
theorem resolvers_agree (file : SourceFile) (h : file.IsGlobal) :
    file.asWritten.read.2 = file.resolved.read.2 ∧
      file.asWritten.read.1.map Class.unrooted = file.resolved.read.1.map Class.unrooted ∧
      List.Forall₂
        (fun c c' => c.AlikeAnswers c' (Registry.empty.registerAll file.asWritten.read.1)
          (Registry.empty.registerAll file.resolved.read.1))
        file.asWritten.read.1 file.resolved.read.1 := by
  have hstart : FileState.Twins (FileState.start file.text) (FileState.start file.text) :=
    ⟨h.start, [], [], .nil⟩
  obtain ⟨hdiagnostics, hclasses⟩ := (hstart.finish file).agree h.types
  have hmaps : file.asWritten.read.1.map Class.unrooted =
      file.resolved.read.1.map Class.unrooted :=
    map_eq_of_forall₂ hclasses fun c _ c' hc => hc
  -- registries of classes that are equal without leading separators are so too
  have hregistries : (Registry.empty.registerAll file.asWritten.read.1).unrooted =
      (Registry.empty.registerAll file.resolved.read.1).unrooted := by
    rw [Registry.registerAll_unrooted, Registry.registerAll_unrooted, hmaps]
  refine ⟨hdiagnostics, hmaps, hclasses.imp fun c c' hc => ?_⟩
  exact Class.alikeAnswers_of_unrooted_eq hc hregistries

/-- A file with references to classes in code and in a doc comment, some of them with a leading
separator. -/
def globalFile : SourceFile where
  text := "<?php class A implements \\I, I \x7b /** @var \\B */ public $p; \x7d " ++
    "class B extends \\A \x7b const A X = 1; \x7d"

theorem resolvers_agree_globalFile :
    globalFile.IsGlobal ∧
      globalFile.asWritten.read.1.map (·.parentName) = [none, some "\\A"] ∧
      globalFile.resolved.read.1.map (·.parentName) = [none, some "A"] ∧
      globalFile.asWritten.read.1.map Class.unrooted =
        globalFile.resolved.read.1.map Class.unrooted := by
  obtain ⟨htokens, hheaders, htypes, hwritten, hresolved⟩ :
      (∀ t ∈ (Token.Scanner.ofFile globalFile.text).tokens,
        t.kind ≠ .namespaceWord ∧ t.kind ≠ .useWord) ∧
      (∀ n ∈ headerNames (FileState.start globalFile.text).rest, Name.Plain n) ∧
      (∀ c ∈ globalFile.asWritten.read.1, ∀ t ∈ c.types, t.Plain) ∧
      globalFile.asWritten.read.1.map (·.parentName) = [none, some "\\A"] ∧
      globalFile.resolved.read.1.map (·.parentName) = [none, some "A"] := by
    decide +kernel
  have hglobal : globalFile.IsGlobal := ⟨htokens, hheaders, htypes⟩
  exact ⟨hglobal, hwritten, hresolved, (resolvers_agree globalFile hglobal).2.1⟩

end SourceFile

end Introspect
