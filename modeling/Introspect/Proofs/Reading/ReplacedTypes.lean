import Introspect.Proofs.Reading.AddedTypes

/-!
# The words `self` and `parent` are replaced

The types of a class that is read from a file are written for its members, word by word: where
`self` is written a type has the class itself, and where `parent` is written its declared parent
(`SourceFile.types_replaced`). So no type has a class by the name of such a word, unless the file
has that name behind a separator or behind the word `namespace`.

* `Undisguised` says that no word of the file is such a name, and `SafeIn` is what a scope is then;
* `PlainName` is what is known of a name where a type may stand: of the name of a class, of its
  parent and of what is imported;
* `classOpening_opened` follows a class from its name to its opening brace. The names that its draft
  has there are those that it has in the end;
* `FileAt.step` says that the scope stays safe from step to step, through imports and namespaces;
* `exists_traced` puts these together with the rounds in which the members of a class are read.
-/

namespace Introspect

/-! ### Words in disguise -/

namespace Reading

/-- Type words are the first words of tags of three names. -/
theorem TypeSite.HasTypeWord.exists_tag {site : TypeSite} {b : DocBlock} {word : String}
    (h : site.HasTypeWord b word) :
    ∃ t ∈ b.tags, t.name ∈ ["var", "return", "param"] ∧ t.firstWord? = some word := by
  -- the first tag of a name is one of the tags
  have hfirst : ∀ {name : String}, name ∈ ["var", "return", "param"] →
      (b.tag? name).bind (·.firstWord?) = some word →
      ∃ t ∈ b.tags, t.name ∈ ["var", "return", "param"] ∧ t.firstWord? = some word := by
    intro name hname hword
    obtain ⟨t, ht, hfirst⟩ := Option.bind_eq_some_iff.mp hword
    refine ⟨t, List.mem_of_find?_eq_some ht, ?_, hfirst⟩
    have hsame := List.find?_some ht
    exact beq_iff_eq.mp hsame ▸ hname
  have hparam : ∀ {name : String}, b.paramType? name = some word →
      ∃ t ∈ b.tags, t.name ∈ ["var", "return", "param"] ∧ t.firstWord? = some word := by
    intro name hparam
    obtain ⟨t, ht, htype⟩ := List.exists_of_findSome?_eq_some hparam
    obtain ⟨hmem, hname⟩ := List.mem_filter.mp ht
    refine ⟨t, hmem, by simp [beq_iff_eq.mp hname], ?_⟩
    unfold DocBlock.paramTagType? at htype
    split at htype
    · next type _ _ hwords =>
      split_ifs at htype
      rw [DocTag.firstWord?, hwords, List.head?_cons, htype]
    · cases htype
  cases site with
  | constant => exact h.elim
  | property => exact h.elim (hfirst (by simp)) hparam
  | returned => exact hfirst (by simp) h
  | parameter => exact hparam h

/-- **Undisguised words.** No name and no word of a documented type is a relative word in
disguise. -/
structure Undisguised (text : String) : Prop where
  names : ∀ e ∈ entriesOf text, e.kind = .name → ¬ Name.IsDisguised e.token.lexeme
  documented : ∀ e ∈ entriesOf text, ∀ raw ∈ e.doc, ∀ t ∈ (DocBlock.parse raw).tags,
    t.name ∈ ["var", "return", "param"] → ∀ word ∈ t.firstWord?, ∀ w ∈ docWords word,
      ¬ Name.IsDisguised w

instance (text : String) : Decidable (Undisguised text) :=
  decidable_of_iff
    ((∀ e ∈ entriesOf text, e.kind = .name → ¬ Name.IsDisguised e.token.lexeme) ∧
      ∀ e ∈ entriesOf text, ∀ raw ∈ e.doc, ∀ t ∈ (DocBlock.parse raw).tags,
        t.name ∈ ["var", "return", "param"] → ∀ word ∈ t.firstWord?, ∀ w ∈ docWords word,
          ¬ Name.IsDisguised w)
    ⟨fun h => ⟨h.1, h.2⟩, fun h => ⟨h.names, h.documented⟩⟩

/-- Words that are undisguised where they are written are so one by one. -/
theorem TypeWords.not_isDisguised {text word : String} {b : Body} {rest : List Entry}
    {site : TypeSite} {words : List String} (h : TypeWords b rest site words)
    (hes : b.rest <:+ entriesOf text) (hwords : Undisguised text) (hw : word ∈ words) :
    ¬ Name.IsDisguised word := by
  cases h with
  | documented hdoc hword =>
    -- the doc comment of the member is that of one of its tokens
    obtain ⟨first, -, hdoc⟩ := hdoc
    obtain ⟨e, he, hraw⟩ := List.exists_of_findSome?_eq_some hdoc
    have hmem : e ∈ entriesOf text :=
      hes.subset (List.mem_of_mem_take (List.mem_reverse.mp he))
    obtain ⟨t, ht, hname, hfirst⟩ := hword.exists_tag
    exact hwords.documented e hmem _ hraw t ht hname _ hfirst _ hw
  | declared hwritten =>
    obtain ⟨front', hwritten⟩ := hwritten.of_suffix hes
    obtain ⟨t, ht, rfl⟩ := List.mem_map.mp hw
    by_cases hk : t.kind = .name
    · obtain ⟨e, he, rfl⟩ := List.mem_map.mp ht
      refine hwords.names e ?_ hk
      rw [hwritten.split]
      simp [(List.mem_filter.mp he).1]
    · -- a reserved word has no separator
      have hreserved : ∀ p ∈ Token.Kind.reservedWords,
          p.1 ∉ ["\\self", "\\parent", "namespace\\self", "namespace\\parent"] := by decide
      exact hreserved _ ((hwritten.spelled ht).2 hk)

/-- A scope of the text is safe unless there are words in disguise. -/
def SafeIn (text : String) (scope : Scope) : Prop := Undisguised text → scope.Safe

/-! ### Names that stand where a type may -/

/-- **Plain names.** The name is no relative word, and one in disguise only if there are such words
in the text. -/
structure PlainName (text name : String) : Prop where
  begins : Token.beginsName name.toList = true
  not_isRelative : ¬ Name.IsRelative name
  not_isDisguised : Undisguised text → ¬ Name.IsDisguised name

section Names

variable {text name : String} {P : Scope → Prop} {s : State} {scope : Scope}

/-- Where a name begins there is a letter, with a separator in front or without. -/
theorem exists_nameStart {cs : List Char} (h : Token.beginsName cs = true) :
    ∃ c rest, Text.isNameStart c = true ∧
      (cs = c :: rest ∨ cs = Name.separator :: c :: rest) := by
  cases cs with
  | nil => cases h
  | cons c rest =>
    simp only [Token.beginsName, Bool.or_eq_true, Bool.and_eq_true, beq_iff_eq] at h
    rcases h with hc | ⟨rfl, hrest⟩
    · exact ⟨c, rest, hc, .inl rfl⟩
    · cases rest with
      | nil => cases hrest
      | cons c rest => exact ⟨c, rest, by simpa using hrest, .inr rfl⟩

/-- A name has at most one separator in front, and more than that. -/
theorem PlainName.relative_eq (h : PlainName text name) :
    Name.relative name ≠ "" ∧
      (name = Name.relative name ∨ name = Name.behind "" (Name.relative name)) := by
  obtain ⟨c, rest, hc, hcs⟩ := exists_nameStart h.begins
  have hne : c ≠ Name.separator := by
    rintro rfl
    exact absurd hc (by decide)
  -- what is dropped is at most the one separator in front of the letter
  have hkeep : (c :: rest).dropWhile (· == Name.separator) = c :: rest :=
    List.dropWhile_cons_of_neg (by simpa using hne)
  have hrelative : (Name.relative name).toList = c :: rest := by
    rw [Name.relative, Text.dropLeading, String.toList_ofList]
    rcases hcs with hcs | hcs
    · rw [hcs, hkeep]
    · rw [hcs, List.dropWhile_cons_of_pos (by decide), hkeep]
  refine ⟨fun hnil => ?_, hcs.imp (fun hcs => ?_) fun hcs => ?_⟩
  · rw [hnil] at hrelative
    cases hrelative
  · exact String.toList_inj.mp (hcs.trans hrelative.symm)
  · apply String.toList_inj.mp
    rw [Name.toList_behind, hrelative, hcs]
    rfl

theorem PlainName.not_isRelative_relative (h : PlainName text name) (hwords : Undisguised text) :
    ¬ Name.IsRelative (Name.relative name) := by
  rcases h.relative_eq.2 with heq | heq
  · exact heq ▸ h.not_isRelative
  · intro hrelative
    refine h.not_isDisguised hwords ?_
    rw [heq]
    exact hrelative.isDisguised_behind_empty

/-- However a name is resolved in a safe scope, it stands for no relative word. -/
theorem not_isRelative_resolve (resolver : Resolver) (hs : scope.Safe)
    (hname : ¬ Name.IsRelative name) (hdisguised : ¬ Name.IsDisguised name) :
    ¬ Name.IsRelative (resolver.resolve scope name) := by
  cases resolver with
  | namespaced => exact Resolver.not_isRelative_resolve hs hname hdisguised
  | verbatim => exact hname

theorem AtType.plainName (h : AtType (entriesOf text) P s) (hk : s.peek.kind = .name) :
    PlainName text s.peek.lexeme := by
  obtain ⟨front, hfront, hunled⟩ := h.unled
  cases hrest : s.rest with
  | nil =>
    have hend : s.peek.kind = .endOfText := State.peek_of_rest_nil hrest ▸ h.within.eof_kind
    exact absurd (hk.symm.trans hend) (by decide)
  | cons e es =>
    rw [State.peek_of_rest hrest] at hk ⊢
    -- the name stands where a type could begin, and no token of a type has been read
    have hsplit : entriesOf text = front ++ [] ++ e :: es := by rw [hfront, hrest, List.append_nil]
    exact ⟨(exists_classified hsplit (by rw [Entry.kind, hk]; rfl)).1,
      not_isRelative_of_unled hsplit hunled nofun hk, fun hwords =>
        hwords.names e (hsplit ▸ by simp) hk⟩

/-- A name is read where a type may stand. -/
theorem AtType.eatName {bad : Diagnostic → State → Prop} :
    Meets (AtType (entriesOf text) P) (Reading.eat .name)
      (fun o s => (∀ t ∈ o, PlainName text t.lexeme) ∧ At (entriesOf text) P s) bad := by
  intro s hs
  by_cases hk : s.peek.kind = .name
  · rw [Yields.eat hk]
    refine ⟨?_, (hs.toAt.advance (by rw [hk]; rfl) (by rw [hk]; decide)).toAt⟩
    rintro t ht
    rw [← Option.mem_some.mp ht]
    exact hs.plainName hk
  · rw [Yields.eat_none hk]
    exact ⟨nofun, hs.toAt⟩

/-- **Written types without relative words.** In a class that is not named by such a word, nor its
parent, no class in a type is. -/
theorem SourcedIn.not_isRelative {f : Frame} {b : Body} {rest : List Entry} {site : TypeSite}
    {hint : TypeHint} {n : String} (h : SourcedIn b rest P f site (some hint))
    (hes : b.rest <:+ entriesOf text) (hsafe : ∀ scope, P scope → SafeIn text scope)
    (hwords : Undisguised text) (hname : ¬ Name.IsRelative f.className)
    (hparent : ∀ p ∈ f.parentName, ¬ Name.IsRelative p) (hn : n ∈ hint.classNames) :
    ¬ Name.IsRelative n := by
  obtain ⟨scope, words, hscope, htype, hleaves⟩ := h hint rfl
  obtain ⟨i, hi, heq⟩ := List.mem_iff_getElem.mp (TypeHint.named_mem_leaves hint hn)
  have hi' : i < words.length := hleaves.length_eq ▸ hi
  have hdenotes : f.Denotes scope words[i] (.named n) := heq ▸ hleaves.get hi' hi
  by_cases hrelative : Name.IsRelative words[i]
  -- a relative word stands for the class or its parent, and any other word is resolved
  · rcases List.mem_pair.mp hrelative with hself | hparentWord
    · rw [TypeHint.named.inj (hdenotes.self_eq hself)]
      exact hname
    · obtain ⟨p, hp, hpn⟩ := Option.map_eq_some_iff.mp (hdenotes.parent_eq hparentWord)
      exact TypeHint.named.inj hpn ▸ hparent p hp
  · rw [hdenotes.named_eq hrelative n rfl]
    exact not_isRelative_resolve _ (hsafe _ hscope hwords) hrelative
      (htype.not_isDisguised hes hwords (List.getElem_mem hi'))

end Names

/-! ### Classes -/

/-- **Plainly named drafts.** Neither the class nor its parent is named by a relative word, unless
there are such words in disguise. -/
structure PlainlyNamed (text : String) (d : ClassDraft) : Prop where
  name : Undisguised text → ¬ Name.IsRelative d.name
  parentName : Undisguised text → ∀ p ∈ d.parentName, ¬ Name.IsRelative p

/-- The draft of a class whose members have not been read. -/
structure Opened (text : String) (d : ClassDraft) : Prop extends Bare d, PlainlyNamed text d

section Classes

variable {text : String} {es : List Entry} {P : Scope → Prop} {file : SourceFile} {d : ClassDraft}

/-- Behind the word `class` there is a name, where a type may be written. -/
theorem AtType.classFlags :
    Meets (fun s => At es P s ∧ atClass s.rest = true) classFlags
      (fun _ s => s.peek.kind = .name ∧ AtType es P s) (fun _ => At es P) := by
  rintro s ⟨hs, hclass⟩
  unfold atClass at hclass
  split at hclass
  · next word first rest hbehind =>
    obtain ⟨flags, hmodifiers⟩ := Yields.iterate_classFlagRound hbehind {}
    have hflags : Yields Reading.classFlags s _ _ :=
      Yields.bind hmodifiers (Yields.bind .advance .pure)
    -- behind the modifiers, the reading stands in front of the word
    have hword : At es P { s with rest := word :: first :: rest } :=
      ⟨⟨hbehind ▸ (List.dropWhile_suffix _).trans hs.within.suffix, hs.within.eof_kind⟩, hs.scope⟩
    simp only [Bool.and_eq_true, Bool.or_eq_true, beq_iff_eq] at hclass
    rw [hflags]
    refine ⟨hclass.2, hword.advance ?_ ?_⟩
    · show word.kind.leadsToMember = false
      rcases hclass.1 with hk | hk <;> rw [hk] <;> rfl
    · show word.kind ≠ .endOfText
      rcases hclass.1 with hk | hk <;> rw [hk] <;> decide
  · cases hclass

/-- The name of a class is resolved where it is declared. -/
theorem classDraft_opened (hsafe : ∀ scope, P scope → SafeIn file.text scope)
    (start : List Entry) :
    GivesAt (entriesOf file.text) P
      (fun s => At (entriesOf file.text) P s ∧ atClass s.rest = true)
      (fun r => Opened file.text r.1) (classDraft file start) := by
  rw [classDraft_eq]
  refine Meets.bind Meets.peek fun first => ?_
  refine Meets.bind (AtType.classFlags.of_pre fun _ h => h.2) fun flags => ?_
  have hdoc : Meets (fun s => s.peek.kind = .name ∧ AtType (entriesOf file.text) P s)
      (docSince start) (fun _ s => s.peek.kind = .name ∧ AtType (entriesOf file.text) P s)
      (fun _ => At (entriesOf file.text) P) :=
    fun _ h => h
  refine Meets.bind hdoc fun doc => ?_
  have hadvance : GivesAt (entriesOf file.text) P
      (fun s => s.peek.kind = .name ∧ AtType (entriesOf file.text) P s)
      (fun t => PlainName file.text t.lexeme) advance := by
    rintro s ⟨hk, hs⟩
    exact ⟨hs.plainName hk, (hs.toAt.advance (by rw [hk]; rfl) (by rw [hk]; decide)).toAt⟩
  refine Meets.bind hadvance fun name => Meets.given fun hname => ?_
  refine Meets.bind Meets.get fun s => Meets.pure ?_
  rintro _ ⟨rfl, hs⟩
  -- a name that is plain is declared in a safe scope, so it becomes no relative word
  exact ⟨⟨⟨rfl, rfl, rfl⟩, fun hwords =>
    (hsafe _ hs.scope hwords).not_isRelative_declare (hname.not_isRelative_relative hwords),
    fun _ => nofun⟩, hs⟩

theorem Opened.addInterfaces (h : Opened text d) (names : List String) :
    Opened text (names.foldl ClassDraft.addInterface d) := by
  obtain ⟨interfaces, heq⟩ := d.exists_addInterfaces_eq names
  rw [heq]
  exact ⟨⟨h.methods, h.constants, h.properties⟩, h.name, h.parentName⟩

section Headers

variable (hsafe : ∀ scope, P scope → SafeIn text scope) (resolver : Resolver)

include hsafe

theorem className_resolved :
    GivesAt (entriesOf text) P (AtType (entriesOf text) P)
      (fun name => Undisguised text → ¬ Name.IsRelative name) (className resolver) := by
  refine Meets.bind AtType.eatName fun o => ?_
  cases o with
  | none => exact Meets.unexpectedName.weaken (fun _ h => h.2) (fun _ _ h => h) fun _ _ h => h
  | some t =>
    refine Meets.bind Meets.get fun s => Meets.pure ?_
    rintro _ ⟨rfl, hname, hs⟩
    have hplain := hname t rfl
    exact ⟨fun hwords => not_isRelative_resolve resolver (hsafe _ hs.scope hwords)
      hplain.not_isRelative (hplain.not_isDisguised hwords), hs⟩

theorem interfaceList_opened (h : Opened text d) :
    GivesAt (entriesOf text) P (AtType (entriesOf text) P) (Opened text)
      (interfaceList resolver d) :=
  Meets.bind (AtType.listOf (className_resolved hsafe resolver) AtType.comma) fun names =>
    Meets.pure fun _ hs => ⟨h.addInterfaces names, hs.2⟩

theorem extendsClause_opened (h : Opened text d) :
    GivesAt (entriesOf text) P (At (entriesOf text) P) (Opened text)
      (extendsClause resolver d) := by
  refine Meets.bind (AtType.eat rfl (by decide)) fun o => ?_
  refine Meets.ite (fun hnone => Meets.pure fun s hs => ⟨h, ?_⟩) fun hsome => ?_
  · simpa [Option.isSome_eq_false_iff.mpr hnone] using hs
  have hbehind : o.isSome = true := by simpa [Option.isSome_iff_ne_none] using hsome
  simp only [hbehind, if_true]
  refine Meets.ite (fun _ => interfaceList_opened hsafe resolver h) fun _ => ?_
  refine Meets.bind (Meets.peek.to_post fun _ _ hs => hs.2) fun t => ?_
  refine Meets.bind (className_resolved hsafe resolver) fun parent => Meets.given fun hparent => ?_
  refine Meets.write_either (fun d' s hok hs => ⟨?_, hs⟩) fun s e hs => ⟨h, hs.report e⟩
  -- the parent is the resolved name, and nothing else is written
  rw [ClassDraft.of_writeParent hok]
  refine ⟨⟨h.methods, h.constants, h.properties⟩, h.name, fun hwords p hp => ?_⟩
  rw [← Option.mem_some.mp hp]
  exact hparent hwords

theorem implementsClause_opened (h : Opened text d) :
    GivesAt (entriesOf text) P (At (entriesOf text) P) (Opened text)
      (implementsClause resolver d) := by
  refine Meets.bind (AtType.eat rfl (by decide)) fun o => ?_
  refine Meets.ite (fun hsome => ?_) fun hnone => ?_
  · simp only [hsome, if_true]
    exact interfaceList_opened hsafe resolver h
  · simp only [hnone]
    exact Meets.pure fun _ hs => ⟨h, hs⟩

/-- **Headers** name the parent of a class. -/
theorem classHeader_opened (h : Opened text d) :
    GivesAt (entriesOf text) P (At (entriesOf text) P) (Opened text) (classHeader resolver d) := by
  rw [classHeader_eq]
  refine Meets.bind (extendsClause_opened hsafe resolver h) fun d₁ => Meets.given fun hd₁ => ?_
  refine Meets.bind (implementsClause_opened hsafe resolver hd₁) fun d₂ =>
    Meets.given fun hd₂ => ?_
  exact Meets.bind (Meets.discard (KeepsAt.expect _)) fun _ => Meets.pure fun _ hs => ⟨hd₂, hs⟩

end Headers

/-- Up to its opening brace, a class has a plain name, and so has its parent. -/
theorem classOpening_opened (hsafe : ∀ scope, P scope → SafeIn file.text scope)
    (start : List Entry) :
    GivesAt (entriesOf file.text) P
      (fun s => At (entriesOf file.text) P s ∧ atClass s.rest = true)
      (fun r => Opened file.text r.1) (classOpening file start) := by
  refine Meets.bind (classDraft_opened hsafe start) fun (d, name, header) =>
    Meets.given fun hd => ?_
  exact Meets.bind (classHeader_opened hsafe file.resolver hd) fun d₁ =>
    Meets.pure fun _ hs => ⟨hs.1, hs.2⟩

theorem KeepsAt.classMembers (cfg : Setting) (d : ClassDraft) :
    KeepsAt es P (classMembers cfg d) := by
  refine KeepsAt.of_keepsScope (fun _ => Forward.classMembers cfg d) ?_
  rintro _ s rfl
  -- members are read along a walk, which does not leave the scope
  obtain ⟨d', s', hrun, halong, -⟩ := exists_classMembers cfg d s
  rw [hrun]
  exact ⟨halong.scope_eq, trivial⟩

theorem KeepsAt.classEnd (start : List Entry) (header : Span) (d : ClassDraft) :
    KeepsAt es P (classEnd start header d) := by
  have hwrite : ∀ (span : Span) (line : Nat), KeepsAt es P (write span d (·.writeEndLine line)) :=
    fun _ _ => Meets.write (fun _ d h => h.report d) _ _
  refine Meets.bind (Meets.attempt_same (KeepsAt.expect _)) fun r => ?_
  cases r with
  | ok closing => exact hwrite _ _
  | error e => exact Meets.bind (KeepsAt.report e) fun _ => hwrite _ _

/-- The end of a class is written, and nothing else of it. -/
theorem classEnd_eq (start : List Entry) (header : Span) (d : ClassDraft) :
    Gives (fun d' => ∃ line, d' = { d with endLine := line }) (classEnd start header d) := by
  have hwrite : ∀ (span : Span) (line : Nat),
      Gives (fun d' => ∃ line, d' = { d with endLine := line })
        (write span d (·.writeEndLine line)) := by
    intro span line
    refine Meets.write_either (fun d' s hok _ => ⟨trivial, ?_⟩) fun _ _ _ =>
      ⟨trivial, d.endLine, rfl⟩
    exact ⟨some line, ClassDraft.of_writeEndLine hok⟩
  refine Keeps.bind Gives.any fun r _ => ?_
  cases r with
  | ok closing => exact hwrite _ _
  | error e => exact Keeps.bind Gives.any fun _ _ => hwrite _ _

/-- A class is read whole, whatever its body holds. -/
theorem classDeclaration_endsAt (hsafe : ∀ scope, P scope → SafeIn file.text scope)
    (start : List Entry) :
    EndsAt (entriesOf file.text) P
      (fun s => At (entriesOf file.text) P s ∧ atClass s.rest = true)
      (classDeclaration file start) := by
  refine Meets.bind (classDraft_opened hsafe start) fun (d, name, header) =>
    Meets.given fun hd => ?_
  refine Meets.bind (Meets.attempt (classHeader_opened hsafe file.resolver hd)) fun r => ?_
  cases r with
  | error e =>
    -- a class without a header is passed over
    refine Meets.bind (KeepsAt.report e) fun _ => ?_
    exact Meets.bind (KeepsAt.skipTo fun _ => List.dropWhile_suffix _) fun _ =>
      Meets.pure fun _ hs => hs
  | ok d =>
    refine Meets.of_pre ?_ fun _ hs => hs.2
    refine Meets.bind (KeepsAt.classMembers _ d) fun d => ?_
    exact Meets.bind (KeepsAt.classEnd start header d) fun d => Meets.pure fun _ hs => hs

end Classes

/-! ### Imports and namespaces -/

namespace KeepsAt

variable {text : String} {es : List Entry} {P : Scope → Prop}

theorem importAlias : KeepsAt es P importAlias := by
  refine Meets.bind (eat _) fun _ => ?_
  refine Meets.ite (fun _ => ?_) fun _ => pure
  exact Meets.bind (eat _) fun _ => pure

theorem groupMark : KeepsAt es P groupMark := by
  refine Meets.bind (eat _) fun _ => ?_
  exact Meets.ite (fun _ => pure) fun _ => Meets.bind (eat _) fun _ => pure

theorem commaBefore (close : Token.Kind) : KeepsAt es P (commaBefore close) := by
  refine Meets.bind comma fun _ => ?_
  refine Meets.ite (fun _ => ?_) fun _ => pure
  exact Meets.bind (Meets.peekKind.to_post fun _ _ h => h.2) fun _ => pure

theorem listOf {α : Type} {item : Routine α} {more : Routine Bool} (hitem : KeepsAt es P item)
    (hmore : KeepsAt es P more) : KeepsAt es P (listOf item more) := by
  refine Meets.iterate_same (I := fun _ => At es P) (fun _ => ?_) []
  refine Meets.bind hitem fun _ => Meets.bind hmore fun b => ?_
  cases b <;> exact pure

/-- An import is no relative word if none is disguised. -/
theorem addImport {target : String} (aliasName : Option String)
    (htarget : Undisguised text → Name.relative target ≠ "" ∧
      ¬ Name.IsRelative (Name.relative target)) :
    KeepsAt (entriesOf text) (SafeIn text) (addImport target aliasName) :=
  Meets.modify fun _ hs =>
    ⟨⟨hs.within.suffix, hs.within.eof_kind⟩, fun hwords =>
      (hs.scope hwords).addImport (htarget hwords).1 (htarget hwords).2⟩

/-- A name of a group stands behind the beginning of all of them. -/
theorem groupItem {lead : String} (hlead : Name.relative lead ≠ "") :
    KeepsAt (entriesOf text) (SafeIn text) (groupItem lead) := by
  refine Meets.bind groupMark fun _ => ?_
  refine Meets.bind (expect _) fun name => ?_
  refine Meets.bind importAlias fun aliasName => ?_
  refine Meets.ite (fun _ => addImport _ fun _ => ?_) fun _ => pure
  -- the separators that an import loses are those in front of the beginning
  change Name.relative (Name.behind lead name.lexeme) ≠ "" ∧
    ¬ Name.IsRelative (Name.relative (Name.behind lead name.lexeme))
  rw [Name.relative_behind hlead]
  exact ⟨Name.behind_ne_empty _ _, Name.not_isRelative_behind _ _⟩

theorem groupImport {lead : String} (hlead : Name.relative lead ≠ "") :
    KeepsAt (entriesOf text) (SafeIn text) (groupImport lead) := by
  refine Meets.bind (Meets.discard (expect _)) fun _ => ?_
  refine Meets.bind (Meets.peekKind.to_post fun _ _ h => h.2) fun _ => ?_
  extract_lets close
  have hclose : ∀ u, KeepsAt (entriesOf text) (SafeIn text) (close u) := fun _ =>
    Meets.discard (expect _)
  refine Meets.ite (fun _ => ?_) fun _ => hclose ()
  exact Meets.bind (Meets.discard (listOf (groupItem hlead) (commaBefore _))) fun u => hclose u

end KeepsAt

section Imports

variable {text : String}

/-- **Imported names** are read where a type may be written. -/
theorem importItem_endsAt :
    EndsAt (entriesOf text) (SafeIn text) (AtType (entriesOf text) (SafeIn text)) importItem := by
  refine Meets.bind AtType.eatName fun o => ?_
  cases o with
  | none => exact Meets.unexpectedName.weaken (fun _ h => h.2) (fun _ _ h => h) fun _ _ h => h
  | some target =>
    refine Meets.given fun htarget => ?_
    have hplain := htarget target rfl
    refine Meets.bind (Meets.get.to_post fun _ _ h => h.2) fun _ => ?_
    refine Meets.ite (fun _ => ?_) fun _ => ?_
    -- in a group the names have more than one segment, whatever they are
    · exact Meets.bind (Meets.discard KeepsAt.advance) fun _ =>
        KeepsAt.groupImport hplain.relative_eq.1
    · refine Meets.bind KeepsAt.importAlias fun aliasName => KeepsAt.addImport aliasName ?_
      exact fun hwords => ⟨hplain.relative_eq.1, hplain.not_isRelative_relative hwords⟩

theorem imports_endsAt :
    EndsAt (entriesOf text) (SafeIn text) (AtType (entriesOf text) (SafeIn text)) imports := by
  have hlist : GivesAt (entriesOf text) (SafeIn text) (AtType (entriesOf text) (SafeIn text))
      (fun items => ∀ _ ∈ items, True) (listOf importItem comma) :=
    AtType.listOf (importItem_endsAt.to_post fun _ _ h => ⟨trivial, h⟩) AtType.comma
  exact Meets.bind (Meets.discard (hlist.to_post fun _ _ h => h.2)) fun _ =>
    Meets.discard (KeepsAt.expect _)

/-- Imports keep the scope safe. -/
theorem importStatement_endsAt :
    EndsAt (entriesOf text) (SafeIn text)
      (fun s => s.peek.kind = .useWord ∧ At (entriesOf text) (SafeIn text) s) importStatement := by
  have huse : Meets (fun s => s.peek.kind = .useWord ∧ At (entriesOf text) (SafeIn text) s)
      (discard advance) (fun _ => AtType (entriesOf text) (SafeIn text))
      (fun _ => At (entriesOf text) (SafeIn text)) :=
    Meets.discard (AtType.advance (fun _ h => h.2) fun _ h => by simp [h.1]; rfl)
  refine Meets.bind huse fun _ => ?_
  refine Meets.bind (Meets.peekKind.to_post fun _ _ h => h.2) fun k => ?_
  split
  · exact KeepsAt.skipStatement.of_pre fun _ h => h.toAt
  · exact KeepsAt.skipStatement.of_pre fun _ h => h.toAt
  · refine Meets.bind imports_endsAt.attempt_same fun r => ?_
    cases r with
    | ok _ => exact KeepsAt.pure
    | error d => exact Meets.bind (KeepsAt.report d) fun _ => KeepsAt.skipStatement

/-- A namespace that is entered is safe. -/
theorem At.enter {s : State} (h : At (entriesOf text) (SafeIn text) s) (ns : String) :
    At (entriesOf text) (SafeIn text) { s with scope := s.scope.enter ns } :=
  ⟨⟨h.within.suffix, h.within.eof_kind⟩, fun _ => s.scope.safe_enter ns⟩

theorem KeepsAt.namespaceStatement : KeepsAt (entriesOf text) (SafeIn text) namespaceStatement := by
  refine Meets.bind (Meets.discard KeepsAt.advance) fun _ => ?_
  refine Meets.bind (KeepsAt.eat _) fun name => ?_
  refine Meets.bind (KeepsAt.eat _) fun brace => ?_
  extract_lets _ enter
  have henter : ∀ u, KeepsAt (entriesOf text) (SafeIn text) (enter u) := fun _ =>
    Meets.bind (Meets.modify fun _ hs => hs.enter _) fun _ => KeepsAt.pure
  refine Meets.ite (fun _ => ?_) fun _ => henter ()
  have hend : KeepsAt (entriesOf text) (SafeIn text) namespaceEnd := by
    refine Meets.bind (KeepsAt.eat _) fun _ => ?_
    exact Meets.ite (fun _ => Meets.unexpected _) fun _ => KeepsAt.pure
  refine Meets.bind (Meets.attempt_same hend) fun r => ?_
  cases r with
  | ok u => exact henter u
  | error d =>
    refine Meets.bind (KeepsAt.report d) fun _ => ?_
    exact Meets.bind KeepsAt.skipStatement fun u => henter u

end Imports

/-! ### Steps of a file -/

section Steps

variable {file : SourceFile} {f : FileState} {d : ClassDraft}

/-- Where the reading of a file stands between two steps. -/
abbrev FileAt (file : SourceFile) (f : FileState) : Prop :=
  At (entriesOf file.text) (SafeIn file.text) f.toState

/-- What a routine leaves, wherever it is run in the file. -/
theorem FileAt.run {α : Type} {r : Routine α}
    (hr : EndsAt (entriesOf file.text) (SafeIn file.text) (fun s => s = f.toState) r) :
    FileAt file (f.run r) :=
  FileState.of_run hr (fun e _ hs => hs.report e) rfl

theorem readsClass_at (start : List Entry) :
    ReadsDeclaration file start
      (fun s => At (entriesOf file.text) (SafeIn file.text) s ∧ atClass s.rest = true)
      (At (entriesOf file.text) (SafeIn file.text))
      (fun _ => At (entriesOf file.text) (SafeIn file.text)) :=
  (classDeclaration_endsAt (fun _ h => h) start).to_post fun _ _ hs =>
    ⟨hs, fun _ _ => hs.report _⟩

/-- **One step** leaves a safe scope. -/
theorem FileAt.step (h : FileAt file f) : FileAt file (f.step file) := by
  have hrun : ∀ {α : Type} {r : Routine α},
      KeepsAt (entriesOf file.text) (SafeIn file.text) r → FileAt file (f.run r) :=
    fun hr => .run (hr.of_pre fun _ heq => heq ▸ h)
  have hpass : FileAt file (f.run advance) := hrun KeepsAt.advance
  -- most steps consume tokens and nothing else
  have hbody :
      KeepsAt (entriesOf file.text) (SafeIn file.text) (do discard advance; skipToBody) :=
    Meets.bind (Meets.discard KeepsAt.advance) fun _ => KeepsAt.skipTo (bodyStart_suffix 0)
  cases f.stepsTo_step file with
  | space _ _ _ heq => exact heq ▸ hrun KeepsAt.namespaceStatement
  | imports hk heq =>
    exact heq ▸ .run (importStatement_endsAt.of_pre fun _ hs => hs ▸ ⟨hk, h⟩)
  | attributed _ heq =>
    exact heq ▸ FileState.of_readAttributed KeepsAt.skipAttributes (readsClass_at f.rest)
      (fun _ hs => hs) (fun e _ hs => hs.report e) h
  | enters hclass heq =>
    rw [heq]
    exact FileState.of_readClass (readsClass_at f.rest) (fun e _ hs => hs.report e) ⟨h, hclass⟩
  | body _ heq => exact heq ▸ hrun hbody
  | anonymous _ _ heq =>
    exact heq ▸ hrun (Meets.bind (Meets.discard KeepsAt.advance) fun _ => hbody)
  | opens _ heq | closes _ _ heq | passes _ _ _ heq => exact heq ▸ hpass
  -- behind a namespace in braces, code is in the global one
  | leaves _ _ heq => exact heq ▸ hpass.enter ""

/-- **All steps** do. -/
theorem FileAt.of_visits (h : (FileState.start file.text).Visits file f) : FileAt file f := by
  have hstart : FileAt file (FileState.start file.text) :=
    ⟨⟨List.suffix_refl _, FileState.kind_eof_start file.text⟩, fun _ => Scope.safe_empty⟩
  generalize FileState.start file.text = f₀ at h hstart
  induction h with
  | here => exact hstart
  | step _ _ _ ih => exact ih hstart.step

/-! ### Classes of a file -/

/-- **The words of a type of a class.** They are written for it by a member of the class with the
index `k`, the one with which the class has got what the type is for. -/
def WrittenFor (file : SourceFile) (k : Nat) (site : TypeSite) (words : List String) : Prop :=
  ∃ b b', MemberAt file k b b' ∧ site.isIn b.draft = false ∧ site.isIn b'.draft = true ∧
    TypeWords b b'.rest site words

/-- What is known of a class from the reading of the file, with the scope in which it is read. -/
structure Traced (file : SourceFile) (f : FileState) (c : Class) : Prop where
  name : Undisguised file.text → ¬ Name.IsRelative c.name
  parentName : Undisguised file.text → ∀ p ∈ c.parentName, ¬ Name.IsRelative p
  /-- Every type is written by a member of the class. -/
  types : ∀ site hint, HasType c site hint → ∃ b b', MemberAt file f.classes.length b b' ∧
    b.rest <:+ entriesOf file.text ∧ site.isIn b.draft = false ∧ site.isIn b'.draft = true ∧
    SourcedIn b b'.rest (· = f.scope) ⟨file.resolver, c.name, c.parentName⟩ site (some hint)

/-- **Every class is traced** by the step that publishes it. -/
theorem exists_traced {c : Class} (hc : c ∈ file.read.1) :
    ∃ f, (FileState.start file.text).Visits file f ∧
      (f.step file).classes = f.classes ++ [c] ∧ Traced file f c := by
  obtain ⟨k, hk⟩ := List.mem_iff_getElem?.mp hc
  obtain ⟨f, name, body, hclass⟩ := exists_classAt hk
  obtain ⟨s, -, token, header, d₂, s₂, d, henters, -, hopening, hmembers, hend, hclasses⟩ :=
    hclass.exists_yields
  obtain rfl : c = d.build file.linked := by
    obtain ⟨last, d', hread⟩ := hclass.read
    have hbuild := hread.getElem?_read hclass.visited
    rw [hclass.index_eq, hk] at hbuild
    have hsame := hread.classes_eq.symm.trans hclasses
    rw [Option.some.inj hbuild, List.singleton_inj.mp (List.append_cancel_left hsame)]
  -- where the class begins and where its body does, in the scope of the step
  have hfile : FileAt file f := .of_visits hclass.visited
  have hs : At (entriesOf file.text) (· = f.scope) s :=
    KeepsAt.skipAttributes.of_ok ⟨hfile.within, rfl⟩ henters.1
  obtain ⟨hopened, hbody⟩ := (classOpening_opened (fun _ h => h ▸ hfile.scope) f.rest).of_ok
    ⟨hs, henters.2⟩ hopening
  have hrounds := classMembers_rounds hmembers
  have hframe := (hrounds.at hbody).2
  -- the end of the class changes none of its names and none of its types
  obtain ⟨line, rfl⟩ := ((classEnd_eq f.rest header d₂).of_ok trivial hend).2
  have hname : d₂.name = body.draft.name := congrArg Frame.className hframe
  have hparent : d₂.parentName = body.draft.parentName := congrArg Frame.parentName hframe
  refine ⟨f, hclass.visited, hclasses, ?_, ?_, fun site hint htype => ?_⟩
  · exact fun hwords => (congrArg (¬ Name.IsRelative ·) hname).mpr (hopened.name hwords)
  · intro hwords p hp
    exact hopened.parentName hwords p (hparent ▸ hp)
  · have htype' : HasType (d₂.build file.linked) site hint := htype.congr rfl rfl rfl
    obtain ⟨b, b', hwritten⟩ := hrounds.exists_writtenIn hbody hopened.toBare htype'
    refine ⟨b, b', ⟨⟨f, name, body, hclass.index_eq.symm ▸ hclass, hwritten.rounds⟩,
      hwritten.round⟩, (hwritten.rounds.at hbody).1.within.suffix, hwritten.not_before,
      hwritten.behind, ?_⟩
    have hsourced := hwritten.sourced
    rw [← hframe] at hsourced
    exact hsourced

end Steps

end Reading

namespace SourceFile

open Reading

/-- **The words `self` and `parent` are replaced.** Every type of a class is declared by the member
that it belongs to, or documented in front of it. The leaves of the type stand for the words that
are written there one by one: `self` for the class itself, `parent` for its declared parent, and a
class for any other word has the name to which that word is resolved where the class is read. So no
class in a type is called `self` or `parent`, at any depth, if no name of the file is such a word in
disguise. -/
theorem types_replaced (file : SourceFile) :
    ∀ c ∈ file.read.1, ∃ f, (FileState.start file.text).Visits file f ∧
      (f.step file).classes = f.classes ++ [c] ∧
      (∀ site hint, HasType c site hint → ∃ words, WrittenFor file f.classes.length site words ∧
        List.Forall₂ (Frame.Denotes ⟨file.resolver, c.name, c.parentName⟩ f.scope) words
          hint.leaves) ∧
      ∀ hint ∈ c.types, (∃ site, HasType c site hint) ∧
        (Undisguised file.text → ∀ name ∈ hint.classNames, ¬ Name.IsRelative name) := by
  intro c hc
  obtain ⟨f, hvisited, hclasses, htraced⟩ := exists_traced hc
  refine ⟨f, hvisited, hclasses, fun site hint htype => ?_, fun hint hhint => ?_⟩
  · obtain ⟨b, b', hmember, -, hbefore, hbehind, hsourced⟩ := htraced.types site hint htype
    obtain ⟨_, words, rfl, hwords, hleaves⟩ := hsourced hint rfl
    exact ⟨words, ⟨b, b', hmember, hbefore, hbehind, hwords⟩, hleaves⟩
  · obtain ⟨site, htype⟩ := mem_types_iff.mp hhint
    refine ⟨⟨site, htype⟩, fun hwords name hname => ?_⟩
    obtain ⟨b, b', -, hes, -, -, hsourced⟩ := htraced.types site hint htype
    -- the scope of the step is safe, as the steps before it have left it so
    have hsafe : ∀ scope, scope = f.scope → SafeIn file.text scope := fun _ heq =>
      heq ▸ (FileAt.of_visits hvisited).scope
    exact hsourced.not_isRelative hes hsafe hwords (htraced.name hwords)
      (htraced.parentName hwords) hname

/-- A class with types that are declared and documented by relative words. -/
def bothWays : SourceFile where
  text := "<?php class A extends B \x7b public ?self $x; /** @var Parent|C */ public $y; \x7d"

/-- They are replaced, for example. -/
theorem types_replaced_bothWays :
    Undisguised bothWays.text ∧ ∃ c ∈ bothWays.read.1,
      c.types.map TypeHint.classNames = [["A"], ["B", "C"]] ∧
      ∃ f, (FileState.start bothWays.text).Visits bothWays f ∧
        (f.step bothWays).classes = f.classes ++ [c] ∧
        (∀ site hint, HasType c site hint →
          ∃ words, WrittenFor bothWays f.classes.length site words ∧
            List.Forall₂ (Frame.Denotes ⟨bothWays.resolver, c.name, c.parentName⟩ f.scope) words
              hint.leaves) ∧
        ∀ hint ∈ c.types, (∃ site, HasType c site hint) ∧
          ∀ name ∈ hint.classNames, ¬ Name.IsRelative name := by
  have hwords : Undisguised bothWays.text := by decide +kernel
  obtain ⟨c, hc, hnames⟩ : ∃ c ∈ bothWays.read.1,
      c.types.map TypeHint.classNames = [["A"], ["B", "C"]] := by decide +kernel
  obtain ⟨f, hvisited, hclasses, hwritten, htypes⟩ := types_replaced bothWays c hc
  exact ⟨hwords, c, hc, hnames, f, hvisited, hclasses, hwritten, fun hint hhint =>
    (htypes hint hhint).imp_right (· hwords)⟩

/-- A class with a type that is declared by a relative word in disguise. -/
def behindSeparator : SourceFile where
  text := "<?php class A \x7b public \\self $x; \x7d"

/-- **Words in disguise** are not replaced: the type is a class called `self`. -/
theorem disguised_word_kept :
    ∃ c ∈ behindSeparator.read.1, ∃ hint ∈ c.types, ∃ name ∈ hint.classNames,
      Name.IsRelative name := by
  decide +kernel

end SourceFile

end Introspect
