import Introspect.Proofs.Reading.Types

/-!
# Printed types are read back

A type that can be declared is read back from its text: a file that declares a parameter of that
type is read without a report, and the parameter has the type. The way there has three parts.

* `spells_declaration`: the text of the file is cut into the words of a class with one method;
* `exists_classDeclaration`: from these words the class is read whole, member by member;
* `SourceFile.read_of_class`: a file that is nothing but a class declares that class.

`TypeHint.Declarable.readsBack` puts them together. The names of classes have one limit: behind the
word `namespace`, in any case of letters, a name is relative to the namespace it stands in, so that
it is not the name that is read.
-/

namespace Introspect

namespace Reading

/-! ### The declaration around a type -/

/-- The tokens of a method with one parameter and an empty body. -/
def methodWords (method name : String) (t : TypeHint) : List (Token.Kind × String) :=
  (.functionWord, "function") :: (.name, method) ::
    ((.leftParen, "(") :: (t.words ++ [(.variableName, name)]) ++ [(.rightParen, ")")] ++
      [(.leftBrace, "\x7b"), (.rightBrace, "\x7d")])

/-- The tokens of a class with that method. -/
def classWords (method name : String) (t : TypeHint) : List (Token.Kind × String) :=
  (.classWord, "class") :: (.name, "C") :: (.leftBrace, "\x7b") ::
    (methodWords method name t ++ [(.rightBrace, "\x7d")])

section Declaration

variable {t : TypeHint} {method name : String} {cfg : Setting} {es tail : List Entry}

/-- An empty block. -/
theorem yields_skipBlock {s : State} {opening closing : Entry}
    (hrest : s.rest = opening :: closing :: tail) (hopen : opening.kind = .leftBrace)
    (hclose : closing.kind = .rightBrace) :
    Yields skipBlock s closing.token { s with rest := tail } := by
  refine Yields.skipBlock (peek_kind hrest hopen) ?_
  simp [hrest, closeBlock, hclose]

/-- The name of a method. -/
theorem yields_memberName {s : State} {ident : Entry} (hrest : s.rest = ident :: tail)
    (hname : ident.kind = .name) : Yields memberName s ident.token { s with rest := tail } := by
  refine Yields.bind .peek ?_
  rw [if_pos (.inl (peek_kind hrest hname)), ← advance_rest hrest, ← State.peek_of_rest hrest]
  exact .advance

/-- **The method** is read whole, and its parameter is the one that was written. -/
theorem exists_methodDraft (hcfg : cfg.resolver = .namespaced) (h : t.Declarable) (d : ClassDraft)
    (mods : Modifiers) (line : Nat) {s : State} (hrest : s.rest = es ++ tail)
    (hwords : es.map (·.token.spelling) = methodWords method name t) (hscope : s.scope = .empty) :
    ∃ m token, Yields (methodDraft cfg d mods none line) s (m, token, []) { s with rest := tail } ∧
      m.name = method ∧ m.parameters = some [parameterDraft name t] ∧ m.className = none := by
  -- the tokens are taken apart as the words of the method are put together
  obtain ⟨function, es₁, rfl, hfunction, hwords⟩ := List.map_eq_cons_iff.mp hwords
  obtain ⟨ident, es₂, rfl, hident, hwords⟩ := List.map_eq_cons_iff.mp hwords
  obtain ⟨params, es₃, rfl, hparams, hwords⟩ := List.map_eq_append_iff.mp hwords
  obtain ⟨opening, es₄, rfl, hopening, hwords⟩ := List.map_eq_cons_iff.mp hwords
  obtain ⟨closing, es₅, rfl, hclosing, hnil⟩ := List.map_eq_cons_iff.mp hwords
  obtain rfl := List.map_eq_nil_iff.mp hnil
  obtain ⟨hname, hlexeme⟩ : ident.token.kind = .name ∧ ident.token.lexeme = method :=
    Prod.mk.inj hident
  have hopen : opening.kind = .leftBrace := congrArg Prod.fst hopening
  have hclose : closing.kind = .rightBrace := congrArg Prod.fst hclosing
  -- `ahead rest` is the state with the tokens `rest` still to be read
  let ahead (rest : List Entry) : State := { s with rest }
  have hword : Yields (discard (expect .functionWord)) s ()
      (ahead (ident :: (params ++ opening :: closing :: tail))) :=
    .discard (yields_expect (by simp [hrest]) (congrArg Prod.fst hfunction))
  have hreference : (ahead (ident :: (params ++ opening :: closing :: tail))).peek.kind ≠ .amp :=
    Eq.trans_ne hname (by decide)
  have hidentifier : Yields memberName (ahead (ident :: (params ++ opening :: closing :: tail)))
      ident.token (ahead (params ++ opening :: closing :: tail)) := yields_memberName rfl hname
  have hparameters := consumes_parameters (f := cfg.frame d) hcfg h cfg name "(" ")"
    (ahead (params ++ opening :: closing :: tail)) params _ rfl hparams hscope trivial
  have hpeek : (ahead (opening :: closing :: tail)).peek.kind = .leftBrace := hopen
  have hplain : Yields (returnType (cfg.frame d) none) (ahead (opening :: closing :: tail)) none
      (ahead (opening :: closing :: tail)) :=
    Yields.bind (.eat_none (hpeek.trans_ne (by decide))) (.bind .get .pure)
  have hbody : Yields methodEnd (ahead (opening :: closing :: tail)) closing.token
      (ahead tail) := by
    refine Yields.bind .peekKind ?_
    rw [hpeek]
    exact yields_skipBlock rfl hopen hclose
  have hdraft : Yields (methodDraft cfg d mods none line) s
      (methodOf d mods none line false ident.token [parameterDraft name t] none closing.token,
        ident.token, []) (ahead tail) := by
    rw [methodDraft_eq]
    exact Yields.bind hword <| Yields.bind (.eat_none hreference) <| Yields.bind hidentifier <|
      Yields.bind hparameters <| Yields.bind hplain <| Yields.bind hbody .pure
  exact ⟨_, _, hdraft, hlexeme, rfl, rfl⟩

/-- Without doc comments none is found. -/
theorem lastDoc_eq_none {es : List Entry} (h : ∀ e ∈ es, e.doc = none) : lastDoc es = none := by
  rw [lastDoc, List.findSome?_eq_none_iff]
  exact fun e he => h e (List.mem_reverse.mp he)

/-- The method, as a member of a class that has none. -/
theorem exists_member (hcfg : cfg.resolver = .namespaced) (h : t.Declarable) {b : Body}
    (hrest : b.rest = es ++ tail) (hwords : es.map (·.token.spelling) = methodWords method name t)
    (hscope : b.scope = .empty) (hdoc : ∀ e ∈ b.rest, e.doc = none) (hnone : b.draft.methods = []) :
    ∃ m, Yields (member cfg) b () { b with
        rest := tail, draft := { b.draft with methods := [m] } } ∧
      m.name = method ∧ m.parameters = some [parameterDraft name t] := by
  have hkind : b.peek.kind = .functionWord := peek_kind_of_words hrest hwords
  obtain ⟨m, token, hdraft, hname, hparameters, hclass⟩ := exists_methodDraft hcfg h b.draft .empty
    b.peek.span.line hrest hwords hscope
  have hadd : b.draft.addMethod m
      = .ok { b.draft with methods := [{ m with className := some b.draft.name }] } := by
    simp only [ClassDraft.addMethod, ClassDraft.hasMethod, hnone]
    simp [MethodDraft.writeClass, hclass]
  refine ⟨{ m with className := some b.draft.name }, ?_, hname, hparameters⟩
  -- there are neither attributes nor modifiers in front of the word `function`
  have hskip := Yields.reading (b := b) (Yields.skipAttributes (hkind.trans_ne (by decide)))
  have hmodifiers : Yields modifiers b.toState .empty b.toState := .modifiers (by rw [hkind]; rfl)
  refine Yields.bind .get (Yields.bind hskip (Yields.bind .get ?_))
  rw [hkind]
  refine Yields.bind (Yields.reading .docSince) (Yields.bind .get ?_)
  rw [lastDoc_eq_none fun e he => hdoc e (List.mem_of_mem_take he)]
  refine Yields.bind (Yields.reading hmodifiers) (Yields.bind .get ?_)
  rw [if_pos hkind]
  refine Yields.bind .get (Yields.bind (Yields.reading hdraft) ?_)
  refine Yields.bind (Yields.adding hadd) ?_
  -- nothing follows the method, whether it is a constructor or not: it promotes no property
  split <;> exact .pure

/-- **The body of the class** is read up to its closing brace. -/
theorem exists_classMembers_eq (hcfg : cfg.resolver = .namespaced) (h : t.Declarable) {s : State}
    {d : ClassDraft} {closing : Entry} (hrest : s.rest = es ++ closing :: tail)
    (hwords : es.map (·.token.spelling) = methodWords method name t)
    (hclosing : closing.kind = .rightBrace) (hscope : s.scope = .empty)
    (hdoc : ∀ e ∈ s.rest, e.doc = none) (hnone : d.methods = []) :
    ∃ m, Yields (classMembers cfg d) s { d with methods := [m] }
        { s with rest := closing :: tail } ∧
      m.name = method ∧ m.parameters = some [parameterDraft name t] := by
  let b : Body := { s with draft := d }
  obtain ⟨m, hmember, hname, hparameters⟩ := exists_member (b := b) hcfg h hrest hwords hscope hdoc
    hnone
  refine ⟨m, ?_, hname, hparameters⟩
  have hkind : b.peek.kind = .functionWord := peek_kind_of_words hrest hwords
  have hless : (closing :: tail).length < s.rest.length := by
    have hpositive : 0 < es.length := by
      rw [← List.length_map (f := fun e : Entry => e.token.spelling), hwords]
      exact Nat.succ_pos _
    rw [hrest, List.length_append]
    omega
  set b' : Body := { b with rest := closing :: tail, draft := { d with methods := [m] } } with hb'
  -- a first round reads the method, and a second one meets the closing brace
  have hround : Yields (memberOrRecover cfg) b () b' := by
    refine Yields.bind .get (Yields.bind hmember.attempt (Yields.bind .get ?_))
    rw [if_neg hless.ne]
    exact .pure
  have hlast : Yields (classBody cfg) b' () b' := by
    refine Yields.iterate_done (.bind .get ?_)
    rw [show b'.peek.kind = .rightBrace from hclosing]
    exact .pure
  have hbody : Yields (classBody cfg) b () b' := by
    have hsize : b'.toState.size < b.toState.size := hless
    refine Yields.iterate_yield (Yields.bind .get ?_) hsize hlast
    rw [hkind]
    exact hround.bind .pure
  rw [Yields, classMembers, hbody]

/-- The beginning of the class, which has no members yet. -/
theorem exists_classOpening (file : SourceFile) {start : List Entry} {s : State}
    {word ident opening : Entry} (hrest : s.rest = word :: ident :: opening :: tail)
    (hword : word.kind = .classWord) (hopening : opening.kind = .leftBrace)
    (hdoc : ∀ e ∈ start, e.doc = none) :
    ∃ d token header,
      Yields (classOpening file start) s (d, token, header) { s with rest := tail } ∧
      d.name = Name.relative (s.scope.declare ident.token.lexeme) ∧ d.methods = [] ∧
        d.endLine = none := by
  have hkind := peek_kind hrest hword
  -- no modifier stands in front of the word `class`
  have hflags : Yields classFlags s {} s.advance := by
    refine Yields.bind (?_ : Yields _ s ({} : ClassFlags) s) (Yields.bind .advance ?_)
    · refine Yields.iterate_done (Yields.bind .peekKind ?_)
      rw [hkind]
      exact .pure
    · rw [hkind]
      exact .pure
  have hdraft : Yields (classDraft file start) s
      (classOf (s.scope.declare s.advance.peek.lexeme) {} none s.peek.span.line file.path,
        s.advance.peek, s.peek.span) s.advance.advance := by
    rw [classDraft_eq]
    refine Yields.bind .peek (Yields.bind hflags (Yields.bind .docSince (Yields.bind .advance ?_)))
    rw [lastDoc_eq_none fun e he => hdoc e (List.mem_of_mem_take he)]
    exact Yields.bind .get .pure
  have hbrace : s.advance.advance.rest = opening :: tail := by simp [hrest]
  have hbracket := peek_kind hbrace hopening
  -- neither a parent nor interfaces: the brace is next
  have hheader : ∀ d, Yields (classHeader file.resolver d) s.advance.advance d
      { s with rest := tail } := by
    intro d
    refine Yields.bind (Yields.bind (.eat_none (hbracket.trans_ne (by decide))) .pure) ?_
    refine Yields.bind (.eat_none (hbracket.trans_ne (by decide))) ?_
    exact Yields.bind .pure (Yields.bind (.discard (yields_expect hbrace hopening)) .pure)
  have hlexeme : s.advance.peek.lexeme = ident.token.lexeme := by
    rw [State.peek_of_rest (by rw [State.rest_advance, hrest]; rfl)]
  refine ⟨_, _, _, Yields.bind hdraft (Yields.bind (hheader _) .pure), ?_, rfl, rfl⟩
  rw [← hlexeme]
  rfl

/-- **The class** is read whole. -/
theorem exists_classDeclaration {file : SourceFile} (hfile : file.resolver = .namespaced)
    (h : t.Declarable) {s : State}
    (hwords : s.rest.map (·.token.spelling) = classWords method name t) (hscope : s.scope = .empty)
    (hdoc : ∀ e ∈ s.rest, e.doc = none) :
    ∃ d span m, Yields (classDeclaration file s.rest) s (some (d, span)) { s with rest := [] } ∧
      d.name = "C" ∧ d.methods = [m] ∧ m.name = method ∧
        m.parameters = some [parameterDraft name t] := by
  obtain ⟨word, es₁, hrest, hword, hwords⟩ := List.map_eq_cons_iff.mp hwords
  obtain ⟨ident, es₂, rfl, hident, hwords⟩ := List.map_eq_cons_iff.mp hwords
  obtain ⟨opening, es₃, rfl, hopening, hwords⟩ := List.map_eq_cons_iff.mp hwords
  obtain ⟨body, es₄, rfl, hbody, hwords⟩ := List.map_eq_append_iff.mp hwords
  obtain ⟨closing, es₅, rfl, hclosing, hnil⟩ := List.map_eq_cons_iff.mp hwords
  obtain rfl := List.map_eq_nil_iff.mp hnil
  have hclose : closing.kind = .rightBrace := congrArg Prod.fst hclosing
  have hlexeme : ident.token.lexeme = "C" := congrArg Prod.snd hident
  -- the header is read first, then the body without the brace that closes it
  obtain ⟨d, token, header, hopen, hname, hnone, hend⟩ := exists_classOpening file hrest
    (congrArg Prod.fst hword) (congrArg Prod.fst hopening) hdoc
  set s₁ : State := { s with rest := body ++ [closing] } with hs₁
  let cfg : Setting := ⟨file.text, file.resolver⟩
  have hcfg : cfg.resolver = .namespaced := hfile
  have hbodyDoc : ∀ e ∈ s₁.rest, e.doc = none := by
    intro e he
    refine hdoc e ?_
    rw [hrest]
    exact .tail _ (.tail _ (.tail _ he))
  obtain ⟨m, hmembers, hm, hparameters⟩ :=
    exists_classMembers_eq (s := s₁) hcfg h rfl hbody hclose hscope hbodyDoc hnone
  have hlast : Yields (classEnd s.rest header { d with methods := [m] })
      { s with rest := [closing] }
      { d with methods := [m], endLine := some closing.token.span.endLine } { s with rest := [] } :=
    Yields.bind (yields_expect rfl hclose).attempt
      (.write (by simp [ClassDraft.writeEndLine, hend]))
  refine ⟨_, _, m, Yields.classDeclaration hopen hmembers hlast, ?_, rfl, hm, hparameters⟩
  rw [hname, hscope, hlexeme]
  rfl

end Declaration

/-! ### The text of the declaration -/

section Text

open Token (Spells Calm Cuts)

variable {t : TypeHint}

/-- What stands behind the type. -/
theorem calm_behind : Calm 1 " $p) \x7b\x7d \x7d".toList
    [(.variableName, "$p"), (.rightParen, ")"), (.leftBrace, "\x7b"), (.rightBrace, "\x7d"),
      (.rightBrace, "\x7d")] := by
  refine .blank rfl <| .token ['$', 'p'] ⟨_, rfl, rfl, rfl⟩ rfl rfl nofun <|
    .token [')'] ⟨_, rfl, rfl, rfl⟩ rfl rfl nofun <| .blank rfl <|
    .token ['\x7b'] ⟨_, rfl, rfl, rfl⟩ rfl rfl nofun <|
    .token ['\x7d'] ⟨_, rfl, rfl, rfl⟩ rfl rfl (by decide) <| .blank rfl <|
    .token ['\x7d'] ⟨_, rfl, rfl, rfl⟩ rfl rfl (by decide) fun _ _ => .done

/-- What stands in front of the type; behind the word `function`, the name of a member does. -/
theorem spells_declaration_of_calm {text : List Char} {words : List (Token.Kind × String)}
    (h : Calm 1 text words) :
    Spells false .openTag 0 ("class C \x7b function f(".toList ++ text)
      ((.classWord, "class") :: (.name, "C") :: (.leftBrace, "\x7b") ::
        (.functionWord, "function") :: (.name, "f") :: (.leftParen, "(") :: words) := by
  have hparen : Calm 1 ('(' :: text) ((.leftParen, "(") :: words) :=
    .token ['('] (Token.cuts_delimiter (by decide) _ false) rfl rfl nofun h
  have hname : Spells true .functionWord 1 ('f' :: '(' :: text)
      ((.name, "f") :: (.leftParen, "(") :: words) :=
    .token ['f'] (Token.cuts_identifier (by decide) rfl (by decide)) rfl nofun (hparen .name rfl)
  have hfunction : Spells false .leftBrace 1 (" function f(".toList ++ text)
      ((.functionWord, "function") :: (.name, "f") :: (.leftParen, "(") :: words) :=
    .blank rfl <| .token "function".toList (Token.cuts_identifier (by decide) rfl (by decide)) rfl
      nofun <| .blank rfl hname
  have hbrace : Spells false .name 0 ('\x7b' :: (" function f(".toList ++ text))
      ((.leftBrace, "\x7b") ::
        (.functionWord, "function") :: (.name, "f") :: (.leftParen, "(") :: words) :=
    .token ['\x7b'] (Token.cuts_delimiter (by decide) _ false) rfl nofun hfunction
  have hclass : Spells false .classWord 0 ('C' :: ' ' :: '\x7b' :: (" function f(".toList ++ text))
      ((.name, "C") :: (.leftBrace, "\x7b") ::
        (.functionWord, "function") :: (.name, "f") :: (.leftParen, "(") :: words) :=
    .token ['C'] (Token.cuts_identifier (by decide) rfl (by decide)) rfl nofun (.blank rfl hbrace)
  exact .token "class".toList (Token.cuts_identifier (by decide) rfl (by decide)) rfl nofun
    (.blank rfl hclass)

/-- The text of the declaration is cut into its words. -/
theorem spells_declaration (h : t.Declarable) :
    Spells false .openTag 0
      ("class C \x7b function f(".toList ++ (t.text.toList ++ " $p) \x7b\x7d \x7d".toList))
      (classWords "f" "$p" t) := by
  have hspells := spells_declaration_of_calm (h.calm rfl calm_behind)
  simpa [classWords, methodWords] using hspells

end Text

/-! ### The file -/

/-- Ordinary tokens up to the end of the text are all significant. -/
theorem entries_of_words {ts : List Token} {words : List (Token.Kind × String)}
    (hts : ts.map Token.spelling = words ++ [(.endOfText, "")])
    (hwords : ∀ w ∈ words, w.1.isOrdinary = true) :
    (entries none ts).map (·.token.spelling) = words ∧ ∀ e ∈ entries none ts, e.doc = none := by
  induction words generalizing ts with
  | nil =>
    obtain ⟨last, ts', rfl, hlast, hnil⟩ := List.map_eq_cons_iff.mp hts
    have hkind : last.kind = .endOfText := congrArg Prod.fst hlast
    simp [entries, hkind]
  | cons w words ih =>
    obtain ⟨token, ts', rfl, htoken, hts'⟩ := List.map_eq_cons_iff.mp hts
    -- white space and comments are not ordinary, so no token is left out
    have hordinary : token.kind.isOrdinary = true := by
      rw [show token.kind = w.1 from congrArg Prod.fst htoken]
      exact hwords w List.mem_cons_self
    have hentries : entries none (token :: ts') = ⟨token, none⟩ :: entries none ts' := by
      rw [entries]
      split
      case h_8 => rfl
      all_goals
        next hkind =>
          rw [hkind] at hordinary
          exact absurd hordinary (by decide)
    obtain ⟨hmap, hdoc⟩ := ih hts' fun w hw => hwords w (List.mem_cons_of_mem _ hw)
    rw [hentries, List.map_cons, hmap]
    refine ⟨congrArg (· :: words) htoken, ?_⟩
    intro e he
    rcases List.mem_cons.mp he with rfl | he
    · rfl
    · exact hdoc e he

/-- Where reading begins in a file of spelled code. -/
theorem FileState.start_of_spells {code : List Char} {words : List (Token.Kind × String)}
    (h : Token.Spells false .openTag 0 code words) {source : String}
    (hsource : source.toList = "<?php ".toList ++ code) :
    (FileState.start source).rest.map (·.token.spelling) = words ∧
      (∀ e ∈ (FileState.start source).rest, e.doc = none) ∧
        (FileState.start source).diagnostics = [] := by
  obtain ⟨htokens, herrors⟩ := h.ofFile hsource
  obtain ⟨tag, ts, htag, hspelling, hts⟩ := List.map_eq_cons_iff.mp htokens
  have hkind : tag.kind = .openTag := congrArg Prod.fst hspelling
  have hrest : (FileState.start source).rest = entries none ts := by
    show entries none (Token.Scanner.ofFile source).tokens = _
    rw [htag, entries, hkind]
  obtain ⟨hwords, hdoc⟩ := entries_of_words hts h.isOrdinary
  rw [hrest]
  refine ⟨hwords, hdoc, ?_⟩
  show (Token.Scanner.ofFile source).run.2.errors.map Diagnostic.ofLexical = []
  rw [herrors, List.map_nil]

end Reading

open Reading

/-- **A file with one class.** If the whole file is a class that is read without a report, the class
is what the file declares. -/
theorem SourceFile.read_of_class {file : SourceFile} {d : ClassDraft} {span : Span}
    (hstart : (FileState.start file.text).diagnostics = [])
    (hclass : atClass (FileState.start file.text).rest = true)
    (hyields : Yields (classDeclaration file (FileState.start file.text).rest)
      (FileState.start file.text).toState (some (d, span))
      { (FileState.start file.text).toState with rest := [] }) :
    file.read = ([d.build file.linked], []) := by
  set f := FileState.start file.text with hf
  -- one step reads the class, and nothing is left behind it
  have henters : f.Enters f.toState := FileState.enters_of_atClass hclass
  have hstep : f.step file
      = { f with rest := [], declared := [(Name.lookupKey d.name, false)],
                 classes := [d.build file.linked] } := by
    rw [henters.step_eq, FileState.readClass, hyields]
    rfl
  have hrest : f.rest ≠ [] := by
    intro hnil
    rw [hnil] at hclass
    exact absurd hclass (by decide)
  -- the second step would find nothing to read
  have hfinish : f.finish file = f.step file := by
    have hless : (f.step file).rest.length < f.rest.length := by
      rw [hstep]
      exact List.length_pos_of_ne_nil hrest
    have hlast : (f.step file).finish file = f.step file := by
      rw [FileState.finish, if_pos (by rw [hstep])]
    rw [FileState.finish]
    simp only [hrest, hless, if_false, if_true, hlast]
  show ((f.finish file).classes, (f.finish file).diagnostics) = _
  rw [hfinish, hstep]
  exact Prod.ext rfl hstart

/-! ### Types that are read back -/

namespace TypeHint

/-- A file that declares a class with a method of one parameter, which is of the type. -/
def declaration (t : TypeHint) : String :=
  "<?php class C \x7b function f(" ++ t.text ++ " $p) \x7b\x7d \x7d"

theorem toList_declaration (t : TypeHint) :
    t.declaration.toList = "<?php ".toList ++
      ("class C \x7b function f(".toList ++ (t.text.toList ++ " $p) \x7b\x7d \x7d".toList)) := by
  have hlead : "<?php class C \x7b function f(".toList
      = "<?php ".toList ++ "class C \x7b function f(".toList := rfl
  unfold declaration
  generalize t.text = text
  rw [String.toList_append, String.toList_append, hlead, List.append_assoc, List.append_assoc]

/-- **Reading back.** From such a file, nothing is reported and the type is what the parameter of
the one method of the one class has. -/
def ReadsBack (t : TypeHint) : Prop :=
  ∀ file : SourceFile, file.text = t.declaration → file.resolver = .namespaced →
    ∃ c m p, file.read = ([c], []) ∧ c.name = "C" ∧ c.methods = [m] ∧ m.name = "f" ∧
      m.parameters = [p] ∧ p.name = "p" ∧ p.typeHint = some t ∧ p.byReference = false

/-- **Round trip.** Every type that can be declared is read back from its text. -/
theorem Declarable.readsBack {t : TypeHint} (h : t.Declarable) : t.ReadsBack := by
  intro file htext hresolver
  have hsource := (congrArg String.toList htext).trans t.toList_declaration
  obtain ⟨hwords, hdoc, hquiet⟩ := FileState.start_of_spells (spells_declaration h) hsource
  have hclass : atClass (FileState.start file.text).rest = true := by
    obtain ⟨word, es, heq, hword, hwords⟩ := List.map_eq_cons_iff.mp hwords
    obtain ⟨ident, es, rfl, hident, -⟩ := List.map_eq_cons_iff.mp hwords
    have hkind : word.kind = .classWord := congrArg Prod.fst hword
    have hname : ident.kind = .name := congrArg Prod.fst hident
    simp [heq, atClass, hkind, hname, isClassModifier]
  obtain ⟨d, span, m, hyields, hname, hmethods, hmethod, hparameters⟩ :=
    exists_classDeclaration hresolver h hwords rfl hdoc
  refine ⟨d.build file.linked, m.build, (parameterDraft "$p" t).build 0 1,
    SourceFile.read_of_class hquiet hclass hyields, hname, ?_, hmethod, ?_, ?_, rfl, rfl⟩
  · rw [ClassDraft.build, hmethods]
    rfl
  · rw [MethodDraft.build, hparameters]
    rfl
  · rfl

/-- A union of an intersection of two classes and of `null`. -/
def bothOrNull : TypeHint :=
  .union [.intersection [.named "Countable", .named "App\\Model"], .builtin "null"]

/-- It is written with parentheses and read back. -/
theorem bothOrNull_readsBack :
    bothOrNull.Declarable ∧ ∃ c m p,
      SourceFile.read
          { text := "<?php class C \x7b function f((Countable&App\\Model)|null $p) \x7b\x7d \x7d" }
        = ([c], []) ∧
      c.methods = [m] ∧ m.parameters = [p] ∧ p.typeHint = some bothOrNull := by
  have hcountable : IsClassName "Countable" :=
    ⟨by decide, fun _ => ⟨rfl, rfl⟩, fun h => absurd h (by decide)⟩
  have hmodel : IsClassName "App\\Model" :=
    ⟨by decide, fun h => absurd (by decide) h, fun _ => by decide⟩
  have hboth : ∀ t ∈ [named "Countable", named "App\\Model"], Single t := by
    simpa using ⟨.named hcountable, .named hmodel⟩
  have hmembers : ∀ t ∈ [.intersection [.named "Countable", .named "App\\Model"], .builtin "null"],
      Member t := by
    simpa using ⟨.intersection (List.cons_ne_nil _ _) hboth, .single (.builtin (by decide))⟩
  have hdeclarable : bothOrNull.Declarable := .union (by decide) hmembers
  have htext : "<?php class C \x7b function f((Countable&App\\Model)|null $p) \x7b\x7d \x7d"
      = bothOrNull.declaration := by decide +kernel
  obtain ⟨c, m, p, hread, -, hmethods, -, hparameters, -, hhint, -⟩ :=
    hdeclarable.readsBack { text := _ } htext rfl
  exact ⟨hdeclarable, c, m, p, hread, hmethods, hparameters, hhint⟩

/-- A name behind the word `namespace` is not read back, even if the word is not written in small
letters. -/
theorem capitalized_namespace_not_readsBack :
    (∀ segment ∈ Text.split Name.separator "Namespace\\Foo",
      Token.isIdentifier segment.toList = true) ∧
    (Text.split Name.separator "Namespace\\Foo").head? ≠ some "namespace" ∧
    ¬ ReadsBack (.named "Namespace\\Foo") := by
  refine ⟨by decide, by decide, fun h => ?_⟩
  let file : SourceFile := { text := declaration (.named "Namespace\\Foo") }
  obtain ⟨c, m, p, hread, -, hmethods, -, hparameters, -, hhint, -⟩ := h file rfl rfl
  -- the name that is read lacks the word
  have hactual : file.read.1.flatMap (fun c => c.methods.flatMap fun m =>
      m.parameters.map fun p => p.typeHint.map text) = [some "Foo"] := by
    decide +kernel
  rw [hread] at hactual
  simp [hmethods, hparameters, hhint, text] at hactual

end TypeHint

end Introspect
