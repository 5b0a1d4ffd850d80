import Introspect.Proofs.Reading.Bodies

/-!
# Statements that declare nothing

Outside of classes a file is read token by token: what is no declaration is passed over. The reader
does not know where a statement begins, so it asks of every token whether a declaration begins
there. For most words that can stand inside of an expression this does no harm, and a statement is
passed over without a trace. It does for the words `namespace` and `use`, which can be the labels of
named arguments.

* `IsExpressionStatement`: balanced parentheses and brackets, no braces, and one semicolon, at the
  end;
* `Remains` is what is known of the rest of such a statement from any of its tokens on, and
  `Remains.uncons` is what such a token can be;
* `Remains.step_eq`: a step in front of a token that is not one of the two words passes over tokens
  of the statement and changes nothing else;
* `FileState.statement_passed_unless_scope_word`: all steps together come to the end of the
  statement, or to one of the two words inside of it;
* `label_taken_for_namespace`: a named argument that ends a namespace.
-/

namespace Introspect

namespace Token.Kind

/-- Whether the kind opens or closes a block, an attribute or a class. -/
def isStructural : Kind → Bool
  | leftBrace | rightBrace | attributeOpen | classWord | interfaceWord => true
  | _ => false

/-- Whether the kind is that of a word that changes what names mean. -/
def isScopeWord : Kind → Bool
  | namespaceWord | useWord => true
  | _ => false

end Token.Kind

namespace Reading

/-! ### Expression statements -/

/-- Whether brackets of one sort are balanced, where `n` of them are open in front of the tokens. -/
def balances (opening closing : Token.Kind) (n : Nat) : List Entry → Bool
  | [] => n == 0
  | e :: es =>
    if e.kind = opening then balances opening closing (n + 1) es
    else if e.kind = closing then
      match n with
      | 0 => false
      | n + 1 => balances opening closing n es
    else balances opening closing n es

/-- **Expression statements.** Parentheses and brackets are balanced, there is no brace, no
attribute and no word `class` or `interface`, and the last token is the only semicolon. The first
token is neither `namespace` nor `use`. -/
structure IsExpressionStatement (stmt : List Entry) : Prop where
  parens : balances .leftParen .rightParen 0 stmt = true
  brackets : balances .leftBracket .rightBracket 0 stmt = true
  plain : ∀ e ∈ stmt, e.kind.isStructural = false
  ends : stmt.getLast?.map (·.kind) = some .semicolon
  once : ∀ e ∈ stmt.dropLast, e.kind ≠ .semicolon
  begins : ∀ e ∈ stmt.head?, e.kind.isScopeWord = false

theorem isExpressionStatement_iff {stmt : List Entry} :
    IsExpressionStatement stmt ↔ balances .leftParen .rightParen 0 stmt = true ∧
      balances .leftBracket .rightBracket 0 stmt = true ∧
      (∀ e ∈ stmt, e.kind.isStructural = false) ∧
      stmt.getLast?.map (·.kind) = some .semicolon ∧ (∀ e ∈ stmt.dropLast, e.kind ≠ .semicolon) ∧
      ∀ e ∈ stmt.head?, e.kind.isScopeWord = false :=
  ⟨fun h => ⟨h.1, h.2, h.3, h.4, h.5, h.6⟩,
    fun h => ⟨h.1, h.2.1, h.2.2.1, h.2.2.2.1, h.2.2.2.2.1, h.2.2.2.2.2⟩⟩

instance (stmt : List Entry) : Decidable (IsExpressionStatement stmt) :=
  decidable_of_iff' _ isExpressionStatement_iff

/-- **The rest of a statement,** from one of its tokens on. `parens` parentheses are open in front
of it. -/
structure Remains (parens : Nat) (es : List Entry) : Prop where
  balanced : balances .leftParen .rightParen parens es = true
  plain : ∀ e ∈ es, e.kind.isStructural = false
  ends : es.getLast?.map (·.kind) = some .semicolon
  once : ∀ e ∈ es.dropLast, e.kind ≠ .semicolon

section Remains

variable {parens n : Nat} {e : Entry} {es tail : List Entry}

theorem IsExpressionStatement.remains (h : IsExpressionStatement es) : Remains 0 es :=
  ⟨h.parens, h.plain, h.ends, h.once⟩

theorem Remains.ne_nil (h : Remains parens es) : es ≠ [] := by
  rintro rfl
  exact absurd h.ends (by simp)

/-- **The next token** of a statement: the semicolon at its end, a parenthesis, or one behind which
as many parentheses are open as in front of it. -/
theorem Remains.uncons (h : Remains parens (e :: es)) :
    (e.kind = .semicolon ∧ parens = 0 ∧ es = []) ∨
      (e.kind = .leftParen ∧ Remains (parens + 1) es) ∨
      (e.kind = .rightParen ∧ ∃ n, parens = n + 1 ∧ Remains n es) ∨
      (e.kind ≠ .semicolon ∧ e.kind ≠ .leftParen ∧ e.kind ≠ .rightParen ∧ Remains parens es) := by
  obtain ⟨hbalanced, hplain, hends, honce⟩ := h
  cases es with
  | nil =>
    have hk : e.kind = .semicolon := by simpa using hends
    -- a semicolon closes no parenthesis, so none is open in front of the last token
    refine .inl ⟨hk, ?_, rfl⟩
    simpa [balances, hk] using hbalanced
  | cons e' es =>
    have hk : e.kind ≠ .semicolon := honce e (by simp)
    -- behind the first token, all but the parentheses is known as it was
    have hrest : ∀ {n}, balances .leftParen .rightParen n (e' :: es) = true →
        Remains n (e' :: es) := by
      intro n hn
      refine ⟨hn, fun x hx => hplain x (List.mem_cons_of_mem _ hx), ?_, fun x hx => ?_⟩
      · rwa [List.getLast?_cons_cons] at hends
      · exact honce x (by rw [List.dropLast_cons_cons]; exact List.mem_cons_of_mem _ hx)
    -- the token opens a parenthesis, closes one or does neither
    rw [balances.eq_def] at hbalanced
    dsimp only at hbalanced
    split_ifs at hbalanced with hopen hclose
    · exact .inr (.inl ⟨hopen, hrest hbalanced⟩)
    · cases parens with
      -- where none is open, none can be closed
      | zero => exact absurd hbalanced (by simp)
      | succ n => exact .inr (.inr (.inl ⟨hclose, n, rfl, hrest hbalanced⟩))
    · exact .inr (.inr (.inr ⟨hk, hopen, hclose, hrest hbalanced⟩))

theorem Remains.head_plain (h : Remains parens (e :: es)) : e.kind.isStructural = false :=
  h.plain e List.mem_cons_self

/-- Behind a token that is not the semicolon, the statement goes on. -/
theorem Remains.behind (h : Remains parens (e :: es)) (hk : e.kind ≠ .semicolon) :
    ∃ n, Remains n es := by
  rcases h.uncons with ⟨hk', -, -⟩ | ⟨-, h'⟩ | ⟨-, n, -, h'⟩ | ⟨-, -, -, h'⟩
  · exact absurd hk' hk
  · exact ⟨_, h'⟩
  · exact ⟨n, h'⟩
  · exact ⟨_, h'⟩

/-- In a statement no class begins. -/
theorem Remains.atClass_eq_false (h : Remains parens es) (tail : List Entry) :
    atClass (es ++ tail) = false := by
  induction es generalizing parens with
  | nil => exact absurd rfl h.ne_nil
  | cons e es ih =>
    by_cases hmod : isClassModifier e.kind = true
    · -- modifiers are passed over, but the semicolon at the end is none
      have hk : e.kind ≠ .semicolon := by
        intro hk
        rw [hk] at hmod
        exact absurd hmod (by decide)
      obtain ⟨n, h'⟩ := h.behind hk
      have hskip : atClass (e :: es ++ tail) = atClass (es ++ tail) := by
        unfold atClass
        rw [List.cons_append, List.dropWhile_cons, if_pos hmod]
      rw [hskip]
      exact ih h'
    · -- the word behind the modifiers is neither `class` nor `interface`
      have hplain := h.head_plain
      have hword : e.kind ≠ .classWord ∧ e.kind ≠ .interfaceWord := by
        constructor <;> intro hk <;> rw [hk] at hplain <;> exact absurd hplain (by decide)
      unfold atClass
      rw [List.cons_append, List.dropWhile_cons, if_neg hmod]
      cases es ++ tail with
      | nil => rfl
      | cons name _ => simp [hword]

/-- **The search for a body** inside of a statement ends at the semicolon, or at a parenthesis that
was opened in front of the search. `parens` are open in front of the search, `n` more have been
opened by it. -/
theorem Remains.bodyStart_eq (h : Remains (parens + n) es) (tail : List Entry) :
    ∃ e es', bodyStart n (es ++ tail) = e :: (es' ++ tail) ∧ e :: es' <:+ es ∧
      (e.kind = .semicolon ∧ es' = [] ∨ e.kind = .rightParen ∧ Remains parens (e :: es')) := by
  induction es generalizing n with
  | nil => exact absurd rfl h.ne_nil
  | cons e es ih =>
    -- where the search goes on, it ends among the tokens behind `e`
    have hon : ∀ {m}, Remains (parens + m) es →
        bodyStart n (e :: es ++ tail) = bodyStart m (es ++ tail) →
        ∃ e' es', bodyStart n (e :: es ++ tail) = e' :: (es' ++ tail) ∧ e' :: es' <:+ e :: es ∧
          (e'.kind = .semicolon ∧ es' = [] ∨
            e'.kind = .rightParen ∧ Remains parens (e' :: es')) := by
      intro m hm heq
      obtain ⟨e', es', hstart, hsuffix, hend⟩ := ih hm
      exact ⟨e', es', heq.trans hstart, hsuffix.trans (List.suffix_cons e es), hend⟩
    rcases h.uncons with ⟨hk, hzero, rfl⟩ | ⟨hk, h'⟩ | ⟨hk, m, hm, h'⟩ | ⟨hsemi, hopen, hclose, h'⟩
    · -- the statement has come to its end, so no parenthesis of the search is open
      obtain rfl : n = 0 := by omega
      refine ⟨e, [], ?_, List.suffix_refl _, .inl ⟨hk, rfl⟩⟩
      rw [List.cons_append, bodyStart_semicolon hk, if_pos rfl]
    · exact hon h' (bodyStart_leftParen hk n)
    · cases n with
      -- a parenthesis that the search has not opened ends it
      | zero =>
        exact ⟨e, es, bodyStart_rightParen_zero hk, List.suffix_refl _, .inr ⟨hk, h⟩⟩
      | succ n =>
        obtain rfl : m = parens + n := by omega
        exact hon h' (bodyStart_rightParen_succ hk n)
    · -- there is no brace in a statement, so the search goes on
      have hbrace : e.kind ≠ .leftBrace := by
        intro hk
        have hplain := h.head_plain
        rw [hk] at hplain
        exact absurd hplain (by decide)
      exact hon h' (bodyStart_other hbrace hsemi hopen hclose n)

end Remains

/-! ### Searches that end without a block -/

section Skip

variable {s : State} {e : Entry} {es : List Entry} {tail : List Entry → List Entry}

/-- A semicolon to which a search has led is consumed. -/
theorem yields_skipTo_semicolon (htail : tail s.rest = e :: es) (he : e.kind = .semicolon) :
    Yields (skipTo tail) s () { s with rest := es } := by
  -- the search itself only drops tokens; what it does then is told by the token in front
  let s' : State := { s with rest := tail s.rest }
  have hpeek : s'.peek.kind = .semicolon := by
    rw [State.peek_of_rest (s := s') htail]
    exact he
  have hadvance : s'.advance = { s with rest := es } := by
    show ({ s with rest := (tail s.rest).tail } : State) = _
    rw [htail, List.tail_cons]
  have hmodify : Yields (modify fun s => { s with rest := tail s.rest } : Routine Unit) s () s' :=
    .modify
  refine Yields.bind hmodify (Yields.bind .peekKind ?_)
  rw [hpeek, ← hadvance]
  exact Yields.discard .advance

/-- In front of any other token than a semicolon or a brace, a search ends. -/
theorem yields_skipTo_stop (htail : tail s.rest = e :: es) (hsemicolon : e.kind ≠ .semicolon)
    (hbrace : e.kind ≠ .leftBrace) : Yields (skipTo tail) s () { s with rest := e :: es } := by
  let s' : State := { s with rest := tail s.rest }
  have hpeek : s'.peek.kind = e.kind := by
    rw [State.peek_of_rest (s := s') htail]
    rfl
  have hmodify : Yields (modify fun s => { s with rest := tail s.rest } : Routine Unit) s () s' :=
    .modify
  refine Yields.bind hmodify (Yields.bind .peekKind ?_)
  rw [hpeek, ← htail]
  -- the token is none of those that a search consumes
  split
  · next hk => exact absurd hk hsemicolon
  · next hk => exact absurd hk hbrace
  · exact .pure

end Skip

/-! ### Steps inside of a statement -/

section Steps

variable {f : FileState} {parens : Nat} {e : Entry} {es tail : List Entry}

/-- Where the reading of a statement has come to: to its end, or to another of its tokens. -/
def Resumes (es' es : List Entry) : Prop :=
  es' <:+ es ∧ es'.length < es.length ∧ (es' = [] ∨ ∃ n, Remains n es')

/-- A single token is passed over. -/
theorem Remains.resumes_tail (h : Remains parens (e :: es)) : Resumes es (e :: es) := by
  refine ⟨List.suffix_cons e es, Nat.lt_succ_self _, ?_⟩
  by_cases hk : e.kind = .semicolon
  · rcases h.uncons with ⟨-, -, hnil⟩ | ⟨hk', -⟩ | ⟨hk', -⟩ | ⟨hk', -⟩
    · exact .inl hnil
    all_goals simp [hk] at hk'
  · exact .inr (h.behind hk)

/-- A word that begins a function or a trait, and what is taken for the header of it, is passed
over. -/
theorem Remains.run_skipToBody (h : Remains parens (e :: es)) (hk : e.kind ≠ .semicolon)
    (hf : f.rest = e :: es ++ tail) :
    ∃ es', Resumes es' (e :: es) ∧
      f.run (do discard advance; skipToBody) = { f with rest := es' ++ tail } := by
  obtain ⟨n, hn⟩ := h.behind hk
  -- the search begins behind the word
  have hrest : f.toState.advance.rest = es ++ tail := by
    rw [State.rest_advance, hf]
    rfl
  obtain ⟨e', es', hstart, hsuffix, hend⟩ := Remains.bodyStart_eq (n := 0) hn tail
  rw [← hrest] at hstart
  have hlength := hsuffix.length_le
  have hsuffix' := hsuffix.trans (List.suffix_cons e es)
  -- the search ends at the semicolon, which is consumed, or in front of a parenthesis
  rcases hend with ⟨hk', rfl⟩ | ⟨hk', hremains⟩
  · refine ⟨[], ⟨List.nil_suffix, Nat.succ_pos _, .inl rfl⟩, ?_⟩
    refine FileState.run_of_yields (a := ()) ?_
    exact Yields.bind (Yields.discard .advance) (yields_skipTo_semicolon hstart hk')
  · refine ⟨e' :: es', ⟨hsuffix', ?_, .inr ⟨n, hremains⟩⟩, ?_⟩
    · show (e' :: es').length < es.length + 1
      omega
    · refine FileState.run_of_yields (a := ()) ?_
      exact Yields.bind (Yields.discard .advance)
        (yields_skipTo_stop hstart (by simp [hk']) (by simp [hk']))

/-- **One step** inside of a statement passes over tokens of the statement and changes nothing else,
unless the next token is one of the words that set the scope. -/
theorem Remains.step_eq (file : SourceFile) (h : Remains parens (e :: es))
    (hword : e.kind.isScopeWord = false) (hf : f.rest = e :: es ++ tail) :
    ∃ es', Resumes es' (e :: es) ∧ f.step file = { f with rest := es' ++ tail } := by
  have hpeek : f.peek.kind = e.kind := by
    rw [State.peek_of_rest hf]
    rfl
  have hplain := h.head_plain
  -- most steps consume the token and nothing else
  have hpass : ∃ es', Resumes es' (e :: es) ∧ f.run advance = { f with rest := es' ++ tail } := by
    refine ⟨es, h.resumes_tail, ?_⟩
    show ({ f with rest := f.rest.tail } : FileState) = _
    rw [hf]
    rfl
  have hclass : atClass f.rest = false := by
    rw [hf]
    exact h.atClass_eq_false tail
  have hnew : f.peek.kind = .newWord → (f.peekAt 1).kind ≠ .classWord := by
    intro hk hnext
    -- behind `new` the statement goes on, and not with `class`
    rw [hpeek] at hk
    obtain ⟨n, hn⟩ := h.behind (by simp [hk])
    obtain ⟨e', es', rfl⟩ := List.exists_cons_of_ne_nil hn.ne_nil
    have hplain' := hn.head_plain
    have hkind : e'.kind = .classWord := by
      simpa [State.peekAt, hf, Entry.kind] using hnext
    rw [hkind] at hplain'
    exact absurd hplain' (by decide)
  cases f.stepsTo_step file with
  -- the two words that are excepted
  | space hk | imports hk =>
    rw [← hpeek, hk] at hword
    exact absurd hword (by decide)
  -- attributes and braces, of which a statement has none
  | attributed hk | opens hk | closes hk | leaves hk =>
    rw [← hpeek, hk] at hplain
    exact absurd hplain (by decide)
  | enters h => exact absurd (h.symm.trans hclass) (by decide)
  -- words in front of a body, for which the search looks inside of the statement
  | body hk heq =>
    rw [heq]
    refine h.run_skipToBody ?_ hf
    rcases hk with hk | hk <;> rw [← hpeek, hk] <;> decide
  | anonymous hk h => exact absurd h (hnew hk)
  | passes _ _ _ heq => exact heq ▸ hpass

end Steps

/-! ### Whole statements -/

section Run

variable {file : SourceFile} {f : FileState} {stmt tail : List Entry}

/-- From any token of a statement that does not set the scope, the reading comes to the end of the
statement or to a word that sets the scope. -/
theorem Remains.visits {parens : Nat} {e : Entry} {es : List Entry} (h : Remains parens (e :: es))
    (hword : e.kind.isScopeWord = false) (hf : f.rest = e :: es ++ tail) :
    f.Visits file { f with rest := tail } ∨
      ∃ before word after, e :: es = before ++ word :: after ∧ before ≠ [] ∧
        word.kind.isScopeWord = true ∧
        f.Visits file { f with rest := word :: (after ++ tail) } := by
  -- on the number of tokens that remain, which every step makes smaller
  induction hn : es.length using Nat.strongRecOn generalizing f e es parens with
  | ind n ih =>
    obtain ⟨es', ⟨hsuffix, hlength, hend⟩, hstep⟩ := h.step_eq file hword hf
    -- where the reading goes from behind the step, it goes from here
    have hvisits : ∀ {g : FileState}, FileState.Visits file { f with rest := es' ++ tail } g →
        f.Visits file g := by
      intro g hg
      refine .step (by simp [hf]) ?_ (hstep ▸ hg)
      rw [hstep, hf, List.length_append, List.length_append]
      exact Nat.add_lt_add_right hlength _
    rcases hend with rfl | ⟨m, hm⟩
    · exact .inl (hvisits (.here _))
    obtain ⟨e', rest, rfl⟩ := List.exists_cons_of_ne_nil hm.ne_nil
    obtain ⟨passed, hpassed⟩ := hsuffix
    -- the step has consumed a token, so the word is not the first of the statement
    have hne : passed ≠ [] := by
      rintro rfl
      rw [List.nil_append] at hpassed
      rw [hpassed] at hlength
      exact absurd hlength (Nat.lt_irrefl _)
    by_cases hword' : e'.kind.isScopeWord = true
    · exact .inr ⟨passed, e', rest, hpassed.symm, hne, hword', hvisits (.here _)⟩
    · have hsmaller : rest.length < n := by
        rw [List.length_cons, List.length_cons] at hlength
        omega
      have hdone := ih rest.length hsmaller (f := { f with rest := e' :: rest ++ tail }) hm
        (by simpa using hword') rfl rfl
      rcases hdone with hdone | ⟨before, word, after, hsplit, -, hkind, hdone⟩
      · exact .inl (hvisits hdone)
      · refine .inr ⟨passed ++ before, word, after, ?_, by simp [hne], hkind, hvisits hdone⟩
        rw [← hpassed, hsplit, List.append_assoc]

/-- **Statements are passed over.** From the beginning of an expression statement, the reading comes
to the token behind its semicolon, and nothing but the tokens that remain has changed: no class, no
key, no diagnostic, no name of the scope. The only thing that can come in between is one of the
words `namespace` and `use` inside of the statement, up to which nothing has changed either. -/
theorem FileState.statement_passed_unless_scope_word (file : SourceFile)
    (hstmt : IsExpressionStatement stmt) (hf : f.rest = stmt ++ tail) :
    f.Visits file { f with rest := tail } ∨
      ∃ before word after, stmt = before ++ word :: after ∧ before ≠ [] ∧
        word.kind.isScopeWord = true ∧
        f.Visits file { f with rest := word :: (after ++ tail) } := by
  obtain ⟨e, es, rfl⟩ := List.exists_cons_of_ne_nil hstmt.remains.ne_nil
  exact hstmt.remains.visits (hstmt.begins e rfl) hf

end Run

/-- A call with reserved words as labels of its arguments, in front of a class. -/
def labelsFile : SourceFile where
  text := "<?php namespace App; $a = f(trait: new B, static: [1], final: g(2), function: 3); "
    ++ "class A \x7b\x7d"

theorem statement_passed_unless_scope_word_labels :
    ∃ f stmt tail, (FileState.start labelsFile.text).Visits labelsFile f ∧
      IsExpressionStatement stmt ∧ f.rest = stmt ++ tail ∧ tail.length = 4 ∧
      f.Visits labelsFile { f with rest := tail } := by
  let f := (FileState.start labelsFile.text).step labelsFile
  -- the statement are the tokens behind the namespace, up to the class
  let stmt := f.rest.take 27
  let tail := f.rest.drop 27
  obtain ⟨hne, hless, hstmt, hrest, htail, hnone⟩ :
      (FileState.start labelsFile.text).rest ≠ [] ∧
        f.rest.length < (FileState.start labelsFile.text).rest.length ∧
        IsExpressionStatement stmt ∧ f.rest = stmt ++ tail ∧ tail.length = 4 ∧
        ∀ e ∈ stmt, e.kind.isScopeWord = false := by
    decide +kernel
  refine ⟨f, stmt, tail, .step hne hless (.here f), hstmt, hrest, htail, ?_⟩
  rcases FileState.statement_passed_unless_scope_word labelsFile hstmt hrest with
    hvisits | ⟨before, word, after, hsplit, -, hword, -⟩
  · exact hvisits
  · -- there is no such word in the statement
    have hmem : word ∈ stmt := by
      rw [hsplit]
      exact List.mem_append_right _ List.mem_cons_self
    rw [hnone word hmem] at hword
    exact absurd hword (by decide)

/-- A call with the label `namespace`, in front of a class. -/
def namespaceLabelFile : SourceFile where
  text := "<?php namespace App; f(namespace: 1); class A \x7b\x7d"

/-- **A label is taken for a namespace.** The statement is reported, and behind it the namespace has
been left. -/
theorem label_taken_for_namespace :
    ∃ f stmt tail, (FileState.start namespaceLabelFile.text).Visits namespaceLabelFile f ∧
      IsExpressionStatement stmt ∧ f.rest = stmt ++ tail ∧ f.scope.ns = "App" ∧
      ¬ f.Visits namespaceLabelFile { f with rest := tail } ∧
      namespaceLabelFile.read.1.map (·.name) = ["A"] ∧
      namespaceLabelFile.read.2.map (·.kind) = [.expectedToken] := by
  let f := (FileState.start namespaceLabelFile.text).step namespaceLabelFile
  let stmt := f.rest.take 7
  let tail := f.rest.drop 7
  let behind : FileState := { f with rest := tail }
  obtain ⟨hne, hless, hstmt, hrest, hscope, hsilent, hloud, hclasses, hkinds⟩ :
      (FileState.start namespaceLabelFile.text).rest ≠ [] ∧
        f.rest.length < (FileState.start namespaceLabelFile.text).rest.length ∧
        IsExpressionStatement stmt ∧ f.rest = stmt ++ tail ∧ f.scope.ns = "App" ∧
        (behind.finish namespaceLabelFile).diagnostics = [] ∧
        (f.finish namespaceLabelFile).diagnostics ≠ [] ∧
        namespaceLabelFile.read.1.map (·.name) = ["A"] ∧
        namespaceLabelFile.read.2.map (·.kind) = [.expectedToken] := by
    decide +kernel
  refine ⟨f, stmt, tail, .step hne hless (.here f), hstmt, hrest, hscope, fun hvisits => ?_,
    hclasses, hkinds⟩
  -- from behind the statement the rest of the file would be read without a diagnostic
  refine hloud ?_
  rw [← hvisits.finish_eq]
  exact hsilent

end Reading

end Introspect
