import Introspect.Proofs.Scan.Excerpts
import Introspect.Proofs.Scan.Pieces

/-!
# Reserved words and names

Whether a written name is a reserved word or the name of a member depends on the two tokens before
it. A scanner keeps their kinds while it goes, across tags and past everything that it leaves out.
Here the same is said of the stream alone.

* `remembered` are the tokens that count as tokens before, and `MemberNameBehind` says of the tokens
  up to some place that the name of a member would stand there;
* `Recalls` says that a scanner knows of its past what it has to; `Recalls.skip` and `Recalls.take`
  keep it, and `Crosses.recalls` is about a way of any length;
* `codePiece?_of_beginsName`: where a written name begins, the piece is that name and nothing else,
  and `wordless_codePiece?`: where none begins, the piece is neither a name nor a reserved word;
* `classified_of_isWrittenName` is about every written name of every source.
-/

namespace Introspect.Token

/-! ### What has been read -/

/-- Whether tokens of the kind count as tokens before others. -/
def Kind.isRemembered : Kind → Bool
  | .docComment | .inlineHtml | .invalid => false
  | _ => true

/-- The tokens that count as tokens before others, in their order. -/
def remembered (ts : List Token) : List Token := ts.filter (·.kind.isRemembered)

/-- **Where the name of a member stands:** behind an arrow, a double colon or the word `function`,
or behind that word and an ampersand. -/
def MemberNameBehind (ts : List Token) : Prop :=
  ∃ p ∈ (remembered ts).getLast?,
    p.kind ∈ [Kind.arrow, .nullsafeArrow, .colonColon, .functionWord] ∨
      p.kind = .amp ∧ ∃ q ∈ (remembered ts).dropLast.getLast?, q.kind = .functionWord

instance (ts : List Token) : Decidable (MemberNameBehind ts) :=
  inferInstanceAs (Decidable (∃ p ∈ (remembered ts).getLast?, _))

/-- The mode behind a token of the kind. -/
def modeAfter (mode : Mode) : Kind → Mode
  | .openTag | .openTagWithEcho => .code
  | .closeTag => .html
  | _ => mode

/-- The mode behind tokens: the last tag among them decides. -/
def modeBehind (entry : Mode) (ts : List Token) : Mode :=
  ts.foldl (fun mode t => modeAfter mode t.kind) entry

theorem remembered_concat (ts : List Token) (t : Token) :
    remembered (ts ++ [t]) =
      if t.kind.isRemembered then remembered ts ++ [t] else remembered ts := by
  simp only [remembered, List.filter_append, List.filter_cons, List.filter_nil]
  split_ifs <;> simp

theorem modeBehind_concat (entry : Mode) (ts : List Token) (t : Token) :
    modeBehind entry (ts ++ [t]) = modeAfter (modeBehind entry ts) t.kind := by
  simp [modeBehind]

/-! ### What a scanner knows of it -/

/-- The kind of a token, or that of the end of the text if there is none. -/
def kindOf (t : Option Token) : Kind := (t.map (·.kind)).getD .endOfText

namespace Scanner

variable {entry : Mode} {past : List Token} {s s' : Scanner}

/-- **Recalling.** The scanner knows whether it is in code, and of the tokens behind it the kinds of
the last two that count. -/
structure Recalls (entry : Mode) (past : List Token) (s : Scanner) : Prop where
  mode_eq : s.mode = modeBehind entry past
  last_eq : s.last = kindOf (remembered past).getLast?
  beforeLast_eq : s.beforeLast = kindOf (remembered past).dropLast.getLast?

theorem recalls_start (entry : Mode) (source : String) : Recalls entry [] (start entry source) where
  mode_eq := rfl
  last_eq := rfl
  beforeLast_eq := rfl

theorem mode_enter (s : Scanner) (kind : Kind) (span : Span) :
    (s.enter kind span).mode = modeAfter s.mode kind := by
  cases kind <;> try rfl
  -- a closing brace
  unfold enter
  cases s.depth <;> rfl

theorem mode_remember (s : Scanner) (kind : Kind) : (s.remember kind).mode = s.mode := by
  unfold remember
  split <;> rfl

theorem beforeLast_enter (s : Scanner) (kind : Kind) (span : Span) :
    (s.enter kind span).beforeLast = s.beforeLast := by
  unfold enter
  split <;> try rfl
  split <;> rfl

theorem remember_eq (s : Scanner) (kind : Kind) :
    s.remember kind =
      if kind.isRemembered then { s with last := kind, beforeLast := s.last } else s := by
  cases kind <;> rfl

namespace Recalls

theorem skip (h : Recalls entry past s) (n : Nat) : Recalls entry past (s.skip n) := { h with }

/-- What does not count is forgotten at once. -/
theorem forget {t : Token} (h : Recalls entry past s) (hmode : s'.mode = modeAfter s.mode t.kind)
    (hlast : s'.last = s.last) (hbefore : s'.beforeLast = s.beforeLast)
    (ht : t.kind.isRemembered = false) : Recalls entry (past ++ [t]) s' := by
  have hremembered : remembered (past ++ [t]) = remembered past := by
    rw [remembered_concat, ht, if_neg Bool.false_ne_true]
  constructor
  · rw [hmode, modeBehind_concat, h.mode_eq]
  · rw [hlast, hremembered, h.last_eq]
  · rw [hbefore, hremembered, h.beforeLast_eq]

/-- What counts moves the token before it one place on. -/
theorem advance {t : Token} (h : Recalls entry past s) (hmode : s'.mode = modeAfter s.mode t.kind)
    (hlast : s'.last = t.kind) (hbefore : s'.beforeLast = s.last)
    (ht : t.kind.isRemembered = true) : Recalls entry (past ++ [t]) s' := by
  have hremembered : remembered (past ++ [t]) = remembered past ++ [t] := by
    rw [remembered_concat, if_pos ht]
  constructor
  · rw [hmode, modeBehind_concat, h.mode_eq]
  · rw [hlast, hremembered, List.getLast?_concat]
    rfl
  · rw [hbefore, hremembered, List.dropLast_concat, h.last_eq]

theorem take (h : Recalls entry past s) (kind : Kind) (n : Nat) :
    Recalls entry (past ++ [(s.take kind n).1]) (s.take kind n).2 := by
  have hmode : (s.take kind n).2.mode = modeAfter s.mode kind := by
    rw [Scanner.take, mode_remember, mode_enter]
    rfl
  cases hkind : kind.isRemembered with
  | false =>
    refine h.forget hmode ?_ ?_ hkind
    · simp [Scanner.take, remember_eq, hkind, Scanner.skip]
    · simp [Scanner.take, remember_eq, hkind, beforeLast_enter, Scanner.skip]
  | true =>
    refine h.advance hmode ?_ ?_ hkind
    · simp [Scanner.take, remember_eq, hkind]
    · simp [Scanner.take, remember_eq, hkind, Scanner.skip]

/-- Invalid input does not count. -/
theorem reject (h : Recalls entry past s) (fault : LexicalFault) (n : Nat) :
    Recalls entry (past ++ [(s.reject fault n).1]) (s.reject fault n).2 :=
  h.forget rfl rfl rfl rfl

/-- The scanner and the stream agree on where the name of a member stands. -/
theorem atMemberName_iff (h : Recalls entry past s) :
    s.atMemberName = true ↔ MemberNameBehind past := by
  have hopens (kind : Kind) : kind.opensMemberName = true ↔
      kind ∈ [Kind.arrow, .nullsafeArrow, .colonColon, .functionWord] := by
    cases kind <;> decide
  rw [atMemberName, h.last_eq, h.beforeLast_eq, MemberNameBehind]
  cases (remembered past).getLast? with
  | none => simp [kindOf, Kind.opensMemberName]
  | some p =>
    cases (remembered past).dropLast.getLast? with
    | none => simp [kindOf, hopens]
    | some q => simp [kindOf, hopens]

end Recalls

/-- A scanner that recalls what was before a way recalls what is behind it, however long it is. -/
theorem Crosses.recalls {ts : List Token} (hcross : Crosses s ts s') (h : Recalls entry past s) :
    Recalls entry (past ++ ts) s' := by
  induction hcross generalizing past with
  | refl s => simpa using h
  -- trivia leave no token, so the past stays the same
  | pass hp hv _ ih => exact ih (h.skip _)
  | token hp hv _ ih => simpa using ih (h.take _ _)
  | broken hp hv _ ih => simpa using ih (h.reject _ _)

end Scanner

/-! ### Written names -/

/-- **Written names:** identifiers with backslashes between them, and possibly one in front. -/
def IsWrittenName (text : List Char) : Prop :=
  ∃ segments : List (List Char), segments ≠ [] ∧ (∀ l ∈ segments, isIdentifier l = true) ∧
    (text = ['\\'].intercalate segments ∨ text = '\\' :: ['\\'].intercalate segments)

theorem IsWrittenName.beginsName {text : List Char} (h : IsWrittenName text) :
    beginsName text = true := by
  obtain ⟨segments, hne, hsegments, htext⟩ := h
  obtain ⟨c, cs, heq, hc, -⟩ := @exists_name segments [] hne hsegments rfl
  rw [heq] at htext
  rcases htext with rfl | rfl
  · simp [Token.beginsName, hc]
  · simp [Token.beginsName, hc]

theorem isWrittenName_of_isIdentifier {text : List Char} (h : isIdentifier text = true) :
    IsWrittenName text :=
  ⟨[text], List.cons_ne_nil _ _, by simpa using h, .inl (by simp [List.intercalate])⟩

/-- A written name that begins in a piece begins in the text of the piece. -/
theorem beginsName_of_take {cs : List Char} {n : Nat} (h : beginsName (cs.take n) = true) :
    beginsName cs = true := by
  cases cs with
  | nil => simpa using h
  | cons c rest =>
    cases n with
    | zero => exact absurd h (by simp [beginsName])
    | succ n =>
      rw [List.take_succ_cons] at h
      cases rest with
      | nil => simpa using h
      | cons d rest =>
        cases n with
        | zero =>
          -- a backslash alone is no name
          simp only [beginsName, List.take_zero, List.head?_nil, Option.any_none, Bool.and_false,
            Bool.or_false] at h
          simp [beginsName, h]
        | succ n => simpa [beginsName] using h

/-- **Names are pieces of their own.** Where a written name begins, no other piece begins, and how
the piece is classified depends on its text and on what was before it. -/
theorem codePiece?_of_beginsName {member atStart : Bool} {cs : List Char} {p : Piece} {kind : Kind}
    (hcs : beginsName cs = true) (hp : codePiece? member atStart cs = some p)
    (hv : p.verdict = .token kind) :
    kind = nameKind member (cs.take p.length) ∧ beginsName (cs.take p.length) = true := by
  cases cs with
  | nil => exact absurd hcs (by simp [beginsName])
  | cons c rest =>
    rw [beginsName, Bool.or_eq_true] at hcs
    rcases hcs with hc | hc
    · have hpiece := codePiece?_of_isNameStart hc member rest
      by_cases hmark : c = '\uFEFF' ∧ atStart = true
      · -- the byte order mark is a letter, but it is passed over
        rw [codePiece?, if_pos hmark] at hp
        obtain rfl := Option.some.inj hp
        exact absurd hv (by simp)
      · have hfalse : ¬ (c = '\uFEFF' ∧ false = true) := by simp
        rw [codePiece?, if_neg hfalse] at hpiece
        rw [codePiece?, if_neg hmark, hpiece] at hp
        obtain rfl := Option.some.inj hp
        exact ⟨(Verdict.token.inj hv).symm, by simp [beginsName, hc]⟩
    · obtain ⟨rfl, hhead⟩ : c = '\\' ∧ rest.head?.any Text.isNameStart = true := by
        simpa using hc
      have hplain : Text.isSpace '\\' = false ∧ Text.isDigit '\\' = false := by decide
      have hpiece : codePiece? member atStart ('\\' :: rest) = some
          ⟨.token (nameKind member (('\\' :: rest).take (nameLength rest + 1))),
            nameLength rest + 1, Nat.succ_pos _⟩ := by
        simp [codePiece?, hplain, hhead]
      rw [hpiece] at hp
      obtain rfl := Option.some.inj hp
      refine ⟨(Verdict.token.inj hv).symm, ?_⟩
      cases rest with
      | nil => exact absurd hhead (by simp)
      | cons d rest =>
        have hd : Text.isNameStart d = true := by simpa using hhead
        simp [nameLength, Text.isNamePart_of_isNameStart hd, beginsName, hd]

/-! ### Words -/

/-- Whether tokens of the kind are names or reserved words. -/
def Kind.isWord (k : Kind) : Bool := k == .name || k.isReserved

/-- A verdict about something else than a word. -/
def Verdict.Wordless (v : Verdict) : Prop := ∀ kind, v = .token kind → kind.isWord = false

theorem wordless_token {kind : Kind} (h : kind.isWord = false) : (Verdict.token kind).Wordless := by
  rintro _ ⟨⟩
  exact h

theorem wordless_trivia : Verdict.trivia.Wordless := by
  rintro _ ⟨⟩

theorem wordless_broken (fault : LexicalFault) : (Verdict.broken fault).Wordless := by
  rintro _ ⟨⟩

/-- **Words are written names.** Where no name begins, the piece is no word. -/
theorem wordless_codePiece? {member atStart : Bool} {cs : List Char} {p : Piece}
    (hp : codePiece? member atStart cs = some p) (hcs : beginsName cs = false) :
    p.verdict.Wordless := by
  cases codePiece?_cases hp with
  | byteOrderMark _ hp | space _ hp => exact hp ▸ wordless_trivia
  | lineComment _ _ _ hverdict => exact hverdict ▸ wordless_trivia
  | closeTag hp | attributeOpen hp | variableName _ hp => exact hp ▸ wordless_token rfl
  | @blockComment rest =>
    rcases commentPiece_cases rest with h | h | h <;> rw [h]
    · exact wordless_trivia
    · exact wordless_token rfl
    · exact wordless_broken _
  | @quoted quote kind rest hquote =>
    rcases quotedPiece_cases quote kind rest with h | h <;> rw [h]
    · unfold stringKind? at hquote
      split at hquote <;> cases hquote <;> exact wordless_token rfl
    · exact wordless_broken _
  | heredoc hheredoc =>
    rcases heredocPiece?_cases hheredoc with h | ⟨label, h⟩ <;> rw [h]
    · exact wordless_token rfl
    · exact wordless_broken _
  | number =>
    rcases numberPiece_cases cs with h | h | ⟨detail, h⟩ <;> rw [h]
    · exact wordless_token rfl
    · exact wordless_token rfl
    · exact wordless_broken _
  | name hname => exact absurd (hname.symm.trans hcs) (by decide)
  | @punctuation c rest =>
    -- no mark is a word
    have hall : ∀ entry ∈ punctuation, entry.2.isWord = false := by decide
    rcases punctuationPiece_cases c rest with ⟨text, kind, hmem, h⟩ | h <;> rw [h]
    · exact wordless_token (hall _ hmem)
    · exact wordless_broken _

/-! ### Classification -/

/-- **The kind of a written name** behind other tokens. -/
structure Classified (before : List Token) (t : Token) : Prop where
  /-- With a backslash it is a name. -/
  qualified : '\\' ∈ t.lexeme.toList → t.kind = .name
  /-- So it is where the name of a member stands, -/
  member : MemberNameBehind before → t.kind = .name
  /-- and if it is no reserved word in any letter case. -/
  free : (∀ kind, (Text.foldCase t.lexeme, kind) ∉ Kind.reservedWords) → t.kind = .name
  /-- Otherwise it is the reserved word that it spells. -/
  reserved : '\\' ∉ t.lexeme.toList → ¬ MemberNameBehind before → ∀ kind,
    (Text.foldCase t.lexeme, kind) ∈ Kind.reservedWords → t.kind = kind
  /-- The words for a class that is named by its place are never names elsewhere. -/
  relative : ¬ MemberNameBehind before → Text.foldCase t.lexeme ∈ ["self", "parent", "static"] →
    t.kind ≠ .name

theorem ofWord?_eq_none_iff {word : String} :
    Kind.ofWord? word = none ↔ ∀ kind, (Text.foldCase word, kind) ∉ Kind.reservedWords := by
  rw [Kind.ofWord?, List.lookup_eq_none_iff]
  constructor
  · intro h kind hmem
    simpa using h _ hmem
  · rintro h ⟨key, kind⟩ hmem
    refine bne_iff_ne.mpr ?_
    rintro rfl
    exact h kind hmem

theorem ofWord?_of_mem {word : String} {kind : Kind}
    (h : (Text.foldCase word, kind) ∈ Kind.reservedWords) : Kind.ofWord? word = some kind := by
  -- no word stands twice in the table
  have hall : ∀ p ∈ Kind.reservedWords, Kind.reservedWords.lookup p.1 = some p.2 := by decide
  exact hall _ h

/-- What a piece with the text of a written name is classified as. -/
theorem classified_of_nameKind {before : List Token} {t : Token} {member : Bool}
    (hmember : member = true ↔ MemberNameBehind before)
    (ht : t.kind = nameKind member t.lexeme.toList) : Classified before t := by
  rw [nameKind, String.ofList_toList] at ht
  have hreserved : '\\' ∉ t.lexeme.toList → ¬ MemberNameBehind before → ∀ kind,
      (Text.foldCase t.lexeme, kind) ∈ Kind.reservedWords → t.kind = kind := by
    intro hplain hnot kind hmem
    rw [← hmember, Bool.not_eq_true] at hnot
    rw [ht, hnot, ofWord?_of_mem hmem, if_neg (by simpa using hplain)]
    rfl
  refine ⟨?_, ?_, ?_, hreserved, ?_⟩
  · intro hqualified
    rw [ht, if_pos (by simp [hqualified])]
  · intro hbehind
    rw [ht, if_pos (by simp [hmember.mpr hbehind])]
  · intro hfree
    rw [ht, ofWord?_eq_none_iff.mpr hfree]
    exact ite_self _
  · intro hnot hword
    -- each of the three words is in the table, and it has no backslash
    have hall : ∀ word ∈ ["self", "parent", "static"], '\\' ∉ word.toList ∧
        ∃ p ∈ Kind.reservedWords, p.1 = word ∧ p.2 ≠ .name := by decide
    obtain ⟨hplain, ⟨_, kind⟩, hmem, rfl, hkind⟩ := hall _ hword
    have hlower : '\\' ∉ t.lexeme.toList := by
      intro hin
      rw [Text.toList_foldCase] at hplain
      exact hplain (List.mem_map.mpr ⟨_, hin, rfl⟩)
    rw [hreserved hlower hnot kind hmem]
    exact hkind

/-- What is no name is the reserved word that its text spells. -/
theorem Classified.mem_reservedWords {before : List Token} {t : Token} (h : Classified before t)
    (hk : t.kind ≠ .name) : (Text.foldCase t.lexeme, t.kind) ∈ Kind.reservedWords := by
  obtain ⟨kind, hmem⟩ : ∃ kind, (Text.foldCase t.lexeme, kind) ∈ Kind.reservedWords := by
    -- a word that is not in the table is free
    by_contra hfree
    exact hk (h.free (not_exists.mp hfree))
  rw [h.reserved (fun hin => hk (h.qualified hin)) (fun hmember => hk (h.member hmember)) kind hmem]
  exact hmem

/-! ### Ordinary tokens -/

theorem Kind.isRemembered_of_isOrdinary {k : Kind} (h : k.isOrdinary = true) :
    k.isRemembered = true := by
  revert h
  cases k <;> decide

theorem remembered_of_isOrdinary {ts : List Token} (h : ∀ t ∈ ts, t.kind.isOrdinary = true) :
    remembered ts = ts :=
  List.filter_eq_self.mpr fun t ht => Kind.isRemembered_of_isOrdinary (h t ht)

/-- Where the name of a member stands, it stands so even if tags and the like are left out. -/
theorem MemberNameBehind.ordinary {ts : List Token} (h : MemberNameBehind ts) :
    MemberNameBehind (ts.filter (·.kind.isOrdinary)) := by
  have hfilter : remembered (ts.filter (·.kind.isOrdinary))
      = (remembered ts).filter (·.kind.isOrdinary) := by
    rw [remembered, remembered, List.filter_comm]
  -- all that the place depends on is ordinary: an arrow, a double colon, an ampersand, a word
  obtain ⟨p, hp, hkind⟩ := h
  obtain ⟨front, hfront⟩ := List.getLast?_eq_some_iff.mp hp
  rw [MemberNameBehind, hfilter, hfront]
  rcases hkind with hkind | ⟨hamp, q, hq, hfunction⟩
  · have hp : p.kind.isOrdinary = true := by
      simp only [List.mem_cons, List.not_mem_nil, or_false] at hkind
      rcases hkind with hk | hk | hk | hk <;> rw [hk] <;> rfl
    exact ⟨p, by simp [hp], .inl hkind⟩
  · have hp : p.kind.isOrdinary = true := by rw [hamp]; rfl
    have hq' : q.kind.isOrdinary = true := by rw [hfunction]; rfl
    rw [hfront, List.dropLast_concat] at hq
    obtain ⟨front', hfront'⟩ := List.getLast?_eq_some_iff.mp hq
    rw [hfront']
    exact ⟨p, by simp [hp], .inr ⟨hamp, q, by simp [hp, hq'], hfunction⟩⟩

namespace Scanner

variable {entry : Mode} {source : String} {n : Nat} {t : Token}

/-- A token that has a text, with a scanner in front of it that recalls the tokens before. -/
theorem exists_emits_of_getElem? (h : (start entry source).tokens[n]? = some t)
    (ht : t.lexeme ≠ "") :
    ∃ s s', Recalls entry ((start entry source).tokens.take n) s ∧ Emits s t s' := by
  obtain ⟨hn, rfl⟩ := List.getElem?_eq_some_iff.mp h
  have hsplit : (start entry source).tokens = (start entry source).tokens.take n ++
      (start entry source).tokens[n] :: (start entry source).tokens.drop (n + 1) := by
    rw [List.getElem_cons_drop, List.take_append_drop]
  obtain ⟨s', hcross, htokens⟩ := exists_crosses hsplit (List.cons_ne_nil _ _)
  -- a token with a text is not the end of the text
  have hkind : s'.next.1.kind ≠ .endOfText := by
    intro hend
    rw [tokens_of_endOfText hend] at htokens
    rw [← (List.cons.inj htokens).1, next_of_endOfText hend] at ht
    exact ht rfl
  rw [tokens_of_ne hkind] at htokens
  -- the scanner passes trivia first, which it does not recall
  obtain ⟨s₁, hpass, hemit⟩ := s'.next_spec
  have hcross' := hcross.trans hpass.crosses
  rw [List.append_nil] at hcross'
  exact ⟨s₁, _, hcross'.recalls (recalls_start entry source), (List.cons.inj htokens).1 ▸ hemit⟩

/-- A token among the ordinary ones of a source, with a scanner in front of it that recalls all the
tokens before. -/
theorem exists_emits_ordinary {source : String} {front rest : List Token} {t : Token}
    (h : (ofFile source).tokens.filter (·.kind.isOrdinary) = front ++ t :: rest) :
    ∃ past s s', Recalls .html past s ∧ Emits s t s' ∧ s.mode = .code ∧
      past.filter (·.kind.isOrdinary) = front := by
  obtain ⟨l₁, l₂, htokens, hl₁, hl₂⟩ := List.filter_eq_append_iff.mp h
  obtain ⟨passed, behind, rfl, hpassed, ht, -⟩ := List.filter_eq_cons_iff.mp hl₂
  rw [← List.append_assoc] at htokens
  obtain ⟨s, s', hcross, hemit, -⟩ := exists_crosses_emits htokens
  -- between the ordinary tokens in front and this one there are others only
  have hnone : passed.filter (·.kind.isOrdinary) = [] := by
    rw [List.filter_eq_nil_iff]
    exact hpassed
  exact ⟨_, s, s', hcross.recalls (recalls_start .html source), hemit,
    (hemit.of_isOrdinary ht).1, by simp [hl₁, hnone]⟩

/-- The kind of what is emitted with the text of a written name. -/
theorem Recalls.classified {past : List Token} {s s' : Scanner} (h : Recalls entry past s)
    (hemit : Emits s t s') (hmode : s.mode = .code) (hname : beginsName t.lexeme.toList = true) :
    Classified past t := by
  cases hemit with
  | finish hr => exact absurd hname (by simp [finish, beginsName])
  | broken hp hv => exact absurd hname (by simp [Scanner.reject, beginsName])
  | @token p kind hp hv =>
    rw [piece?_of_code hmode] at hp
    have htext : (s.take kind p.length).1.lexeme.toList = s.rest.take p.length := by
      simp [Scanner.take]
    rw [htext] at hname
    refine classified_of_nameKind h.atMemberName_iff ?_
    rw [htext]
    exact (codePiece?_of_beginsName (beginsName_of_take hname) hp hv).1

/-- Every word is emitted with the text of a written name. -/
theorem beginsName_of_emits {s s' : Scanner} (hemit : Emits s t s') (hmode : s.mode = .code)
    (hword : t.kind.isWord = true) : beginsName t.lexeme.toList = true := by
  cases hemit with
  | finish hr => exact absurd (show Kind.endOfText.isWord = true from hword) (by decide)
  | broken hp hv => exact absurd (show Kind.invalid.isWord = true from hword) (by decide)
  | @token p kind hp hv =>
    rw [piece?_of_code hmode] at hp
    have htext : (s.take kind p.length).1.lexeme.toList = s.rest.take p.length := by
      simp [Scanner.take]
    rw [htext]
    -- a piece that begins with no name is no word
    have hbegins : beginsName s.rest = true := by
      by_contra hnot
      rw [Bool.not_eq_true] at hnot
      have hkind : kind.isWord = false := wordless_codePiece? hp hnot kind hv
      exact absurd (hkind.symm.trans hword) (by decide)
    exact (codePiece?_of_beginsName hbegins hp hv).2

/-- **Written names are classified by the stream.** Of every source, in both modes, every token of
code whose text is a written name: whether it is a name or a reserved word follows from its text and
from the tokens before it that count. -/
theorem classified_of_isWrittenName (entry : Mode) (source : String) (n : Nat) (t : Token)
    (h : (start entry source).tokens[n]? = some t)
    (hmode : modeBehind entry ((start entry source).tokens.take n) = .code)
    (hname : IsWrittenName t.lexeme.toList) :
    Classified ((start entry source).tokens.take n) t := by
  have hne : t.lexeme ≠ "" := by
    intro hempty
    rw [hempty] at hname
    exact absurd hname.beginsName (by decide)
  obtain ⟨s, s', hrecalls, hemit⟩ := exists_emits_of_getElem? h hne
  exact hrecalls.classified hemit (hrecalls.mode_eq.trans hmode) hname.beginsName

/-- Behind `function` and an ampersand `Static` is a name, whatever does not count in between, and
`Self` is a reserved word though the same word was passed through in front of the tag. -/
theorem classified_of_isWrittenName_acrossTags :
    ∃ source t u, source =
        "<?php function & /** d */ # c\n\x01 Static() ?>self<?php Self::parent" ∧
      (start .html source).tokens[5]? = some t ∧ t.lexeme = "Static" ∧
      Classified ((start .html source).tokens.take 5) t ∧ t.kind = .name ∧
      (start .html source).tokens[11]? = some u ∧ u.lexeme = "Self" ∧
      Classified ((start .html source).tokens.take 11) u ∧ u.kind ≠ .name := by
  refine ⟨_, ⟨.name, "Static", ⟨2, 2, 3, 32, 6⟩⟩, ⟨.selfWord, "Self", ⟨2, 2, 24, 53, 4⟩⟩, rfl, ?_⟩
  have hstatic := classified_of_isWrittenName .html
    "<?php function & /** d */ # c\n\x01 Static() ?>self<?php Self::parent" 5
    ⟨.name, "Static", ⟨2, 2, 3, 32, 6⟩⟩ (by decide +kernel) (by decide +kernel)
    (isWrittenName_of_isIdentifier (by decide))
  have hself := classified_of_isWrittenName .html
    "<?php function & /** d */ # c\n\x01 Static() ?>self<?php Self::parent" 11
    ⟨.selfWord, "Self", ⟨2, 2, 24, 53, 4⟩⟩ (by decide +kernel) (by decide +kernel)
    (isWrittenName_of_isIdentifier (by decide))
  exact ⟨by decide +kernel, rfl, hstatic, hstatic.member (by decide +kernel), by decide +kernel,
    rfl, hself, hself.relative (by decide +kernel) (by decide)⟩

end Scanner

end Introspect.Token
