import Introspect.Proofs.Reading.RoundTrip
import Introspect.Proofs.Reading.Statements

/-!
# Groups of imports

Imports with a common beginning can be written as a group. A group is cut into other tokens than the
imports it abbreviates: the separator behind the common beginning is an operator, and the braces
open and close a block. It is read by a routine of its own, which puts the names together again.
What a group leaves in the scope is nevertheless what the single imports leave there, functions and
constants being left out.

* `WrittenName`, `GroupMember` and `GroupImport` are the groups that can be written, each with the
  reasons why it can;
* `GroupMember.writes` and `GroupImport.calm`: the text of a group is cut into its words;
* `IsImport` says of words that they are an import statement and what that does to the scope, with
  `isImport_group` and `isImport_single` for the two forms;
* `FileState.finish_of_imports`: a file of nothing but imports does one after the other;
* `GroupImport.reads_as_singles` puts these together.
-/

namespace Introspect

open Token (Kind)

/-! ### Groups that can be written -/

/-- **Written names.** Identifiers with separators between them, and one in front if the name is
absolute. An identifier that stands alone is no reserved word. -/
structure WrittenName where
  absolute : Bool
  segments : List String
  segments_ne : segments ≠ []
  identifiers : ∀ segment ∈ segments, Token.isIdentifier segment.toList = true
  unreserved : absolute = false → ∀ word, segments = [word] → Kind.ofWord? word = none

/-- The name as it is written. -/
def WrittenName.text (n : WrittenName) : String :=
  (if n.absolute then "\\" else "") ++ "\\".intercalate n.segments

/-- An identifier that is no reserved word. -/
def FreeWord : Type :=
  { word : String // Token.isIdentifier word.toList = true ∧ Kind.ofWord? word = none }

/-- What the name of an import stands for. -/
inductive ImportSort where
  | classLike
  | function
  | constant
  deriving DecidableEq

/-- The mark in front of a function or a constant. -/
def ImportSort.text : ImportSort → String
  | .classLike => ""
  | .function => "function "
  | .constant => "const "

/-- **Members of a group:** a name without a separator in front, with a mark for functions and
constants and with an optional alias. -/
structure GroupMember where
  sort : ImportSort
  name : WrittenName
  aliasName : Option FreeWord
  relative : name.absolute = false

/-- **Groups of imports.** -/
structure GroupImport where
  /-- What the names of the group have in common. -/
  lead : WrittenName
  members : List GroupMember
  members_ne : members ≠ []
  /-- Whether a comma stands behind the last member. -/
  trailingComma : Bool

/-- An alias as it is written behind a name. -/
def aliasText : Option FreeWord → String
  | none => ""
  | some word => " as " ++ word.1

namespace GroupMember

/-- The member as it is written. -/
def text (m : GroupMember) : String :=
  m.sort.text ++ m.name.text ++ aliasText m.aliasName

/-- What the member imports, behind what is common to the group. -/
def target (m : GroupMember) (lead : WrittenName) : String :=
  lead.text ++ "\\" ++ m.name.text

/-- The member as an import of its own. -/
def single (m : GroupMember) (lead : WrittenName) : String :=
  "use " ++ m.target lead ++ aliasText m.aliasName ++ ";"

/-- The scope with the member imported. -/
def addTo (m : GroupMember) (lead : WrittenName) (scope : Scope) : Scope :=
  scope.addImport (m.target lead) (m.aliasName.map (·.1))

end GroupMember

namespace GroupImport

/-- The group as it is written. -/
def text (g : GroupImport) : String :=
  "use " ++ g.lead.text ++ "\\\x7b" ++ ", ".intercalate (g.members.map (·.text)) ++
    (if g.trailingComma then "," else "") ++ "\x7d;"

/-- The members that are neither functions nor constants. -/
def classes (g : GroupImport) : List GroupMember :=
  g.members.filter (·.sort = .classLike)

/-- The imports that the group abbreviates. -/
def singles (g : GroupImport) : String :=
  " ".intercalate (g.classes.map (·.single g.lead))

end GroupImport

/-! ### Their words -/

/-- Two lists of parts that are joined are joined at one more separator. -/
theorem intercalate_append {α : Type} (sep : List α) {l m : List (List α)} (hl : l ≠ [])
    (hm : m ≠ []) : sep.intercalate (l ++ m) = sep.intercalate l ++ sep ++ sep.intercalate m := by
  induction l with
  | nil => exact absurd rfl hl
  | cons a l ih =>
    cases l with
    | nil => simp [List.intercalate_cons_of_ne_nil hm]
    | cons b l =>
      have htail := ih (List.cons_ne_nil b l)
      rw [List.cons_append, List.intercalate_cons_of_ne_nil (by simp), htail,
        List.intercalate_cons_cons]
      simp only [List.append_assoc]

namespace WrittenName

variable {n : WrittenName}

theorem toList_text (n : WrittenName) :
    n.text.toList
      = (if n.absolute then ['\\'] else []) ++ ['\\'].intercalate (n.segments.map (·.toList)) := by
  rw [text, String.toList_append, String.toList_intercalate]
  split <;> rfl

theorem isIdentifier_of_mem (n : WrittenName) :
    ∀ l ∈ n.segments.map (·.toList), Token.isIdentifier l = true := by
  intro l hl
  obtain ⟨segment, hsegment, rfl⟩ := List.mem_map.mp hl
  exact n.identifiers segment hsegment

/-- Where no name goes on behind it, the name is cut as one piece. -/
theorem cuts (n : WrittenName) {rest : List Char} (hrest : Token.nameLength rest = 0)
    (member : Bool) : Token.Cuts member n.text.toList rest .name := by
  have hne : n.segments.map (·.toList) ≠ [] := by simpa using n.segments_ne
  rw [toList_text]
  cases habsolute : n.absolute with
  | true => exact Token.cuts_rootedName hne n.isIdentifier_of_mem hrest member
  | false =>
    -- what a relative name is cut as depends on its text: only one word alone could be reserved
    have hcuts := Token.cuts_name hne n.isIdentifier_of_mem hrest member
    have hkind : Token.nameKind member (['\\'].intercalate (n.segments.map (·.toList)))
        = .name := by
      cases hsegments : n.segments with
      | nil => exact absurd hsegments n.segments_ne
      | cons first segments =>
        cases segments with
        | nil =>
          have hfree := n.unreserved habsolute first hsegments
          simp [Token.nameKind, List.intercalate, hfree]
        | cons second segments =>
          simp [Token.nameKind, List.intercalate_cons_cons]
    rwa [hkind] at hcuts

/-- A relative name begins with a character that begins an identifier. -/
theorem exists_cons (h : n.absolute = false) :
    ∃ c cs, n.text.toList = c :: cs ∧ Text.isNameStart c = true := by
  obtain ⟨c, cs, heq, hc, -⟩ := Token.exists_name (by simpa using n.segments_ne)
    n.isIdentifier_of_mem (rfl : Token.nameLength [] = 0)
  refine ⟨c, cs, ?_, hc⟩
  rw [toList_text, h, heq]
  rfl

/-- A relative name behind another name. -/
def behind (lead n : WrittenName) : WrittenName where
  absolute := lead.absolute
  segments := lead.segments ++ n.segments
  segments_ne := by simp [lead.segments_ne]
  identifiers := by
    intro segment h
    rcases List.mem_append.mp h with h | h
    · exact lead.identifiers segment h
    · exact n.identifiers segment h
  unreserved := by
    intro _ word h
    -- each of the two names has a segment, so together they are not one word
    have hlength := congrArg List.length h
    have hlead := List.length_pos_of_ne_nil lead.segments_ne
    have hn := List.length_pos_of_ne_nil n.segments_ne
    simp only [List.length_append, List.length_cons, List.length_nil] at hlength
    omega

theorem text_behind (lead : WrittenName) (h : n.absolute = false) :
    (lead.behind n).text = lead.text ++ "\\" ++ n.text := by
  refine String.toList_inj.mp ?_
  have hjoin : ['\\'].intercalate (lead.segments.map (·.toList) ++ n.segments.map (·.toList)) = _ :=
    intercalate_append _ (by simpa using lead.segments_ne) (by simpa using n.segments_ne)
  rw [String.toList_append, String.toList_append, toList_text, toList_text, toList_text, h]
  simp only [behind, List.map_append, hjoin, List.append_assoc]
  rfl

end WrittenName

/-- The word as a name of one identifier. -/
def FreeWord.toName (word : FreeWord) : WrittenName where
  absolute := false
  segments := [word.1]
  segments_ne := by simp
  identifiers := by simpa using word.2.1
  unreserved := by
    rintro - _ h
    rw [← List.singleton_inj.mp h]
    exact word.2.2

theorem FreeWord.text_toName (word : FreeWord) : word.toName.text = word.1 := by
  rw [WrittenName.text]
  simp [toName]

/-- The words of an alias. -/
def aliasWords : Option FreeWord → List (Kind × String)
  | none => []
  | some word => [(.asWord, "as"), (.name, word.1)]

section Calm

open Token (Calm)

variable {depth : Nat} {rest : List Char} {more : List (Kind × String)}

/-- A name in calm text. -/
theorem WrittenName.calm (n : WrittenName) (hrest : Token.nameLength rest = 0)
    (h : Calm depth rest more) : Calm depth (n.text.toList ++ rest) ((.name, n.text) :: more) := by
  have hcalm := Calm.token n.text.toList (n.cuts hrest false) rfl rfl nofun h
  rwa [String.ofList_toList] at hcalm

/-- Behind the word `function` the name of a member stands, which every word could be. -/
theorem WrittenName.spells_member (n : WrittenName) (hrest : Token.nameLength rest = 0)
    (h : Calm depth rest more) :
    Token.Spells true .functionWord depth (n.text.toList ++ rest) ((.name, n.text) :: more) := by
  have hspells : Token.Spells true .functionWord depth (n.text.toList ++ rest)
      ((.name, String.ofList n.text.toList) :: more) :=
    .token n.text.toList (n.cuts hrest true) rfl nofun (h .name rfl)
  rwa [String.ofList_toList] at hspells

/-- A name does not begin with a blank. -/
theorem WrittenName.isSpace_head (n : WrittenName) (rest : List Char) :
    (n.text.toList ++ rest).head?.any Text.isSpace = false := by
  cases habsolute : n.absolute with
  | true =>
    rw [n.toList_text, habsolute]
    rfl
  | false =>
    obtain ⟨c, cs, heq, hc⟩ := exists_cons habsolute
    rw [heq]
    exact Token.isSpace_of_isNameStart hc

theorem endsName_alias (a : Option FreeWord) (hrest : Token.endsName rest = true) :
    Token.endsName ((aliasText a).toList ++ rest) = true := by
  cases a with
  | none => exact hrest
  | some word =>
    rw [show aliasText (some word) = " as " ++ word.1 from rfl, String.toList_append]
    rfl

theorem calm_alias (a : Option FreeWord) (hrest : Token.endsName rest = true)
    (h : Calm depth rest more) :
    Calm depth ((aliasText a).toList ++ rest) (aliasWords a ++ more) := by
  cases a with
  | none => exact h
  | some word =>
    have hname := word.toName.calm (Token.nameLength_of_endsName hrest) h
    have hspace := word.toName.isSpace_head rest
    rw [word.text_toName] at hname hspace
    have has : Calm depth ("as".toList ++ ' ' :: (word.1.toList ++ rest))
        ((.asWord, "as") :: (.name, word.1) :: more) :=
      .token "as".toList (Token.cuts_identifier (by decide) rfl (by decide)) rfl rfl nofun
        (.blank hspace hname)
    have htext : (aliasText (some word)).toList = ' ' :: ("as".toList ++ ' ' :: word.1.toList) := by
      rw [show aliasText (some word) = " as " ++ word.1 from rfl, String.toList_append]
      rfl
    rw [htext]
    simpa [aliasWords] using Calm.blank rfl has

/-- The word in front of a member. -/
def ImportSort.words : ImportSort → List (Kind × String)
  | .classLike => []
  | .function => [(.functionWord, "function")]
  | .constant => [(.constWord, "const")]

/-- The words of a member. -/
def GroupMember.words (m : GroupMember) : List (Kind × String) :=
  m.sort.words ++ (.name, m.name.text) :: aliasWords m.aliasName

/-- **The text of a member** is cut into its words. -/
theorem GroupMember.writes (m : GroupMember) : Token.Writes m.text.toList m.words where
  begins := by
    intro rest
    obtain ⟨c, cs, heq, hc⟩ := m.name.exists_cons m.relative
    rw [text, String.toList_append, String.toList_append, heq]
    cases m.sort
    · simp [ImportSort.text, Token.beginsType, hc]
    · rfl
    · rfl
  calm := by
    intro depth rest more hrest hcalm
    have halias := calm_alias m.aliasName hrest hcalm
    have hends := Token.nameLength_of_endsName (endsName_alias m.aliasName hrest)
    have hname := m.name.calm hends halias
    have hspace := m.name.isSpace_head ((aliasText m.aliasName).toList ++ rest)
    rw [text, words]
    cases m.sort with
    | classLike => simpa [ImportSort.text, ImportSort.words] using hname
    | constant =>
      have hconst : Calm depth ("const".toList ++ ' ' :: (m.name.text.toList ++ _))
          ((.constWord, "const") :: (.name, m.name.text) :: _) :=
        .token "const".toList (Token.cuts_identifier (by decide) rfl (by decide)) rfl rfl
          (fun h => absurd h (by decide)) (.blank hspace hname)
      simpa [ImportSort.text, ImportSort.words] using hconst
    | function =>
      intro last hlast
      -- the word remembers that a name has to follow, so the name behind it is no keyword
      have hfunction : Token.Spells false last depth
          ("function".toList ++ ' ' :: (m.name.text.toList ++ _))
          ((.functionWord, "function") :: (.name, m.name.text) :: _) :=
        .token "function".toList (Token.cuts_identifier (by decide) rfl (by decide)) rfl
          (fun h => absurd h (by decide)) (.blank hspace (m.name.spells_member hends halias))
      simpa [ImportSort.text, ImportSort.words] using hfunction

/-- The words of a member as an import of its own. -/
def GroupMember.singleWords (m : GroupMember) (lead : WrittenName) : List (Kind × String) :=
  (.useWord, "use") :: (.name, m.target lead) :: (aliasWords m.aliasName ++ [(.semicolon, ";")])

/-- A name behind the word `use`. -/
theorem WrittenName.calm_use (n : WrittenName) (hrest : Token.nameLength rest = 0)
    (h : Calm depth rest more) :
    Calm depth ("use ".toList ++ (n.text.toList ++ rest))
      ((.useWord, "use") :: (.name, n.text) :: more) :=
  .token "use".toList (Token.cuts_identifier (by decide) rfl (by decide)) rfl rfl nofun
    (.blank (n.isSpace_head rest) (n.calm hrest h))

theorem calm_semicolon (h : Calm depth rest more) :
    Calm depth (';' :: rest) ((.semicolon, ";") :: more) :=
  .token [';'] (Token.cuts_delimiter (by decide) _ false) rfl rfl nofun h

/-- **The text of a single import** is cut into its words. -/
theorem GroupMember.calm_single (m : GroupMember) (lead : WrittenName) (h : Calm depth rest more) :
    Calm depth ((m.single lead).toList ++ rest) (m.singleWords lead ++ more) := by
  have hends : Token.endsName (';' :: rest) = true := rfl
  have halias := calm_alias m.aliasName hends (calm_semicolon h)
  have huse := (lead.behind m.name).calm_use
    (Token.nameLength_of_endsName (endsName_alias m.aliasName hends)) halias
  rw [WrittenName.text_behind lead m.relative] at huse
  simpa [single, singleWords, target] using huse

/-- The comma behind the last member of a group, if there is one. -/
def GroupImport.comma (g : GroupImport) : List (Kind × String) :=
  if g.trailingComma then [(.comma, ",")] else []

/-- The words of a group. -/
def GroupImport.words (g : GroupImport) : List (Kind × String) :=
  (.useWord, "use") :: (.name, g.lead.text) :: (.operator, "\\") :: (.leftBrace, "\x7b") ::
    ([(.comma, ",")].intercalate (g.members.map (·.words)) ++
      (g.comma ++ [(.rightBrace, "\x7d"), (.semicolon, ";")]))

/-- The separator and the brace that open a group. -/
theorem calm_open (h : Calm 1 rest more) :
    Calm 0 ('\\' :: '\x7b' :: rest) ((.operator, "\\") :: (.leftBrace, "\x7b") :: more) :=
  have hbrace : Calm 0 ('\x7b' :: rest) ((.leftBrace, "\x7b") :: more) :=
    .token ['\x7b'] (Token.cuts_delimiter (by decide) _ false) rfl rfl nofun h
  .token ['\\'] ⟨_, rfl, rfl, rfl⟩ rfl rfl nofun hbrace

/-- What stands behind the last member of a group. -/
theorem GroupImport.calm_close (g : GroupImport) :
    Calm 1 ((if g.trailingComma then "," else "").toList ++ "\x7d;".toList)
      (g.comma ++ [(.rightBrace, "\x7d"), (.semicolon, ";")]) := by
  have hclose : Calm 1 "\x7d;".toList [(.rightBrace, "\x7d"), (.semicolon, ";")] :=
    .token ['\x7d'] (Token.cuts_delimiter (by decide) _ false) rfl rfl (by decide)
      (calm_semicolon fun _ _ => .done)
  unfold comma
  split
  · exact .token [','] (Token.cuts_delimiter (by decide) _ false) rfl rfl nofun hclose
  · exact hclose

/-- **The text of a group** is cut into its words. -/
theorem GroupImport.calm (g : GroupImport) : Calm 0 g.text.toList g.words := by
  have hwrites := Token.Writes.intercalate Token.Joins.comma
    (g.members.map fun m => (m.text.toList, m.words)) (by simpa using g.members_ne) (by
      intro i hi
      obtain ⟨m, -, rfl⟩ := List.mem_map.mp hi
      exact m.writes)
  rw [List.map_map, List.map_map] at hwrites
  have hends : Token.endsName ((if g.trailingComma then "," else "").toList ++ "\x7d;".toList)
      = true := by
    split <;> rfl
  have huse := g.lead.calm_use rfl (calm_open (hwrites.calm hends g.calm_close))
  have htext : g.text.toList = "use ".toList ++ (g.lead.text.toList ++ ('\\' :: '\x7b' ::
      ([',', ' '].intercalate (g.members.map (·.text.toList)) ++
        ((if g.trailingComma then "," else "").toList ++ "\x7d;".toList)))) := by
    simp only [text, String.toList_append, String.toList_intercalate, List.map_map,
      List.append_assoc]
    rfl
  rw [htext]
  exact huse

theorem GroupMember.exists_single (m : GroupMember) (lead : WrittenName) :
    ∃ cs, (m.single lead).toList = 'u' :: cs := by
  simp only [single, String.toList_append]
  exact ⟨_, rfl⟩

/-- The text of several single imports is cut into the words of all of them. -/
theorem calm_singles (lead : WrittenName) (ms : List GroupMember) :
    Calm 0 (" ".intercalate (ms.map (·.single lead))).toList (ms.flatMap (·.singleWords lead)) := by
  have hdone : Calm 0 [] [] := fun _ _ => .done
  rw [String.toList_intercalate, List.map_map]
  induction ms with
  | nil => exact hdone
  | cons m ms ih =>
    cases ms with
    | nil => simpa using m.calm_single lead hdone
    | cons m' ms =>
      rw [List.map_cons, List.map_cons, List.intercalate_cons_cons, List.append_assoc]
      -- a blank ends an import, and the next one begins with its keyword
      refine m.calm_single lead (.blank ?_ ih)
      obtain ⟨cs, hcs⟩ := m'.exists_single lead
      obtain ⟨more, hmore⟩ := Reading.exists_intercalate_cons [' '] 'u' cs
        (ms.map (String.toList ∘ (·.single lead)))
      show (List.intercalate [' '] ((m'.single lead).toList :: _)).head?.any Text.isSpace = false
      rw [hcs, hmore]
      rfl

end Calm

theorem GroupMember.exists_words (m : GroupMember) :
    ∃ w ws, m.words = w :: ws ∧ w.1 ≠ .rightBrace := by
  unfold words
  cases m.sort <;> exact ⟨_, _, rfl, nofun⟩

/-! ### Reading them -/

namespace Reading

section Imports

variable {s : State} {es tail : List Entry} {e : Entry} {kind : Kind}

theorem yields_eat (he : e.kind = kind) :
    Yields (eat kind) { s with rest := e :: tail } (some e.token) { s with rest := tail } :=
  Yields.eat (s := { s with rest := e :: tail }) he

theorem yields_importAlias (a : Option FreeWord)
    (hwords : es.map (·.token.spelling) = aliasWords a)
    (hbehind : (State.peek { s with rest := tail }).kind ≠ .asWord) :
    Yields importAlias { s with rest := es ++ tail } (a.map (·.1)) { s with rest := tail } := by
  cases a with
  | none =>
    obtain rfl := List.map_eq_nil_iff.mp hwords
    exact Yields.bind (.eat_none hbehind) .pure
  | some word =>
    obtain ⟨as, es, rfl, has, hwords⟩ := List.map_eq_cons_iff.mp hwords
    obtain ⟨name, es, rfl, hname, hnil⟩ := List.map_eq_cons_iff.mp hwords
    obtain rfl := List.map_eq_nil_iff.mp hnil
    have hlexeme : name.token.lexeme = word.1 := congrArg Prod.snd hname
    refine (yields_eat (congrArg Prod.fst has)).bind
      ((yields_eat (congrArg Prod.fst hname)).bind ?_)
    rw [Option.map_some, Option.map_some, hlexeme]
    exact .pure

theorem yields_groupMark (sort : ImportSort) (hwords : es.map (·.token.spelling) = sort.words)
    (he : e.kind = .name) :
    Yields groupMark { s with rest := es ++ e :: tail } (decide (sort ≠ .classLike))
      { s with rest := e :: tail } := by
  -- the marks are asked for one after the other, and a name is none of them
  have hnone : ∀ kind, kind ≠ .name →
      Yields (eat kind) { s with rest := e :: tail } none { s with rest := e :: tail } :=
    fun kind hkind => .eat_none fun heq => hkind (heq.symm.trans he)
  cases sort with
  | classLike =>
    obtain rfl := List.map_eq_nil_iff.mp hwords
    exact (hnone .functionWord (by decide)).bind ((hnone .constWord (by decide)).bind .pure)
  | function =>
    obtain ⟨mark, es, rfl, hmark, hnil⟩ := List.map_eq_cons_iff.mp hwords
    obtain rfl := List.map_eq_nil_iff.mp hnil
    exact (yields_eat (congrArg Prod.fst hmark)).bind .pure
  | constant =>
    obtain ⟨mark, es, rfl, hmark, hnil⟩ := List.map_eq_cons_iff.mp hwords
    obtain rfl := List.map_eq_nil_iff.mp hnil
    have hkind : mark.kind = .constWord := congrArg Prod.fst hmark
    have hfunction : Yields (eat .functionWord) { s with rest := mark :: e :: tail } none
        { s with rest := mark :: e :: tail } :=
      .eat_none fun heq => absurd (heq.symm.trans hkind) (by decide)
    exact hfunction.bind ((yields_eat hkind).bind .pure)

/-- What a member of a group does to the scope. -/
def effect (lead : WrittenName) (scope : Scope) (m : GroupMember) : Scope :=
  if m.sort = .classLike then m.addTo lead scope else scope

/-- **A member of a group** is read whole. -/
theorem yields_groupItem (lead : WrittenName) (m : GroupMember)
    (hwords : es.map (·.token.spelling) = m.words)
    (hbehind : (State.peek { s with rest := tail }).kind ≠ .asWord) :
    Yields (groupItem lead.text) { s with rest := es ++ tail } ()
      { s with rest := tail, scope := effect lead s.scope m } := by
  obtain ⟨es₁, es₂, rfl, hmark, hwords⟩ := List.map_eq_append_iff.mp hwords
  obtain ⟨name, es₃, rfl, hname, halias⟩ := List.map_eq_cons_iff.mp hwords
  have hkind : name.kind = .name := congrArg Prod.fst hname
  have hlexeme : name.token.lexeme = m.name.text := congrArg Prod.snd hname
  rw [List.append_assoc]
  refine (yields_groupMark m.sort hmark hkind).bind ?_
  refine (yields_expect rfl hkind).bind ((yields_importAlias m.aliasName halias hbehind).bind ?_)
  rw [hlexeme]
  -- the scope changes for a class only
  by_cases hsort : m.sort = .classLike
  · have heffect : effect lead s.scope m = m.addTo lead s.scope := if_pos hsort
    rw [if_pos (by simp [hsort]), heffect]
    exact .modify
  · have heffect : effect lead s.scope m = s.scope := if_neg hsort
    rw [if_neg (by simp [hsort]), heffect]
    exact .pure

/-- Behind a comma a list goes on, unless what closes it follows. -/
theorem yields_commaBefore (s : State) (tail : List Entry) (close : Kind) (he : e.kind = .comma) :
    Yields (commaBefore close) { s with rest := e :: tail }
      (decide ((State.peek { s with rest := tail }).kind ≠ close)) { s with rest := tail } :=
  (yields_eat_isSome rfl he).bind (Yields.bind .peekKind .pure)

/-- In front of a member, no group is closed. -/
theorem peek_kind_of_members {ms : List GroupMember} (hne : ms ≠ [])
    (hwords : es.map (·.token.spelling) = [(.comma, ",")].intercalate (ms.map (·.words)))
    (s : State) (tail : List Entry) :
    (State.peek { s with rest := es ++ tail }).kind ≠ .rightBrace := by
  obtain ⟨m, ms, rfl⟩ := List.exists_cons_of_ne_nil hne
  obtain ⟨w, ws, hw, hkind⟩ := m.exists_words
  obtain ⟨more, hmore⟩ := exists_intercalate_cons [(Kind.comma, ",")] w ws (ms.map (·.words))
  rw [List.map_cons, hw, hmore] at hwords
  obtain ⟨first, es, rfl, hfirst, -⟩ := List.map_eq_cons_iff.mp hwords
  rw [← hfirst] at hkind
  exact hkind

/-- **The end of the members.** Behind them stands no alias, and the list does not go on. -/
structure EndsMembers (behind tail : List Entry) : Prop where
  noAlias : ∀ s : State, (State.peek { s with rest := behind }).kind ≠ .asWord
  ends : ∀ s : State,
    Yields (commaBefore .rightBrace) { s with rest := behind } false { s with rest := tail }

/-- They end in front of a brace, whether or not there is a comma. -/
theorem endsMembers (g : GroupImport) {brace : Entry} (hbrace : brace.kind = .rightBrace)
    (hwords : es.map (·.token.spelling) = g.comma) (tail : List Entry) :
    EndsMembers (es ++ brace :: tail) (brace :: tail) := by
  have hpeek : ∀ s : State, (State.peek { s with rest := brace :: tail }).kind = .rightBrace :=
    fun _ => hbrace
  unfold GroupImport.comma at hwords
  split at hwords
  · obtain ⟨comma, es, rfl, hcomma, hnil⟩ := List.map_eq_cons_iff.mp hwords
    obtain rfl := List.map_eq_nil_iff.mp hnil
    have hkind : comma.kind = .comma := congrArg Prod.fst hcomma
    refine ⟨fun _ => hkind.trans_ne (by decide), fun s => ?_⟩
    have hyields := yields_commaBefore s (brace :: tail) .rightBrace hkind
    rwa [hpeek] at hyields
  · obtain rfl := List.map_eq_nil_iff.mp hwords
    refine ⟨fun s => (hpeek s).trans_ne (by decide), fun s => ?_⟩
    exact (yields_eat_isNone ((hpeek s).trans_ne (by decide))).bind .pure

/-- **The members of a group** are read one by one. -/
theorem exists_groupItems (lead : WrittenName) {behind : List Entry}
    (hends : EndsMembers behind tail) {ms : List GroupMember} (hne : ms ≠ []) (acc : List Unit)
    (hwords : es.map (·.token.spelling) = [(.comma, ",")].intercalate (ms.map (·.words))) :
    ∃ items, Yields (iterate State.size
        (listRound (groupItem lead.text) (commaBefore .rightBrace)) acc)
      { s with rest := es ++ behind } items
      { s with rest := tail, scope := ms.foldl (effect lead) s.scope } := by
  -- member by member: the scope holds what the earlier ones did to it, and so it is any
  induction ms generalizing s es acc with
  | nil => exact absurd rfl hne
  | cons m ms ih =>
    cases ms with
    | nil =>
      rw [List.map_singleton, List.intercalate_singleton] at hwords
      have hitem := yields_groupItem lead m hwords (hends.noAlias s)
      let s' : State := { s with scope := effect lead s.scope m }
      exact ⟨_, .iterate_done (hitem.bind (Yields.bind (hends.ends s') .pure))⟩
    | cons m' ms =>
      rw [List.map_cons, List.map_cons, List.intercalate_cons_cons, List.append_assoc] at hwords
      obtain ⟨es₁, es₂, rfl, hm, hwords⟩ := List.map_eq_append_iff.mp hwords
      obtain ⟨comma, es', rfl, hcomma, hwords⟩ := List.map_eq_cons_iff.mp hwords
      have hkind : comma.kind = .comma := congrArg Prod.fst hcomma
      let s' : State := { s with scope := effect lead s.scope m }
      have hitem : Yields (groupItem lead.text)
          { s with rest := es₁ ++ comma :: (es' ++ behind) } ()
          { s' with rest := comma :: (es' ++ behind) } :=
        yields_groupItem lead m hm (hkind.trans_ne (by decide))
      have hmore : Yields (commaBefore .rightBrace) { s' with rest := comma :: (es' ++ behind) }
          true { s' with rest := es' ++ behind } := by
        have hyields := yields_commaBefore s' (es' ++ behind) .rightBrace hkind
        rwa [decide_eq_true (peek_kind_of_members (List.cons_ne_nil m' ms) hwords _ _)] at hyields
      obtain ⟨items, hitems⟩ := ih (s := s') (List.cons_ne_nil m' ms) (acc ++ [()]) hwords
      rw [List.append_assoc]
      refine ⟨items, .iterate_yield (hitem.bind (hmore.bind .pure)) ?_ hitems⟩
      simp only [State.size, List.length_append, List.length_cons]
      omega

/-- **A group** is read whole. -/
theorem yields_groupImport (g : GroupImport)
    (hwords : es.map (·.token.spelling) = (.leftBrace, "\x7b") ::
      ([(.comma, ",")].intercalate (g.members.map (·.words)) ++
        (g.comma ++ [(.rightBrace, "\x7d")]))) :
    Yields (groupImport g.lead.text) { s with rest := es ++ tail } ()
      { s with rest := tail, scope := g.members.foldl (effect g.lead) s.scope } := by
  obtain ⟨opening, es, rfl, hopening, hwords⟩ := List.map_eq_cons_iff.mp hwords
  obtain ⟨es₁, es, rfl, hmembers, hwords⟩ := List.map_eq_append_iff.mp hwords
  obtain ⟨es₂, es, rfl, hcomma, hwords⟩ := List.map_eq_append_iff.mp hwords
  obtain ⟨closing, es, rfl, hclosing, hnil⟩ := List.map_eq_cons_iff.mp hwords
  obtain rfl := List.map_eq_nil_iff.mp hnil
  have hclose : closing.kind = .rightBrace := congrArg Prod.fst hclosing
  -- the members are read up to the comma behind the last one, if there is one
  obtain ⟨items, hitems⟩ := exists_groupItems (s := s) g.lead
    (endsMembers g hclose hcomma tail) g.members_ne [] hmembers
  have hpeek := peek_kind_of_members g.members_ne hmembers s (es₂ ++ closing :: tail)
  have hrest : opening :: (es₁ ++ (es₂ ++ [closing])) ++ tail
      = opening :: (es₁ ++ (es₂ ++ closing :: tail)) := by simp
  rw [hrest]
  refine Yields.bind (.discard (yields_expect rfl (congrArg Prod.fst hopening))) ?_
  refine Yields.bind .peekKind ?_
  rw [if_pos hpeek]
  exact Yields.bind (.discard hitems) (.discard (yields_expect rfl hclose))

/-- **Import statements.** Wherever the words are the next tokens, an import statement consumes
them and changes the scope, and nothing else. -/
structure IsImport (words : List (Kind × String)) (change : Scope → Scope) : Prop where
  begins : ∃ more, words = (.useWord, "use") :: more
  reads : ∀ (s : State) (es tail : List Entry), es.map (·.token.spelling) = words →
    Yields importStatement { s with rest := es ++ tail } ()
      { s with rest := tail, scope := change s.scope }

/-- A statement with one item that begins with a name. -/
theorem yields_importStatement {use name semicolon : Entry} {scope : Scope}
    (hname : name.kind = .name) (hsemicolon : semicolon.kind = .semicolon)
    (hitem : Yields importItem { s with rest := name :: (es ++ semicolon :: tail) } ()
      { s with rest := semicolon :: tail, scope := scope }) :
    Yields importStatement { s with rest := use :: name :: (es ++ semicolon :: tail) } ()
      { s with rest := tail, scope := scope } := by
  let s' : State := { s with scope := scope }
  -- the list ends behind its first item, in front of the semicolon
  have hcomma : Yields comma { s' with rest := semicolon :: tail } false
      { s' with rest := semicolon :: tail } :=
    yields_eat_isNone (hsemicolon.trans_ne (by decide))
  have hlist : Yields (listOf importItem comma) { s with rest := name :: (es ++ semicolon :: tail) }
      [()] { s' with rest := semicolon :: tail } :=
    .iterate_done (hitem.bind (Yields.bind hcomma .pure))
  have himports : Yields imports { s with rest := name :: (es ++ semicolon :: tail) } ()
      { s' with rest := tail } :=
    Yields.bind (.discard hlist) (.discard (yields_expect rfl hsemicolon))
  have hpeek : (State.peek { s with rest := name :: (es ++ semicolon :: tail) }).kind = .name :=
    hname
  refine Yields.bind (yields_pass rfl) (Yields.bind .peekKind ?_)
  rw [hpeek]
  exact himports.attempt.bind .pure

/-- **A group** is an import statement. -/
theorem isImport_group (g : GroupImport) :
    IsImport g.words fun scope => g.members.foldl (effect g.lead) scope := by
  refine ⟨⟨_, rfl⟩, ?_⟩
  intro s es tail hwords
  obtain ⟨use, es, rfl, -, hwords⟩ := List.map_eq_cons_iff.mp hwords
  obtain ⟨name, es, rfl, hname, hwords⟩ := List.map_eq_cons_iff.mp hwords
  obtain ⟨sep, es, rfl, hsep, hwords⟩ := List.map_eq_cons_iff.mp hwords
  -- the semicolon is the last of the words
  have hsplit : es.map (·.token.spelling) = ((.leftBrace, "\x7b") ::
      ([(.comma, ",")].intercalate (g.members.map (·.words)) ++
        (g.comma ++ [(.rightBrace, "\x7d")]))) ++ [(.semicolon, ";")] := by
    rw [hwords]
    simp
  obtain ⟨es, es', rfl, hgroup, hwords⟩ := List.map_eq_append_iff.mp hsplit
  obtain ⟨semicolon, es', rfl, hsemicolon, hnil⟩ := List.map_eq_cons_iff.mp hwords
  obtain rfl := List.map_eq_nil_iff.mp hnil
  have hkind : name.kind = .name := congrArg Prod.fst hname
  have hlexeme : name.token.lexeme = g.lead.text := congrArg Prod.snd hname
  have hrest : use :: name :: sep :: (es ++ [semicolon]) ++ tail
      = use :: name :: (sep :: es ++ semicolon :: tail) := by simp
  rw [hrest]
  refine yields_importStatement hkind (congrArg Prod.fst hsemicolon) ?_
  have hatGroup : State.atGroup { s with rest := sep :: es ++ semicolon :: tail } = true := by
    obtain ⟨opening, es, rfl, hopening, -⟩ := List.map_eq_cons_iff.mp hgroup
    have hseparator : sep.token.lexeme = "\\" := congrArg Prod.snd hsep
    have hbrace : opening.token.kind = .leftBrace := congrArg Prod.fst hopening
    simp [State.atGroup, State.peek, State.peekAt, hseparator, hbrace, Name.separator]
  refine (yields_eat hkind).bind (Yields.bind .get ?_)
  rw [if_pos hatGroup, hlexeme]
  exact (yields_pass rfl).bind (yields_groupImport g hgroup)

/-- Behind the name of a single import no group begins. -/
theorem atGroup_of_alias (a : Option FreeWord) {semicolon : Entry}
    (halias : es.map (·.token.spelling) = aliasWords a)
    (hsemicolon : semicolon.token.spelling = (.semicolon, ";")) (s : State) (tail : List Entry) :
    State.atGroup { s with rest := es ++ semicolon :: tail } = false := by
  -- neither the alias nor the semicolon is a separator
  have hpeek : ((State.peek { s with rest := es ++ semicolon :: tail }).lexeme
      == String.singleton Name.separator) = false := by
    cases a with
    | none =>
      obtain rfl := List.map_eq_nil_iff.mp halias
      have hlexeme : semicolon.token.lexeme = ";" := congrArg Prod.snd hsemicolon
      show (semicolon.token.lexeme == _) = false
      rw [hlexeme]
      decide
    | some word =>
      obtain ⟨as, es, rfl, has, -⟩ := List.map_eq_cons_iff.mp halias
      have hlexeme : as.token.lexeme = "as" := congrArg Prod.snd has
      show (as.token.lexeme == _) = false
      rw [hlexeme]
      decide
  rw [State.atGroup, hpeek, Bool.false_and]

/-- **A single import** is an import statement. -/
theorem isImport_single (lead : WrittenName) (m : GroupMember) :
    IsImport (m.singleWords lead) (m.addTo lead) := by
  refine ⟨⟨_, rfl⟩, ?_⟩
  intro s es tail hwords
  obtain ⟨use, es, rfl, -, hwords⟩ := List.map_eq_cons_iff.mp hwords
  obtain ⟨name, es, rfl, hname, hwords⟩ := List.map_eq_cons_iff.mp hwords
  obtain ⟨es, es', rfl, halias, hwords⟩ := List.map_eq_append_iff.mp hwords
  obtain ⟨semicolon, es', rfl, hsemicolon, hnil⟩ := List.map_eq_cons_iff.mp hwords
  obtain rfl := List.map_eq_nil_iff.mp hnil
  have hkind : name.kind = .name := congrArg Prod.fst hname
  have hlexeme : name.token.lexeme = m.target lead := congrArg Prod.snd hname
  have hend : semicolon.kind = .semicolon := congrArg Prod.fst hsemicolon
  have hrest : use :: name :: (es ++ [semicolon]) ++ tail
      = use :: name :: (es ++ semicolon :: tail) := by simp
  rw [hrest]
  refine yields_importStatement hkind hend ?_
  -- behind the name of a single import no group begins
  have hatGroup := atGroup_of_alias m.aliasName halias hsemicolon s tail
  refine (yields_eat hkind).bind (Yields.bind .get ?_)
  rw [if_neg (by simp [hatGroup]), hlexeme]
  have hbehind : (State.peek { s with rest := semicolon :: tail }).kind ≠ .asWord :=
    hend.trans_ne (by decide)
  exact (yields_importAlias m.aliasName halias hbehind).bind .modify

end Imports

/-! ### Files of imports -/

/-- **A file of imports** does one after the other, and nothing else. -/
theorem FileState.finish_of_imports (file : SourceFile)
    (items : List (List (Kind × String) × (Scope → Scope))) (h : ∀ i ∈ items, IsImport i.1 i.2)
    (f : FileState) (hwords : f.rest.map (·.token.spelling) = items.flatMap (·.1)) :
    f.finish file
      = { f with rest := [], scope := items.foldl (fun scope i => i.2 scope) f.scope } := by
  induction items generalizing f with
  | nil =>
    have hnil : f.rest = [] := List.map_eq_nil_iff.mp hwords
    rw [FileState.finish, if_pos hnil, List.foldl_nil, ← hnil]
  | cons i items ih =>
    have hi := h i List.mem_cons_self
    obtain ⟨es, tail, hrest, hes, htail⟩ := List.map_eq_append_iff.mp hwords
    obtain ⟨more, hmore⟩ := hi.begins
    obtain ⟨use, es', rfl, huse, -⟩ := List.map_eq_cons_iff.mp (hes.trans hmore)
    let f' : FileState := { f with rest := tail, scope := i.2 f.scope }
    -- one statement is one step, which consumes its first word at least
    have hstep : f.step file = f' := by
      have hyields := hi.reads f.toState (use :: es') tail hes
      rw [← hrest] at hyields
      have hkind : f.peek.kind = .useWord := by
        rw [State.peek_of_rest hrest]
        exact congrArg Prod.fst huse
      rw [FileState.step, hkind]
      exact FileState.run_of_yields hyields
    have hne : f.rest ≠ [] := by simp [hrest]
    have hless : f'.rest.length < f.rest.length := by
      rw [hrest]
      simp only [f', List.length_append, List.length_cons]
      omega
    have hfinish := ih (fun i hi => h i (List.mem_cons_of_mem _ hi)) f' htail
    rw [FileState.finish, if_neg hne]
    simp only [hstep, if_pos hless, hfinish]
    rfl

end Reading

open Reading

/-! ### Groups and single imports -/

/-- Where the reading of some code ends if it begins in the given scope. -/
def SourceFile.readFrom (file : SourceFile) (scope : Scope) (code : String) : FileState :=
  let file := { file with text := "<?php " ++ code }
  FileState.finish { FileState.start file.text with scope := scope } file

/-- Imports are read to the end, without a report. -/
theorem SourceFile.readFrom_of_imports (file : SourceFile) (scope : Scope) {code : String}
    (items : List (List (Kind × String) × (Scope → Scope))) (h : ∀ i ∈ items, IsImport i.1 i.2)
    (hcode : Token.Calm 0 code.toList (items.flatMap (·.1))) :
    (file.readFrom scope code).rest = [] ∧ (file.readFrom scope code).diagnostics = [] ∧
      (file.readFrom scope code).scope = items.foldl (fun scope i => i.2 scope) scope := by
  have hsource : ("<?php " ++ code).toList = "<?php ".toList ++ code.toList := String.toList_append
  obtain ⟨hwords, -, hquiet⟩ := FileState.start_of_spells (hcode .openTag rfl) hsource
  have hfinish := FileState.finish_of_imports { file with text := "<?php " ++ code } items h
    { FileState.start ("<?php " ++ code) with scope := scope } hwords
  rw [readFrom, hfinish]
  exact ⟨rfl, hquiet, rfl⟩

namespace GroupImport

/-- Members that are no classes change nothing. -/
theorem foldl_effect (lead : WrittenName) (ms : List GroupMember) (scope : Scope) :
    ms.foldl (effect lead) scope
      = (ms.filter (·.sort = .classLike)).foldl (fun scope m => m.addTo lead scope) scope := by
  rw [List.foldl_filter]
  simp only [decide_eq_true_eq]
  rfl

/-- Imports leave the namespace as it is. -/
theorem ns_foldl_addTo (lead : WrittenName) (ms : List GroupMember) (scope : Scope) :
    (ms.foldl (fun scope m => m.addTo lead scope) scope).ns = scope.ns := by
  induction ms generalizing scope with
  | nil => rfl
  | cons m ms ih => exact ih _

/-- **Groups of imports.** From every scope, a group is read to its end without a report. It leaves
the scope that the single imports of its classes leave, which is the one it began in with these
classes imported one after the other; functions and constants are not imported, and the namespace
stays as it is. -/
theorem reads_as_singles (g : GroupImport) (file : SourceFile) (scope : Scope) :
    (file.readFrom scope g.text).rest = [] ∧ (file.readFrom scope g.text).diagnostics = [] ∧
      (file.readFrom scope g.singles).diagnostics = [] ∧
      (file.readFrom scope g.text).scope = (file.readFrom scope g.singles).scope ∧
      (file.readFrom scope g.singles).scope
        = g.classes.foldl (fun scope m => m.addTo g.lead scope) scope ∧
      (file.readFrom scope g.text).scope.ns = scope.ns := by
  obtain ⟨hrest, hquiet, hgroup⟩ := file.readFrom_of_imports scope
    [(g.words, fun scope => g.members.foldl (effect g.lead) scope)]
    (by simpa using isImport_group g) (by simpa using g.calm)
  -- the same imports one by one, each with what it does to the scope
  let items := g.classes.map fun m => (m.singleWords g.lead, m.addTo g.lead)
  have hitems : ∀ i ∈ items, IsImport i.1 i.2 := by
    intro i hi
    obtain ⟨m, -, rfl⟩ := List.mem_map.mp hi
    exact isImport_single g.lead m
  have hcalm : Token.Calm 0 g.singles.toList (items.flatMap (·.1)) := by
    rw [List.flatMap_map]
    exact calm_singles g.lead g.classes
  obtain ⟨-, hsilent, hsingles⟩ := file.readFrom_of_imports scope items hitems hcalm
  rw [List.foldl_map] at hsingles
  have hscope : (file.readFrom scope g.text).scope
      = g.classes.foldl (fun scope m => m.addTo g.lead scope) scope :=
    hgroup.trans (foldl_effect g.lead g.members scope)
  refine ⟨hrest, hquiet, hsilent, hscope.trans hsingles.symm, hsingles, ?_⟩
  rw [hscope]
  exact ns_foldl_addTo g.lead g.classes scope

/-- What is compared, for a group with two classes, a function and a comma behind them. -/
example : ∃ g : GroupImport, g.text = "use Lib\\\x7bBase, function f, A\\B as C,\x7d;" ∧
    g.singles = "use Lib\\Base; use Lib\\A\\B as C;" := by
  let lead : FreeWord := ⟨"Lib", by decide, by decide⟩
  let base : FreeWord := ⟨"Base", by decide, by decide⟩
  let f : FreeWord := ⟨"f", by decide, by decide⟩
  let a : FreeWord := ⟨"A", by decide, by decide⟩
  let b : FreeWord := ⟨"B", by decide, by decide⟩
  let c : FreeWord := ⟨"C", by decide, by decide⟩
  let members : List GroupMember := [⟨.classLike, base.toName, none, rfl⟩,
    ⟨.function, f.toName, none, rfl⟩, ⟨.classLike, a.toName.behind b.toName, some c, rfl⟩]
  exact ⟨⟨lead.toName, members, List.cons_ne_nil _ _, true⟩, by decide, by decide⟩

end GroupImport

end Introspect
