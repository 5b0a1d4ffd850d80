import Introspect.Proofs.Name.Resolution
import Introspect.Proofs.Reading.Classes
import Introspect.Proofs.Scan.Spelling

/-!
# Types that can be declared

`TypeHint.Declarable` are the types that a declaration can write: a single type, a nullable one, an
intersection, or a union of single types and intersections. The text of such a type is cut into its
`TypeHint.words`, and from these words the reader gets the type back.

* `TypeHint.Declarable.calm`: the text of a type is cut into its words;
* `TypeHint.IsClassName.resolve_eq`: the name of a class stands for itself in the global scope;
* `Consumes` says of a routine that it reads given words and nothing else, whatever stands behind
  them as long as it is of the right kind, and `Consumes.listOf` that lists are read item by item;
* `consumes_typeHint`: the words of a type are read as that type, and `consumes_parameters`: so is a
  parameter in front of which they stand.
-/

namespace Introspect

namespace TypeHint

open Token (Writes Calm Kind)

/-! ### Types that can be written -/

/-- **Names of classes** as a type can write them: identifiers with separators between them. A
single one is no reserved word and no type word, and of several the first is not the word
`namespace`; the case of letters does not matter for this. -/
structure IsClassName (name : String) : Prop where
  identifiers : ∀ segment ∈ Text.split Name.separator name,
    Token.isIdentifier segment.toList = true
  unqualified : Name.separator ∉ name.toList → Kind.ofWord? name = none ∧ ofWord? name = none
  qualified : Name.separator ∈ name.toList →
    ∀ first ∈ (Text.split Name.separator name).head?, Text.foldCase first ≠ "namespace"

/-- **Single types.** -/
inductive Single : TypeHint → Prop where
  | array : Single .array
  | callable : Single .callable
  | static : Single .static
  | builtin {name : String} (h : name ∈ builtinWords) : Single (.builtin name)
  | named {name : String} (h : IsClassName name) : Single (.named name)

/-- **Members of a union:** single types and intersections of them. -/
inductive Member : TypeHint → Prop where
  | single {t : TypeHint} (h : Single t) : Member t
  | intersection {ts : List TypeHint} (hne : ts ≠ []) (h : ∀ t ∈ ts, Single t) :
      Member (.intersection ts)

/-- **Types that a declaration can write.** -/
inductive Declarable : TypeHint → Prop where
  | single {t : TypeHint} (h : Single t) : Declarable t
  | nullable {t : TypeHint} (h : Single t) : Declarable (.nullable t)
  | intersection {ts : List TypeHint} (hlength : 2 ≤ ts.length) (h : ∀ t ∈ ts, Single t) :
      Declarable (.intersection ts)
  | union {ts : List TypeHint} (hlength : 2 ≤ ts.length) (h : ∀ t ∈ ts, Member t) :
      Declarable (.union ts)

/-! ### Their words -/

/-- The kind of the token of a single type. -/
def wordKind : TypeHint → Kind
  | .static => .staticWord
  | _ => .name

/-- The token of a single type. -/
def word (t : TypeHint) : Kind × String := (t.wordKind, t.text)

/-- The tokens of single types with ampersands between them. -/
def joined (ts : List TypeHint) : List (Kind × String) :=
  [(Kind.amp, String.ofList ['&'])].intercalate (ts.map fun t => [t.word])

/-- The text of a member of a union. -/
def memberText : TypeHint → String
  | .intersection ts => "(" ++ (TypeHint.intersection ts).text ++ ")"
  | t => t.text

/-- The tokens of a member of a union. -/
def memberWords : TypeHint → List (Kind × String)
  | .intersection ts =>
    (.leftParen, String.ofList ['(']) :: (joined ts ++ [(.rightParen, String.ofList [')'])])
  | t => [t.word]

/-- The tokens of a type. -/
def words : TypeHint → List (Kind × String)
  | .nullable t => [(.question, String.ofList ['?']), t.word]
  | .intersection ts => joined ts
  | .union ts => [(Kind.pipe, String.ofList ['|'])].intercalate (ts.map memberWords)
  | t => [t.word]

theorem unionTexts_eq_map (ts : List TypeHint) : unionTexts ts = ts.map memberText := by
  induction ts with
  | nil => rfl
  | cons t ts ih => cases t <;> rw [List.map_cons, ← ih] <;> rfl

/-- A name that is no reserved word is written as it is. -/
theorem writes_word {name : String} {kind : Kind} (segments : List (List Char))
    (hname : name.toList = ['\\'].intercalate segments) (hne : segments ≠ [])
    (hsegments : ∀ l ∈ segments, Token.isIdentifier l = true)
    (hkind : Token.nameKind false name.toList = kind)
    (hword : kind = .name ∨ kind = .staticWord) : Writes name.toList [(kind, name)] where
  begins := by
    intro rest
    obtain ⟨c, cs, heq, hc, -⟩ := Token.exists_name hne hsegments (rfl : Token.nameLength [] = 0)
    rw [hname, heq]
    simp [Token.beginsType, hc]
  calm := by
    intro depth rest more hrest hcalm
    have hcuts : Token.Cuts false name.toList rest kind := by
      rw [hname] at hkind ⊢
      rw [← hkind]
      exact Token.cuts_name hne hsegments (Token.nameLength_of_endsName hrest) false
    have hwritten : (kind, name) = (kind, String.ofList name.toList) := by rw [String.ofList_toList]
    rw [hwritten]
    rcases hword with rfl | rfl <;>
      exact .token _ hcuts rfl rfl (fun h => absurd h (by decide)) hcalm

theorem Single.eq_static_or {t : TypeHint} (h : Single t) : t = .static ∨ t.wordKind = .name := by
  cases h
  case static => exact .inl rfl
  all_goals exact .inr rfl

theorem Single.writes {t : TypeHint} (h : Single t) : Writes t.text.toList [t.word] := by
  -- the words for types are identifiers, and none of them is reserved
  have hwords : ∀ name ∈ "array" :: "callable" :: builtinWords,
      Token.isIdentifier name.toList = true ∧ Token.nameKind false name.toList = .name := by
    decide
  have hplain : ∀ name ∈ "array" :: "callable" :: builtinWords,
      Writes name.toList [(.name, name)] := by
    intro name hname
    obtain ⟨hid, hkind⟩ := hwords name hname
    exact writes_word [name.toList] (by simp [List.intercalate]) (by simp)
      (by simpa using hid) hkind (.inl rfl)
  cases h with
  | array => exact hplain "array" (by decide)
  | callable => exact hplain "callable" (by decide)
  | static =>
    exact writes_word ["static".toList] (by decide) (by simp) (by decide) (by decide) (.inr rfl)
  | builtin h => exact hplain _ (List.mem_cons_of_mem _ (List.mem_cons_of_mem _ h))
  | @named name h =>
    -- the segments of the name are what it is cut into at the separators
    show Writes name.toList [(.name, name)]
    refine writes_word (Text.cutAt (· == '\\') name.toList) ?_ ?_ ?_ ?_ (.inl rfl)
    · exact (Text.intercalate_cutAt '\\' name.toList).symm
    · exact Text.cutAt_ne_nil _ _
    · intro l hl
      have hsegment := h.identifiers (String.ofList l) (List.mem_map_of_mem hl)
      rwa [String.toList_ofList] at hsegment
    · -- a name with a separator is never reserved, and one without is not, by assumption
      unfold Token.nameKind
      by_cases hqualified : '\\' ∈ name.toList
      · rw [if_pos (by simp [hqualified])]
      · rw [if_neg (by simp [hqualified]), String.ofList_toList, (h.unqualified hqualified).1]
        rfl

/-- Single types with ampersands between them. -/
theorem writes_joined {ts : List TypeHint} (hne : ts ≠ []) (h : ∀ t ∈ ts, Single t) :
    Writes (TypeHint.intersection ts).text.toList (joined ts) := by
  have hitems := Writes.intercalate
    (Token.Joins.mark (by decide : ('&', Kind.amp) ∈ Token.typeMarks))
    (ts.map fun t => (t.text.toList, [t.word])) (by simpa using hne) (by
      intro i hi
      obtain ⟨t, ht, rfl⟩ := List.mem_map.mp hi
      exact (h t ht).writes)
  rw [List.map_map, List.map_map] at hitems
  rw [text, String.toList_intercalate, texts_eq_map, List.map_map]
  exact hitems

theorem Member.writes {t : TypeHint} (h : Member t) : Writes t.memberText.toList t.memberWords := by
  cases h with
  | single h =>
    have hwrites := h.writes
    cases h <;> exact hwrites
  | @intersection ts hne h =>
    have htext : (memberText (.intersection ts)).toList
        = '(' :: ((TypeHint.intersection ts).text.toList ++ [')']) := by
      rw [memberText, String.toList_append, String.toList_append]
      rfl
    rw [htext]
    exact (writes_joined hne h).parenthesized

/-- **The text of a type** is cut into its words. -/
theorem Declarable.calm {t : TypeHint} (h : Declarable t) {depth : Nat} {rest : List Char}
    {more : List (Kind × String)} (hrest : Token.endsName rest = true)
    (hcalm : Calm depth rest more) : Calm depth (t.text.toList ++ rest) (t.words ++ more) := by
  cases h with
  | single h =>
    -- a single type is written by its own words
    have hwrites := h.writes.calm hrest hcalm
    cases h <;> exact hwrites
  | nullable h =>
    have htext : ∀ t : TypeHint, (TypeHint.nullable t).text.toList = '?' :: t.text.toList := by
      intro t
      rw [text, String.toList_append]
      rfl
    rw [htext]
    exact (Token.Joins.mark (by decide)).calm (h.writes.begins rest) (h.writes.calm hrest hcalm)
  | intersection hlength h =>
    exact (writes_joined (List.ne_nil_of_length_pos (by omega)) h).calm hrest hcalm
  | @union ts hlength h =>
    have hne : ts ≠ [] := List.ne_nil_of_length_pos (by omega)
    -- the members of a union are written one by one, with bars between them
    have hitems := Writes.intercalate
      (Token.Joins.mark (by decide : ('|', Kind.pipe) ∈ Token.typeMarks))
      (ts.map fun t => (t.memberText.toList, t.memberWords)) (by simpa using hne) (by
        intro i hi
        obtain ⟨t, ht, rfl⟩ := List.mem_map.mp hi
        exact (h t ht).writes)
    rw [List.map_map, List.map_map] at hitems
    rw [text, String.toList_intercalate, unionTexts_eq_map, List.map_map]
    exact hitems.calm hrest hcalm

/-! ### Their names -/

/-- The first piece of a cut text goes up to the first separator. -/
theorem head?_cutAt (sep : Char) (cs : List Char) :
    (Text.cutAt (· == sep) cs).head? = some (cs.takeWhile (· != sep)) := by
  induction cs with
  | nil => rfl
  | cons c cs ih =>
    rw [Text.cutAt, List.takeWhile_cons]
    by_cases hc : c = sep
    · simp [hc]
    · cases hcut : Text.cutAt (· == sep) cs with
      | nil => exact absurd hcut (Text.cutAt_ne_nil _ _)
      | cons p ps =>
        rw [hcut, List.head?_cons, Option.some.injEq] at ih
        simp [hc, Text.extendFirst, ih]

section ClassName

variable {name : String}

theorem IsClassName.exists_cons (h : IsClassName name) :
    ∃ c cs, name.toList = c :: cs ∧ Text.isNameStart c = true := by
  have hsegments : ∀ l ∈ Text.cutAt (· == '\\') name.toList, Token.isIdentifier l = true := by
    intro l hl
    have hsegment := h.identifiers (String.ofList l) (List.mem_map_of_mem hl)
    rwa [String.toList_ofList] at hsegment
  obtain ⟨c, cs, heq, hc, -⟩ := Token.exists_name (Text.cutAt_ne_nil _ _) hsegments
    (rfl : Token.nameLength [] = 0)
  rw [Text.intercalate_cutAt] at heq
  exact ⟨c, cs, heq, hc⟩

/-- The name does not begin with the word `namespace` and a separator. -/
theorem IsClassName.afterNamespaceWord? (h : IsClassName name) :
    Name.afterNamespaceWord? name = none := by
  rw [Option.eq_none_iff_forall_ne_some]
  intro rest hsome
  obtain ⟨word, hword, rfl⟩ := Name.afterNamespaceWord?_eq_some_iff.mp hsome
  -- the word would be the first segment, which it must not be
  have hsegment := Name.isSegment_of_foldCase_eq hword
  have hall : ∀ c ∈ word.toList, (c != Name.separator) = true := fun c hc => by
    simpa using fun heq : c = Name.separator => hsegment.2 (heq ▸ hc)
  refine h.qualified (by simp) word ?_ hword
  rw [Text.split, List.head?_map, head?_cutAt, Name.toList_behind,
    List.takeWhile_append_of_pos hall]
  simp

/-- In the global scope, such a name stands for itself. -/
theorem IsClassName.resolve_eq (h : IsClassName name) :
    Resolver.namespaced.resolve .empty name = name := by
  obtain ⟨c, cs, hname, hc⟩ := h.exists_cons
  have hne : name ≠ "" := by
    rintro rfl
    simp at hname
  have hhead : name.toList.head? ≠ some Name.separator := by
    rw [hname, List.head?_cons]
    exact fun heq => Token.ne_of_isNameStart hc (by decide) (Option.some.inj heq)
  have hjoin : Name.join Scope.empty.ns name = name := rfl
  rw [Resolver.resolve]
  simp only [if_neg hne, if_neg hhead, h.afterNamespaceWord?]
  -- nothing is imported, and the namespace has no name
  have himported : ∀ first, Scope.empty.imported? first = none := fun _ => rfl
  simp only [himported]
  split_ifs
  · rfl
  · exact hjoin

end ClassName

end TypeHint

namespace Reading

/-! ### Reading them -/

/-- **Consumption.** Wherever the words are the next tokens, in the global scope, and the token
behind them is of a kind in `next`, the routine consumes them and yields `a`. -/
def Consumes {α : Type} (r : Routine α) (words : List (Token.Kind × String)) (a : α)
    (next : Token.Kind → Prop) : Prop :=
  ∀ (s : State) (es tail : List Entry), s.rest = es ++ tail → es.map (·.token.spelling) = words →
    s.scope = .empty → next (State.peek { s with rest := tail }).kind →
      Yields r s a { s with rest := tail }

theorem exists_intercalate_cons {α : Type} (sep : List α) (a : α) (l : List α)
    (ls : List (List α)) : ∃ more, sep.intercalate ((a :: l) :: ls) = a :: more := by
  cases ls with
  | nil => exact ⟨l, by simp [List.intercalate]⟩
  | cons l' ls => exact ⟨_, List.intercalate_cons_cons⟩

section Lists

variable {α : Type} {item : Routine α} {more : Routine Bool} {first inner next : Token.Kind → Prop}
variable {sep : Token.Kind × String}

/-- A separator with another item behind it says that there is more, and is consumed. -/
def Separates (more : Routine Bool) (sep : Token.Kind × String) (first : Token.Kind → Prop) :
    Prop :=
  ∀ (s : State) (e : Entry) (tail : List Entry), s.rest = e :: tail → e.token.spelling = sep →
    first (State.peek { s with rest := tail }).kind → Yields more s true { s with rest := tail }

/-- **A round of a list** with another item behind it. -/
theorem Consumes.listRound {words ws : List (Token.Kind × String)} {w : Token.Kind × String}
    {a : α} (hitem : Consumes item words a inner) (hmore : Separates more sep first)
    (hsep : inner sep.1) (hfirst : first w.1) {s : State} {es : List Entry} {tail : List Entry}
    (hrest : s.rest = es ++ tail)
    (hwords : es.map (·.token.spelling) = words ++ sep :: w :: ws) (hscope : s.scope = .empty)
    (acc : List α) :
    ∃ es', es'.map (·.token.spelling) = w :: ws ∧ (es' ++ tail).length < s.rest.length ∧
      Yields (listRound item more acc) s (.yield (acc ++ [a])) { s with rest := es' ++ tail } := by
  -- the item, the separator and what follows it
  obtain ⟨es₁, es₂, rfl, hes₁, hes₂⟩ := List.map_eq_append_iff.mp hwords
  obtain ⟨e, es', rfl, he, hes'⟩ := List.map_eq_cons_iff.mp hes₂
  have hkind : e.kind = sep.1 := congrArg Prod.fst he
  have hbegins : first (State.peek { s with rest := es' ++ tail }).kind := by
    obtain ⟨e', es₃, rfl, he', -⟩ := List.map_eq_cons_iff.mp hes'
    have hkind' : e'.kind = w.1 := congrArg Prod.fst he'
    show first e'.kind
    rwa [hkind']
  have hread := hitem s es₁ (e :: (es' ++ tail)) (by simpa using hrest) hes₁ hscope
    (by show inner e.kind; rwa [hkind])
  refine ⟨es', hes', ?_, hread.bind (Yields.bind (hmore _ e (es' ++ tail) rfl he hbegins) .pure)⟩
  simp only [hrest, List.length_append, List.length_cons]
  omega

variable (first inner next sep) in
/-- **Lists.** Items with a separator between them are read one by one. -/
theorem Consumes.listOf (items : List (List (Token.Kind × String) × α)) (hne : items ≠ [])
    (hitem : ∀ i ∈ items, Consumes item i.1 i.2 inner ∧ ∃ w ws, i.1 = w :: ws ∧ first w.1)
    (hmore : Separates more sep first)
    (hlast : ∀ s : State, next s.peek.kind → Yields more s false s)
    (hsep : inner sep.1) (hnext : ∀ k, next k → inner k) :
    Consumes (Reading.listOf item more) ([sep].intercalate (items.map (·.1))) (items.map (·.2))
      next := by
  -- along the items, behind those that have been read
  suffices hrun : ∀ (acc : List α) (s : State) (es tail : List Entry), s.rest = es ++ tail →
      es.map (·.token.spelling) = [sep].intercalate (items.map (·.1)) → s.scope = .empty →
        next (State.peek { s with rest := tail }).kind →
          Yields (iterate State.size (Reading.listRound item more) acc) s
            (acc ++ items.map (·.2)) { s with rest := tail } from
    fun s es tail hrest hwords hscope hbehind => hrun [] s es tail hrest hwords hscope hbehind
  induction items with
  | nil => exact absurd rfl hne
  | cons i items ih =>
    have hi := (hitem i List.mem_cons_self).1
    intro acc s es tail hrest hwords hscope hbehind
    cases items with
    | nil =>
      have hone := hi s es tail hrest (by simpa [List.intercalate] using hwords) hscope
        (hnext _ hbehind)
      -- behind the last item there is no separator, so its round is the last one
      exact Yields.iterate_done (hone.bind (Yields.bind (hlast _ hbehind) .pure))
    | cons i' items =>
      have hrun := ih (List.cons_ne_nil _ _) fun i hi => hitem i (List.mem_cons_of_mem _ hi)
      obtain ⟨-, w, ws, hw, hfirst⟩ := hitem i' (by simp)
      obtain ⟨ws', hws'⟩ := exists_intercalate_cons [sep] w ws (items.map (·.1))
      simp only [List.map_cons, List.intercalate_cons_cons, hw, hws', List.append_assoc,
        List.singleton_append] at hwords hrun
      -- one round reads the item and the separator, and leaves fewer tokens to the others
      obtain ⟨es', hes', hless, hround⟩ :=
        hi.listRound hmore hsep hfirst hrest hwords hscope acc
      have hbehindRound := hrun (acc ++ [i.2]) { s with rest := es' ++ tail } es' tail rfl hes'
        hscope hbehind
      refine hround.iterate_yield hless ?_
      simpa using hbehindRound

end Lists

/-- A name denotes the single type that it writes. -/
theorem Frame.typeOfName_eq {t : TypeHint} (h : t.Single) (hkind : t.wordKind = .name) {f : Frame}
    (hf : f.resolver = .namespaced) : f.typeOfName .empty TypeHint.ofWord? t.text = t := by
  have himported : ∀ first, Scope.empty.imported? first = none := fun _ => rfl
  cases h with
  | array => rfl
  | callable => rfl
  | static => exact absurd hkind (by decide)
  | @builtin name h =>
    have hwords : ∀ name ∈ TypeHint.builtinWords, Name.separator ∉ name.toList ∧
        Text.foldCase name = name ∧ name ≠ "array" ∧ name ≠ "callable" ∧ name ≠ "static" := by
      decide
    obtain ⟨hsep, hfold, harray, hcallable, hstatic⟩ := hwords name h
    simp [typeOfName, TypeHint.text, TypeHint.ofWord?, himported, hsep, hfold, harray, hcallable,
      hstatic, h]
  | @named name h =>
    show f.typeOfName .empty TypeHint.ofWord? name = .named name
    unfold typeOfName
    rw [hf, h.resolve_eq]
    by_cases hsep : Name.separator ∈ name.toList
    · simp [hsep]
    · simp [hsep, himported, (h.unqualified hsep).2]

/-! ### Single tokens -/

section Tokens

variable {s : State} {e : Entry} {tail : List Entry} {kind : Token.Kind}

theorem advance_rest (hrest : s.rest = e :: tail) : s.advance = { s with rest := tail } := by
  rw [State.advance, hrest, List.tail_cons]

theorem peek_kind (hrest : s.rest = e :: tail) (he : e.kind = kind) : s.peek.kind = kind := by
  rw [State.peek_of_rest hrest]
  exact he

theorem yields_pass (hrest : s.rest = e :: tail) :
    Yields (discard advance) s () { s with rest := tail } := by
  rw [← advance_rest hrest]
  exact Yields.discard .advance

theorem yields_expect (hrest : s.rest = e :: tail) (he : e.kind = kind) :
    Yields (expect kind) s e.token { s with rest := tail } := by
  rw [← advance_rest hrest, ← State.peek_of_rest hrest]
  exact .expect (peek_kind hrest he)

theorem yields_eat_isSome (hrest : s.rest = e :: tail) (he : e.kind = kind) :
    Yields (do return (← eat kind).isSome) s true { s with rest := tail } := by
  rw [← advance_rest hrest]
  exact Yields.bind (.eat (peek_kind hrest he)) .pure

theorem yields_eat_isNone (h : s.peek.kind ≠ kind) :
    Yields (do return (← eat kind).isSome) s false s := Yields.bind (.eat_none h) .pure

/-- An ampersand in front of a type joins it. -/
theorem yields_typeJoin_true (hrest : s.rest = e :: tail) (he : e.kind = .amp)
    (hnext : (State.peek { s with rest := tail }).kind = .name ∨
      (State.peek { s with rest := tail }).kind = .staticWord) :
    Yields typeJoin s true { s with rest := tail } := by
  have hbehind : (s.peekAt 1).kind = (State.peek { s with rest := tail }).kind := by
    simp [State.peekAt, State.peek, hrest]
  have hjoin : s.atTypeJoin = true := by
    rw [State.atTypeJoin, peek_kind hrest he, hbehind]
    rcases hnext with h | h <;> rw [h] <;> rfl
  refine Yields.bind .get ?_
  rw [if_pos hjoin]
  exact (yields_pass hrest).bind .pure

/-- Where no ampersand follows, nothing is joined. -/
theorem yields_typeJoin_false (h : s.peek.kind ≠ .amp) : Yields typeJoin s false s := by
  have hjoin : s.atTypeJoin = false := by
    rw [State.atTypeJoin, beq_eq_false_iff_ne.mpr h, Bool.false_and]
  refine Yields.bind .get ?_
  rw [if_neg (by simp [hjoin])]
  exact .pure

end Tokens

theorem consumes_singleType {t : TypeHint} (h : t.Single) {f : Frame}
    (hf : f.resolver = .namespaced) : Consumes (singleType f) [t.word] t fun _ => True := by
  intro s es tail hrest hwords hscope _
  obtain ⟨e, es', rfl, he, hnil⟩ := List.map_eq_cons_iff.mp hwords
  obtain rfl := List.map_eq_nil_iff.mp hnil
  obtain ⟨hkind, hlexeme⟩ : e.token.kind = t.wordKind ∧ e.token.lexeme = t.text := Prod.mk.inj he
  have hadvance := yields_pass hrest
  refine Yields.bind .peek ?_
  rw [State.peek_of_rest hrest, hkind]
  rcases h.eq_static_or with rfl | hname
  · exact hadvance.bind .pure
  · rw [hname]
    refine hadvance.bind (Yields.bind .get ?_)
    dsimp only
    rw [hscope, hlexeme, Frame.typeOfName_eq h hname hf]
    exact .pure

section Types

variable {f : Frame}

/-- Single types with ampersands between them. -/
theorem consumes_joined {ts : List TypeHint} (hf : f.resolver = .namespaced) (hne : ts ≠ [])
    (h : ∀ t ∈ ts, t.Single) {more : Routine Bool}
    (hmore : Separates more (.amp, String.ofList ['&']) fun k => k = .name ∨ k = .staticWord)
    (hlast : ∀ s : State, s.peek.kind ≠ .amp → Yields more s false s) :
    Consumes (listOf (singleType f) more) (TypeHint.joined ts) ts (· ≠ .amp) := by
  have hitems : ∀ i ∈ ts.map fun t => ([t.word], t),
      Consumes (singleType f) i.1 i.2 (fun _ => True) ∧
        ∃ w ws, i.1 = w :: ws ∧ (w.1 = .name ∨ w.1 = .staticWord) := by
    intro i hi
    obtain ⟨t, ht, rfl⟩ := List.mem_map.mp hi
    refine ⟨consumes_singleType (h t ht) hf, t.word, [], rfl, ?_⟩
    rcases (h t ht).eq_static_or with rfl | hname
    · exact .inr rfl
    · exact .inl hname
  -- a single type ends whatever follows, so nothing is asked of the token behind an item
  have hlist := Consumes.listOf (fun k => k = .name ∨ k = .staticWord) (fun _ => True) (· ≠ .amp)
    (.amp, String.ofList ['&']) (ts.map fun t => ([t.word], t)) (by simpa using hne) hitems
    hmore hlast trivial fun _ _ => trivial
  rw [List.map_map, List.map_map] at hlist
  simpa [Function.comp_def, TypeHint.joined] using hlist

/-- One type stands for itself, several for their intersection. -/
def intersectionOf : List TypeHint → TypeHint
  | [t] => t
  | ts => .intersection ts

/-- One type stands for itself, several for their union. -/
def unionOf : List TypeHint → TypeHint
  | [t] => t
  | ts => .union ts

theorem intersectionOf_of_two_le {ts : List TypeHint} (hlength : 2 ≤ ts.length) :
    intersectionOf ts = .intersection ts := by
  unfold intersectionOf
  split
  · simp at hlength
  · rfl

theorem unionOf_of_two_le {ts : List TypeHint} (hlength : 2 ≤ ts.length) :
    unionOf ts = .union ts := by
  unfold unionOf
  split
  · simp at hlength
  · rfl

/-- The first of some words is the next token. -/
theorem peek_kind_of_words {s : State} {es tail : List Entry} {w : Token.Kind × String}
    {ws : List (Token.Kind × String)} (hrest : s.rest = es ++ tail)
    (hwords : es.map (·.token.spelling) = w :: ws) : s.peek.kind = w.1 := by
  obtain ⟨e, es', rfl, he, -⟩ := List.map_eq_cons_iff.mp hwords
  exact peek_kind hrest (congrArg Prod.fst he)

/-- The tokens of single types begin with a name or with the word `static`. -/
theorem exists_joined_eq_cons {ts : List TypeHint} (hne : ts ≠ []) (h : ∀ t ∈ ts, t.Single) :
    ∃ w ws, TypeHint.joined ts = w :: ws ∧ (w.1 = .name ∨ w.1 = .staticWord) := by
  cases ts with
  | nil => exact absurd rfl hne
  | cons t ts =>
    obtain ⟨ws, hws⟩ := exists_intercalate_cons [(Token.Kind.amp, String.ofList ['&'])] t.word []
      (ts.map fun t => [t.word])
    refine ⟨t.word, ws, hws, ?_⟩
    rcases (h t List.mem_cons_self).eq_static_or with rfl | hname
    · exact .inr rfl
    · exact .inl hname

/-- A member of a union without parentheses. -/
theorem consumes_unionMember_joined {ts : List TypeHint} (hf : f.resolver = .namespaced)
    (hne : ts ≠ []) (h : ∀ t ∈ ts, t.Single) :
    Consumes (unionMember f) (TypeHint.joined ts) (intersectionOf ts) (· ≠ .amp) := by
  intro s es tail hrest hwords hscope hnext
  have hlist := consumes_joined hf hne h
    (fun _ _ _ hrest he => yields_typeJoin_true hrest (congrArg Prod.fst he))
    (fun _ => yields_typeJoin_false) s es tail hrest hwords hscope hnext
  have hparen : s.peek.kind ≠ .leftParen := by
    obtain ⟨w, ws, heq, hkind⟩ := exists_joined_eq_cons hne h
    rw [peek_kind_of_words hrest (hwords.trans heq)]
    rcases hkind with h | h <;> rw [h] <;> decide
  refine Yields.bind (.eat_none hparen) (Yields.bind hlist ?_)
  rcases ts with _ | ⟨t, _ | ⟨t', ts⟩⟩ <;> exact .pure

/-- A member of a union. -/
theorem consumes_unionMember {t : TypeHint} (hf : f.resolver = .namespaced) (h : t.Member) :
    Consumes (unionMember f) t.memberWords t (· ≠ .amp) := by
  cases h with
  | single h =>
    have hjoined := consumes_unionMember_joined hf (List.cons_ne_nil t []) (by simpa using h)
    cases h <;> exact hjoined
  | @intersection ts hne h =>
    intro s es tail hrest hwords hscope hnext
    -- the parentheses are around a list, in which the ampersands join
    obtain ⟨opening, es₁, rfl, hopening, hwords⟩ := List.map_eq_cons_iff.mp hwords
    obtain ⟨inner, es₂, rfl, hinner, hwords⟩ := List.map_eq_append_iff.mp hwords
    obtain ⟨closing, es₃, rfl, hclosing, hnil⟩ := List.map_eq_cons_iff.mp hwords
    obtain rfl := List.map_eq_nil_iff.mp hnil
    have hclose : closing.kind = .rightParen := congrArg Prod.fst hclosing
    have heat : Yields (eat .leftParen) s _ _ :=
      .eat (peek_kind hrest (congrArg Prod.fst hopening))
    have hlist := consumes_joined hf hne h
      (fun _ _ _ hrest he _ => yields_eat_isSome hrest (congrArg Prod.fst he))
      (fun _ => yields_eat_isNone) s.advance inner (closing :: tail) (by simp [hrest]) hinner hscope
      (by show closing.kind ≠ .amp; rw [hclose]; decide)
    have hexpect : Yields (discard (expect .rightParen))
        { s.advance with rest := closing :: tail } () { s with rest := tail } :=
      Yields.discard (.expect hclose)
    exact heat.bind (hlist.bind (hexpect.bind .pure))

/-- Members of a union with bars between them. -/
theorem consumes_typeHint_union (items : List (List (Token.Kind × String) × TypeHint))
    (hne : items ≠ [])
    (h : ∀ i ∈ items, Consumes (unionMember f) i.1 i.2 (· ≠ .amp) ∧
      ∃ w ws, i.1 = w :: ws ∧ w.1 ≠ .question) :
    Consumes (typeHint f) ([(Token.Kind.pipe, String.ofList ['|'])].intercalate (items.map (·.1)))
      (unionOf (items.map (·.2))) (fun k => k ≠ .amp ∧ k ≠ .pipe) := by
  intro s es tail hrest hwords hscope hnext
  have hlist := Consumes.listOf (· ≠ .question) (· ≠ .amp) (fun k => k ≠ .amp ∧ k ≠ .pipe)
    (.pipe, String.ofList ['|']) items hne h
    (fun s e tail hrest he _ => yields_eat_isSome hrest (congrArg Prod.fst he))
    (fun s h => yields_eat_isNone h.2) (by decide) fun k h => h.1
  -- the first item begins with something else than a question mark
  have hquestion : s.peek.kind ≠ .question := by
    cases items with
    | nil => exact absurd rfl hne
    | cons i items =>
      obtain ⟨-, w, ws, hw, hkind⟩ := h i List.mem_cons_self
      rw [List.map_cons, hw] at hwords
      obtain ⟨more, hmore⟩ := exists_intercalate_cons [(Token.Kind.pipe, String.ofList ['|'])] w ws
        (items.map (·.1))
      rw [peek_kind_of_words hrest (hwords.trans hmore)]
      exact hkind
  refine Yields.bind (.eat_none hquestion) ?_
  refine Yields.bind (hlist s es tail hrest hwords hscope hnext) ?_
  rcases items with _ | ⟨i, _ | ⟨i', items⟩⟩ <;> exact .pure

/-- A single member of a union is read as itself. -/
theorem consumes_typeHint_one {words : List (Token.Kind × String)} {t : TypeHint}
    (h : Consumes (unionMember f) words t (· ≠ .amp))
    (hwords : ∃ w ws, words = w :: ws ∧ w.1 ≠ .question) :
    Consumes (typeHint f) words t (fun k => k ≠ .amp ∧ k ≠ .pipe) := by
  have hone := consumes_typeHint_union [(words, t)] (List.cons_ne_nil _ _) (by
    intro i hi
    rw [List.mem_singleton.mp hi]
    exact ⟨h, hwords⟩)
  have heq : [(Token.Kind.pipe, String.ofList ['|'])].intercalate [words] = words := by
    simp [List.intercalate]
  rwa [List.map_singleton, List.map_singleton, heq] at hone

/-- The kinds of tokens with which a declared type begins. -/
def hintStarts : List Token.Kind := [.name, .staticWord, .leftParen, .question]

/-- The tokens of a member of a union begin with such a kind, but not with a question mark. -/
theorem exists_memberWords_eq_cons {t : TypeHint} (h : t.Member) :
    ∃ w ws, t.memberWords = w :: ws ∧ w.1 ∈ hintStarts ∧ w.1 ≠ .question := by
  cases h with
  | single h =>
    cases h <;> exact ⟨_, _, rfl, by simp [hintStarts, TypeHint.word, TypeHint.wordKind]⟩
  | intersection => exact ⟨_, _, rfl, by simp [hintStarts]⟩

/-- The tokens of a type begin with such a kind. -/
theorem exists_words_eq_cons {t : TypeHint} (h : t.Declarable) :
    ∃ w ws, t.words = w :: ws ∧ w.1 ∈ hintStarts := by
  cases h with
  | single h =>
    obtain ⟨w, ws, heq, hstart, -⟩ := exists_memberWords_eq_cons (.single h)
    cases h <;> exact ⟨w, ws, heq, hstart⟩
  | nullable h => exact ⟨_, _, rfl, by decide⟩
  | intersection hlength h =>
    obtain ⟨w, ws, heq, hkind⟩ :=
      exists_joined_eq_cons (List.ne_nil_of_length_pos (by omega)) h
    refine ⟨w, ws, heq, ?_⟩
    rcases hkind with h | h <;> rw [h] <;> decide
  | @union ts hlength h =>
    cases ts with
    | nil => simp at hlength
    | cons t ts =>
      obtain ⟨w, ws, heq, hstart, -⟩ := exists_memberWords_eq_cons (h t List.mem_cons_self)
      obtain ⟨more, hmore⟩ := exists_intercalate_cons [(Token.Kind.pipe, String.ofList ['|'])] w ws
        (ts.map TypeHint.memberWords)
      exact ⟨w, more, by rw [TypeHint.words, List.map_cons, heq, hmore], hstart⟩

/-- **A type is read back** from its words. -/
theorem consumes_typeHint {t : TypeHint} (hf : f.resolver = .namespaced) (h : t.Declarable) :
    Consumes (typeHint f) t.words t (fun k => k ≠ .amp ∧ k ≠ .pipe) := by
  cases h with
  | single h =>
    obtain ⟨w, ws, heq, -, hquestion⟩ := exists_memberWords_eq_cons (.single h)
    -- a single type is a union of one member
    have hone := consumes_typeHint_one (consumes_unionMember hf (.single h))
      ⟨w, ws, heq, hquestion⟩
    cases h <;> exact hone
  | nullable h =>
    intro s es tail hrest hwords hscope hnext
    obtain ⟨mark, es', rfl, hmark, hwords⟩ := List.map_eq_cons_iff.mp hwords
    have heat : Yields (eat .question) s _ _ := .eat (peek_kind hrest (congrArg Prod.fst hmark))
    have hsingle := consumes_singleType h hf s.advance es' tail (by simp [hrest]) hwords hscope
      trivial
    exact heat.bind (hsingle.bind .pure)
  | @intersection ts hlength h =>
    have hne : ts ≠ [] := List.ne_nil_of_length_pos (by omega)
    obtain ⟨w, ws, heq, hkind⟩ := exists_joined_eq_cons hne h
    -- an intersection is read as the only member of a union
    have hjoined := consumes_unionMember_joined hf hne h
    rw [intersectionOf_of_two_le hlength] at hjoined
    refine consumes_typeHint_one hjoined ⟨w, ws, heq, ?_⟩
    rcases hkind with h | h <;> rw [h] <;> decide
  | @union ts hlength h =>
    have hunion := consumes_typeHint_union (f := f) (ts.map fun t => (t.memberWords, t))
      (by simpa using List.ne_nil_of_length_pos (by omega)) (by
        intro i hi
        obtain ⟨t, ht, rfl⟩ := List.mem_map.mp hi
        obtain ⟨w, ws, heq, -, hquestion⟩ := exists_memberWords_eq_cons (h t ht)
        exact ⟨consumes_unionMember hf (h t ht), w, ws, heq, hquestion⟩)
    rw [List.map_map, List.map_map, Function.comp_def, Function.comp_def, List.map_id',
      unionOf_of_two_le hlength] at hunion
    exact hunion

/-! ### The parameter in front of which they stand -/

/-- The draft of a parameter with a type and nothing else. -/
def parameterDraft (name : String) (t : TypeHint) : ParameterDraft :=
  { ParameterDraft.ofName name false false false with typeHint := some t }

/-- **A parameter** with a type and nothing else. -/
theorem consumes_parameter {t : TypeHint} (hf : f.resolver = .namespaced) (h : t.Declarable)
    (cfg : Setting) (name : String) :
    Consumes (parameter cfg f none) (t.words ++ [(.variableName, name)])
      (parameterDraft name t, none) (· ≠ .equal) := by
  intro s es tail hrest hwords hscope hnext
  obtain ⟨hint, es', rfl, hhint, hwords⟩ := List.map_eq_append_iff.mp hwords
  obtain ⟨var, es'', rfl, hvar, hnil⟩ := List.map_eq_cons_iff.mp hwords
  obtain rfl := List.map_eq_nil_iff.mp hnil
  obtain ⟨hkind, hlexeme⟩ : var.token.kind = .variableName ∧ var.token.lexeme = name :=
    Prod.mk.inj hvar
  rw [List.append_assoc] at hrest
  -- a type begins with none of the tokens that may stand in its place
  obtain ⟨w, ws, hwords, hfirst⟩ := exists_words_eq_cons h
  have hstart : s.peek.kind ∈ hintStarts := by
    rw [peek_kind_of_words hrest (hhint.trans hwords)]
    exact hfirst
  have hplain : ∀ k ∈ hintStarts, k ≠ .attributeOpen ∧ promotionOf? k = none ∧ k ≠ .amp ∧
      k ≠ .ellipsis ∧ k ≠ .variableName := by decide
  obtain ⟨hattribute, hpromotion, hamp, hellipsis, hvariable⟩ := hplain _ hstart
  have htype := consumes_typeHint hf h s hint ([var] ++ tail) hrest hhint hscope
    (by show var.token.kind ≠ .amp ∧ var.token.kind ≠ .pipe; rw [hkind]; decide)
  refine Yields.bind (.skipAttributes hattribute) (Yields.bind .peek ?_)
  refine Yields.bind (.promotion hpromotion) (Yields.bind .peekKind ?_)
  split
  · exact absurd ‹_› hamp
  · exact absurd ‹_› hellipsis
  · exact absurd ‹_› hvariable
  refine htype.map.bind ?_
  set s₁ : State := { s with rest := [var] ++ tail } with hs₁
  have hpeek : s₁.peek.kind = .variableName := hkind
  have hadvance : s₁.advance = { s with rest := tail } := rfl
  -- behind the type stands the name: no ampersand and no ellipsis
  refine Yields.bind (.eat_none (by rw [hpeek]; decide)) ?_
  refine Yields.bind (.eat_none (by rw [hpeek]; decide)) (Yields.bind (.expect hpeek) ?_)
  rw [hadvance]
  have hdefault : Yields (defaultValue? cfg [.comma, .rightParen]) { s with rest := tail } none
      { s with rest := tail } := Yields.bind (.eat_none hnext) .pure
  refine Yields.bind hdefault (Yields.bind .get ?_)
  rw [if_neg (by decide)]
  subst hlexeme
  -- nothing is promoted and there is no default value; only the type is written
  exact rfl

/-- **A list of one parameter.** -/
theorem consumes_parameters {t : TypeHint} (hf : f.resolver = .namespaced) (h : t.Declarable)
    (cfg : Setting) (name opening closing : String) :
    Consumes (parameters cfg f none)
      ((.leftParen, opening) :: (t.words ++ [(.variableName, name)]) ++ [(.rightParen, closing)])
      ([parameterDraft name t], []) fun _ => True := by
  intro s es tail hrest hwords hscope _
  obtain ⟨es', es₃, rfl, hwords, hclosing⟩ := List.map_eq_append_iff.mp hwords
  obtain ⟨opens, inner, rfl, hopens, hinner⟩ := List.map_eq_cons_iff.mp hwords
  obtain ⟨closes, es₄, rfl, hcloses, hnil⟩ := List.map_eq_cons_iff.mp hclosing
  obtain rfl := List.map_eq_nil_iff.mp hnil
  have hopen : s.peek.kind = .leftParen := peek_kind hrest (congrArg Prod.fst hopens)
  have hclose : closes.kind = .rightParen := congrArg Prod.fst hcloses
  have hopened : s.advance.rest = inner ++ closes :: tail := by simp [hrest]
  have hfirst : s.advance.peek.kind ≠ .rightParen := by
    obtain ⟨w, ws, heq, hstart⟩ := exists_words_eq_cons h
    rw [heq] at hinner
    rw [peek_kind_of_words hopened hinner]
    rintro hparen
    rw [hparen] at hstart
    exact absurd hstart (by decide)
  have hbehind : (State.peek { s with rest := closes :: tail }).kind = .rightParen := hclose
  have hparameter := consumes_parameter hf h cfg name s.advance inner (closes :: tail) hopened
    hinner hscope (hbehind.trans_ne (by decide))
  have hlast : Yields (commaBefore .rightParen) { s with rest := closes :: tail } false
      { s with rest := closes :: tail } :=
    Yields.bind (yields_eat_isNone (hbehind.trans_ne (by decide))) .pure
  -- the list has one round only
  have hlist : Yields (listOf (parameter cfg f none) (commaBefore .rightParen)) s.advance _ _ :=
    Yields.iterate_done (Yields.bind hparameter (Yields.bind hlast .pure))
  refine Yields.bind .peek ?_
  rw [if_neg (by simp [hopen])]
  refine Yields.bind (Yields.discard .advance) (Yields.bind .peekKind ?_)
  rw [if_neg hfirst]
  exact Yields.bind hlist (Yields.bind (Yields.discard (.expect hbehind)) .pure)

end Types

end Reading

end Introspect
