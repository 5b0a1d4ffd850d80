import Introspect.Proofs.Declaration.Twins
import Introspect.Proofs.Name.RelativeWords
import Introspect.Proofs.Reading.Initializers
import Introspect.Proofs.Reading.Visibility
import Introspect.Proofs.Scan.Keywords

/-!
# Types and the words they are written with

A declared type is read from words with marks between them, and a documented one from the pieces of
a word. Either way the leaves of the type stand for the words one by one, in their order: the word
`self` for the enclosing class, `parent` for its declared parent, and a class that stands for any
other word has the name to which the word is resolved.

* `Frame.Denotes` is what a leaf is to its word;
* `typeHint_read` follows the routines that read a declared type from tokens, which are told apart
  by their kinds, and `Frame.docType?_denotes` is the same for documented types;
* `WrittenAt` is where the words stand. The kinds of the tokens are what their words say they are,
  because in front of a type there is nothing that leads to the name of a member
  (`WrittenAt.denotes`).
-/

namespace Introspect

/-! ### Leaves -/

namespace TypeHint

mutual
/-- The types of which a type is made, from left to right. -/
def leaves : TypeHint → List TypeHint
  | nullable inner => inner.leaves
  | union members => leavesAll members
  | intersection members => leavesAll members
  | hint => [hint]

/-- The types of which some types are made. -/
def leavesAll : List TypeHint → List TypeHint
  | [] => []
  | t :: ts => t.leaves ++ leavesAll ts
end

theorem leavesAll_append (ts us : List TypeHint) :
    leavesAll (ts ++ us) = leavesAll ts ++ leavesAll us := by
  induction ts with
  | nil => rfl
  | cons t ts ih => rw [List.cons_append, leavesAll, leavesAll, ih, List.append_assoc]

theorem leavesAll_singleton (t : TypeHint) : leavesAll [t] = t.leaves := by
  simp [leavesAll]

mutual
/-- The classes in a type are leaves of it. -/
theorem named_mem_leaves {n : String} : ∀ t : TypeHint, n ∈ t.classNames → named n ∈ t.leaves
  | array, h | callable, h | static, h | builtin _, h => absurd h (by simp [classNames])
  | named m, h => by simpa [classNames, leaves] using h
  | nullable inner, h => by
    rw [classNames] at h
    rw [leaves]
    exact named_mem_leaves inner h
  | union ts, h => by
    rw [classNames] at h
    rw [leaves]
    exact named_mem_leavesAll ts h
  | intersection ts, h => by
    rw [classNames] at h
    rw [leaves]
    exact named_mem_leavesAll ts h

theorem named_mem_leavesAll {n : String} :
    ∀ ts : List TypeHint, n ∈ classNamesAll ts → named n ∈ leavesAll ts
  | [], h => absurd h (by simp [classNamesAll])
  | t :: ts, h => by
    rw [classNamesAll, List.mem_append] at h
    rw [leavesAll, List.mem_append]
    exact h.imp (named_mem_leaves t) (named_mem_leavesAll ts)
end

/-- A type that is its own leaf and names no class. -/
structure IsBuiltIn (t : TypeHint) : Prop where
  leaves_eq : t.leaves = [t]
  ne_named : ∀ n, t ≠ named n

theorem isBuiltIn_of_ofWord? {word : String} {t : TypeHint} (h : ofWord? word = some t) :
    t.IsBuiltIn := by
  unfold ofWord? at h
  dsimp only at h
  split_ifs at h <;> cases h <;> exact ⟨rfl, by simp⟩

theorem isBuiltIn_of_ofDocWord? {word : String} {t : TypeHint} (h : ofDocWord? word = some t) :
    t.IsBuiltIn := by
  unfold ofDocWord? at h
  split at h
  · next hword =>
    cases h
    exact isBuiltIn_of_ofWord? hword
  · dsimp only at h
    split_ifs at h
    cases h
    exact ⟨rfl, by simp⟩

end TypeHint

namespace Reading

open Token (MemberNameBehind Scanner)

/-! ### Words and leaves -/

namespace Frame

variable {f : Frame} {scope : Scope} {word name : String} {hint : TypeHint}

/-- **What stands for a word:** the enclosing class for `self`, its declared parent for `parent`, in
any letter case. A class that stands for another word is the one to which the word is resolved. -/
structure Denotes (f : Frame) (scope : Scope) (word : String) (hint : TypeHint) : Prop where
  self_eq : Text.foldCase word = "self" → hint = .named f.className
  parent_eq : Text.foldCase word = "parent" → f.parentName.map TypeHint.named = some hint
  named_eq : ¬ Name.IsRelative word → ∀ n, hint = .named n → n = f.resolver.resolve scope word

/-- What is no class stands for any word that is not relative. -/
theorem denotes_builtIn (hbuiltIn : hint.IsBuiltIn) (hword : ¬ Name.IsRelative word) :
    f.Denotes scope word hint where
  self_eq h := absurd (by simp [Name.IsRelative, h]) hword
  parent_eq h := absurd (by simp [Name.IsRelative, h]) hword
  named_eq _ n h := absurd h (hbuiltIn.ne_named n)

theorem denotes_self (h : Text.foldCase word = "self") :
    f.Denotes scope word (.named f.className) where
  self_eq _ := rfl
  parent_eq hparent := absurd (h.symm.trans hparent) (by decide)
  named_eq hword := absurd (by simp [Name.IsRelative, h]) hword

theorem denotes_parent {parent : String} (hparent : f.parentName = some parent)
    (h : Text.foldCase word = "parent") : f.Denotes scope word (.named parent) where
  self_eq hself := absurd (h.symm.trans hself) (by decide)
  parent_eq _ := by rw [hparent]; rfl
  named_eq hword := absurd (by simp [Name.IsRelative, h]) hword

/-- A name stands for a type word or for a class. -/
theorem typeOfName_leaf {typeWord? : String → Option TypeHint}
    (hword : ∀ t, typeWord? name = some t → t.IsBuiltIn) :
    (f.typeOfName scope typeWord? name).leaves = [f.typeOfName scope typeWord? name] ∧
      (¬ Name.IsRelative name → f.Denotes scope name (f.typeOfName scope typeWord? name)) := by
  -- a class stands for every name but the relative words
  have hclass : f.Denotes scope name (.named (f.resolver.resolve scope name)) ∨
      Name.IsRelative name := by
    by_cases h : Name.IsRelative name
    · exact .inr h
    · exact .inl ⟨fun hself => absurd (by simp [Name.IsRelative, hself]) h,
        fun hparent => absurd (by simp [Name.IsRelative, hparent]) h,
        fun _ n hn => (TypeHint.named.inj hn).symm⟩
  unfold typeOfName
  dsimp only
  split_ifs
  · exact ⟨rfl, hclass.resolve_right⟩
  · -- a plain name may be a type word, and only otherwise it is that of a class
    cases ht : typeWord? name with
    | none => exact ⟨rfl, hclass.resolve_right⟩
    | some t => exact ⟨(hword t ht).leaves_eq, denotes_builtIn (hword t ht)⟩

end Frame

/-! ### Declared types -/

/-- The kinds of the words of a declared type. -/
def isTypeWord : Token.Kind → Bool
  | .name | .selfWord | .parentWord | .staticWord => true
  | _ => false

/-- The kinds of the marks between them. -/
def isTypeMark : Token.Kind → Bool
  | .question | .pipe | .amp | .leftParen | .rightParen => true
  | _ => false

/-- The words among the tokens of a declared type. -/
def typeWords (l : List Entry) : List Token := (l.filter (isTypeWord ·.kind)).map (·.token)

theorem typeWords_append (l l' : List Entry) :
    typeWords (l ++ l') = typeWords l ++ typeWords l' := by
  rw [typeWords, List.filter_append, List.map_append]
  rfl

/-- What is read for a word, by the kind of its token. -/
inductive Frame.ReadsAs (f : Frame) (scope : Scope) (t : Token) : TypeHint → Prop where
  | self (h : t.kind = .selfWord) : f.ReadsAs scope t (.named f.className)
  | parent {parent : String} (h : t.kind = .parentWord) (hparent : f.parentName = some parent) :
    f.ReadsAs scope t (.named parent)
  | static (h : t.kind = .staticWord) : f.ReadsAs scope t .static
  | name (h : t.kind = .name) :
    f.ReadsAs scope t (f.typeOfName scope TypeHint.ofWord? t.lexeme)

theorem Frame.ReadsAs.leaves_eq {f : Frame} {scope : Scope} {t : Token} {hint : TypeHint}
    (h : f.ReadsAs scope t hint) : hint.leaves = [hint] := by
  cases h with
  | name => exact (typeOfName_leaf fun _ => TypeHint.isBuiltIn_of_ofWord?).1
  | _ => rfl

/-- **Types in the making.** From `start` on the tokens of the types have been read, and nothing
else. -/
structure TypesRead (f : Frame) (scope : Scope) (start : List Entry) (hints : List TypeHint)
    (s : State) : Prop where
  eof_kind : s.eof.kind = .endOfText
  scope_eq : s.scope = scope
  tokens : ∃ l, start = l ++ s.rest ∧
    (∀ e ∈ l, isTypeWord e.kind = true ∨ isTypeMark e.kind = true) ∧
    List.Forall₂ (f.ReadsAs scope) (typeWords l) (TypeHint.leavesAll hints)

/-- A routine that reads types; `made` are those that there are behind it. -/
abbrev ReadsTypes {α : Type} (f : Frame) (scope : Scope) (start : List Entry)
    (hints : List TypeHint) (made : α → List TypeHint) (r : Routine α) : Prop :=
  Meets (TypesRead f scope start hints) r (fun a => TypesRead f scope start (made a))
    (fun _ _ => True)

section TypesRead

variable {f : Frame} {scope : Scope} {start : List Entry} {hints : List TypeHint} {s : State}

/-- What is next is a token, not the end of the file. -/
theorem TypesRead.exists_rest (h : TypesRead f scope start hints s)
    (hk : s.peek.kind ≠ .endOfText) : ∃ e es, s.rest = e :: es ∧ s.peek = e.token := by
  cases hrest : s.rest with
  | nil => exact absurd (State.peek_of_rest_nil hrest ▸ h.eof_kind) hk
  | cons e es => exact ⟨e, es, rfl, State.peek_of_rest hrest⟩

/-- Types made from the same leaves have been read for the same tokens. -/
theorem TypesRead.congr {hints' : List TypeHint} (h : TypesRead f scope start hints s)
    (heq : TypeHint.leavesAll hints = TypeHint.leavesAll hints') :
    TypesRead f scope start hints' s :=
  ⟨h.eof_kind, h.scope_eq, heq ▸ h.tokens⟩

/-- One more token of a type, and what is read for it. -/
theorem TypesRead.advance {hints' : List TypeHint} (h : TypesRead f scope start hints s)
    (hk : isTypeWord s.peek.kind = true ∨ isTypeMark s.peek.kind = true)
    (hread : ∀ e : Entry, e.token = s.peek →
      List.Forall₂ (f.ReadsAs scope) (typeWords [e]) (TypeHint.leavesAll hints')) :
    TypesRead f scope start (hints ++ hints') s.advance := by
  have hend : s.peek.kind ≠ .endOfText := by
    intro heq
    rw [heq] at hk
    exact absurd hk (by decide)
  obtain ⟨e, es, hrest, hpeek⟩ := h.exists_rest hend
  obtain ⟨l, hstart, hl, hbefore⟩ := h.tokens
  rw [hpeek] at hk
  refine ⟨h.eof_kind, h.scope_eq, l ++ [e], ?_, ?_, ?_⟩
  · rw [hstart, hrest, State.rest_advance, hrest, List.tail_cons, List.append_assoc]
    rfl
  · simpa [or_imp, forall_and] using ⟨hl, hk⟩
  · rw [typeWords_append, TypeHint.leavesAll_append]
    exact List.rel_append hbefore (hread e hpeek.symm)

/-- A mark is read for nothing. -/
theorem TypesRead.mark (h : TypesRead f scope start hints s) (hk : isTypeMark s.peek.kind = true) :
    TypesRead f scope start hints s.advance := by
  refine (List.append_nil hints) ▸ h.advance (.inr hk) fun e he => ?_
  have hword : isTypeWord e.kind = false := by
    rw [← he] at hk
    change isTypeMark e.kind = true at hk
    cases hkind : e.kind <;> rw [hkind] at hk <;> first | rfl | exact absurd hk (by decide)
  have hnone : typeWords [e] = [] := by simp [typeWords, hword]
  rw [hnone]
  exact .nil

/-- A word is read for one type. -/
theorem TypesRead.word {hint : TypeHint} (h : TypesRead f scope start hints s)
    (hk : isTypeWord s.peek.kind = true) (hhint : f.ReadsAs scope s.peek hint) :
    TypesRead f scope start (hints ++ [hint]) s.advance := by
  refine h.advance (.inl hk) fun e he => ?_
  rw [← he] at hk hhint
  have hone : typeWords [e] = [e.token] := by
    change isTypeWord e.kind = true at hk
    simp [typeWords, hk]
  rw [hone, TypeHint.leavesAll_singleton, hhint.leaves_eq]
  exact .cons hhint .nil

/-! ### Routines that read declared types -/

namespace ReadsTypes

variable {α : Type}

theorem pure {a : α} : ReadsTypes f scope start hints (fun _ => hints) (Pure.pure a : Routine α) :=
  Meets.pure fun _ h => h

theorem eat {kind : Token.Kind} (hk : isTypeMark kind = true) :
    ReadsTypes f scope start hints (fun _ => hints) (eat kind) := by
  refine Meets.bind Meets.peekKind fun k => ?_
  refine Meets.ite ?_ fun _ => Meets.pure fun _ h => h.2
  rintro rfl
  have hmark : Meets (fun s => k = s.peek.kind ∧ TypesRead f scope start hints s) advance
      (fun _ => TypesRead f scope start hints) (fun _ _ => True) := by
    rintro s ⟨rfl, h⟩
    exact h.mark hk
  exact Meets.bind hmark fun _ => pure

theorem eats {kind : Token.Kind} (hk : isTypeMark kind = true) :
    ReadsTypes f scope start hints (fun _ => hints) (do return (← Reading.eat kind).isSome) :=
  Meets.bind (eat hk) fun _ => pure

theorem expect {kind : Token.Kind} (hk : isTypeMark kind = true) :
    ReadsTypes f scope start hints (fun _ => hints) (expect kind) := by
  refine Meets.bind (eat hk) fun o => ?_
  cases o with
  | none => exact (Meets.unexpected _).weaken (fun _ h => h) (fun _ _ h => h) fun _ _ _ => trivial
  | some t => exact pure

theorem typeJoin : ReadsTypes f scope start hints (fun _ => hints) typeJoin := by
  refine Meets.bind Meets.get fun s => ?_
  refine Meets.ite (fun hjoin => ?_) fun _ => Meets.pure fun _ h => h.2
  simp only [State.atTypeJoin, Bool.and_eq_true, beq_iff_eq] at hjoin
  have hmark : Meets (fun s' => s = s' ∧ TypesRead f scope start hints s')
      (discard advance) (fun _ => TypesRead f scope start hints) (fun _ _ => True) := by
    rintro _ ⟨rfl, h⟩
    exact h.mark (by rw [hjoin.1]; rfl)
  exact Meets.bind hmark fun _ => pure

/-- A word is consumed, and its type is made. -/
theorem discard_advance {t : Token} {hint : TypeHint} (hk : isTypeWord t.kind = true)
    (hhint : f.ReadsAs scope t hint) :
    Meets (fun s => t = s.peek ∧ TypesRead f scope start hints s) (discard advance)
      (fun _ => TypesRead f scope start (hints ++ [hint])) (fun _ _ => True) := by
  rintro s ⟨rfl, h⟩
  exact h.word hk hhint

/-- **Single types** are read for single words. -/
theorem singleType (hints : List TypeHint) :
    ReadsTypes f scope start hints (fun hint => hints ++ [hint]) (singleType f) := by
  refine Meets.bind Meets.peek fun t => ?_
  split
  case h_1 hk =>
    exact Meets.bind (discard_advance (by rw [hk]; rfl) (.self hk)) fun _ => Meets.pure fun _ h => h
  case h_2 hk =>
    cases hparent : f.parentName with
    -- without a parent nothing is read for its word
    | none => exact Meets.bind Meets.any fun _ => Meets.throw fun _ _ => trivial
    | some parent =>
      exact Meets.bind (discard_advance (by rw [hk]; rfl) (.parent hk hparent)) fun _ =>
        Meets.pure fun _ h => h
  case h_3 hk =>
    exact Meets.bind (discard_advance (by rw [hk]; rfl) (.static hk)) fun _ =>
      Meets.pure fun _ h => h
  case h_4 hk =>
    refine Meets.bind (discard_advance (by rw [hk]; rfl) (.name hk)) fun _ => ?_
    refine Meets.bind Meets.get fun s => Meets.pure ?_
    rintro _ ⟨rfl, h⟩
    rw [h.scope_eq]
    exact h
  case h_5 => exact Meets.throw fun _ _ => trivial

/-- The items of a list are read one behind the other. -/
theorem listOf {item : Routine TypeHint} {more : Routine Bool} (hints : List TypeHint)
    (hitem : ∀ hints, ReadsTypes f scope start hints (fun hint => hints ++ [hint]) item)
    (hmore : ∀ hints, ReadsTypes f scope start hints (fun _ => hints) more) :
    ReadsTypes f scope start hints (fun items => hints ++ items) (listOf item more) := by
  refine (Meets.iterate_same (I := fun items => TypesRead f scope start (hints ++ items))
    (fun items => ?_) []).of_pre fun _ h => (List.append_nil hints).symm ▸ h
  refine Meets.bind (hitem _) fun hint => ?_
  dsimp only
  rw [List.append_assoc]
  exact Meets.bind (hmore _) fun b => by cases b <;> exact Meets.pure fun _ h => h

theorem unionMember (hints : List TypeHint) :
    ReadsTypes f scope start hints (fun hint => hints ++ [hint]) (unionMember f) := by
  -- the members of an intersection are its leaves
  have hmembers : ∀ members, TypeHint.leavesAll (hints ++ members)
      = TypeHint.leavesAll (hints ++ [.intersection members]) := fun members => by
    rw [TypeHint.leavesAll_append, TypeHint.leavesAll_append, TypeHint.leavesAll_singleton]
    rfl
  refine Meets.bind (eat rfl) fun _ => ?_
  refine Meets.ite (fun _ => ?_) fun _ => ?_
  · refine Meets.bind (listOf hints singleType fun _ => eats rfl) fun members => ?_
    exact Meets.bind (Meets.discard (expect rfl)) fun _ =>
      Meets.pure fun _ h => h.congr (hmembers members)
  · refine Meets.bind (listOf hints singleType fun _ => typeJoin) fun members => ?_
    split
    · exact Meets.pure fun _ h => h
    · exact Meets.pure fun _ h => h.congr (hmembers _)

/-- **Declared types** are read for words one by one. -/
theorem typeHint : ReadsTypes f scope start [] (fun hint => [hint]) (typeHint f) := by
  refine Meets.bind (eat rfl) fun _ => ?_
  refine Meets.ite (fun _ => ?_) fun _ => ?_
  · -- a question mark makes no leaf
    refine Meets.bind (singleType []) fun hint => Meets.pure fun _ h => h.congr ?_
    exact (TypeHint.leavesAll_singleton hint).trans
      (TypeHint.leavesAll_singleton hint.nullable).symm
  · refine Meets.bind (listOf [] unionMember fun _ => eats rfl) fun members => ?_
    split
    · exact Meets.pure fun _ h => h
    · refine Meets.pure fun _ h => h.congr ?_
      exact (TypeHint.leavesAll_singleton (.union _)).symm

end ReadsTypes

end TypesRead

/-! ### Documented types -/

/-- The word of a single documented type. Generic arguments are no part of it. -/
def docWord (piece : String) : String :=
  let text := Text.trim piece
  if "[]".toList.isSuffixOf text.toList then text
  else String.ofList (text.toList.takeWhile (· ≠ '<'))

/-- **The words of a documented type:** what stands behind a question mark, or else between bars. -/
def docWords (text : String) : List String :=
  match (Text.trim text).toList with
  | '?' :: inner => [docWord (String.ofList inner)]
  | _ => (Text.split '|' (Text.trim text)).map docWord

theorem forall₂_of_mapM {α β : Type} {g : α → Option β} {l : List α} {bs : List β}
    (h : l.mapM g = some bs) : List.Forall₂ (fun a b => g a = some b) l bs := by
  induction l generalizing bs with
  | nil =>
    cases Option.some.inj h
    exact .nil
  | cons a l ih =>
    rw [List.mapM_cons] at h
    obtain ⟨b, hb, h⟩ := Option.bind_eq_some_iff.mp h
    obtain ⟨bs', hbs', h⟩ := Option.bind_eq_some_iff.mp h
    cases Option.some.inj h
    exact .cons hb (ih hbs')

namespace Frame

variable {f : Frame} {scope : Scope} {text : String} {hint : TypeHint}

/-- A list is not written with a relative word. -/
theorem not_isRelative_of_isSuffixOf (h : "[]".toList.isSuffixOf text.toList = true) :
    ¬ Name.IsRelative text := by
  have hall : ∀ word ∈ ["self", "parent"], '[' ∉ word.toList := by decide
  intro hrelative
  refine hall _ hrelative ?_
  rw [Text.toList_foldCase]
  refine List.mem_map.mpr ⟨'[', ?_, by decide⟩
  exact (List.isSuffixOf_iff_suffix.mp h).subset (by decide)

/-- A single documented type stands for its word. -/
theorem docSingleType?_denotes (h : f.docSingleType? scope text = some hint) :
    hint.leaves = [hint] ∧ f.Denotes scope (docWord text) hint := by
  unfold docSingleType? at h
  dsimp only at h
  by_cases hlist : "[]".toList.isSuffixOf (Text.trim text).toList = true
  · rw [if_pos hlist] at h
    cases h
    rw [docWord, if_pos hlist]
    exact ⟨rfl, denotes_builtIn ⟨rfl, by simp⟩ (not_isRelative_of_isSuffixOf hlist)⟩
  rw [if_neg hlist] at h
  rw [docWord, if_neg hlist]
  generalize (Text.trim text).toList.takeWhile (· ≠ '<') = base at h ⊢
  split at h
  · cases h
  -- the words that have a meaning of their own, one by one
  have hbuiltIn {hint' : TypeHint} {word : String} (hb : hint'.IsBuiltIn)
      (hword : Text.foldCase (String.ofList base) = word) (hne : word ∉ ["self", "parent"]) :
      hint'.leaves = [hint'] ∧ f.Denotes scope (String.ofList base) hint' :=
    ⟨hb.leaves_eq, denotes_builtIn hb (by rw [Name.IsRelative, hword]; exact hne)⟩
  split at h
  case h_1 hword => cases h; exact hbuiltIn ⟨rfl, by simp⟩ hword (by decide)
  case h_2 hword => cases h; exact hbuiltIn ⟨rfl, by simp⟩ hword (by decide)
  case h_3 hword =>
    cases h
    exact ⟨rfl, denotes_self hword⟩
  case h_4 hword =>
    obtain ⟨parent, hparent, rfl⟩ := Option.map_eq_some_iff.mp h
    exact ⟨rfl, denotes_parent hparent hword⟩
  case h_5 hword => cases h; exact hbuiltIn ⟨rfl, by simp⟩ hword (by decide)
  case h_6 hword => cases h; exact hbuiltIn ⟨rfl, by simp⟩ hword (by decide)
  case h_7 hword => cases h; exact hbuiltIn ⟨rfl, by simp⟩ hword (by decide)
  case h_8 hself hparent _ _ _ =>
    split_ifs at h
    cases h
    have hrelative : ¬ Name.IsRelative (String.ofList base) := by
      rw [Name.IsRelative, List.mem_pair]
      exact not_or.mpr ⟨hself, hparent⟩
    exact (typeOfName_leaf fun _ => TypeHint.isBuiltIn_of_ofDocWord?).imp_right (· hrelative)

/-- **Documented types** stand for their words one by one. -/
theorem docType?_denotes (h : f.docType? scope text = some hint) :
    List.Forall₂ (f.Denotes scope) (docWords text) hint.leaves := by
  unfold docType? at h
  dsimp only at h
  split at h
  · next inner hinner =>
    -- behind the question mark there is one word
    obtain ⟨t, ht, rfl⟩ := Option.map_eq_some_iff.mp h
    obtain ⟨hleaves, hdenotes⟩ := docSingleType?_denotes ht
    rw [docWords, hinner, TypeHint.leaves, hleaves]
    exact .cons hdenotes .nil
  · next hplain =>
    have hwords : docWords text = (Text.split '|' (Text.trim text)).map docWord := by
      unfold docWords
      split
      · next inner hinner => exact absurd hinner (hplain inner)
      · rfl
    rw [hwords, List.forall₂_map_left_iff]
    -- the pieces are the leaves of the union
    have hpieces {pieces : List String} {hints : List TypeHint}
        (hmap : pieces.mapM (f.docSingleType? scope) = some hints) :
        List.Forall₂ (fun piece => f.Denotes scope (docWord piece)) pieces
          (TypeHint.leavesAll hints) := by
      have hall := forall₂_of_mapM hmap
      clear hmap
      induction hall with
      | nil => exact .nil
      | cons hone _ ih =>
        obtain ⟨hleaves, hdenotes⟩ := docSingleType?_denotes hone
        rw [TypeHint.leavesAll, hleaves]
        exact .cons hdenotes ih
    split at h
    · cases h
    · cases h
    · next hmap =>
      cases h
      simpa [TypeHint.leavesAll] using hpieces hmap
    · next hmap =>
      cases h
      exact hpieces hmap

end Frame

/-! ### Tokens and their words -/

section WrittenAt

variable {text : String} {es front l behind : List Entry} {e : Entry}

/-- In front of a type there is a token that does not lead to the name of a member. -/
def Unled (front : List Entry) : Prop := ∃ e ∈ front.getLast?, e.kind.leadsToMember = false

/-- **Where a declared type is written.** Its tokens `l` stand next to each other between `front`,
which does not lead to the name of a member, and `behind`. -/
structure WrittenAt (es front l behind : List Entry) : Prop where
  split : es = front ++ l ++ behind
  unled : Unled front
  kinds : ∀ e ∈ l, isTypeWord e.kind = true ∨ isTypeMark e.kind = true

theorem Unled.append (h : Unled front) (l : List Entry) : Unled (l ++ front) := by
  obtain ⟨e, he, hk⟩ := h
  refine ⟨e, ?_, hk⟩
  rw [List.getLast?_append, Option.mem_def.mp he]
  rfl

/-- What is written in the last tokens is written in all of them. -/
theorem WrittenAt.of_suffix {es' : List Entry} (h : WrittenAt es front l behind)
    (hes : es <:+ es') : ∃ front', WrittenAt es' front' l behind := by
  obtain ⟨before, rfl⟩ := hes
  exact ⟨before ++ front, by rw [h.split]; simp only [List.append_assoc], h.unled.append before,
    h.kinds⟩

/-- A word of a file is classified by its text and the ordinary tokens before it. -/
theorem exists_classified (h : (FileState.start text).rest = front ++ e :: behind)
    (hword : e.kind.isWord = true) :
    Token.beginsName e.token.lexeme.toList = true ∧ ∃ past, Token.Classified past e.token ∧
      (MemberNameBehind past → MemberNameBehind (front.map (·.token))) := by
  have htokens := congrArg (List.map (·.token)) h
  rw [List.map_append, List.map_cons] at htokens
  obtain ⟨past, s, s', hrecalls, hemit, hmode, hpast⟩ :=
    Scanner.exists_emits_ordinary ((map_token_entries (.ofFile text) none).symm.trans htokens)
  have hbegins := Scanner.beginsName_of_emits hemit hmode hword
  refine ⟨hbegins, past, hrecalls.classified hemit hmode hbegins, fun hmember => ?_⟩
  rw [← hpast]
  exact hmember.ordinary

/-- Inside of a type nothing is the name of a member, nor at its end. -/
theorem not_memberNameBehind (hfront : Unled front)
    (hl : ∀ e ∈ l, isTypeWord e.kind = true ∨ isTypeMark e.kind = true)
    (hordinary : ∀ t ∈ (front ++ l).map (·.token), t.kind.isOrdinary = true) :
    ¬ MemberNameBehind ((front ++ l).map (·.token)) := by
  -- a token of the type is neither an arrow nor the word `function`
  have hplain : ∀ e ∈ l,
      e.kind ∉ [Token.Kind.arrow, .nullsafeArrow, .colonColon, .functionWord] := by
    intro e he
    have hk := hl e he
    cases hkind : e.kind <;> rw [hkind] at hk <;> first | decide | exact absurd hk (by decide)
  -- nor does the token in front of it lead to one
  have hled : ∀ e ∈ front.getLast?,
      e.kind ∉ [Token.Kind.arrow, .nullsafeArrow, .colonColon, .functionWord, .amp] := by
    intro e he
    obtain ⟨e', he', hk⟩ := hfront
    obtain rfl := Option.mem_unique he he'
    cases hkind : e.kind <;> rw [hkind] at hk <;> first | decide | exact absurd hk (by decide)
  rw [MemberNameBehind, Token.remembered_of_isOrdinary hordinary]
  rintro ⟨p, hp, hkind⟩
  rcases l.eq_nil_or_concat with rfl | ⟨l, last, rfl⟩
  · -- the token in front of the type
    rw [List.append_nil, List.getLast?_map] at hp
    obtain ⟨e, he, rfl⟩ := Option.map_eq_some_iff.mp hp
    have hne := hled e he
    simp only [Entry.kind, List.mem_cons, List.not_mem_nil, or_false] at hne hkind
    tauto
  · rw [List.concat_eq_append, ← List.append_assoc, List.map_append] at hp hkind
    rw [List.map_singleton, List.getLast?_concat] at hp
    cases Option.some.inj hp
    rw [List.map_singleton, List.dropLast_concat, List.getLast?_map] at hkind
    rcases hkind with hkind | ⟨-, q, hq, hfunction⟩
    · exact hplain last (by simp) hkind
    -- an ampersand of the type is not behind the word `function` either
    · obtain ⟨e, he, rfl⟩ := Option.map_eq_some_iff.mp hq
      rw [List.getLast?_append] at he
      rcases Option.or_eq_some_iff.mp he with he | ⟨-, he⟩
      · refine hplain e ?_ (by simp [Entry.kind, hfunction])
        simpa using .inl (List.mem_of_getLast? he)
      · exact hled e he (by simp [Entry.kind, hfunction])

theorem isOrdinary_of_mem (h : e ∈ (FileState.start text).rest) : e.kind.isOrdinary = true := by
  have hmem : e.token ∈ (Scanner.ofFile text).tokens.filter (·.kind.isOrdinary) := by
    rw [← map_token_entries (.ofFile text) none]
    exact List.mem_map_of_mem h
  exact (List.mem_filter.mp hmem).2

/-- **No relative word is a name** where a type may be written. -/
theorem not_isRelative_of_unled (h : (FileState.start text).rest = front ++ l ++ e :: behind)
    (hfront : Unled front) (hl : ∀ e ∈ l, isTypeWord e.kind = true ∨ isTypeMark e.kind = true)
    (hk : e.kind = .name) : ¬ Name.IsRelative e.token.lexeme := by
  obtain ⟨-, past, hclassified, hpast⟩ := exists_classified h (by rw [hk]; rfl)
  -- all tokens that were kept count as tokens before others
  have hordinary : ∀ t ∈ (front ++ l).map (·.token), t.kind.isOrdinary = true := by
    intro t ht
    obtain ⟨e, he, rfl⟩ := List.mem_map.mp ht
    exact isOrdinary_of_mem (h ▸ List.mem_append_left _ he)
  intro hrelative
  rw [Name.IsRelative, List.mem_pair] at hrelative
  refine hclassified.relative (fun hmember => ?_) ?_ hk
  · exact not_memberNameBehind hfront hl hordinary (hpast hmember)
  · rcases hrelative with hself | hparent
    · simp [hself]
    · simp [hparent]

/-- How the words of a declared type are spelled: its names are not relative, and its other words
are reserved. -/
theorem WrittenAt.spelled (h : WrittenAt (FileState.start text).rest front l behind) {t : Token}
    (ht : t ∈ typeWords l) : (t.kind = .name → ¬ Name.IsRelative t.lexeme) ∧
      (t.kind ≠ .name → (Text.foldCase t.lexeme, t.kind) ∈ Token.Kind.reservedWords) := by
  obtain ⟨e, he, rfl⟩ := List.mem_map.mp ht
  obtain ⟨hel, hword⟩ := List.mem_filter.mp he
  obtain ⟨l₁, l₂, rfl⟩ := List.append_of_mem hel
  have hsplit : (FileState.start text).rest = front ++ l₁ ++ e :: (l₂ ++ behind) := by
    rw [h.split]
    simp
  have hisWord : e.kind.isWord = true := by
    cases hk : e.kind <;> rw [hk] at hword <;> first | rfl | exact absurd hword (by decide)
  obtain ⟨-, past, hclassified, -⟩ := exists_classified hsplit hisWord
  exact ⟨not_isRelative_of_unled hsplit h.unled fun e he => h.kinds e (List.mem_append_left _ he),
    hclassified.mem_reservedWords⟩

/-- **The words of a declared type** are what the kinds of its tokens say. -/
theorem WrittenAt.denotes {f : Frame} {scope : Scope} {hints : List TypeHint}
    (h : WrittenAt (FileState.start text).rest front l behind)
    (hread : List.Forall₂ (f.ReadsAs scope) (typeWords l) hints) :
    List.Forall₂ (f.Denotes scope) ((typeWords l).map (·.lexeme)) hints := by
  rw [List.forall₂_map_left_iff]
  refine ((List.forall₂_and_left _ _).mpr ⟨fun t ht => h.spelled ht, hread⟩).imp ?_
  rintro t hint ⟨⟨hname, hreserved⟩, hread⟩
  -- the words of the kinds, each of which is in the table once
  have hself : ∀ p ∈ Token.Kind.reservedWords, p.2 = .selfWord → p.1 = "self" := by decide
  have hparent : ∀ p ∈ Token.Kind.reservedWords, p.2 = .parentWord → p.1 = "parent" := by decide
  have hstatic : ∀ p ∈ Token.Kind.reservedWords, p.2 = .staticWord → p.1 = "static" := by decide
  cases hread with
  | self hk => exact Frame.denotes_self (hself _ (hreserved (by simp [hk])) hk)
  | parent hk heq => exact Frame.denotes_parent heq (hparent _ (hreserved (by simp [hk])) hk)
  | static hk =>
    have hword : Text.foldCase t.lexeme = "static" := hstatic _ (hreserved (by simp [hk])) hk
    -- `static` stands for no class
    exact Frame.denotes_builtIn ⟨rfl, by simp⟩ (by rw [Name.IsRelative, hword]; decide)
  | name hk =>
    exact (Frame.typeOfName_leaf fun _ => TypeHint.isBuiltIn_of_ofWord?).2 (hname hk)

end WrittenAt

end Reading

end Introspect
