import Introspect.Proofs.Reading.Classes

/-!
# Nested brackets and the ends of classes

Where the brackets of a file are properly nested and no attribute is opened, every class ends at the
brace that closes it, whatever its members are. The four ways in which the reader passes over tokens
count brackets differently: a block counts braces, a value counts all brackets alike, a statement
counts all but braces, and a member that cannot be read counts none. Properly nested, they never
leave the body of a class.

* `nests owed es`: the brackets in `es` are properly nested, those of `owed` being still open in
  front of it; `Nested es` is the case where none is;
* `Inside closing behind es`: the tokens `es` lie in the body of the class that `closing` closes, in
  front of it, and in no block of the body. A walk stays inside (`Walk.inside`);
* `class_ends_at_match` is what follows for the classes of a file.
-/

namespace Introspect

namespace Token.Kind

/-- The closing bracket that an opening one asks for. -/
def closer? : Kind → Option Kind
  | leftParen => some rightParen
  | leftBracket => some rightBracket
  | leftBrace => some rightBrace
  | _ => none

/-- Whether the kind is that of a closing bracket. -/
def isCloser : Kind → Bool
  | rightParen | rightBracket | rightBrace => true
  | _ => false

theorem closer?_eq_some {k c : Kind} (h : k.closer? = some c) :
    k = leftParen ∧ c = rightParen ∨ k = leftBracket ∧ c = rightBracket ∨
      k = leftBrace ∧ c = rightBrace := by
  cases k <;> simp_all [closer?]

theorem isCloser_iff {k : Kind} :
    k.isCloser = true ↔ k = rightParen ∨ k = rightBracket ∨ k = rightBrace := by
  cases k <;> simp [isCloser]

end Token.Kind

namespace Reading

/-! ### Nesting -/

/-- **Nesting.** Where the closing brackets of `owed` are still to come, the innermost first, every
closing bracket among the tokens is the one that is next, and none is missing in the end. -/
def nests : List Token.Kind → List Entry → Bool
  | owed, [] => owed.isEmpty
  | owed, e :: es =>
    match e.kind.closer? with
    | some c => nests (c :: owed) es
    | none =>
      if e.kind.isCloser then
        match owed with
        | [] => false
        | c :: owed => c == e.kind && nests owed es
      else nests owed es

/-- The brackets among the tokens are properly nested. -/
def Nested (es : List Entry) : Prop := nests [] es = true

instance (es : List Entry) : Decidable (Nested es) :=
  inferInstanceAs (Decidable (nests [] es = true))

section Nests

variable {owed : List Token.Kind} {e : Entry} {es : List Entry} {c : Token.Kind}

theorem nests_opener (h : e.kind.closer? = some c) :
    nests owed (e :: es) = nests (c :: owed) es := by
  simp only [nests, h]

theorem nests_closer (h : e.kind.isCloser = true) :
    nests (e.kind :: owed) (e :: es) = nests owed es := by
  have hnone : e.kind.closer? = none := by
    rcases Token.Kind.isCloser_iff.mp h with hk | hk | hk <;> rw [hk] <;> rfl
  simp [nests, hnone, h]

theorem nests_other (hopen : e.kind.closer? = none) (hclose : e.kind.isCloser = false) :
    nests owed (e :: es) = nests owed es := by
  simp [nests, hopen, hclose]

/-- What a token can be where brackets are nested: one that opens a bracket, the one that closes the
innermost, or no bracket. -/
theorem nests_cons_cases (h : nests owed (e :: es) = true) :
    (∃ c, e.kind.closer? = some c ∧ nests (c :: owed) es = true) ∨
      (∃ owed', e.kind.isCloser = true ∧ owed = e.kind :: owed' ∧ nests owed' es = true) ∨
      (e.kind.closer? = none ∧ e.kind.isCloser = false ∧ nests owed es = true) := by
  cases hopen : e.kind.closer? with
  | some c => exact .inl ⟨c, rfl, nests_opener hopen ▸ h⟩
  | none =>
    cases hclose : e.kind.isCloser with
    | false => exact .inr (.inr ⟨rfl, rfl, nests_other hopen hclose ▸ h⟩)
    | true =>
      cases owed with
      | nil => simp [nests, hopen, hclose] at h
      | cons c owed' =>
        simp only [nests, hopen, hclose, if_true, Bool.and_eq_true, beq_iff_eq] at h
        exact .inr (.inl ⟨owed', rfl, by rw [h.1], h.2⟩)

/-- Behind a first part of nested tokens, the rest is nested in what is open there. -/
theorem exists_nests_of_append {before : List Entry} (h : nests owed (before ++ es) = true) :
    ∃ owed', nests owed' es = true := by
  induction before generalizing owed with
  | nil => exact ⟨owed, h⟩
  | cons e before ih =>
    rcases nests_cons_cases h with ⟨c, -, h⟩ | ⟨owed', -, -, h⟩ | ⟨-, -, h⟩ <;> exact ih h

/-- **The match of a bracket.** Where a closing bracket is still to come it comes, and what stands
in front of it is nested by itself. -/
theorem exists_closing (own : List Token.Kind) (h : nests (own ++ c :: owed) es = true) :
    ∃ inner closing behind, es = inner ++ closing :: behind ∧ nests own inner = true ∧
      closing.kind = c ∧ nests owed behind = true := by
  induction es generalizing own with
  | nil => cases own <;> simp [nests] at h
  | cons e es ih =>
    rcases nests_cons_cases h with ⟨c', hopen, h⟩ | ⟨owed', hclose, hown, h⟩ | ⟨hopen, hclose, h⟩
    · obtain ⟨inner, closing, behind, rfl, hinner, hc, hbehind⟩ := ih (c' :: own) h
      exact ⟨e :: inner, closing, behind, rfl, (nests_opener hopen).trans hinner, hc, hbehind⟩
    · cases own with
      | nil =>
        -- `e` is the bracket that was looked for
        obtain ⟨rfl, rfl⟩ := List.cons.inj hown
        exact ⟨[], e, es, rfl, rfl, rfl, h⟩
      | cons c' own =>
        obtain ⟨rfl, rfl⟩ := List.cons.inj hown
        obtain ⟨inner, closing, behind, rfl, hinner, hc, hbehind⟩ := ih own h
        exact ⟨e :: inner, closing, behind, rfl, (nests_closer hclose).trans hinner, hc, hbehind⟩
    · obtain ⟨inner, closing, behind, rfl, hinner, hc, hbehind⟩ := ih own h
      exact ⟨e :: inner, closing, behind, rfl, (nests_other hopen hclose).trans hinner, hc, hbehind⟩

end Nests

/-! ### The ways to pass over tokens -/

section Pass

variable {e : Entry} {es : List Entry}

theorem closeBlock_leftBrace (h : e.kind = .leftBrace) (depth : Nat) :
    closeBlock depth (e :: es) = closeBlock (depth + 1) es := by
  simp only [closeBlock, h]

theorem closeBlock_rightBrace (h : e.kind = .rightBrace) (depth : Nat) :
    closeBlock (depth + 1) (e :: es) = closeBlock depth es := by
  simp only [closeBlock, h]

theorem closeBlock_other (h : e.kind.isBrace = false) (depth : Nat) :
    closeBlock depth (e :: es) = closeBlock depth es := by
  conv_lhs => unfold closeBlock
  split
  · next hk => simp [hk, Token.Kind.isBrace] at h
  · next hk => simp [hk, Token.Kind.isBrace] at h
  · rfl

/-- The braces inside nested tokens close each other; only those that are owed count. -/
theorem closeBlock_of_nests {own : List Token.Kind} (h : nests own es = true) (depth : Nat)
    (behind : List Entry) :
    closeBlock (depth + own.count .rightBrace) (es ++ behind) = closeBlock depth behind := by
  induction es generalizing own with
  | nil =>
    have hown : own = [] := List.isEmpty_iff.mp h
    simp [hown]
  | cons e es ih =>
    rw [List.cons_append]
    rcases nests_cons_cases h with ⟨c, hopen, h⟩ | ⟨own', hclose, rfl, h'⟩ | ⟨hopen, hclose, h⟩
    · have := ih h
      rcases Token.Kind.closer?_eq_some hopen with ⟨hk, rfl⟩ | ⟨hk, rfl⟩ | ⟨hk, rfl⟩
      · rw [closeBlock_other (by rw [hk]; rfl), ← this, List.count_cons_of_ne (by decide)]
      · rw [closeBlock_other (by rw [hk]; rfl), ← this, List.count_cons_of_ne (by decide)]
      · rw [closeBlock_leftBrace hk, ← this, List.count_cons_self, Nat.add_assoc]
    · -- of the closers only braces count for the search
      rcases Token.Kind.isCloser_iff.mp hclose with hk | hk | hk
      · rw [closeBlock_other (by rw [hk]; rfl), hk, List.count_cons_of_ne (by decide), ih h']
      · rw [closeBlock_other (by rw [hk]; rfl), hk, List.count_cons_of_ne (by decide), ih h']
      · rw [hk, List.count_cons_self, ← Nat.add_assoc, closeBlock_rightBrace hk, ih h']
    · have hother : e.kind.isBrace = false := by
        cases hk : e.kind <;> simp_all [Token.Kind.isBrace, Token.Kind.closer?, Token.Kind.isCloser]
      rw [closeBlock_other hother, ih h]

/-- A block whose closing brace is still to come is closed by it. -/
theorem closeBlock_eq_of_nests {owed : List Token.Kind}
    (h : nests (.rightBrace :: owed) es = true) (tail : List Entry) :
    ∃ closing behind, closeBlock 0 (es ++ tail) = some (closing, behind ++ tail) ∧
      nests owed behind = true := by
  obtain ⟨block, closing, behind, rfl, hblock, hk, hbehind⟩ := exists_closing [] h
  refine ⟨closing.token, behind, ?_, hbehind⟩
  have hskip := closeBlock_of_nests hblock 0 (closing :: behind ++ tail)
  rw [List.count_nil, Nat.add_zero] at hskip
  rw [List.append_assoc, hskip]
  simp only [closeBlock, List.cons_append, hk]

theorem bracketsAfter_opener {k c : Token.Kind} (h : k.closer? = some c) (n : Nat) :
    bracketsAfter k n = some (n + 1) := by
  rcases Token.Kind.closer?_eq_some h with ⟨rfl, -⟩ | ⟨rfl, -⟩ | ⟨rfl, -⟩ <;> rfl

theorem bracketsAfter_closer {k : Token.Kind} (h : k.isCloser = true) (n : Nat) :
    bracketsAfter k n = if n = 0 then none else some (n - 1) := by
  rcases Token.Kind.isCloser_iff.mp h with rfl | rfl | rfl <;> rfl

theorem bracketsAfter_other {k : Token.Kind} (hopen : k.closer? = none)
    (hclose : k.isCloser = false) (n : Nat) : bracketsAfter k n = some n := by
  cases k <;> simp_all [bracketsAfter, Token.Kind.closer?, Token.Kind.isCloser]

/-- A value ends where what is owed is the same as in front of it. The brackets of `own` are those
that the value itself has opened. -/
theorem splitInitializer_of_nests (own : List Token.Kind) {owed : List Token.Kind} {closing : Entry}
    (hclosing : closing.kind = .rightBrace) (h : nests (own ++ owed) es = true)
    (stops : List Token.Kind) (behind : List Entry) :
    ∃ rest, (splitInitializer stops own.length (es ++ closing :: behind)).2
        = rest ++ closing :: behind ∧ nests owed rest = true := by
  induction es generalizing own with
  | nil =>
    -- nothing is owed, so the value ends at the closing brace at the latest
    obtain ⟨rfl, rfl⟩ : own = [] ∧ owed = [] := by simpa [nests] using h
    refine ⟨[], ?_, rfl⟩
    rw [List.nil_append, splitInitializer]
    split_ifs
    · rfl
    · rw [hclosing]
      rfl
  | cons e es ih =>
    rw [List.cons_append, splitInitializer]
    split_ifs with hstop
    · obtain rfl : own = [] := List.length_eq_zero_iff.mp hstop.1
      exact ⟨e :: es, rfl, h⟩
    · rcases nests_cons_cases h with ⟨c, hopen, h⟩ | ⟨owed', hclose, hown, h'⟩ | ⟨hopen, hclose, h⟩
      · rw [bracketsAfter_opener hopen]
        exact ih (c :: own) h
      · rw [bracketsAfter_closer hclose]
        cases own with
        | nil => exact ⟨e :: es, rfl, h⟩
        | cons c own =>
          obtain ⟨-, rfl⟩ := List.cons.inj hown
          exact ih own h'
      · rw [bracketsAfter_other hopen hclose]
        exact ih own h

end Pass

/-! ### Inside the body of a class -/

/-- **Inside a class.** The tokens `es` lie in the body of a class, in front of its closing brace
and in no block of the body; parentheses and brackets may be open. -/
def Inside (closing : Entry) (behind es : List Entry) : Prop :=
  ∃ owed inner, es = inner ++ closing :: behind ∧ .rightBrace ∉ owed ∧ nests owed inner = true

section Inside

variable {closing e : Entry} {behind es es' : List Entry}

/-- A token inside a class that is no closing brace is followed by what is owed behind it. -/
theorem Inside.uncons (hclosing : closing.kind = .rightBrace) (hk : e.kind ≠ .rightBrace)
    (h : Inside closing behind (e :: es)) :
    ∃ owed inner, es = inner ++ closing :: behind ∧ .rightBrace ∉ owed ∧
      nests owed (e :: inner) = true := by
  obtain ⟨owed, inner, heq, howed, hinner⟩ := h
  cases inner with
  | nil =>
    obtain ⟨rfl, -⟩ := List.cons.inj heq
    exact absurd hclosing hk
  | cons e' inner =>
    obtain ⟨rfl, rfl⟩ := List.cons.inj heq
    exact ⟨owed, inner, rfl, howed, hinner⟩

theorem Inside.token (hclosing : closing.kind = .rightBrace) (hk : e.kind.isBrace = false)
    (h : Inside closing behind (e :: es)) : Inside closing behind es := by
  obtain ⟨owed, inner, rfl, howed, hinner⟩ :=
    h.uncons hclosing (by intro hk'; simp [hk', Token.Kind.isBrace] at hk)
  rcases nests_cons_cases hinner with ⟨c, hopen, h⟩ | ⟨owed', -, rfl, h⟩ | ⟨-, -, h⟩
  · refine ⟨c :: owed, inner, rfl, ?_, h⟩
    -- only a brace asks for a brace
    rcases Token.Kind.closer?_eq_some hopen with ⟨-, rfl⟩ | ⟨-, rfl⟩ | ⟨hk', -⟩
    · simpa using howed
    · simpa using howed
    · simp [hk', Token.Kind.isBrace] at hk
  · exact ⟨owed', inner, rfl, fun hmem => howed (List.mem_cons_of_mem _ hmem), h⟩
  · exact ⟨owed, inner, rfl, howed, h⟩

/-- A block inside a class is closed inside the class. -/
theorem Inside.block (hclosing : closing.kind = .rightBrace) (hk : e.kind = .leftBrace)
    (h : Inside closing behind (e :: es)) :
    ∃ last rest, closeBlock 0 es = some (last, rest) ∧ Inside closing behind rest := by
  obtain ⟨owed, inner, rfl, howed, hinner⟩ := h.uncons hclosing (by simp [hk])
  rw [nests_opener (c := .rightBrace) (by rw [hk]; rfl)] at hinner
  obtain ⟨last, rest, hclose, hrest⟩ := closeBlock_eq_of_nests hinner (closing :: behind)
  exact ⟨last, _, hclose, owed, rest, rfl, howed, hrest⟩

/-- A value inside a class ends inside the class. -/
theorem Inside.value (hclosing : closing.kind = .rightBrace) (h : Inside closing behind es)
    (stops : List Token.Kind) : Inside closing behind (splitInitializer stops 0 es).2 := by
  obtain ⟨owed, inner, rfl, howed, hinner⟩ := h
  obtain ⟨rest, heq, hrest⟩ :=
    splitInitializer_of_nests [] hclosing hinner stops behind
  exact ⟨owed, rest, heq, howed, hrest⟩

end Inside

/-! ### The rest of a statement -/

section Statement

variable {closing e : Entry} {behind es : List Entry} {own owed : List Token.Kind} {c : Token.Kind}

/-- The parentheses and brackets among the closing brackets that are owed. -/
def roundCount (owed : List Token.Kind) : Nat := owed.countP (· ≠ .rightBrace)

/-- The outermost of the brackets that are open is no brace. -/
def Grounded (owed : List Token.Kind) : Prop := ∀ c ∈ owed.getLast?, c ≠ .rightBrace

theorem roundCount_cons (hc : c ≠ .rightBrace) : roundCount (c :: own) = roundCount own + 1 :=
  List.countP_cons_of_pos (by simpa using hc)

theorem roundCount_cons_brace : roundCount (.rightBrace :: own) = roundCount own :=
  List.countP_cons_of_neg (by simp)

theorem Grounded.nil : Grounded [] := by simp [Grounded]

theorem Grounded.cons (h : Grounded own) (hc : own = [] → c ≠ .rightBrace) :
    Grounded (c :: own) := by
  cases own with
  | nil => simpa [Grounded] using hc rfl
  | cons c' own => rwa [Grounded, List.getLast?_cons_cons]

theorem Grounded.tail (h : Grounded (c :: own)) : Grounded own := by
  cases own with
  | nil => simp [Grounded]
  | cons c' own => rwa [Grounded, List.getLast?_cons_cons] at h

/-- Where the outermost bracket is no brace, it counts. -/
theorem Grounded.roundCount_eq_zero_iff (h : Grounded own) : roundCount own = 0 ↔ own = [] := by
  constructor
  · intro hzero
    by_contra hne
    refine h _ (List.getLast?_eq_some_getLast hne) ?_
    simpa using List.countP_eq_zero.mp hzero _ (List.getLast_mem hne)
  · rintro rfl
    rfl

theorem statementEnd_stop (h : e.kind = .semicolon ∨ e.kind.isBrace = true) (n : Nat) :
    statementEnd n (e :: es) = if n = 0 then e :: es else statementEnd n es := by
  cases hk : e.kind <;> simp_all [statementEnd, Token.Kind.isBrace]

theorem statementEnd_open (h : e.kind.closer? = some c) (hc : c ≠ .rightBrace) (n : Nat) :
    statementEnd n (e :: es) = statementEnd (n + 1) es := by
  rcases Token.Kind.closer?_eq_some h with ⟨hk, -⟩ | ⟨hk, -⟩ | ⟨-, rfl⟩
  · simp only [statementEnd, hk]
  · simp only [statementEnd, hk]
  · exact absurd rfl hc

theorem statementEnd_close (h : e.kind.isCloser = true) (hk : e.kind ≠ .rightBrace) (n : Nat) :
    statementEnd n (e :: es) = statementEnd (n - 1) es := by
  rcases Token.Kind.isCloser_iff.mp h with hk' | hk' | hk'
  · simp only [statementEnd, hk']
  · simp only [statementEnd, hk']
  · exact absurd hk' hk

theorem statementEnd_other (hopen : e.kind.closer? = none) (hclose : e.kind.isCloser = false)
    (hk : e.kind ≠ .semicolon) (n : Nat) : statementEnd n (e :: es) = statementEnd n es := by
  cases hk' : e.kind <;> simp_all [statementEnd, Token.Kind.closer?, Token.Kind.isCloser]

/-- **One token of a statement** that has opened the brackets of `own`. The statement ends at the
token because it has opened nothing, or it goes on behind the token, where it has opened `own'` and
brackets of `owed` were open in front of it. -/
def StatementStep (own : List Token.Kind) (e : Entry) (es : List Entry) : Prop :=
  (own = [] ∧ ∀ tail, statementEnd (roundCount own) (e :: tail) = e :: tail) ∨
    ∃ own' owed, Grounded own' ∧ .rightBrace ∉ owed ∧ nests (own' ++ owed) es = true ∧
      ∀ tail, statementEnd (roundCount own) (e :: tail) = statementEnd (roundCount own') tail

/-- A semicolon or a brace ends a statement that has opened nothing, and else changes nothing about
its parentheses and brackets. -/
theorem statementStep_stop {own' : List Token.Kind} (hown : Grounded own)
    (hstop : e.kind = .semicolon ∨ e.kind.isBrace = true)
    (hcount : roundCount own' = roundCount own)
    (hgoes : own ≠ [] → Grounded own' ∧ nests (own' ++ owed) es = true)
    (howed : .rightBrace ∉ owed) : StatementStep own e es := by
  by_cases hnil : own = []
  · refine .inl ⟨hnil, fun tail => ?_⟩
    rw [statementEnd_stop hstop, if_pos (hown.roundCount_eq_zero_iff.mpr hnil)]
  · obtain ⟨hown', hnests⟩ := hgoes hnil
    refine .inr ⟨own', owed, hown', howed, hnests, fun tail => ?_⟩
    rw [statementEnd_stop hstop, if_neg (mt hown.roundCount_eq_zero_iff.mp hnil), hcount]

theorem statementStep_opener (hown : Grounded own) (howed : .rightBrace ∉ owed)
    (hopen : e.kind.closer? = some c) (h : nests (c :: (own ++ owed)) es = true) :
    StatementStep own e es := by
  by_cases hc : c = .rightBrace
  · -- a brace, which ends the statement or stands in a bracket of it
    subst hc
    have hbrace : e.kind.isBrace = true := by
      rcases Token.Kind.closer?_eq_some hopen with ⟨-, hc⟩ | ⟨-, hc⟩ | ⟨hk, -⟩
      · exact absurd hc (by decide)
      · exact absurd hc (by decide)
      · rw [hk]
        rfl
    exact statementStep_stop hown (.inr hbrace) roundCount_cons_brace
      (fun hne => ⟨hown.cons fun hnil => absurd hnil hne, h⟩) howed
  · refine .inr ⟨c :: own, owed, hown.cons fun _ => hc, howed, h, fun tail => ?_⟩
    rw [statementEnd_open hopen hc, roundCount_cons hc]

/-- The bracket that a token closes is the innermost one of the statement, or one that was open in
front of it, and then it is no brace. -/
theorem statementStep_closer {owed' : List Token.Kind} (hown : Grounded own)
    (howed : .rightBrace ∉ owed) (hclose : e.kind.isCloser = true)
    (heq : own ++ owed = e.kind :: owed') (h : nests owed' es = true) :
    StatementStep own e es := by
  cases own with
  | nil =>
    rw [List.nil_append] at heq
    subst heq
    have hk : e.kind ≠ .rightBrace := fun hk => howed (hk ▸ List.mem_cons_self)
    refine .inr ⟨[], owed', hown, fun hmem => howed (List.mem_cons_of_mem _ hmem), h,
      fun tail => ?_⟩
    rw [statementEnd_close hclose hk]
    rfl
  | cons c own =>
    obtain ⟨rfl, rfl⟩ := List.cons.inj heq
    by_cases hk : e.kind = .rightBrace
    · exact statementStep_stop hown (.inr (by rw [hk]; rfl)) (hk ▸ roundCount_cons_brace.symm)
        (fun _ => ⟨hown.tail, h⟩) howed
    · refine .inr ⟨own, owed, hown.tail, howed, h, fun tail => ?_⟩
      rw [statementEnd_close hclose hk, roundCount_cons hk, Nat.add_sub_cancel]

theorem statementStep_other (hown : Grounded own) (howed : .rightBrace ∉ owed)
    (hopen : e.kind.closer? = none) (hclose : e.kind.isCloser = false)
    (h : nests (own ++ owed) es = true) : StatementStep own e es := by
  by_cases hk : e.kind = .semicolon
  · exact statementStep_stop hown (.inl hk) rfl (fun _ => ⟨hown, h⟩) howed
  · exact .inr ⟨own, owed, hown, howed, h, fun _ => statementEnd_other hopen hclose hk _⟩

/-- Every token of nested tokens is such a step. -/
theorem statementStep_of_nests (hown : Grounded own) (howed : .rightBrace ∉ owed)
    (h : nests (own ++ owed) (e :: es) = true) : StatementStep own e es := by
  rcases nests_cons_cases h with ⟨c, hopen, h⟩ | ⟨owed', hclose, heq, h⟩ | ⟨hopen, hclose, h⟩
  · exact statementStep_opener hown howed hopen h
  · exact statementStep_closer hown howed hclose heq h
  · exact statementStep_other hown howed hopen hclose h

/-- The rest of a statement inside a class ends inside the class. Parentheses and brackets that were
open in front of it may be closed on the way. -/
theorem Inside.statementEnd_of_nests (hclosing : closing.kind = .rightBrace) (hown : Grounded own)
    (howed : .rightBrace ∉ owed) (h : nests (own ++ owed) es = true) (behind : List Entry) :
    Inside closing behind (statementEnd (roundCount own) (es ++ closing :: behind)) := by
  induction es generalizing own owed with
  | nil =>
    obtain ⟨rfl, rfl⟩ : own = [] ∧ owed = [] := by simpa [nests] using h
    refine ⟨[], [], ?_, howed, rfl⟩
    simp [roundCount, statementEnd, hclosing]
  | cons e es ih =>
    rw [List.cons_append]
    rcases statementStep_of_nests hown howed h with
      ⟨rfl, hends⟩ | ⟨own', owed', hown', howed', h', hgoes⟩
    · rw [hends]
      exact ⟨owed, e :: es, rfl, howed, h⟩
    · rw [hgoes]
      exact ih hown' howed' h'

theorem Inside.statement (hclosing : closing.kind = .rightBrace) (h : Inside closing behind es) :
    Inside closing behind (statementEnd 0 es) := by
  obtain ⟨owed, inner, rfl, howed, hinner⟩ := h
  exact Inside.statementEnd_of_nests hclosing .nil howed hinner behind

end Statement

/-! ### Walks inside a class -/

section Walk

variable {closing : Entry} {behind es es' : List Entry} {loose : List (List Entry)}

/-- Where no attribute is opened, none is passed over. -/
theorem passAttributes_of_ne (h : ∀ e ∈ es, e.kind ≠ .attributeOpen) :
    passAttributes none es = .ok es := by
  cases es with
  | nil => rfl
  | cons e es => simp [passAttributes, h e List.mem_cons_self]

/-- A loose stretch inside a class ends inside the class. -/
theorem Inside.behindLoose {l : List Entry} (hl : Loose l es)
    (hclosing : closing.kind = .rightBrace) (hattributes : ∀ e ∈ l ++ es, e.kind ≠ .attributeOpen)
    (h : Inside closing behind (l ++ es)) : Inside closing behind es := by
  cases hl with
  | attributes hpass =>
    rw [passAttributes_of_ne hattributes] at hpass
    rwa [Except.ok.inj hpass] at h
  | value he hstops hvalue =>
    rw [← hvalue]
    exact (h.token hclosing (by rw [he]; rfl)).value hclosing _
  | traitUse he hend =>
    rw [← hend]
    exact (h.token hclosing (by rw [he]; rfl)).statement hclosing

/-- **A walk stays inside,** and the reader is never lost. -/
theorem Walk.inside (hwalk : Walk es loose es') (hclosing : closing.kind = .rightBrace)
    (hattributes : ∀ e ∈ es, e.kind ≠ .attributeOpen) (h : Inside closing behind es) :
    Inside closing behind es' := by
  induction hwalk with
  | stay es => exact h
  | token he _ ih =>
    exact ih (fun e' he' => hattributes e' (List.mem_cons_of_mem _ he')) (h.token hclosing he)
  | block he hclose _ ih =>
    obtain ⟨last, rest, hclose', hrest⟩ := h.block hclosing he
    rw [hclose] at hclose'
    obtain ⟨-, rfl⟩ := Prod.mk.inj (Option.some.inj hclose')
    refine ih (fun e' he' => hattributes e' (List.mem_cons_of_mem _ ?_)) hrest
    exact (closeBlock_spec hclose).1.subset he'
  | loosely hl _ ih =>
    exact ih (fun e' he' => hattributes e' (List.mem_append_right _ he'))
      (h.behindLoose hl hclosing hattributes)
  | lost hl _ _ =>
    -- what is opened inside a class is closed there
    cases hl with
    | block he hclose =>
      obtain ⟨last, rest, hclose', -⟩ := h.block hclosing he
      rw [hclose] at hclose'
      exact absurd hclose' (by simp)
    | attributes hpass =>
      rw [passAttributes_of_ne hattributes] at hpass
      exact absurd hpass (by simp)

end Walk

/-! ### The ends of classes -/

section Ends

variable {closing : Entry} {behind : List Entry} {s s₂ : State}

/-- Inside a class, the reading of the body comes to the closing brace of the class. -/
theorem Inside.eq_closing (h : Inside closing behind s.rest)
    (hend : s.rest = [] ∨ s.peek.kind = .rightBrace ∨ s.peek.kind = .endOfText)
    (hkinds : ∀ e ∈ s.rest, e.kind ≠ .endOfText) : s.rest = closing :: behind := by
  obtain ⟨owed, inner, heq, howed, hinner⟩ := h
  cases inner with
  | nil => exact heq
  | cons e inner =>
    have hpeek : s.peek.kind = e.kind := by rw [State.peek_of_rest heq]; rfl
    rw [hpeek] at hend
    rcases hend with hnil | hright | hend
    · simp [heq] at hnil
    · -- the innermost bracket that is open would be a brace
      rcases nests_cons_cases hinner with ⟨c, hopen, -⟩ | ⟨owed', -, rfl, -⟩ | ⟨-, hclose, -⟩
      · exact absurd hopen (by rw [hright]; simp [Token.Kind.closer?])
      · exact absurd (by simp [hright]) howed
      · exact absurd hclose (by rw [hright]; decide)
    · exact absurd hend (hkinds e (by simp [heq]))

/-- Behind an opening brace in nested tokens, its match follows. -/
theorem exists_match {before es : List Entry} {opening : Entry}
    (hnested : Nested (before ++ opening :: es)) (hk : opening.kind = .leftBrace) :
    ∃ body closing behind, es = body ++ closing :: behind ∧ closing.kind = .rightBrace ∧
      Nested body := by
  obtain ⟨owed, h⟩ := exists_nests_of_append hnested
  rw [nests_opener (c := .rightBrace) (by rw [hk]; rfl)] at h
  obtain ⟨body, closing, behind, heq, hbody, hclosing, -⟩ := exists_closing [] h
  exact ⟨body, closing, behind, heq, hclosing, hbody⟩

end Ends

/-- **A class and its braces.** The class that is entered at `f` begins at `s`; `opening` is the
brace that opens its body, and the body begins at `s₂`. The class takes up the tokens up to
`closing`, the brace that matches `opening`, and the reading goes on behind it. -/
structure EndsAtMatch (file : SourceFile) (f : FileState) (s s₂ s₃ : State)
    (opening closing : Entry) (before body : List Entry) : Prop where
  rest_eq : s.rest = before ++ opening :: body ++ closing :: s₃.rest
  body_eq : s₂.rest = body ++ closing :: s₃.rest
  opening_kind : opening.kind = .leftBrace
  closing_kind : closing.kind = .rightBrace
  /-- What stands between the braces is nested by itself, so they match. -/
  nested : Nested body
  /-- The class is read, and its reading ends right behind the closing brace. -/
  yields : ∃ c, Yields (classDeclaration file f.rest) s (some c) s₃
  /-- Nothing in the body changes the scope. -/
  scope_eq : s₃.scope = s₂.scope
  /-- The next step begins right behind the closing brace. -/
  visits : f.Visits file (f.step file)
  step_rest : (f.step file).rest = s₃.rest
  step_scope : (f.step file).scope = s₃.scope
  step_braces : (f.step file).braces = f.braces

/-- **The ends of classes.** In a file whose brackets are properly nested and in which no attribute
is opened, every class that is entered and whose header can be read ends at the brace that matches
its opening one, whatever its members are. -/
theorem class_ends_at_match (file : SourceFile)
    (hattributes : ∀ e ∈ (FileState.start file.text).rest, e.kind ≠ .attributeOpen)
    (hnested : Nested (FileState.start file.text).rest) {f : FileState}
    (hf : (FileState.start file.text).Visits file f) {s s₂ : State} (henters : f.Enters s)
    {d : ClassDraft} {name : Token} {header : Span}
    (hopen : Yields (classOpening file f.rest) s (d, name, header) s₂) :
    ∃ s₃ opening closing before body,
      EndsAtMatch file f s s₂ s₃ opening closing before body := by
  have hs := henters.reads hf.reads
  obtain ⟨before, opening, hrest, hopening⟩ := exists_opening hs hopen
  obtain ⟨lead, hlead⟩ := hs.suffix
  rw [hrest, ← List.append_assoc] at hlead
  obtain ⟨body, closing, behind, hs₂, hclosing, hbody⟩ := exists_match (hlead ▸ hnested) hopening
  -- what stands behind the opening brace are tokens of the file
  have hmem : ∀ e ∈ s₂.rest, e ∈ (FileState.start file.text).rest := by
    intro e he
    rw [← hlead]
    exact List.mem_append_right _ (List.mem_cons_of_mem _ he)
  -- the body is read up to the match
  obtain ⟨d₂, s', hmembers, halong, hend⟩ := exists_classMembers ⟨file.text, file.resolver⟩ d s₂
  obtain ⟨loose, hwalk⟩ := halong.walk
  have hinside : Inside closing behind s'.rest :=
    hwalk.inside hclosing (fun e he => hattributes e (hmem e he))
      ⟨[], body, hs₂, List.not_mem_nil, hbody⟩
  have hs' : s'.rest = closing :: behind := hinside.eq_closing hend fun e he =>
    FileState.kind_ne_endOfText_of_mem (hmem e (hwalk.suffix.subset he))
  -- there it ends, and the step with it
  have hpeek : s'.peek.kind = .rightBrace := by
    rw [State.peek_of_rest hs']
    exact hclosing
  obtain ⟨d₃, s₃, hclose, hs₃, hscope⟩ := exists_classEnd f.rest header d₂ hpeek
  obtain rfl : s₃.rest = behind := by rw [hs₃, hs', List.tail_cons]
  have hclass := Yields.classDeclaration hopen hmembers hclose
  obtain ⟨hstep, hstepScope, hbraces⟩ := henters.step_keeps hclass
  have hless : (f.step file).rest.length < f.rest.length := by
    have hle := (henters.reads (Reads.refl f.toState)).suffix.length_le
    rw [hrest, hs₂, List.length_append, List.length_cons, List.length_append,
      List.length_cons] at hle
    rw [hstep]
    omega
  exact ⟨s₃, opening, closing, before, body,
    { rest_eq := by rw [hrest, hs₂, List.append_assoc, List.cons_append]
      body_eq := hs₂
      opening_kind := hopening
      closing_kind := hclosing
      nested := hbody
      yields := ⟨_, hclass⟩
      scope_eq := hscope.trans halong.scope_eq
      visits := .step (List.ne_nil_of_length_pos (by omega)) hless (.here _)
      step_rest := hstep
      step_scope := hstepScope
      step_braces := hbraces }⟩

/-- A file with a class whose members are malformed or declared twice, in front of another class. -/
def malformedFile : SourceFile where
  text := "<?php class A \x7b function (\x7b;\x7d) var $p = [(;) \x7b\x7d], ; use T (\x7b\x7d;); "
    ++ "function f(=); function f(); function f(); \x7d class B \x7b\x7d"

theorem class_ends_at_match_malformed :
    (∀ e ∈ (FileState.start malformedFile.text).rest, e.kind ≠ .attributeOpen) ∧
      Nested (FileState.start malformedFile.text).rest ∧
      ∃ f d name header s₂ s₃ opening closing before body,
        (FileState.start malformedFile.text).Visits malformedFile f ∧ f.Enters f.toState ∧
        Yields (classOpening malformedFile f.rest) f.toState (d, name, header) s₂ ∧
        EndsAtMatch malformedFile f f.toState s₂ s₃ opening closing before body := by
  obtain ⟨hattributes, hnested, hpeek, hclass, hsucceeds⟩ :
      (∀ e ∈ (FileState.start malformedFile.text).rest, e.kind ≠ .attributeOpen) ∧
        Nested (FileState.start malformedFile.text).rest ∧
        (FileState.start malformedFile.text).peek.kind ≠ .attributeOpen ∧
        atClass (FileState.start malformedFile.text).rest = true ∧
        succeeds (classOpening malformedFile (FileState.start malformedFile.text).rest)
          (FileState.start malformedFile.text).toState = true := by
    decide +kernel
  obtain ⟨⟨d, name, header⟩, s₂, hopen⟩ := exists_yields hsucceeds
  have henters : (FileState.start malformedFile.text).Enters _ :=
    ⟨Yields.skipAttributes hpeek, hclass⟩
  obtain ⟨s₃, opening, closing, before, body, h⟩ :=
    class_ends_at_match malformedFile hattributes hnested (.here _) henters hopen
  exact ⟨hattributes, hnested, _, d, name, header, s₂, s₃, opening, closing, before, body, .here _,
    henters, hopen, h⟩

end Reading

end Introspect
