import Introspect.Proofs.Reading.Agreement
import Introspect.Proofs.Reading.Nesting

/-!
# Headers and bodies

A function, a trait or an anonymous class is passed over with its header and its body. The search
for the body counts parentheses, so that a semicolon among the arguments does not end it, but the
first opening brace that it meets is taken for the body, inside of parentheses too.

* `IsHeader` and `IsBlock`: what may stand in front of a body, and what a body is. Square brackets
  play no part in this (`NestedBlocks`), so attributes may stand in both;
* `bodyStart_of_header`: inside a header the search stops at an opening brace and nowhere else;
* `skipToBody_passes_first_block`: what is passed over ends with the first block. This is the body
  exactly if there is no block in the header;
* `callback_taken_for_body`: an anonymous class with a closure among its arguments, whose body is
  read as if it stood outside of a class.
-/

namespace Introspect.Reading

/-! ### Parentheses and braces -/

/-- Whether the kind is that of a parenthesis or a brace. -/
def isBlockBracket : Token.Kind → Bool
  | .leftParen | .rightParen | .leftBrace | .rightBrace => true
  | _ => false

/-- Where the closing brackets of `owed` are still to come, the parentheses and the braces among the
tokens are nested. -/
def nestsBlocks (owed : List Token.Kind) (es : List Entry) : Bool :=
  nests owed (es.filter (isBlockBracket ·.kind))

/-- **Nested blocks.** The parentheses and the braces among the tokens are properly nested. Nothing
is asked of square brackets, which attributes open with a token of their own. -/
def NestedBlocks (es : List Entry) : Prop := nestsBlocks [] es = true

instance (es : List Entry) : Decidable (NestedBlocks es) :=
  inferInstanceAs (Decidable (nestsBlocks [] es = true))

section NestsBlocks

variable {owed : List Token.Kind} {e : Entry} {es : List Entry}

theorem nestsBlocks_cons_of_not (h : isBlockBracket e.kind = false) :
    nestsBlocks owed (e :: es) = nestsBlocks owed es := by
  rw [nestsBlocks, List.filter_cons_of_neg (by simp [h])]
  rfl

theorem nestsBlocks_cons (h : isBlockBracket e.kind = true) :
    nestsBlocks owed (e :: es) = nests owed (e :: es.filter (isBlockBracket ·.kind)) := by
  rw [nestsBlocks, List.filter_cons_of_pos (by simp [h])]

/-- What a token can be where parentheses and braces are nested. -/
theorem nestsBlocks_cons_cases (h : nestsBlocks owed (e :: es) = true) :
    (e.kind = .leftParen ∧ nestsBlocks (.rightParen :: owed) es = true) ∨
      (e.kind = .leftBrace ∧ nestsBlocks (.rightBrace :: owed) es = true) ∨
      (∃ owed', e.kind = .rightParen ∧ owed = .rightParen :: owed' ∧
        nestsBlocks owed' es = true) ∨
      (∃ owed', e.kind = .rightBrace ∧ owed = .rightBrace :: owed' ∧
        nestsBlocks owed' es = true) ∨
      (isBlockBracket e.kind = false ∧ nestsBlocks owed es = true) := by
  cases hk : isBlockBracket e.kind with
  | false =>
    rw [nestsBlocks_cons_of_not hk] at h
    exact .inr (.inr (.inr (.inr ⟨rfl, h⟩)))
  | true =>
    rw [nestsBlocks_cons hk] at h
    rcases nests_cons_cases h with ⟨c, hopen, h'⟩ | ⟨owed', hclose, rfl, h'⟩ | ⟨hopen, hclose, -⟩
    · rcases Token.Kind.closer?_eq_some hopen with ⟨hk', rfl⟩ | ⟨hk', -⟩ | ⟨hk', rfl⟩
      · exact .inl ⟨hk', h'⟩
      · rw [hk'] at hk
        exact absurd hk (by decide)
      · exact .inr (.inl ⟨hk', h'⟩)
    · rcases Token.Kind.isCloser_iff.mp hclose with hk' | hk' | hk'
      · exact .inr (.inr (.inl ⟨owed', hk', by rw [hk'], h'⟩))
      · rw [hk'] at hk
        exact absurd hk (by decide)
      · exact .inr (.inr (.inr (.inl ⟨owed', hk', by rw [hk'], h'⟩)))
    · -- a parenthesis or a brace opens or closes
      cases hkind : e.kind <;>
        simp_all [isBlockBracket, Token.Kind.closer?, Token.Kind.isCloser]

/-- The braces inside of nested blocks close each other; only those that are owed count. -/
theorem closeBlock_of_nestsBlocks (h : nestsBlocks owed es = true) (depth : Nat)
    (behind : List Entry) :
    closeBlock (depth + owed.count .rightBrace) (es ++ behind) = closeBlock depth behind := by
  -- token by token: a brace that opens is owed from there on, one that closes was owed
  induction es generalizing owed with
  | nil =>
    have howed : owed = [] := List.isEmpty_iff.mp h
    simp [howed]
  | cons e es ih =>
    rw [List.cons_append]
    rcases nestsBlocks_cons_cases h with
      ⟨hk, h'⟩ | ⟨hk, h'⟩ | ⟨owed', hk, rfl, h'⟩ | ⟨owed', hk, rfl, h'⟩ | ⟨hk, h'⟩
    · rw [closeBlock_other (by rw [hk]; rfl), ← ih h', List.count_cons_of_ne (by decide)]
    · rw [closeBlock_leftBrace hk, ← ih h', List.count_cons_self, Nat.add_assoc]
    · rw [closeBlock_other (by rw [hk]; rfl), List.count_cons_of_ne (by decide), ih h']
    · rw [List.count_cons_self, ← Nat.add_assoc, closeBlock_rightBrace hk, ih h']
    · have hother : e.kind.isBrace = false := by
        cases hkind : e.kind <;> simp_all [isBlockBracket, Token.Kind.isBrace]
      rw [closeBlock_other hother, ih h']

/-- **The match of a brace.** A brace that is owed comes, and what stands in front of it is nested
by itself. -/
theorem exists_closing_brace (h : nestsBlocks (.rightBrace :: owed) es = true) :
    ∃ inner closing behind, es = inner ++ closing :: behind ∧ NestedBlocks inner ∧
      closing.kind = .rightBrace := by
  obtain ⟨inner, closing, behind, hsplit, hinner, hclosing, -⟩ := exists_closing [] h
  -- the tokens that are no parentheses and no braces stand in between
  obtain ⟨first, last, rfl, hfirst, hlast⟩ := List.filter_eq_append_iff.mp hsplit
  obtain ⟨more, rest, rfl, hmore, -, -⟩ := List.filter_eq_cons_iff.mp hlast
  refine ⟨first ++ more, closing, rest, by simp, ?_, hclosing⟩
  have hnone : more.filter (isBlockBracket ·.kind) = [] := List.filter_eq_nil_iff.mpr hmore
  rw [NestedBlocks, nestsBlocks, List.filter_append, hnone, List.append_nil, hfirst]
  exact hinner

end NestsBlocks

/-! ### Blocks -/

section Blocks

variable {s : State} {opening : Entry} {es behind : List Entry} {closing : Token}

/-- A block to which a search has led is passed over if it is closed. -/
theorem yields_skipTo_block {tail : List Entry → List Entry} (htail : tail s.rest = opening :: es)
    (hopening : opening.kind = .leftBrace) (hclose : closeBlock 0 es = some (closing, behind)) :
    Yields (skipTo tail) s () { s with rest := behind } := by
  let s' : State := { s with rest := tail s.rest }
  have hpeek : s'.peek.kind = .leftBrace := by
    rw [State.peek_of_rest (s := s') htail]
    exact hopening
  have hblock : Yields skipBlock s' closing { s with rest := behind } := by
    refine Yields.skipBlock (s := s') hpeek ?_
    show closeBlock 0 (tail s.rest).tail = _
    rw [htail, List.tail_cons, hclose]
  have hmodify : Yields (modify fun s => { s with rest := tail s.rest } : Routine Unit) s () s' :=
    .modify
  refine Yields.bind hmodify (Yields.bind .peekKind ?_)
  rw [hpeek]
  exact Yields.bind hblock.attempt .pure

/-- **Blocks.** Properly nested tokens between two braces. -/
def IsBlock (block : List Entry) : Prop :=
  ∃ opening inner closing, block = opening :: (inner ++ [closing]) ∧ opening.kind = .leftBrace ∧
    NestedBlocks inner ∧ closing.kind = .rightBrace

/-- A block is made of its first token, its last one and what is between them. -/
theorem isBlock_iff {block : List Entry} :
    IsBlock block ↔ block.head?.map (·.kind) = some .leftBrace ∧ NestedBlocks block.tail.dropLast ∧
      block.tail.getLast?.map (·.kind) = some .rightBrace := by
  constructor
  · rintro ⟨opening, inner, closing, rfl, hopening, hinner, hclosing⟩
    simp [hopening, hinner, hclosing]
  · rintro ⟨hopening, hinner, hclosing⟩
    cases block with
    | nil => simp at hopening
    | cons opening es =>
      obtain ⟨closing, hlast, hkind⟩ := Option.map_eq_some_iff.mp hclosing
      obtain ⟨inner, rfl⟩ := List.getLast?_eq_some_iff.mp hlast
      refine ⟨opening, inner, closing, rfl, Option.some.inj hopening, ?_, hkind⟩
      simpa using hinner

instance (block : List Entry) : Decidable (IsBlock block) := decidable_of_iff' _ isBlock_iff

/-- A block is passed over to its last token. -/
theorem IsBlock.skipTo {block behind : List Entry} {tail : List Entry → List Entry}
    (h : IsBlock block) (htail : tail s.rest = block ++ behind) :
    Yields (skipTo tail) s () { s with rest := behind } := by
  obtain ⟨opening, inner, closing, rfl, hopening, hinner, hclosing⟩ := h
  rw [List.cons_append, List.append_assoc] at htail
  -- the braces of the inner tokens close each other
  have hskip := closeBlock_of_nestsBlocks hinner 0 ([closing] ++ behind)
  rw [List.count_nil, Nat.add_zero] at hskip
  have hclose : closeBlock 0 (inner ++ ([closing] ++ behind)) = some (closing.token, behind) := by
    rw [hskip, List.singleton_append]
    simp only [closeBlock, hclosing]
  exact yields_skipTo_block htail hopening hclose

end Blocks

/-! ### The search for a body -/

section Search

variable {e : Entry} {es : List Entry}

theorem bodyStart_leftBrace (h : e.kind = .leftBrace) (parens : Nat) :
    bodyStart parens (e :: es) = e :: es := by
  simp only [bodyStart, h]

theorem bodyStart_leftParen (h : e.kind = .leftParen) (parens : Nat) :
    bodyStart parens (e :: es) = bodyStart (parens + 1) es := by
  simp only [bodyStart, h]

/-- A closing parenthesis ends the search if it was opened in front of it. -/
theorem bodyStart_rightParen_zero (h : e.kind = .rightParen) : bodyStart 0 (e :: es) = e :: es := by
  simp [bodyStart, h]

theorem bodyStart_rightParen_succ (h : e.kind = .rightParen) (parens : Nat) :
    bodyStart (parens + 1) (e :: es) = bodyStart parens es := by
  simp [bodyStart, h]

/-- A semicolon ends the search outside of parentheses only. -/
theorem bodyStart_semicolon (h : e.kind = .semicolon) (parens : Nat) :
    bodyStart parens (e :: es) = if parens = 0 then e :: es else bodyStart parens es := by
  simp only [bodyStart, h]

theorem bodyStart_other (hbrace : e.kind ≠ .leftBrace) (hsemicolon : e.kind ≠ .semicolon)
    (hopen : e.kind ≠ .leftParen) (hclose : e.kind ≠ .rightParen) (parens : Nat) :
    bodyStart parens (e :: es) = bodyStart parens es := by
  cases hk : e.kind <;> simp_all [bodyStart]

/-- The tokens outside of parentheses, where `parens` of them are open in front of the list. The
parentheses themselves are not among them. -/
def outsideParens (parens : Nat) : List Entry → List Entry
  | [] => []
  | e :: es =>
    match e.kind with
    | .leftParen => outsideParens (parens + 1) es
    | .rightParen => outsideParens (parens - 1) es
    | _ => if parens = 0 then e :: outsideParens parens es else outsideParens parens es

theorem outsideParens_leftParen (h : e.kind = .leftParen) (parens : Nat) :
    outsideParens parens (e :: es) = outsideParens (parens + 1) es := by
  simp only [outsideParens, h]

theorem outsideParens_rightParen (h : e.kind = .rightParen) (parens : Nat) :
    outsideParens parens (e :: es) = outsideParens (parens - 1) es := by
  simp only [outsideParens, h]

theorem outsideParens_other (hopen : e.kind ≠ .leftParen) (hclose : e.kind ≠ .rightParen)
    (parens : Nat) :
    outsideParens parens (e :: es)
      = if parens = 0 then e :: outsideParens parens es else outsideParens parens es := by
  cases hk : e.kind <;> simp_all [outsideParens]

/-- What stands outside of parentheses in a first part does so in the whole. -/
theorem outsideParens_subset_append (parens : Nat) (es es' : List Entry) :
    outsideParens parens es ⊆ outsideParens parens (es ++ es') := by
  induction es generalizing parens with
  | nil => exact List.nil_subset _
  | cons e es ih =>
    rw [List.cons_append]
    by_cases hopen : e.kind = .leftParen
    · rw [outsideParens_leftParen hopen, outsideParens_leftParen hopen]
      exact ih _
    by_cases hclose : e.kind = .rightParen
    · rw [outsideParens_rightParen hclose, outsideParens_rightParen hclose]
      exact ih _
    rw [outsideParens_other hopen hclose, outsideParens_other hopen hclose]
    split_ifs
    · exact List.cons_subset_cons e (ih _)
    · exact ih _

/-- **Inside a header.** In front of the first opening brace, the search goes on for as long as
parentheses are closed that have been opened in the header. The number of those is what the search
has counted; `own` are the parentheses and braces that are open. -/
theorem bodyStart_of_nestsBlocks {own : List Token.Kind} {before after : List Entry}
    (h : nestsBlocks own (before ++ after) = true) (hbrace : ∀ e ∈ before, e.kind ≠ .leftBrace)
    (hsemicolon : ∀ e ∈ outsideParens (own.count .rightParen) before, e.kind ≠ .semicolon)
    {opening : Entry} (hopening : opening.kind = .leftBrace) (es : List Entry) :
    bodyStart (own.count .rightParen) (before ++ opening :: es) = opening :: es := by
  induction before generalizing own with
  | nil => exact bodyStart_leftBrace hopening _
  | cons e before ih =>
    have hne : e.kind ≠ .leftBrace := hbrace e List.mem_cons_self
    have hbrace' : ∀ e ∈ before, e.kind ≠ .leftBrace := fun e he =>
      hbrace e (List.mem_cons_of_mem _ he)
    -- a token that is neither a parenthesis nor a semicolon outside of them is passed over
    have hpass : ∀ {own' : List Token.Kind}, nestsBlocks own' (before ++ after) = true →
        own'.count .rightParen = own.count .rightParen → e.kind ≠ .leftParen →
        e.kind ≠ .rightParen →
        bodyStart (own.count .rightParen) (e :: (before ++ opening :: es)) = opening :: es := by
      intro own' h' hcount hopen hclose
      rw [outsideParens_other hopen hclose] at hsemicolon
      have hrest : ∀ e ∈ outsideParens (own.count .rightParen) before, e.kind ≠ .semicolon := by
        split_ifs at hsemicolon
        · exact fun e he => hsemicolon e (List.mem_cons_of_mem _ he)
        · exact hsemicolon
      have hih : bodyStart (own.count .rightParen) (before ++ opening :: es) = opening :: es := by
        rw [← hcount] at hrest ⊢
        exact ih h' hbrace' hrest
      by_cases hk : e.kind = .semicolon
      · rw [bodyStart_semicolon hk]
        split_ifs with hzero
        · rw [if_pos hzero] at hsemicolon
          exact absurd hk (hsemicolon e List.mem_cons_self)
        · exact hih
      · rw [bodyStart_other hne hk hopen hclose]
        exact hih
    rw [List.cons_append]
    rcases nestsBlocks_cons_cases h with
      ⟨hk, h'⟩ | ⟨hk, -⟩ | ⟨own', hk, rfl, h'⟩ | ⟨own', hk, rfl, h'⟩ | ⟨hk, h'⟩
    · -- a parenthesis that opens is counted by the search, and owed in the header
      rw [outsideParens_leftParen hk, ← List.count_cons_self] at hsemicolon
      rw [bodyStart_leftParen hk, ← List.count_cons_self]
      exact ih h' hbrace' hsemicolon
    · exact absurd hk hne
    · -- one that closes has been counted
      rw [outsideParens_rightParen hk, List.count_cons_self, Nat.add_sub_cancel] at hsemicolon
      rw [List.count_cons_self, bodyStart_rightParen_succ hk]
      exact ih h' hbrace' hsemicolon
    · refine hpass h' ?_ (by simp [hk]) (by simp [hk])
      rw [List.count_cons_of_ne (by decide)]
    · refine hpass h' rfl ?_ ?_ <;> intro hparen <;> rw [hparen] at hk <;>
        exact absurd hk (by decide)

end Search

/-! ### Headers -/

/-- **Headers.** Parentheses and braces are properly nested, and outside of parentheses there is no
brace and no semicolon. -/
structure IsHeader (header : List Entry) : Prop where
  nested : NestedBlocks header
  braces_inside : ∀ e ∈ outsideParens 0 header, e.kind.isBrace = false
  semicolons_inside : ∀ e ∈ outsideParens 0 header, e.kind ≠ .semicolon

theorem isHeader_iff {header : List Entry} :
    IsHeader header ↔ NestedBlocks header ∧ (∀ e ∈ outsideParens 0 header, e.kind.isBrace = false) ∧
      ∀ e ∈ outsideParens 0 header, e.kind ≠ .semicolon :=
  ⟨fun h => ⟨h.1, h.2, h.3⟩, fun h => ⟨h.1, h.2.1, h.2.2⟩⟩

instance (header : List Entry) : Decidable (IsHeader header) := decidable_of_iff' _ isHeader_iff

section Header

variable {header body tail before after es : List Entry} {opening : Entry} {s : State}

/-- The first opening brace behind the beginning of a header ends the search. -/
theorem bodyStart_of_header (h : IsHeader (before ++ after))
    (hbefore : ∀ e ∈ before, e.kind ≠ .leftBrace) (hopening : opening.kind = .leftBrace) :
    bodyStart 0 (before ++ opening :: es) = opening :: es := by
  show bodyStart (([] : List Token.Kind).count .rightParen) _ = _
  refine bodyStart_of_nestsBlocks h.nested hbefore (fun e he => ?_) hopening es
  exact h.semicolons_inside e (outsideParens_subset_append 0 before after he)

/-- A header without a block is passed over together with the body. -/
theorem skipToBody_of_no_block (hheader : IsHeader header) (hbody : IsBlock body)
    (hnone : ∀ e ∈ header, e.kind ≠ .leftBrace) (hs : s.rest = header ++ body ++ tail) :
    Yields skipToBody s () { s with rest := tail } := by
  show Yields (skipTo (bodyStart 0)) s () _
  refine hbody.skipTo ?_
  obtain ⟨opening, inner, closing, rfl, hopening, -, -⟩ := hbody
  rw [hs, List.append_assoc]
  have hwhole : IsHeader (header ++ []) := by rwa [List.append_nil]
  exact bodyStart_of_header hwhole hnone hopening

/-- A header with a block is split at the first one. -/
theorem IsHeader.exists_block (hheader : IsHeader header)
    (hsome : ∃ e ∈ header, e.kind = .leftBrace) :
    ∃ before block after, header = before ++ (block ++ after) ∧
      (∀ e ∈ before, e.kind ≠ .leftBrace) ∧ IsBlock block := by
  have hfound : (header.find? (·.kind = .leftBrace)).isSome = true := by
    simpa [List.find?_isSome] using hsome
  obtain ⟨opening, hfind⟩ := Option.isSome_iff_exists.mp hfound
  obtain ⟨hopening, before, after, rfl, hbefore⟩ := List.find?_eq_some_iff_append.mp hfind
  have hkind : opening.kind = .leftBrace := by simpa using hopening
  -- what is open behind the brace is closed in the header, the brace first
  have hnested := hheader.nested
  rw [NestedBlocks, nestsBlocks, List.filter_append] at hnested
  obtain ⟨owed, howed⟩ := exists_nests_of_append hnested
  rw [List.filter_cons_of_pos (by rw [hkind]; rfl),
    nests_opener (c := .rightBrace) (by rw [hkind]; rfl)] at howed
  obtain ⟨inner, closing, behind, rfl, hinner, hclosing⟩ := exists_closing_brace howed
  refine ⟨before, opening :: (inner ++ [closing]), behind, by simp, ?_,
    opening, inner, closing, rfl, hkind, hinner, hclosing⟩
  intro e he
  simpa using hbefore e he

/-- **The first block is taken for the body.** Of a header and a body, the tokens up to the end of
the first block are passed over, and nothing is reported. They are all of them exactly if there is
no block in the header. -/
theorem skipToBody_passes_first_block (hheader : IsHeader header) (hbody : IsBlock body)
    (hs : s.rest = header ++ body ++ tail) :
    ∃ before block behind, header ++ body = before ++ block ++ behind ∧
      (∀ e ∈ before, e.kind ≠ .leftBrace) ∧ IsBlock block ∧
      Yields skipToBody s () { s with rest := behind ++ tail } ∧
      (behind = [] ↔ ∀ e ∈ header, e.kind ≠ .leftBrace) := by
  by_cases hnone : ∀ e ∈ header, e.kind ≠ .leftBrace
  · exact ⟨header, body, [], by simp, hnone, hbody, skipToBody_of_no_block hheader hbody hnone hs,
      iff_of_true rfl hnone⟩
  · have hsome : ∃ e ∈ header, e.kind = .leftBrace := by simpa using hnone
    obtain ⟨before, block, after, rfl, hbefore, hblock⟩ := hheader.exists_block hsome
    refine ⟨before, block, after ++ body, by simp, hbefore, hblock, ?_, ?_⟩
    · show Yields (skipTo (bodyStart 0)) s () _
      refine hblock.skipTo ?_
      obtain ⟨opening, inner, closing, rfl, hopening, -, -⟩ := hblock
      rw [hs]
      simp only [List.append_assoc, List.cons_append]
      exact bodyStart_of_header hheader hbefore hopening
    · -- the body stands behind what was passed over
      refine iff_of_false (fun hnil => ?_) hnone
      obtain ⟨opening, inner, closing, rfl, -⟩ := hbody
      simp at hnil

end Header

/-- A function with an attribute and nested brackets in its header and a class in its body, in
front of a class. -/
def plainHeaderFile : SourceFile where
  text := "<?php function f(#[A] array $a = [1, (2)]) "
    ++ "\x7b if (true) \x7b class Hidden \x7b\x7d \x7d \x7d class Seen \x7b\x7d"

theorem skipToBody_passes_first_block_plain :
    ∃ header body tail s, IsHeader header ∧ IsBlock body ∧ s.rest = header ++ body ++ tail ∧
      s = (FileState.start plainHeaderFile.text).toState.advance ∧
      (∀ e ∈ header, e.kind ≠ .leftBrace) ∧ tail.length = 4 ∧
      Yields skipToBody s () { s with rest := tail } := by
  let s : State := (FileState.start plainHeaderFile.text).toState.advance
  let header := s.rest.take 16
  let body := (s.rest.drop 16).take 12
  let tail := s.rest.drop 28
  obtain ⟨hheader, hbody, hrest, hnone, htail⟩ :
      IsHeader header ∧ IsBlock body ∧ s.rest = header ++ body ++ tail ∧
        (∀ e ∈ header, e.kind ≠ .leftBrace) ∧ tail.length = 4 := by
    decide +kernel
  obtain ⟨_, _, behind, -, -, -, hyields, hiff⟩ :=
    skipToBody_passes_first_block hheader hbody hrest
  -- without a block in the header, nothing is left between the body and the rest
  obtain rfl := hiff.mpr hnone
  exact ⟨header, body, tail, s, hheader, hbody, hrest, rfl, hnone, htail, hyields⟩

/-- An anonymous class that is given a closure and uses a trait, in front of a class that extends
a name which is that of the trait. -/
def callbackFile : SourceFile where
  text := "<?php new class(function () \x7b\x7d) \x7b use A\\B; \x7d; class C extends B \x7b\x7d"

/-- **A closure among the arguments is taken for the body** of the anonymous class. The body itself
is read as code outside of a class: the trait is imported, and the class behind it extends the
trait. -/
theorem callback_taken_for_body :
    ∃ header body tail s, IsHeader header ∧ Nested header ∧ IsBlock body ∧ Nested body ∧
      s.rest = header ++ body ++ tail ∧
      s = (FileState.start callbackFile.text).toState.advance.advance ∧
      ¬ Yields skipToBody s () { s with rest := tail } ∧
      callbackFile.read.1.map (fun c => (c.name, c.parentName)) = [("C", some "A\\B")] := by
  let s : State := (FileState.start callbackFile.text).toState.advance.advance
  let header := s.rest.take 7
  let body := (s.rest.drop 7).take 5
  let tail := s.rest.drop 12
  obtain ⟨hheader, hnested, hbody, hnested', hrest, hleft, hread⟩ :
      IsHeader header ∧ Nested header ∧ IsBlock body ∧ Nested body ∧
        s.rest = header ++ body ++ tail ∧
        leftBy skipToBody s ≠ tail ∧
        callbackFile.read.1.map (fun c => (c.name, c.parentName)) = [("C", some "A\\B")] := by
    decide +kernel
  refine ⟨header, body, tail, s, hheader, hnested, hbody, hnested', hrest, rfl, fun hyields => ?_,
    hread⟩
  exact hleft hyields.rest_eq.symm

end Introspect.Reading
