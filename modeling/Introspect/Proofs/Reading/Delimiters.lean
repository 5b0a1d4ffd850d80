import Introspect.Proofs.Reading.Agreement
import Introspect.Proofs.Reading.Nesting

/-!
# Braces that are never closed

Two parts of the program count braces. The scanner has one counter for the whole file, which starts
at its beginning and does not go below zero, so it forgets a closing brace that closes nothing. The
reader counts from an opening brace on, wherever it passes over a block, and gives up if the file
ends before the block does. The two agree: the counter of the scanner ends above zero exactly if
some opening brace has no match, whatever stray braces there are.

* `Closes es inner closing behind`: the brace that closes a block whose opening brace is in front of
  `es`. `closeBlock_eq_some_iff` and `closeBlock_eq_none_iff` say that the reader finds it;
* `depthFrom_pos_iff`: a counter that does not go below zero ends above zero exactly if some opening
  brace is never closed;
* `unclosedScope_iff`: so the scanner reports an unclosed scope exactly if there is such a brace;
* `SourceFile.delimiters_accounted`: what is reported about mismatched delimiters is true.
-/

namespace Introspect

namespace Token

theorem Kind.brace_cases (k : Kind) : k = .leftBrace ∨ k = .rightBrace ∨ k.isBrace = false := by
  cases k <;> simp [isBrace]

theorem Kind.ne_of_isBrace {k : Kind} (h : k.isBrace = false) :
    k ≠ .leftBrace ∧ k ≠ .rightBrace := by
  constructor <;> rintro rfl <;> exact absurd h (by decide)

section Depth

variable {t : Token} {ts : List Token} {k m depth : Nat}

theorem depthFrom_cons_up (h : t.kind = .leftBrace) :
    depthFrom depth (t :: ts) = depthFrom (depth + 1) ts := by
  rw [depthFrom, List.foldl_cons, h]
  rfl

theorem depthFrom_cons_down (h : t.kind = .rightBrace) :
    depthFrom depth (t :: ts) = depthFrom (depth - 1) ts := by
  rw [depthFrom, List.foldl_cons, h]
  rfl

theorem depthFrom_cons_other (h : t.kind.isBrace = false) :
    depthFrom depth (t :: ts) = depthFrom depth ts := by
  obtain ⟨hl, hr⟩ := Kind.ne_of_isBrace h
  rw [depthFrom, List.foldl_cons, depthAfter_of_ne depth hl hr]
  rfl

theorem level_cons_other (h : t.kind.isBrace = false) : level k (t :: ts) = level k ts :=
  level_cons_of_ne (Kind.ne_of_isBrace h).1 (Kind.ne_of_isBrace h).2

/-- Where the level is known, no brace is stray. -/
theorem strayFree_of_level (h : level k ts = some m) : StrayFree k ts := by
  induction ts generalizing k with
  | nil => simp [StrayFree, owed]
  | cons t ts ih =>
    rw [strayFree_cons]
    rcases t.kind.brace_cases with hk | hk | hk
    · rw [level_cons_up hk] at h
      rw [hk]
      exact ⟨fun hr => absurd hr (by decide), ih h⟩
    · cases k with
      | zero => simp [level_cons_stray hk] at h
      | succ k =>
        rw [level_cons_down hk] at h
        rw [hk]
        exact ⟨fun _ => Nat.succ_ne_zero k, ih h⟩
    · obtain ⟨hl, hr⟩ := Kind.ne_of_isBrace hk
      rw [level_cons_of_ne hl hr] at h
      rw [depthAfter_of_ne k hl hr]
      exact ⟨fun hr' => absurd hr' hr, ih h⟩

/-- The level comes back to where it was exactly if the braces are balanced. -/
theorem level_eq_zero_iff : level 0 ts = some 0 ↔ ∃ w : DyckWord, w.toList = braceWord ts := by
  constructor
  · intro h
    -- no brace is stray and none is open at the end, so nothing is owed
    have hzero : depthFrom 0 ts = 0 := by simpa using (le_depth_of_level h 0).2
    refine (isDyck_iff ts default).mp fun x hx => ?_
    rw [hzero, owedAtEnd, if_pos rfl, List.append_nil] at hx
    exact strayFree_of_level h x hx
  · rintro ⟨w, hw⟩
    exact level_of_dyck w hw

end Depth

end Token

namespace Reading

/-! ### The end of a block -/

/-- **Matching braces.** Behind an opening brace, `closing` is the brace that closes the block: the
braces in between are balanced. -/
structure Closes (es inner : List Entry) (closing : Entry) (behind : List Entry) : Prop where
  split : es = inner ++ closing :: behind
  kind : closing.kind = .rightBrace
  balanced : ∃ w : DyckWord, w.toList = Token.braceWord (inner.map (·.token))

/-- Behind an opening brace, there is no brace that closes the block. -/
def NeverClosed (es : List Entry) : Prop := ¬ ∃ inner closing behind, Closes es inner closing behind

section Blocks

variable {es inner behind : List Entry} {closing : Entry} {t : Token} {k depth : Nat}

theorem closeBlock_of_level (h : Token.level k (inner.map (·.token)) = some 0)
    (hclosing : closing.kind = .rightBrace) :
    closeBlock k (inner ++ closing :: behind) = some (closing.token, behind) := by
  induction inner generalizing k with
  | nil =>
    obtain rfl := Option.some.inj h
    simp only [List.nil_append, closeBlock, hclosing]
  | cons e inner ih =>
    rw [List.map_cons] at h
    rw [List.cons_append]
    rcases e.kind.brace_cases with hk | hk | hk
    · rw [Token.level_cons_up hk] at h
      rw [closeBlock_leftBrace hk, ih h]
    · cases k with
      | zero => simp [Token.level_cons_stray (t := e.token) hk] at h
      | succ k =>
        rw [Token.level_cons_down hk] at h
        rw [closeBlock_rightBrace hk, ih h]
    · rw [Token.level_cons_other hk] at h
      rw [closeBlock_other hk, ih h]

/-- **The reader finds the brace** that closes a block. -/
theorem closeBlock_eq_some_iff :
    closeBlock 0 es = some (t, behind) ↔
      ∃ inner closing, Closes es inner closing behind ∧ closing.token = t := by
  constructor
  · intro h
    obtain ⟨inner, closing, hsplit, htoken, hkind, hlevel⟩ := exists_level_of_closeBlock h
    exact ⟨inner, closing, ⟨hsplit, hkind, Token.level_eq_zero_iff.mp hlevel⟩, htoken⟩
  · rintro ⟨inner, closing, ⟨rfl, hkind, hbalanced⟩, rfl⟩
    exact closeBlock_of_level (Token.level_eq_zero_iff.mpr hbalanced) hkind

theorem closeBlock_eq_none_iff : closeBlock 0 es = none ↔ NeverClosed es := by
  constructor
  · rintro h ⟨inner, closing, behind, hcloses⟩
    rw [closeBlock_eq_some_iff.mpr ⟨inner, closing, hcloses, rfl⟩] at h
    exact nomatch h
  · intro h
    cases hclose : closeBlock 0 es with
    | none => rfl
    | some p =>
      obtain ⟨inner, closing, hcloses, -⟩ := closeBlock_eq_some_iff.mp hclose
      exact absurd ⟨inner, closing, p.2, hcloses⟩ h

/-! ### Two counters -/

/-- Of the braces that are open, one that is never closed stays open. The counter starts with all
that are open there, those further out included. -/
theorem depthFrom_pos_of_closeBlock (h : closeBlock k es = none) (hk : k < depth) :
    0 < Token.depthFrom depth (es.map (·.token)) := by
  induction es generalizing k depth with
  | nil => exact Nat.zero_lt_of_lt hk
  | cons e es ih =>
    rw [List.map_cons]
    rcases e.kind.brace_cases with he | he | he
    · rw [closeBlock_leftBrace he] at h
      rw [Token.depthFrom_cons_up he]
      exact ih h (Nat.succ_lt_succ hk)
    · cases k with
      | zero => simp [closeBlock, he] at h
      | succ k =>
        rw [closeBlock_rightBrace he] at h
        rw [Token.depthFrom_cons_down he]
        exact ih h (Nat.lt_pred_of_succ_lt hk)
    · rw [closeBlock_other he] at h
      rw [Token.depthFrom_cons_other he]
      exact ih h hk

/-- Where the counter ends above zero, a brace is never closed: one of those that are met, or the
outermost of those that are open in front of them. -/
theorem exists_of_depthFrom_pos (h : 0 < Token.depthFrom depth (es.map (·.token))) :
    (∃ opening es', opening :: es' <:+ es ∧ opening.kind = .leftBrace ∧
      closeBlock 0 es' = none) ∨ ∃ k, depth = k + 1 ∧ closeBlock k es = none := by
  induction es generalizing depth with
  | nil =>
    obtain ⟨k, rfl⟩ := Nat.exists_eq_add_one.mpr h
    exact .inr ⟨k, rfl, rfl⟩
  | cons e es ih =>
    rw [List.map_cons] at h
    rcases e.kind.brace_cases with he | he | he
    · rw [Token.depthFrom_cons_up he] at h
      rcases ih h with ⟨opening, es', hsuffix, hmet⟩ | ⟨k, hk, hclose⟩
      · exact .inl ⟨opening, es', hsuffix.trans (List.suffix_cons e es), hmet⟩
      · obtain rfl : depth = k := Nat.succ.inj hk
        -- the outermost brace is this one if none was open in front of it
        cases depth with
        | zero => exact .inl ⟨e, es, List.suffix_refl _, he, hclose⟩
        | succ k => exact .inr ⟨k, rfl, by rw [closeBlock_leftBrace he, hclose]⟩
    · rw [Token.depthFrom_cons_down he] at h
      rcases ih h with ⟨opening, es', hsuffix, hmet⟩ | ⟨k, hk, hclose⟩
      · exact .inl ⟨opening, es', hsuffix.trans (List.suffix_cons e es), hmet⟩
      · -- the outermost brace is further out, and this one closes another
        refine .inr ⟨k + 1, by omega, ?_⟩
        rw [closeBlock_rightBrace he, hclose]
    · rw [Token.depthFrom_cons_other he] at h
      rcases ih h with ⟨opening, es', hsuffix, hmet⟩ | ⟨k, hk, hclose⟩
      · exact .inl ⟨opening, es', hsuffix.trans (List.suffix_cons e es), hmet⟩
      · exact .inr ⟨k, hk, by rw [closeBlock_other he, hclose]⟩

/-- **The counter and the blocks.** Started at zero, a counter that does not go below zero ends
above zero exactly if some opening brace is never closed. -/
theorem depthFrom_pos_iff :
    0 < Token.depthFrom 0 (es.map (·.token)) ↔
      ∃ opening es', opening :: es' <:+ es ∧ opening.kind = .leftBrace ∧ NeverClosed es' := by
  simp only [← closeBlock_eq_none_iff]
  constructor
  · intro h
    refine (exists_of_depthFrom_pos h).resolve_right ?_
    rintro ⟨k, hk, -⟩
    exact Nat.succ_ne_zero k hk.symm
  · rintro ⟨opening, es', ⟨before, rfl⟩, hk, hclose⟩
    rw [List.map_append, Token.depthFrom_append, List.map_cons, Token.depthFrom_cons_up hk]
    exact depthFrom_pos_of_closeBlock hclose (Nat.succ_pos _)

end Blocks

/-! ### The scanner -/

/-- The braces of a stream are those of its significant tokens. -/
theorem depthFrom_entries (s : Token.Scanner) (doc : Option String) (depth : Nat) :
    Token.depthFrom depth ((entries doc s.tokens).map (·.token))
      = Token.depthFrom depth s.tokens := by
  induction s using Token.Scanner.stream_induction generalizing doc depth with
  | last s h =>
    rw [Token.Scanner.tokens_of_endOfText h, Token.depthFrom_cons_other (by rw [h]; rfl)]
    simp [entries, h]
  | step s h ih =>
    rw [Token.Scanner.tokens_of_ne h, entries]
    -- a token that makes no entry is no brace
    split
    case h_7 => contradiction
    case h_8 => exact ih none (Token.depthAfter depth s.next.1.kind)
    all_goals
      next hk =>
        rw [ih, Token.depthFrom_cons_other (by rw [hk]; rfl)]

/-- No token owes an unclosed scope. -/
theorem unclosedScope_notMem_owed {ts : List Token} {depth n : Nat} {span : Span} :
    (some (.unclosedScope n), span) ∉ Token.owed depth ts := by
  induction ts generalizing depth with
  | nil => simp [Token.owed]
  | cons t ts ih =>
    rw [Token.owed, List.mem_append, not_or]
    refine ⟨?_, ih⟩
    unfold Token.owedBy
    split
    · simp
    · split_ifs <;> simp
    · simp

/-- An error about braces is one of those that are accounted for. -/
theorem mem_iff_account {errors : List LexicalError} {fault : LexicalFault} {span : Span}
    (hscope : fault.isScope = true) :
    ⟨fault, span⟩ ∈ errors ↔ (some fault, span) ∈ errors.map LexicalError.account := by
  rw [List.mem_map]
  constructor
  · intro h
    exact ⟨_, h, by simp [LexicalError.account, hscope]⟩
  · rintro ⟨⟨fault', span'⟩, h, haccount⟩
    obtain ⟨hfault, rfl⟩ := Prod.mk.inj haccount
    split_ifs at hfault
    obtain rfl := Option.some.inj hfault
    exact h

/-- The scanner reports an unclosed scope exactly if its counter ends above zero. -/
theorem exists_unclosedScope_iff (source : String) :
    (∃ depth span, ⟨.unclosedScope depth, span⟩ ∈ (Token.Scanner.ofFile source).run.2.errors) ↔
      0 < Token.depthFrom 0 (Token.Scanner.ofFile source).tokens := by
  let s := Token.Scanner.ofFile source
  obtain ⟨n, hend, htokens⟩ := s.tokens_eq
  obtain ⟨n', hend', hrun, -⟩ := s.run_eq
  obtain rfl := hend.unique hend'
  -- the end of the text is no brace
  have hdepth : Token.depthFrom 0 s.tokens = Token.depthFrom 0 (s.given n) := by
    rw [htokens, Token.Scanner.given_succ, Token.depthFrom_append]
    exact Token.depthFrom_cons_other (by rw [hend.1]; rfl)
  have haccount := (Token.Scanner.accounted_start .html source).errors_eq n hend
  rw [show Token.Scanner.start .html source = s from rfl, ← hrun] at haccount
  show (∃ depth span, (⟨.unclosedScope depth, span⟩ : LexicalError) ∈ s.run.2.errors) ↔ _
  rw [hdepth]
  have hmem : ∀ depth span, (⟨.unclosedScope depth, span⟩ : LexicalError) ∈ s.run.2.errors ↔
      (some (.unclosedScope depth), span)
        ∈ Token.owedAtEnd (Token.depthFrom 0 (s.given n)) (s.tokenAt n).span := by
    intro depth span
    rw [mem_iff_account rfl, haccount, List.mem_append,
      or_iff_right unclosedScope_notMem_owed]
  simp only [hmem, Token.owedAtEnd]
  split_ifs with hzero
  · simp [hzero]
  · simpa using Nat.pos_of_ne_zero hzero

/-- **Unclosed scopes.** The scanner reports one exactly if some opening brace among the
significant tokens is never closed. -/
theorem unclosedScope_iff (source : String) :
    (∃ depth span, ⟨.unclosedScope depth, span⟩ ∈ (Token.Scanner.ofFile source).run.2.errors) ↔
      ∃ opening es, opening :: es <:+ (FileState.start source).rest ∧
        opening.kind = .leftBrace ∧ NeverClosed es := by
  rw [exists_unclosedScope_iff, ← depthFrom_pos_iff, ← depthFrom_entries _ none]
  rfl

/-! ### The reader -/

section SkipBlock

variable {s : State} {opening : Entry} {es inner behind : List Entry} {closing : Entry}

theorem Closes.skipBlock (h : Closes es inner closing behind) (hrest : s.rest = opening :: es)
    (hopening : opening.kind = .leftBrace) :
    Yields skipBlock s closing.token { s with rest := behind } := by
  have hpeek : s.peek.kind = .leftBrace := by
    rw [State.peek_of_rest hrest]
    exact hopening
  refine Yields.skipBlock hpeek ?_
  rw [hrest, List.tail_cons]
  exact closeBlock_eq_some_iff.mpr ⟨inner, closing, h, rfl⟩

/-- A block is read exactly if there is a brace that closes it. -/
theorem skipBlock_yields_iff (hrest : s.rest = opening :: es)
    (hopening : opening.kind = .leftBrace) :
    (∃ t s', Yields skipBlock s t s') ↔ ∃ inner closing behind, Closes es inner closing behind := by
  constructor
  · rintro ⟨t, s', hyields⟩
    by_contra hnever
    have hpeek : s.peek.kind = .leftBrace := by
      rw [State.peek_of_rest hrest]
      exact hopening
    -- a block that nothing closes is given up
    have hclose : closeBlock 0 s.rest.tail = none := by
      rw [hrest, List.tail_cons]
      exact closeBlock_eq_none_iff.mpr hnever
    have hfails := Fails.skipBlock hpeek hclose
    rw [Fails, hyields] at hfails
    exact absurd hfails (by simp)
  · rintro ⟨inner, closing, behind, h⟩
    exact ⟨_, _, h.skipBlock hrest hopening⟩

end SkipBlock

end Reading

namespace SourceFile

open Reading

/-- **Mismatched delimiters.** What is reported about them is true, and what is reported about
braces has been reported by the scanner, too. -/
structure DelimitersAccounted (file : SourceFile) : Prop where
  /-- A mismatched delimiter begins an attribute, or a block that is never closed. -/
  explained : ∀ d ∈ file.read.2, d.kind = .mismatchedDelimiter →
    (∃ opening ∈ (FileState.start file.text).rest, opening.kind = .attributeOpen ∧
      d = ⟨.mismatchedDelimiter, opening.token.span, "attribute is never closed"⟩) ∨
    ∃ opening es, opening :: es <:+ (FileState.start file.text).rest ∧
      opening.kind = .leftBrace ∧ NeverClosed es ∧
      d = ⟨.mismatchedDelimiter, opening.token.span, "'\x7b' is never closed"⟩
  /-- Where a brace is reported as never closed, the scanner has reported an unclosed scope. -/
  reported : ∀ d ∈ file.read.2, d.kind = .mismatchedDelimiter →
    d.message = "'\x7b' is never closed" → ∃ depth span,
      ⟨.unclosedScope depth, span⟩ ∈ (Token.Scanner.ofFile file.text).run.2.errors
  /-- The scanner reports one exactly if there is such a brace. -/
  unclosedScope_iff :
    (∃ depth span, ⟨.unclosedScope depth, span⟩ ∈ (Token.Scanner.ofFile file.text).run.2.errors) ↔
      ∃ opening es, opening :: es <:+ (FileState.start file.text).rest ∧
        opening.kind = .leftBrace ∧ NeverClosed es
  /-- Wherever an opening brace is next, the block is read exactly if a brace closes it. -/
  skipBlock_iff : ∀ (s : State) opening es, s.rest = opening :: es →
    opening.kind = .leftBrace → ((∃ t s', Yields skipBlock s t s') ↔
      ∃ inner closing behind, Closes es inner closing behind)
  /-- The reading goes on right behind that brace. -/
  skipBlock_stops : ∀ (s : State) opening es inner closing behind, s.rest = opening :: es →
    opening.kind = .leftBrace → Closes es inner closing behind →
    Yields skipBlock s closing.token { s with rest := behind }

/-- What is reported about delimiters is reported about tokens of the file. -/
theorem unclosed_of_mem_read {file : SourceFile} {d : Diagnostic} (hd : d ∈ file.read.2)
    (hkind : d.kind = .mismatchedDelimiter) :
    (FileState.start file.text).toState.Unclosed d := by
  rcases file.lexical_or_mayReport hd with ⟨e, -, rfl⟩ | hreport
  · -- the errors of the scanner are of a kind of their own
    exact nomatch hkind
  · exact hreport.unclosed (FileState.kind_eof_start file.text) hkind

/-- **Brace errors come from unclosed scopes.** In every file, a brace that is reported as never
closed has no match, and the scanner has reported an unclosed scope. -/
theorem delimiters_accounted (file : SourceFile) : file.DelimitersAccounted where
  explained d hd hkind := by
    cases unclosed_of_mem_read hd hkind with
    | openAttribute hmem hopening => exact .inl ⟨_, hmem, hopening, rfl⟩
    | openBlock hsuffix hopening hclose =>
      exact .inr ⟨_, _, hsuffix, hopening, closeBlock_eq_none_iff.mp hclose, rfl⟩
  reported d hd hkind hmessage := by
    rw [Reading.unclosedScope_iff]
    cases unclosed_of_mem_read hd hkind with
    | openAttribute =>
      have hother : "attribute is never closed" ≠ "'\x7b' is never closed" := by decide
      exact absurd hmessage hother
    | openBlock hsuffix hopening hclose =>
      exact ⟨_, _, hsuffix, hopening, closeBlock_eq_none_iff.mp hclose⟩
  unclosedScope_iff := Reading.unclosedScope_iff file.text
  skipBlock_iff _ _ _ := skipBlock_yields_iff
  skipBlock_stops _ _ _ _ _ _ hrest hopening h := h.skipBlock hrest hopening

/-- A stray brace in front of a function that is never closed. -/
example : ({ text := "<?php \x7d function f() \x7b if (a) \x7b \x7d" : SourceFile }).read.2.map
    (·.kind) = [.lexical, .lexical, .mismatchedDelimiter] := by
  decide +kernel

end SourceFile

end Introspect
