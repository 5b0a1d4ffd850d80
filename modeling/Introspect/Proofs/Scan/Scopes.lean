import Introspect.Proofs.Scan.Stream
import Mathlib.Combinatorics.Enumerative.DyckWord
import Mathlib.Order.Bounds.Basic

/-!
# Scopes and lexical errors

What the scanner keeps about braces and errors is determined by the tokens it has given. The depth
is a counter over their kinds (`depthFrom`), the greatest depth its maximum, and every error is
accounted for by a token: invalid input, a closing brace at depth zero, or the end of the text with
braces still open (`owed`).

* `Scanner.next_scoped` is the step lemma: one request counts, and reports, for the token it gives;
* `Scanner.depth_behind`, `Scanner.isGreatest_maxDepth`, `Scanner.errors_behind` are what it gives
  along the stream, and `Scanner.EndsAt.behind_add` what remains behind the end;
* `isDyck_iff` says that no brace is stray and none is left open exactly when the braces form a Dyck
  word;
* `Scanner.scopes_accounted` puts these together for a whole source.
-/

namespace Introspect

/-- An error as it is accounted for: faults about braces are told apart, faults of the text of a
single token are not. -/
def LexicalError.account (e : LexicalError) : Option LexicalFault × Span :=
  (if e.fault.isScope then some e.fault else none, e.span)

namespace Token

/-! ### Counting braces -/

/-- The depth behind a token. It does not go below zero. -/
def depthAfter (depth : Nat) : Kind → Nat
  | .leftBrace => depth + 1
  | .rightBrace => depth - 1
  | _ => depth

/-- The depth behind a list of tokens. -/
def depthFrom (depth : Nat) (ts : List Token) : Nat :=
  ts.foldl (fun d t => depthAfter d t.kind) depth

/-- What is to be reported for a token in front of which `depth` braces are open. -/
def owedBy (depth : Nat) (t : Token) : List (Option LexicalFault × Span) :=
  match t.kind with
  | .invalid => [(none, t.span)]
  | .rightBrace => if depth = 0 then [(some .unbalancedScope, t.span)] else []
  | _ => []

/-- What is to be reported for a list of tokens, in their order. -/
def owed (depth : Nat) : List Token → List (Option LexicalFault × Span)
  | [] => []
  | t :: ts => owedBy depth t ++ owed (depthAfter depth t.kind) ts

/-- What is to be reported at the end of the text. -/
def owedAtEnd (depth : Nat) (span : Span) : List (Option LexicalFault × Span) :=
  if depth = 0 then [] else [(some (.unclosedScope depth), span)]

/-- The step of a brace: up where it opens, down where it closes. -/
def braceStep? (t : Token) : Option DyckStep :=
  match t.kind with
  | .leftBrace => some .U
  | .rightBrace => some .D
  | _ => none

/-- The word that the braces among the tokens form. -/
def braceWord (ts : List Token) : List DyckStep := ts.filterMap braceStep?

theorem depthAfter_of_ne {kind : Kind} (depth : Nat) (hl : kind ≠ .leftBrace)
    (hr : kind ≠ .rightBrace) : depthAfter depth kind = depth := by
  unfold depthAfter
  split
  · exact absurd rfl hl
  · exact absurd rfl hr
  · rfl

theorem owedBy_of_ne {t : Token} (depth : Nat) (hi : t.kind ≠ .invalid)
    (hr : t.kind ≠ .rightBrace) : owedBy depth t = [] := by
  unfold owedBy
  split
  · next h => exact absurd h hi
  · next h => exact absurd h hr
  · rfl

theorem braceStep?_of_ne {t : Token} (hl : t.kind ≠ .leftBrace) (hr : t.kind ≠ .rightBrace) :
    braceStep? t = none := by
  unfold braceStep?
  split
  · next h => exact absurd h hl
  · next h => exact absurd h hr
  · rfl

theorem depthFrom_append (depth : Nat) (ts us : List Token) :
    depthFrom depth (ts ++ us) = depthFrom (depthFrom depth ts) us :=
  List.foldl_append

theorem owed_append (depth : Nat) (ts us : List Token) :
    owed depth (ts ++ us) = owed depth ts ++ owed (depthFrom depth ts) us := by
  induction ts generalizing depth with
  | nil => rfl
  | cons t ts ih =>
    rw [List.cons_append, owed, owed, ih, List.append_assoc]
    rfl

/-! ### Balanced braces -/

/-- Read from `depth` on, the word never goes below zero. -/
def StaysAbove (depth : Nat) (w : List DyckStep) : Prop :=
  ∀ i, (w.take i).count .D ≤ depth + (w.take i).count .U

theorem staysAbove_up {depth : Nat} {w : List DyckStep} :
    StaysAbove depth (.U :: w) ↔ StaysAbove (depth + 1) w := by
  have hne : DyckStep.U ≠ .D := by decide
  constructor
  · intro h i
    have hi := h (i + 1)
    rw [List.take_succ_cons, List.count_cons_self, List.count_cons_of_ne hne] at hi
    omega
  · -- the empty part of the word is above zero anyway
    rintro h (_ | i)
    · simp
    · have hi := h i
      rw [List.take_succ_cons, List.count_cons_self, List.count_cons_of_ne hne]
      omega

theorem staysAbove_down {depth : Nat} {w : List DyckStep} :
    StaysAbove depth (.D :: w) ↔ depth ≠ 0 ∧ StaysAbove (depth - 1) w := by
  have hne : DyckStep.D ≠ .U := by decide
  constructor
  · intro h
    -- from zero, the first step alone would go below
    have hone : depth ≠ 0 := by
      rintro rfl
      exact absurd (h 1) (by simp)
    refine ⟨hone, ?_⟩
    intro i
    have hi := h (i + 1)
    rw [List.take_succ_cons, List.count_cons_self, List.count_cons_of_ne hne] at hi
    omega
  · rintro ⟨hone, h⟩ (_ | i)
    · simp
    · have hi := h i
      rw [List.take_succ_cons, List.count_cons_self, List.count_cons_of_ne hne]
      omega

/-- Nothing is to be reported about a brace among the tokens. -/
def StrayFree (depth : Nat) (ts : List Token) : Prop := ∀ x ∈ owed depth ts, x.1 = none

theorem strayFree_cons {depth : Nat} {t : Token} {ts : List Token} :
    StrayFree depth (t :: ts) ↔
      (t.kind = .rightBrace → depth ≠ 0) ∧ StrayFree (depthAfter depth t.kind) ts := by
  simp only [StrayFree, owed, List.mem_append, or_imp, forall_and]
  refine and_congr_left fun _ => ?_
  constructor
  · intro h hr hd
    have habs := h (some .unbalancedScope, t.span) (by simp [owedBy, hr, hd])
    exact absurd habs (by simp)
  · -- of the kinds for which something is owed, invalid input is not about braces
    intro h x hx
    unfold owedBy at hx
    split at hx
    · obtain rfl := List.mem_singleton.mp hx
      rfl
    · next hr => exact absurd hx (by simp [h hr])
    · exact absurd hx (by simp)

section BraceWord

variable {t : Token} (ts : List Token)

theorem braceWord_cons_up (h : t.kind = .leftBrace) :
    braceWord (t :: ts) = .U :: braceWord ts :=
  List.filterMap_cons_some (by simp [braceStep?, h])

theorem braceWord_cons_down (h : t.kind = .rightBrace) :
    braceWord (t :: ts) = .D :: braceWord ts :=
  List.filterMap_cons_some (by simp [braceStep?, h])

theorem braceWord_cons_of_ne (hl : t.kind ≠ .leftBrace) (hr : t.kind ≠ .rightBrace) :
    braceWord (t :: ts) = braceWord ts :=
  List.filterMap_cons_none (braceStep?_of_ne hl hr)

end BraceWord

/-- No brace is stray exactly when the word of the braces stays above zero. -/
theorem strayFree_iff (depth : Nat) (ts : List Token) :
    StrayFree depth ts ↔ StaysAbove depth (braceWord ts) := by
  induction ts generalizing depth with
  | nil => simp [StrayFree, StaysAbove, owed, braceWord]
  | cons t ts ih =>
    rw [strayFree_cons, ih]
    by_cases hl : t.kind = .leftBrace
    · rw [braceWord_cons_up ts hl, staysAbove_up, hl]
      simp [depthAfter]
    by_cases hr : t.kind = .rightBrace
    · rw [braceWord_cons_down ts hr, staysAbove_down, hr]
      simp [depthAfter]
    · rw [braceWord_cons_of_ne ts hl hr, depthAfter_of_ne depth hl hr]
      simp [hr]

/-- Where no brace is stray, the counter counts. -/
theorem depthFrom_add_count {depth : Nat} {ts : List Token} (h : StrayFree depth ts) :
    depthFrom depth ts + (braceWord ts).count .D = depth + (braceWord ts).count .U := by
  induction ts generalizing depth with
  | nil => simp [depthFrom, braceWord]
  | cons t ts ih =>
    obtain ⟨hstray, htail⟩ := strayFree_cons.mp h
    have hfrom : depthFrom depth (t :: ts) = depthFrom (depthAfter depth t.kind) ts := rfl
    have hcount := ih htail
    rw [hfrom]
    by_cases hl : t.kind = .leftBrace
    · rw [braceWord_cons_up ts hl, List.count_cons_self, List.count_cons_of_ne (by decide)]
      rw [hl] at hcount ⊢
      simp only [depthAfter] at hcount ⊢
      omega
    by_cases hr : t.kind = .rightBrace
    · -- the brace is not stray, so the counter goes down by one and is not cut off at zero
      have hd := hstray hr
      rw [braceWord_cons_down ts hr, List.count_cons_self, List.count_cons_of_ne (by decide)]
      rw [hr] at hcount ⊢
      simp only [depthAfter] at hcount ⊢
      omega
    · rw [depthAfter_of_ne depth hl hr] at hcount ⊢
      rw [braceWord_cons_of_ne ts hl hr]
      exact hcount

/-- **Balanced braces.** Nothing about braces is to be reported exactly when they form a Dyck
word. -/
theorem isDyck_iff (ts : List Token) (span : Span) :
    (∀ x ∈ owed 0 ts ++ owedAtEnd (depthFrom 0 ts) span, x.1 = none) ↔
      ∃ w : DyckWord, w.toList = braceWord ts := by
  simp only [List.mem_append, or_imp, forall_and]
  constructor
  · rintro ⟨hstray, hopen⟩
    -- nothing is owed at the end, so no brace is left open there
    have hzero : depthFrom 0 ts = 0 := by
      by_contra hne
      have habs := hopen (some (.unclosedScope (depthFrom 0 ts)), span) (by simp [owedAtEnd, hne])
      exact absurd habs (by simp)
    have hcount := depthFrom_add_count hstray
    have habove := (strayFree_iff 0 ts).mp hstray
    rw [hzero] at hcount
    exact ⟨⟨braceWord ts, by omega, fun i => by simpa using habove i⟩, rfl⟩
  · rintro ⟨w, hw⟩
    have hstray : StrayFree 0 ts := by
      rw [strayFree_iff, ← hw]
      intro i
      rw [Nat.zero_add]
      exact w.count_D_le_count_U i
    -- as many braces close as open, so the counter is back at zero
    have hzero : depthFrom 0 ts = 0 := by
      have hcount := depthFrom_add_count hstray
      have heq := w.count_U_eq_count_D
      rw [hw] at heq
      omega
    exact ⟨hstray, by simp [owedAtEnd, hzero]⟩

/-! ### One request -/

namespace Scanner

variable {s s' : Scanner} {t : Token}

section Fields

variable (s : Scanner) (kind : Kind) (span : Span)

@[simp] theorem depth_remember : (s.remember kind).depth = s.depth := by
  unfold remember
  split <;> rfl

@[simp] theorem maxDepth_remember : (s.remember kind).maxDepth = s.maxDepth := by
  unfold remember
  split <;> rfl

@[simp] theorem errors_remember : (s.remember kind).errors = s.errors := by
  unfold remember
  split <;> rfl

@[simp] theorem finished_remember : (s.remember kind).finished = s.finished := by
  unfold remember
  split <;> rfl

@[simp] theorem finished_enter : (s.enter kind span).finished = s.finished := by
  unfold enter
  split <;> try rfl
  split <;> rfl

/-- A token counts as its kind says. -/
@[simp] theorem depth_enter : (s.enter kind span).depth = depthAfter s.depth kind := by
  unfold enter
  -- tags and the opening brace by computation; left are the closing brace and all other kinds
  split <;> try rfl
  · split
    · next h => simp [report, depthAfter, h]
    · next h => simp [depthAfter, h]
  · next hl hr => exact (depthAfter_of_ne s.depth hl hr).symm

theorem maxDepth_enter (h : s.depth ≤ s.maxDepth) :
    (s.enter kind span).maxDepth = max s.maxDepth (depthAfter s.depth kind) := by
  unfold enter
  split <;> try exact (Nat.max_eq_left h).symm
  · -- the opening brace, where `enter` takes the maximum itself
    rfl
  · -- the closing brace, behind which the depth is no greater than before
    split
    · next hd => simp [report, depthAfter, hd]
    · next d hd =>
      simp only [depthAfter]
      omega
  · next hl hr =>
    rw [depthAfter_of_ne s.depth hl hr]
    exact (Nat.max_eq_left h).symm

/-- A token reports what is owed for it. -/
theorem errors_enter {lexeme : String} (h : kind ≠ .invalid) :
    ∃ es, (s.enter kind span).errors = s.errors ++ es ∧
      es.map LexicalError.account = owedBy s.depth ⟨kind, lexeme, span⟩ := by
  by_cases hr : kind = .rightBrace
  · subst hr
    cases hd : s.depth with
    | zero =>
      refine ⟨[⟨.unbalancedScope, span⟩], by simp [enter, report, hd], ?_⟩
      simp [owedBy, LexicalError.account, LexicalFault.isScope]
    | succ d => exact ⟨[], by simp [enter, hd], by simp [owedBy]⟩
  · -- no other kind reports
    refine ⟨[], ?_, (owedBy_of_ne s.depth h hr).symm⟩
    unfold enter
    split <;> simp_all

end Fields

/-- **One step of the account:** what a request that gives `t` does to the depth, the greatest depth
and the errors. -/
structure Scoped (s : Scanner) (t : Token) (s' : Scanner) : Prop where
  depth_eq : s'.depth = depthAfter s.depth t.kind
  maxDepth_eq : s.depth ≤ s.maxDepth → s'.maxDepth = max s.maxDepth s'.depth
  finished_eq : t.kind ≠ .endOfText → s'.finished = s.finished
  errors_eq : t.kind ≠ .endOfText →
    ∃ es, s'.errors = s.errors ++ es ∧ es.map LexicalError.account = owedBy s.depth t
  /-- The end of the text reports the first time it is met. -/
  errors_end : t.kind = .endOfText → s.finished = false →
    ∃ es, s'.errors = s.errors ++ es ∧ es.map LexicalError.account = owedAtEnd s.depth t.span

theorem Emits.scoped (h : Emits s t s') : s.Scoped t s' := by
  cases h with
  | finish hr =>
    have hdepth := s.depth_finish
    have hmax : s.finish.2.maxDepth = s.maxDepth := by
      simp only [Scanner.finish, maxDepth_remember]
      split_ifs <;> rfl
    refine ⟨hdepth, ?_, fun hk => absurd rfl hk, fun hk => absurd rfl hk, ?_⟩
    · intro hle
      rw [hmax, hdepth, Nat.max_eq_left hle]
    · -- the first time, an open brace is reported with the depth
      intro _ hf
      by_cases hd : s.depth = 0
      · exact ⟨[], by simp [Scanner.finish, hd], by simp [owedAtEnd, hd]⟩
      · refine ⟨[⟨.unclosedScope s.depth, Span.point s.pos⟩], ?_, ?_⟩
        · simp [Scanner.finish, hf, hd, report]
        · simp [owedAtEnd, hd, LexicalError.account, LexicalFault.isScope, Scanner.finish]
  | @token p kind hp hv =>
    have hproper := piece?_proper hp
    rw [hv] at hproper
    refine ⟨?_, ?_, ?_, ?_, fun hk => absurd hk hproper.1⟩
    · simp [take, skip]
    · intro hle
      simp only [take, maxDepth_remember, depth_remember, depth_enter]
      exact maxDepth_enter _ _ _ hle
    · intro _
      simp [take, skip]
    · intro _
      simp only [take, errors_remember]
      exact errors_enter (s.skip p.length) kind _ hproper.2
  | @broken p fault hp hv =>
    have hproper := piece?_proper hp
    rw [hv] at hproper
    have hscope : fault.isScope = false := hproper
    refine ⟨rfl, ?_, fun _ => rfl, ?_, fun hk => absurd hk (by simp [reject])⟩
    · intro hle
      exact (Nat.max_eq_left hle).symm
    · -- the one error of invalid input is about its text, not about braces
      intro _
      exact ⟨[_], rfl, by simp [LexicalError.account, hscope, owedBy, reject]⟩

/-- **One request** counts and reports for the token it gives. -/
theorem next_scoped (s : Scanner) : s.Scoped s.next.1 s.next.2 := by
  obtain ⟨s', hpass, hemit⟩ := s.next_spec
  obtain ⟨n, rfl⟩ := hpass.exists_skip
  -- trivia moves the scanner and leaves the fields of the account alone
  have h := hemit.scoped
  exact ⟨h.depth_eq, h.maxDepth_eq, h.finished_eq, h.errors_eq, h.errors_end⟩

/-! ### Along the stream -/

/-- The depth is the counter over the tokens given so far, before and behind the end. -/
theorem depth_behind (s : Scanner) (n : Nat) :
    (s.behind n).depth = depthFrom s.depth (s.given n) := by
  induction n with
  | zero => rfl
  | succ n ih =>
    rw [behind_succ, (s.behind n).next_scoped.depth_eq, ih, given_succ, depthFrom_append]
    rfl

theorem maxDepth_behind_succ (hs : s.depth ≤ s.maxDepth) (n : Nat) :
    (s.behind n).depth ≤ (s.behind n).maxDepth ∧
      (s.behind (n + 1)).maxDepth = max (s.behind n).maxDepth (s.behind (n + 1)).depth := by
  induction n with
  | zero => exact ⟨hs, s.next_scoped.maxDepth_eq hs⟩
  | succ n ih =>
    have hle : (s.behind (n + 1)).depth ≤ (s.behind (n + 1)).maxDepth := by
      rw [ih.2]
      exact Nat.le_max_right _ _
    exact ⟨hle, (s.behind (n + 1)).next_scoped.maxDepth_eq hle⟩

/-- The greatest depth is the maximum of the counter over all parts of the stream so far. -/
theorem isGreatest_maxDepth (hs : s.depth = s.maxDepth) (n : Nat) :
    IsGreatest {d | ∃ i ≤ n, d = depthFrom s.depth (s.given i)} (s.behind n).maxDepth := by
  induction n with
  | zero =>
    refine ⟨⟨0, Nat.le_refl 0, hs.symm⟩, ?_⟩
    rintro d ⟨i, hi, rfl⟩
    obtain rfl : i = 0 := Nat.le_zero.mp hi
    exact hs.le
  | succ n ih =>
    obtain ⟨⟨i, hi, hmax⟩, hupper⟩ := ih
    rw [(maxDepth_behind_succ hs.le n).2, depth_behind]
    constructor
    · -- it is reached: by an earlier part of the stream or by all of it
      rcases max_choice (s.behind n).maxDepth (depthFrom s.depth (s.given (n + 1))) with h | h
      · exact ⟨i, by omega, h.trans hmax⟩
      · exact ⟨n + 1, Nat.le_refl _, h⟩
    · rintro d ⟨j, hj, rfl⟩
      by_cases hjn : j = n + 1
      · subst hjn
        exact Nat.le_max_right _ _
      · exact le_max_of_le_left (hupper ⟨j, by omega, rfl⟩)

/-- Up to the end, every error is owed for a token, in the order of the stream. -/
theorem errors_behind (herrors : s.errors = []) (hfinished : s.finished = false) {n : Nat}
    (hn : ∀ i < n, (s.tokenAt i).kind ≠ .endOfText) :
    (s.behind n).finished = false ∧
      (s.behind n).errors.map LexicalError.account = owed s.depth (s.given n) := by
  induction n with
  | zero => exact ⟨hfinished, by simp [given, owed, herrors]⟩
  | succ n ih =>
    obtain ⟨hf, he⟩ := ih fun i hi => hn i (by omega)
    have hkind : (s.behind n).next.1.kind ≠ .endOfText := hn n (by omega)
    have hstep := (s.behind n).next_scoped
    obtain ⟨es, herr, haccount⟩ := hstep.errors_eq hkind
    refine ⟨(hstep.finished_eq hkind).trans hf, ?_⟩
    rw [behind_succ, herr, List.map_append, he, haccount, given_succ, owed_append, ← depth_behind]
    simp [owed, tokenAt]

/-- At the end, braces left open are reported last. -/
theorem errors_behind_end (herrors : s.errors = []) (hfinished : s.finished = false) {n : Nat}
    (hn : s.EndsAt n) :
    (s.behind (n + 1)).errors.map LexicalError.account =
      owed s.depth (s.given n) ++
        owedAtEnd (depthFrom s.depth (s.given n)) (s.tokenAt n).span := by
  obtain ⟨hf, he⟩ := errors_behind herrors hfinished hn.2
  obtain ⟨es, herr, haccount⟩ := (s.behind n).next_scoped.errors_end hn.1 hf
  rw [behind_succ, herr, List.map_append, he, haccount, ← depth_behind]
  rfl

theorem isScope_eq_false_iff (e : LexicalError) : e.fault.isScope = false ↔ e.account.1 = none := by
  simp [LexicalError.account]

/-- At the end, no error is about braces exactly when the braces form a Dyck word. -/
theorem isScope_eq_false_iff_dyck (hdepth : s.depth = 0) (herrors : s.errors = [])
    (hfinished : s.finished = false) {n : Nat} (hn : s.EndsAt n) :
    (∀ e ∈ (s.behind (n + 1)).errors, e.fault.isScope = false) ↔
      ∃ w : DyckWord, w.toList = braceWord (s.given n) := by
  have haccount := errors_behind_end herrors hfinished hn
  rw [hdepth] at haccount
  rw [← isDyck_iff _ (s.tokenAt n).span, ← haccount, List.forall_mem_map]
  simp only [isScope_eq_false_iff]

/-! ### A whole source -/

/-- **The account of a stream.** Depths and errors are what the tokens say. -/
structure Accounted (s : Scanner) : Prop where
  /-- Behind every part of the stream the depth is the counter over its tokens. -/
  depth_eq : ∀ n, (s.behind n).depth = depthFrom 0 (s.given n)
  /-- The greatest depth is the maximum that the counter has reached. -/
  maxDepth_eq : ∀ n,
    IsGreatest {d | ∃ i ≤ n, d = depthFrom 0 (s.given i)} (s.behind n).maxDepth
  /-- At the end there is one error for each token that owes one, in order, and a last one if braces
  are open. -/
  errors_eq : ∀ n, s.EndsAt n → (s.behind (n + 1)).errors.map LexicalError.account =
    owed 0 (s.given n) ++ owedAtEnd (depthFrom 0 (s.given n)) (s.tokenAt n).span
  /-- Further requests give the end again and report nothing. -/
  settled : ∀ n, s.EndsAt n → ∀ m, s.tokenAt (n + m) = s.tokenAt n ∧
    (s.behind (n + 1 + m)).errors = (s.behind (n + 1)).errors
  /-- No error is about braces exactly when the braces are balanced. -/
  balanced_iff : ∀ n, s.EndsAt n →
    ((∀ e ∈ (s.behind (n + 1)).errors, e.fault.isScope = false) ↔
      ∃ w : DyckWord, w.toList = braceWord (s.given n))

theorem accounted_start (entry : Mode) (source : String) : (start entry source).Accounted where
  depth_eq := depth_behind _
  maxDepth_eq := isGreatest_maxDepth rfl
  errors_eq := fun n hn => errors_behind_end rfl rfl hn
  settled := by
    intro n hn m
    obtain ⟨last, beforeLast, hm⟩ := hn.behind_add m
    exact ⟨hn.tokenAt_add m, by rw [hm]⟩
  balanced_iff := fun n hn => isScope_eq_false_iff_dyck rfl rfl rfl hn

/-- **Scope and error accounting.** For every source and in both modes, the run ends, and its depths
and errors are those that its tokens account for. -/
theorem scopes_accounted (entry : Mode) (source : String) :
    (∃ n, (start entry source).EndsAt n ∧
      (start entry source).run.2 = (start entry source).behind (n + 1) ∧
      (start entry source).run.1 = (List.range (n + 1)).map fun i =>
        ((start entry source).tokenAt i, ((start entry source).behind (i + 1)).depth)) ∧
    (start entry source).Accounted :=
  ⟨run_eq _, accounted_start entry source⟩

end Scanner

end Token

end Introspect
