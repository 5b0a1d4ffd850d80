import Introspect.Proofs.Scan.Locality
import Mathlib.Data.List.Infix

/-!
# Text outside of code has no influence on code

Two sources that differ only in one stretch of text outside of code have the same tokens but for the
one that holds the text, the same depths and the same errors. The stretch stands behind a close tag
and in front of an open tag, and has no open tag of its own; that it may have braces, quotes or
beginnings of comments is the point.

The proof follows a run of the scanner through the three parts of such a source.

* **In front of the text:** `next_extend` says that a token in front of a close tag stays what it is
  when the source goes on, so the whole run does (`run_extend`);
* **the text:** `htmlLength_append` says that it ends where the open tag begins;
* **behind it:** `Alike` scanners differ in nothing but positions, and stay alike (`Alike.next`,
  `Alike.run`).
-/

namespace Introspect.Token

/-! ### A source that goes on -/

namespace Scanner

/-- The scanner when more text stands behind the source. -/
def extend (s : Scanner) (x : List Char) : Scanner := { s with rest := s.rest ++ x }

@[simp] theorem rest_extend (s : Scanner) (x : List Char) : (s.extend x).rest = s.rest ++ x := rfl

section Extend

variable {s : Scanner} {n : Nat} {x : List Char}

theorem extend_skip (hn : n ≤ s.rest.length) : (s.extend x).skip n = (s.skip n).extend x := by
  simp [skip, extend, List.drop_append_of_le_length hn, List.take_append_of_le_length hn]

theorem extend_enter (s : Scanner) (x : List Char) (kind : Kind) (span : Span) :
    (s.extend x).enter kind span = (s.enter kind span).extend x := by
  have hdepth : (s.extend x).depth = s.depth := rfl
  unfold enter
  -- only the closing brace looks at the depth
  split <;> try rfl
  rw [hdepth]
  cases s.depth <;> rfl

theorem extend_remember (s : Scanner) (x : List Char) (kind : Kind) :
    (s.extend x).remember kind = (s.remember kind).extend x := by
  unfold remember
  split <;> rfl

theorem extend_take (kind : Kind) (hn : n ≤ s.rest.length) :
    (s.extend x).take kind n = ((s.take kind n).1, (s.take kind n).2.extend x) := by
  unfold take
  rw [extend_skip hn, rest_extend, List.take_append_of_le_length hn]
  dsimp only
  rw [extend_enter, extend_remember]
  rfl

theorem extend_reject (fault : LexicalFault) (hn : n ≤ s.rest.length) :
    (s.extend x).reject fault n = ((s.reject fault n).1, (s.reject fault n).2.extend x) := by
  unfold reject
  rw [extend_skip hn]
  rfl

/-- A piece that a close tag follows is the same when the source goes on. -/
theorem piece?_extend {p : Piece} (h : s.piece? = some p)
    (hmark : ['?', '>'] <:+: s.rest.drop p.length) (x : List Char) :
    (s.extend x).piece? = some p := by
  obtain ⟨a, b, hab⟩ := hmark
  -- the piece, `a`, the close tag and `b` are all of the text
  have hlen : p.length ≤ (s.rest.take p.length).length := by
    have hdrop := congrArg List.length hab
    simp only [List.length_append, List.length_cons, List.length_nil, List.length_drop] at hdrop
    rw [List.length_take]
    omega
  have hrest : s.rest = (s.rest.take p.length ++ a) ++ '?' :: '>' :: b := by
    calc s.rest = s.rest.take p.length ++ s.rest.drop p.length := (List.take_append_drop _ _).symm
      _ = (s.rest.take p.length ++ a) ++ '?' :: '>' :: b := by rw [← hab]; simp
  have hpiece := piece?_mark h hrest (by rw [List.length_append]; omega) (b ++ x)
  have hextend : s.extend x
      = { s with rest := (s.rest.take p.length ++ a) ++ '?' :: '>' :: (b ++ x) } := by
    have happend : s.rest ++ x = (s.rest.take p.length ++ a) ++ '?' :: '>' :: (b ++ x) := by
      conv_lhs => rw [hrest]
      simp
    rw [extend, happend]
  rw [hextend]
  exact hpiece

end Extend

/-! ### Requests -/

section Requests

variable {s s' : Scanner} {t : Token}

/-- Text with a close tag in it is longer than what is in front of it. -/
theorem le_length_of_infix_drop {cs : List Char} {n : Nat} (h : ['?', '>'] <:+: cs.drop n) :
    n ≤ cs.length := by
  have hlen := h.length_le
  rw [List.length_drop] at hlen
  simp only [List.length_cons, List.length_nil] at hlen
  omega

/-- Trivia in front of a close tag is the same when the source goes on. -/
theorem Passes.extend (h : Passes s s') (hmark : ['?', '>'] <:+: s'.rest) (x : List Char) :
    Passes (s.extend x) (s'.extend x) := by
  induction h with
  | refl s => exact .refl _
  | @skip s s' p hp hv h ih =>
    have hdrop : ['?', '>'] <:+: s.rest.drop p.length := hmark.trans h.rest_suffix.isInfix
    refine .skip (piece?_extend hp hdrop x) hv ?_
    rw [extend_skip (le_length_of_infix_drop hdrop)]
    exact ih hmark

/-- A token in front of a close tag is the same when the source goes on. -/
theorem Emits.extend (h : Emits s t s') (hmark : ['?', '>'] <:+: s'.rest) (x : List Char) :
    Emits (s.extend x) t (s'.extend x) := by
  cases h with
  | finish hr =>
    -- no close tag stands behind the end
    rw [rest_finish, hr] at hmark
    exact absurd hmark (by decide)
  | @token p kind hp hv =>
    rw [rest_take] at hmark
    have htoken := Emits.token (piece?_extend hp hmark x) hv
    rw [extend_take kind (le_length_of_infix_drop hmark)] at htoken
    exact htoken
  | @broken p fault hp hv =>
    rw [rest_reject] at hmark
    have hbroken := Emits.broken (piece?_extend hp hmark x) hv
    rw [extend_reject fault (le_length_of_infix_drop hmark)] at hbroken
    exact hbroken

/-- **Going on.** A token that a close tag follows is the same when the source goes on, and so is
where it leaves the scanner. -/
theorem next_extend (hmark : ['?', '>'] <:+: s.next.2.rest) (x : List Char) :
    (s.extend x).next = (s.next.1, s.next.2.extend x) := by
  obtain ⟨s', hpass, hemit⟩ := s.next_spec
  have hmark' : ['?', '>'] <:+: s'.rest := hmark.trans hemit.rest_suffix.isInfix
  rw [(hpass.extend hmark' x).next_eq, (hemit.extend hmark x).next_eq]

end Requests

end Scanner

/-! ### The close tag in front of the text -/

theorem codePiece?_closeTag (memberPosition atStart : Bool) (rest : List Char) :
    codePiece? memberPosition atStart ('?' :: '>' :: rest) =
      some ⟨.token .closeTag, 2 + lineBreakLength rest, by omega⟩ := by
  rw [codePiece?, if_neg fun h => absurd h.1 (by decide), if_neg (by decide), if_pos ⟨rfl, rfl⟩]
  rfl

/-- A line break at the end of a text is not made longer by text that begins with none. -/
theorem lineBreakLength_append {lineBreak x : List Char}
    (hall : lineBreak.length ≤ lineBreakLength lineBreak)
    (hx : x.head? ≠ some '\n' ∧ x.head? ≠ some '\r') :
    lineBreakLength (lineBreak ++ x) = lineBreakLength lineBreak := by
  match lineBreak with
  | [] =>
    cases x with
    | nil => rfl
    | cons c x => simp_all [lineBreakLength]
  | [a] =>
    -- a carriage return would be made longer by a line feed only
    cases x with
    | nil => rfl
    | cons c x =>
      by_cases ha : a = '\r'
      · simp_all [lineBreakLength]
      · by_cases ha' : a = '\n' <;> simp_all [lineBreakLength]
  | a :: b :: cs =>
    -- no line break is longer than two characters
    rw [← lineBreakLength_take (a :: b :: cs ++ x), ← lineBreakLength_take (a :: b :: cs)]
    rfl

namespace Scanner

variable {s s' : Scanner} {t : Token}

/-- A close tag is read in code, from its text and the line break behind it. -/
theorem Emits.of_closeTag (h : Emits s t s') (hk : t.kind = .closeTag) :
    s.mode = .code ∧ ∃ lineBreak, s.rest = '?' :: '>' :: lineBreak ∧
      t = (s.take .closeTag (2 + lineBreakLength lineBreak)).1 ∧
      s' = (s.take .closeTag (2 + lineBreakLength lineBreak)).2 := by
  cases h with
  | finish hr => exact absurd hk fun h => Kind.noConfusion h
  | broken hp hv => exact absurd hk fun h => Kind.noConfusion h
  | @token p kind hp hv =>
    obtain rfl : kind = .closeTag := hk
    -- a close tag is not plain, so it is none of the pieces outside of code
    have hnot : ¬ p.verdict.Plain := by
      rw [hv]
      exact Bool.false_ne_true
    cases hm : s.mode with
    | html =>
      rw [piece?_of_html hm] at hp
      exact absurd (htmlPiece?_emitted hp).2 hnot
    | code =>
      rw [piece?_of_code hm] at hp
      rcases codePiece?_plainOrClose hp with hplain | ⟨lineBreak, hrest, -, hlen⟩
      · exact absurd hplain hnot
      · exact ⟨rfl, lineBreak, hrest, by rw [hlen], by rw [hlen]⟩

/-- A close tag at the end of a source is the same when the source goes on, but not with a line
break. -/
theorem Emits.extend_closeTag {x : List Char} (h : Emits s t s') (hk : t.kind = .closeTag)
    (hr : s'.rest = []) (hx : x.head? ≠ some '\n' ∧ x.head? ≠ some '\r') :
    Emits (s.extend x) t (s'.extend x) := by
  obtain ⟨hm, lineBreak, hrest, rfl, rfl⟩ := h.of_closeTag hk
  -- nothing is left behind the tag, so what follows it is a line break and no more
  have hall : lineBreak.length ≤ lineBreakLength lineBreak := by
    rwa [rest_take, hrest, Nat.add_comm, List.drop_succ_cons, List.drop_succ_cons,
      List.drop_eq_nil_iff] at hr
  have hlen : 2 + lineBreakLength lineBreak ≤ s.rest.length := by
    obtain ⟨rest, -, htake, -⟩ := lineBreakLength_spec lineBreak
    rw [List.length_take] at htake
    rw [hrest, List.length_cons, List.length_cons]
    omega
  -- `x` begins with no line break, so the piece does not get longer
  have hpiece : (s.extend x).piece?
      = some ⟨.token .closeTag, 2 + lineBreakLength lineBreak, by omega⟩ := by
    rw [piece?_of_code (s := s.extend x) hm, rest_extend, hrest, List.cons_append,
      List.cons_append, codePiece?_closeTag]
    simp only [lineBreakLength_append hall hx]
  have htoken := Emits.token hpiece rfl
  dsimp only at htoken
  rw [extend_take .closeTag hlen] at htoken
  exact htoken

/-! ### The run in front of the text -/

/-- In front of a close tag stands its text. -/
theorem infix_of_closeTag_mem (ht : t ∈ s.tokens) (hk : t.kind = .closeTag) :
    ['?', '>'] <:+: s.rest := by
  induction s using stream_induction with
  | last s hend =>
    -- the only token is the end of the text
    rw [tokens_of_endOfText hend, List.mem_singleton] at ht
    rw [← ht, hk] at hend
    exact Kind.noConfusion hend
  | step s hne ih =>
    rw [tokens_of_ne hne, List.mem_cons] at ht
    rcases ht with rfl | ht
    · obtain ⟨s', hpass, hemit⟩ := s.next_spec
      obtain ⟨-, lineBreak, hrest, -⟩ := hemit.of_closeTag hk
      refine List.IsInfix.trans ?_ hpass.rest_suffix.isInfix
      rw [hrest]
      exact (List.prefix_append ['?', '>'] lineBreak).isInfix
    · exact (ih ht).trans s.rest_next_suffix.isInfix

/-- Outside of code the text ends only where there is none left. -/
theorem rest_eq_nil_of_html (hm : s.mode = .html) (hk : s.next.1.kind = .endOfText) :
    s.rest = [] := by
  cases hp : s.piece? with
  | none => exact piece?_eq_none_iff.mp hp
  | some p =>
    -- a piece would be emitted, and not as the end of the text
    have hemitted : p.verdict.Emitted := htmlPiece?_emitted (piece?_of_html hm ▸ hp)
    rw [next_of_some hp] at hk
    cases hv : p.verdict with
    | trivia => exact absurd hv hemitted.1
    | token kind =>
      rw [hv] at hk hemitted
      obtain rfl : kind = .endOfText := hk
      exact absurd hemitted.2 Bool.false_ne_true
    | broken fault =>
      rw [hv] at hk
      exact Kind.noConfusion hk

/-- **Going on behind a close tag.** If a close tag is the last token of a source, all tokens stay
what they are when the source goes on, but not with a line break. -/
theorem run_extend {ts : List Token} {e : Token} (h : s.tokens = ts ++ [t, e])
    (hk : t.kind = .closeTag) :
    ∃ (before : List (Token × Nat)) (s' : Scanner), s'.rest = [] ∧ s'.mode = .html ∧
      s.run.1 = before ++ s'.run.1 ∧
      ∀ x : List Char, x.head? ≠ some '\n' ∧ x.head? ≠ some '\r' →
        (s.extend x).run = (before ++ (s'.extend x).run.1, (s'.extend x).run.2) := by
  -- there is more than one token, so this is not the end
  have hgoes : ∀ {s : Scanner} {ts : List Token}, s.tokens = ts ++ [t, e] →
      s.next.1.kind ≠ .endOfText := by
    intro s ts h hend
    rw [tokens_of_endOfText hend] at h
    exact absurd (congrArg List.length h) (by simp)
  induction ts generalizing s with
  | nil =>
    -- the next token is the close tag
    have hne := hgoes h
    rw [tokens_of_ne hne, List.nil_append] at h
    obtain ⟨rfl, hlast⟩ := List.cons.inj h
    have hend : s.next.2.next.1.kind = .endOfText := by
      by_contra hmore
      rw [tokens_of_ne hmore] at hlast
      exact tokens_ne_nil _ (List.cons.inj hlast).2
    obtain ⟨s', hpass, hemit⟩ := s.next_spec
    obtain ⟨-, lineBreak, hrest, -, htake⟩ := hemit.of_closeTag hk
    have hm : s.next.2.mode = .html := by rw [htake]; rfl
    have hr := rest_eq_nil_of_html hm hend
    have hmark : ['?', '>'] <:+: s'.rest := by
      rw [hrest]
      exact (List.prefix_append ['?', '>'] lineBreak).isInfix
    refine ⟨[(s.next.1, s.next.2.depth)], s.next.2, hr, hm, by rw [run_of_ne hne]; rfl, ?_⟩
    intro x hx
    have hnext : (s.extend x).next = (s.next.1, s.next.2.extend x) := by
      rw [(hpass.extend hmark x).next_eq, (hemit.extend_closeTag hk hr hx).next_eq]
    rw [run_of_ne (by rw [hnext]; exact hne), hnext]
    rfl
  | cons t₀ ts ih =>
    -- the close tag comes later, so its text stands behind the next token
    have hne := hgoes h
    rw [tokens_of_ne hne, List.cons_append] at h
    obtain ⟨rfl, htail⟩ := List.cons.inj h
    have hmark : ['?', '>'] <:+: s.next.2.rest := infix_of_closeTag_mem (by rw [htail]; simp) hk
    obtain ⟨before, s', hr, hm, hrun, hrun'⟩ := ih htail
    refine ⟨(s.next.1, s.next.2.depth) :: before, s', hr, hm, by rw [run_of_ne hne, hrun]; rfl, ?_⟩
    intro x hx
    have hnext := next_extend hmark x
    rw [run_of_ne (by rw [hnext]; exact hne), hnext, hrun' x hx]
    rfl

end Scanner

/-! ### The text -/

/-- **Text without an open tag.** -/
def Untagged (cs : List Char) : Prop := ∀ v, v <:+ cs → openTag? v = none

instance (cs : List Char) : Decidable (Untagged cs) :=
  decidable_of_iff (∀ v ∈ cs.tails, openTag? v = none) (by simp [Untagged])

theorem Untagged.tail {c : Char} {cs : List Char} (h : Untagged (c :: cs)) : Untagged cs :=
  fun v hv => h v (hv.trans (List.suffix_cons c cs))

theorem exists_cons_cons_of_openTag? {cs : List Char} (h : (openTag? cs).isSome = true) :
    ∃ t, cs = '<' :: '?' :: t := by
  by_contra hne
  rw [openTag?_eq_none fun t ht => hne ⟨t, ht⟩] at h
  exact absurd h (by simp)

theorem endsWord_append {cs : List Char} (h : cs ≠ []) (w : List Char) :
    endsWord (cs ++ w) = endsWord cs := by
  obtain ⟨c, t, rfl⟩ := List.exists_cons_of_ne_nil h
  rfl

/-- What is no open tag does not become one when an open tag follows. -/
theorem openTag?_append {v w : List Char} (hv : openTag? v = none) (hne : v ≠ []) :
    openTag? (v ++ '<' :: w) = none := by
  match v with
  | [c] => exact openTag?_eq_none (by simp)
  | c :: d :: t =>
    by_cases hcd : c = '<' ∧ d = '?'
    · obtain ⟨rfl, rfl⟩ := hcd
      rw [List.cons_append, List.cons_append, openTag?_cons]
      rw [openTag?_cons] at hv
      -- none of the three forms of a tag fits `v`
      split_ifs at hv with hlong hecho hshort
      have ht : t ≠ [] := by
        rintro rfl
        exact hshort rfl
      -- a long tag would have to end behind `t`, where `<` follows
      have hlong' : ¬ (((t ++ '<' :: w).take 3).map Text.lowerChar = ['p', 'h', 'p'] ∧
          endsWord ((t ++ '<' :: w).drop 3) = true) := by
        rintro ⟨hword, hends⟩
        by_cases hlen : 3 ≤ t.length
        · rw [List.take_append_of_le_length hlen] at hword
          rw [List.drop_append_of_le_length hlen] at hends
          by_cases hdrop : t.drop 3 = []
          · rw [hdrop] at hends
            have hblank : Text.isBlank '<' = true := hends
            exact absurd hblank (by decide)
          · rw [endsWord_append hdrop] at hends
            exact hlong ⟨hword, hends⟩
        · exact map_lowerChar_take_ne (by decide) (Nat.lt_of_not_le hlen) w hword
      rw [if_neg hlong', List.head?_append_of_ne_nil _ ht, if_neg hecho, endsWord_append ht,
        if_neg hshort]
    · refine openTag?_eq_none fun t' h => hcd ?_
      simp only [List.cons_append, List.cons.injEq] at h
      exact ⟨h.1, h.2.1⟩

/-- Text without an open tag goes up to the open tag behind it. -/
theorem htmlLength_append {cs w : List Char} (h : Untagged cs)
    (hw : (openTag? w).isSome = true) : htmlLength (cs ++ w) = cs.length := by
  obtain ⟨t, rfl⟩ := exists_cons_cons_of_openTag? hw
  induction cs with
  | nil => rw [List.nil_append, htmlLength, if_pos hw]; rfl
  | cons c cs ih =>
    have hnone := openTag?_append (w := '?' :: t) (h _ (List.suffix_refl _)) (List.cons_ne_nil c cs)
    rw [List.cons_append] at hnone ⊢
    rw [htmlLength, hnone, ih h.tail]
    rfl

/-- **The text** is one piece, up to the open tag behind it. -/
theorem htmlPiece?_append {cs w : List Char} (h : Untagged cs) (hne : cs ≠ [])
    (hw : (openTag? w).isSome = true) :
    htmlPiece? (cs ++ w) =
      some ⟨.token .inlineHtml, cs.length, List.length_pos_of_ne_nil hne⟩ := by
  obtain ⟨c, cs, rfl⟩ := List.exists_cons_of_ne_nil hne
  obtain ⟨t, rfl⟩ := exists_cons_cons_of_openTag? hw
  have hnone := openTag?_append (w := '?' :: t) (h _ (List.suffix_refl _)) (List.cons_ne_nil c cs)
  have hlen := htmlLength_append h.tail hw
  unfold htmlPiece?
  rw [hnone]
  simp only [List.cons_append, hlen, List.length_cons]

/-! ### Scanners that differ in positions -/

namespace Scanner

/-- **Alike.** Scanners with the same text in front of them, which differ in no more than where it
stands in the source, and where in the source errors have been found. -/
structure Alike (s r : Scanner) : Prop where
  rest_eq : s.rest = r.rest
  mode_eq : s.mode = r.mode
  depth_eq : s.depth = r.depth
  maxDepth_eq : s.maxDepth = r.maxDepth
  last_eq : s.last = r.last
  beforeLast_eq : s.beforeLast = r.beforeLast
  finished_eq : s.finished = r.finished
  faults_eq : s.errors.map (·.fault) = r.errors.map (·.fault)
  /-- Either both are at the beginning of their source or neither is. -/
  start_iff : s.pos.offset = 0 ↔ r.pos.offset = 0

namespace Alike

variable {s s' r : Scanner} {t : Token}

theorem piece?_eq (h : Alike s r) : s.piece? = r.piece? := by
  have hstart : (s.pos.offset == 0) = (r.pos.offset == 0) := by
    rw [Bool.eq_iff_iff, beq_iff_eq, beq_iff_eq]
    exact h.start_iff
  unfold piece? atMemberName
  rw [h.mode_eq, h.rest_eq, h.last_eq, h.beforeLast_eq, hstart]

theorem skip (h : Alike s r) (n : Nat) : Alike (s.skip n) (r.skip n) where
  __ := h
  rest_eq := by rw [rest_skip, rest_skip, h.rest_eq]
  start_iff := by
    simp only [Scanner.skip, Position.offset_after, Nat.add_eq_zero_iff, h.rest_eq, h.start_iff]

theorem report (h : Alike s r) {fault fault' : LexicalFault} (hfault : fault = fault')
    (span span' : Span) : Alike (s.report fault span) (r.report fault' span') where
  __ := h
  faults_eq := by simp only [Scanner.report, List.map_append, h.faults_eq, List.map_cons, hfault]

theorem enter (h : Alike s r) (kind : Kind) (span span' : Span) :
    Alike (s.enter kind span) (r.enter kind span') := by
  unfold Scanner.enter
  split
  -- the three tags change the mode
  · exact { h with mode_eq := rfl }
  · exact { h with mode_eq := rfl }
  · exact { h with mode_eq := rfl }
  -- the two braces change the depth, or report
  · exact
      { h with
        depth_eq := congrArg (· + 1) h.depth_eq
        maxDepth_eq := by simp only [h.maxDepth_eq, h.depth_eq] }
  · rw [← h.depth_eq]
    cases hd : s.depth with
    | zero => exact h.report rfl span span'
    | succ d => exact { h with depth_eq := rfl }
  · exact h

theorem remember (h : Alike s r) (kind : Kind) : Alike (s.remember kind) (r.remember kind) := by
  unfold Scanner.remember
  split
  · exact h
  · exact h
  · exact h
  · exact { h with last_eq := rfl, beforeLast_eq := h.last_eq }

theorem take (h : Alike s r) (kind : Kind) (n : Nat) :
    (s.take kind n).1.lexeme = (r.take kind n).1.lexeme ∧
      Alike (s.take kind n).2 (r.take kind n).2 := by
  refine ⟨?_, ((h.skip n).enter kind _ _).remember kind⟩
  show String.ofList (s.rest.take n) = String.ofList (r.rest.take n)
  rw [h.rest_eq]

theorem finish (h : Alike s r) : Alike s.finish.2 r.finish.2 := by
  have hfinished : Alike { s with finished := true } { r with finished := true } :=
    { h with finished_eq := rfl }
  unfold Scanner.finish
  dsimp only
  refine Alike.remember ?_ .endOfText
  -- both report, or neither does
  by_cases hquiet : s.finished = true ∨ s.depth = 0
  · rw [if_pos hquiet, if_pos (by rwa [← h.finished_eq, ← h.depth_eq])]
    exact hfinished
  · rw [if_neg hquiet, if_neg (by rwa [← h.finished_eq, ← h.depth_eq])]
    exact hfinished.report (by rw [h.depth_eq]) _ _

theorem passes (h : Alike s r) (hpass : Passes s s') : ∃ r', Passes r r' ∧ Alike s' r' := by
  induction hpass generalizing r with
  | refl s => exact ⟨r, .refl r, h⟩
  | skip hp hv _ ih =>
    obtain ⟨r', hpass', h'⟩ := ih (h.skip _)
    exact ⟨r', .skip (h.piece?_eq ▸ hp) hv hpass', h'⟩

theorem emits (h : Alike s r) (hemit : Emits s t s') :
    ∃ u r', Emits r u r' ∧ t.kind = u.kind ∧ t.lexeme = u.lexeme ∧ Alike s' r' := by
  cases hemit with
  | finish hr => exact ⟨_, _, .finish (h.rest_eq ▸ hr), rfl, rfl, h.finish⟩
  | @token p kind hp hv =>
    obtain ⟨hlexeme, halike⟩ := h.take kind p.length
    exact ⟨_, _, .token (h.piece?_eq ▸ hp) hv, rfl, hlexeme, halike⟩
  | @broken p fault hp hv =>
    exact ⟨_, _, .broken (h.piece?_eq ▸ hp) hv, rfl, rfl, (h.skip p.length).report rfl _ _⟩

/-- **One request** to scanners that are alike gives tokens of one kind and text, and leaves them
alike. -/
theorem next (h : Alike s r) :
    s.next.1.kind = r.next.1.kind ∧ s.next.1.lexeme = r.next.1.lexeme ∧
      Alike s.next.2 r.next.2 := by
  obtain ⟨s', hpass, hemit⟩ := s.next_spec
  obtain ⟨r', hpass', h'⟩ := h.passes hpass
  obtain ⟨u, r'', hemit', hkind, hlexeme, h''⟩ := h'.emits hemit
  rw [hpass'.next_eq, hemit'.next_eq]
  exact ⟨hkind, hlexeme, h''⟩

end Alike

/-- Of a token its kind and its text, and the depth behind it. -/
def viewOf (r : Token × Nat) : Kind × String × Nat := (r.1.kind, r.1.lexeme, r.2)

/-- **The view of a run:** all of it but the positions. -/
def view (s : Scanner) : List (Kind × String × Nat) := s.run.1.map viewOf

/-- **All requests** to scanners that are alike. -/
theorem Alike.run {s r : Scanner} (h : Alike s r) :
    s.view = r.view ∧ Alike s.run.2 r.run.2 := by
  induction s using stream_induction generalizing r with
  | last s hk =>
    obtain ⟨hkind, hlexeme, h'⟩ := h.next
    have hk' : r.next.1.kind = .endOfText := hkind ▸ hk
    unfold view
    rw [run_of_endOfText hk, run_of_endOfText hk']
    exact ⟨by simp [viewOf, hkind, hlexeme, h'.depth_eq], h'⟩
  | step s hk ih =>
    obtain ⟨hkind, hlexeme, h'⟩ := h.next
    have hk' : r.next.1.kind ≠ .endOfText := hkind ▸ hk
    obtain ⟨hview, hlast⟩ := ih h'
    unfold view at hview ⊢
    rw [run_of_ne hk, run_of_ne hk']
    exact ⟨by simp [viewOf, hkind, hlexeme, h'.depth_eq, hview], hlast⟩

theorem view_of_ne {s : Scanner} (h : s.next.1.kind ≠ .endOfText) :
    s.view = (s.next.1.kind, s.next.1.lexeme, s.next.2.depth) :: s.next.2.view := by
  unfold view
  rw [run_of_ne h]
  rfl

theorem view_of_rest_eq_nil {s : Scanner} (hr : s.rest = []) :
    s.view = [(.endOfText, "", s.depth)] := by
  have hnext := (Emits.finish hr).next_eq
  unfold view
  rw [run_of_endOfText (by rw [hnext]; rfl), hnext, List.map_singleton, depth_finish]
  rfl

/-! ### The whole source -/

/-- The tokens of a text end with a close tag, in front of the end. -/
def EndsClosed (text : String) : Prop :=
  ∃ ts t e, (ofFile text).tokens = ts ++ [t, e] ∧ t.kind = .closeTag

/-- **Text to pass through:** it is not empty, does not begin with a line break and has no open
tag. -/
structure Passthrough (text : String) : Prop where
  ne_nil : text.toList ≠ []
  head : text.toList.head? ≠ some '\n' ∧ text.toList.head? ≠ some '\r'
  untagged : Untagged text.toList

theorem extend_ofFile (text more : String) :
    (ofFile text).extend more.toList = ofFile (text ++ more) := by
  simp [ofFile, start, extend]

/-- The scanner behind text that was passed through. -/
def passed (s : Scanner) (text rest : List Char) : Scanner :=
  { s with rest, pos := s.pos.after text }

/-- Text to pass through is one token, and does nothing else than to move the scanner. -/
theorem next_passthrough {s : Scanner} {text : String} {rest : List Char} (hr : s.rest = [])
    (hm : s.mode = .html) (htext : Passthrough text) (hrest : (openTag? rest).isSome = true) :
    (s.extend (text.toList ++ rest)).next.1.kind = .inlineHtml ∧
      (s.extend (text.toList ++ rest)).next.1.lexeme = text ∧
      (s.extend (text.toList ++ rest)).next.2 = s.passed text.toList rest := by
  have hall : (s.extend (text.toList ++ rest)).rest = text.toList ++ rest := by
    rw [rest_extend, hr, List.nil_append]
  have hpiece := piece?_of_html (s := s.extend (text.toList ++ rest)) hm
  rw [hall, htmlPiece?_append htext.untagged htext.ne_nil hrest] at hpiece
  rw [next_of_some hpiece]
  refine ⟨rfl, ?_, ?_⟩
  · show String.ofList ((s.extend (text.toList ++ rest)).rest.take text.toList.length) = text
    rw [hall, List.take_left, String.ofList_toList]
  · -- text outside of code neither changes the mode nor counts as a token before
    show (s.extend (text.toList ++ rest)).skip text.toList.length = _
    rw [skip, hall, List.take_left, List.drop_left]
    rfl

/-- Behind text of any length the rest looks the same. -/
theorem alike_passed (s : Scanner) {text text' : List Char} (h : text ≠ []) (h' : text' ≠ [])
    (rest : List Char) : Alike (s.passed text rest) (s.passed text' rest) where
  rest_eq := rfl
  mode_eq := rfl
  depth_eq := rfl
  maxDepth_eq := rfl
  last_eq := rfl
  beforeLast_eq := rfl
  finished_eq := rfl
  faults_eq := rfl
  start_iff := by
    -- neither is at the beginning of its source
    have hpos := Text.byteLength_pos h
    have hpos' := Text.byteLength_pos h'
    simp only [passed, Position.offset_after]
    omega

/-- **The run through the whole source:** what is in front of the text, the text, and what is behind
it. `front` and `s` are what the source in front of the text leaves. -/
theorem run_passthrough {before after text : String} {front : List (Token × Nat)} {s : Scanner}
    (hr : s.rest = []) (hm : s.mode = .html)
    (hextend : ∀ x : List Char, x.head? ≠ some '\n' ∧ x.head? ≠ some '\r' →
      ((ofFile before).extend x).run = (front ++ (s.extend x).run.1, (s.extend x).run.2))
    (htext : Passthrough text) (hafter : (openTag? after.toList).isSome = true) :
    (ofFile (before ++ text ++ after)).view = front.map viewOf
        ++ (.inlineHtml, text, s.depth) :: (s.passed text.toList after.toList).view ∧
      (ofFile (before ++ text ++ after)).run.2 = (s.passed text.toList after.toList).run.2 := by
  obtain ⟨hkind, hlexeme, hpassed⟩ := next_passthrough hr hm htext hafter
  have hne : (s.extend (text.toList ++ after.toList)).next.1.kind ≠ .endOfText := by
    rw [hkind]
    exact Kind.noConfusion
  -- the text is not empty, so its head is that of what follows the close tag
  have hhead := htext.head
  rw [← List.head?_append_of_ne_nil _ htext.ne_nil] at hhead
  have hsource : (ofFile before).extend (text.toList ++ after.toList)
      = ofFile (before ++ text ++ after) := by
    rw [← String.toList_append, extend_ofFile, String.append_assoc]
  have hrun := hextend (text.toList ++ after.toList) hhead
  rw [hsource] at hrun
  constructor
  · have hview := view_of_ne hne
    rw [hkind, hlexeme, hpassed] at hview
    rw [view, hrun, List.map_append]
    exact congrArg _ hview
  · have hlast := congrArg Prod.snd (run_of_ne hne)
    rw [hpassed] at hlast
    rw [hrun]
    exact hlast

/-- **Text outside of code does not interfere.** Behind a close tag and in front of an open tag,
text without an open tag is one token. Whatever it is, it leaves all other tokens as they are, the
depth behind each of them, the greatest depth, and the faults. -/
theorem passthrough_noninterference (before after text₁ text₂ : String)
    (hbefore : EndsClosed before) (h₁ : Passthrough text₁) (h₂ : Passthrough text₂)
    (hafter : (openTag? after.toList).isSome = true) :
    ∃ front back depth,
      (ofFile before).view = front ++ [(.endOfText, "", depth)] ∧
      (ofFile (before ++ text₁ ++ after)).view = front ++ (.inlineHtml, text₁, depth) :: back ∧
      (ofFile (before ++ text₂ ++ after)).view = front ++ (.inlineHtml, text₂, depth) :: back ∧
      (ofFile (before ++ text₁ ++ after)).run.2.maxDepth
        = (ofFile (before ++ text₂ ++ after)).run.2.maxDepth ∧
      (ofFile (before ++ text₁ ++ after)).run.2.errors.map (·.fault)
        = (ofFile (before ++ text₂ ++ after)).run.2.errors.map (·.fault) := by
  obtain ⟨ts, t, e, htokens, hk⟩ := hbefore
  obtain ⟨front, s, hr, hm, hfront, hextend⟩ := run_extend htokens hk
  obtain ⟨hview₁, hlast₁⟩ := run_passthrough hr hm hextend h₁ hafter
  obtain ⟨hview₂, hlast₂⟩ := run_passthrough hr hm hextend h₂ hafter
  -- the two runs meet behind their texts
  obtain ⟨hview, hlast⟩ := (alike_passed s h₁.ne_nil h₂.ne_nil after.toList).run
  refine ⟨front.map viewOf, (s.passed text₁.toList after.toList).view, s.depth, ?_, hview₁, ?_, ?_,
    ?_⟩
  · unfold view
    rw [hfront, List.map_append]
    exact congrArg _ (view_of_rest_eq_nil hr)
  · rw [hview₂, hview]
  · rw [hlast₁, hlast₂, hlast.maxDepth_eq]
  · rw [hlast₁, hlast₂, hlast.faults_eq]

/-- An open brace, and text with closing ones, a quote, the beginning of a comment, and of a tag
that is none. -/
theorem passthrough_noninterference_braces :
    EndsClosed "<?php \x7b ?>\n" ∧ Passthrough "\x7d\x7d\"/* <?xml <" ∧ Passthrough "é" ∧
      (openTag? "<?= $a \x7d".toList).isSome = true ∧
      ∃ front back depth,
        (ofFile "<?php \x7b ?>\n").view = front ++ [(.endOfText, "", depth)] ∧
        (ofFile ("<?php \x7b ?>\n" ++ "\x7d\x7d\"/* <?xml <" ++ "<?= $a \x7d")).view
          = front ++ (.inlineHtml, "\x7d\x7d\"/* <?xml <", depth) :: back ∧
        (ofFile ("<?php \x7b ?>\n" ++ "é" ++ "<?= $a \x7d")).view
          = front ++ (.inlineHtml, "é", depth) :: back ∧
        (ofFile ("<?php \x7b ?>\n" ++ "\x7d\x7d\"/* <?xml <" ++ "<?= $a \x7d")).run.2.maxDepth
          = (ofFile ("<?php \x7b ?>\n" ++ "é" ++ "<?= $a \x7d")).run.2.maxDepth ∧
        (ofFile ("<?php \x7b ?>\n" ++ "\x7d\x7d\"/* <?xml <" ++ "<?= $a \x7d")).run.2.errors.map
            (·.fault)
          = (ofFile ("<?php \x7b ?>\n" ++ "é" ++ "<?= $a \x7d")).run.2.errors.map (·.fault) := by
  have htokens : (ofFile "<?php \x7b ?>\n").tokens =
      [⟨.openTag, "<?php ", ⟨1, 1, 1, 0, 6⟩⟩, ⟨.leftBrace, "\x7b", ⟨1, 1, 7, 6, 1⟩⟩]
        ++ [⟨.closeTag, "?>\n", ⟨1, 1, 9, 8, 3⟩⟩, ⟨.endOfText, "", ⟨2, 2, 1, 11, 0⟩⟩] := by
    decide +kernel
  have hbefore : EndsClosed "<?php \x7b ?>\n" := ⟨_, _, _, htokens, rfl⟩
  have h₁ : Passthrough "\x7d\x7d\"/* <?xml <" := ⟨by decide, by decide, by decide⟩
  have h₂ : Passthrough "é" := ⟨by decide, by decide, by decide⟩
  have hafter : (openTag? "<?= $a \x7d".toList).isSome = true := by decide
  exact ⟨hbefore, h₁, h₂, hafter, passthrough_noninterference _ _ _ _ hbefore h₁ h₂ hafter⟩

end Scanner

end Introspect.Token
