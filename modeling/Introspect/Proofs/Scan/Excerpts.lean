import Introspect.Proofs.Scan.Truncation

/-!
# Excerpts of code

An excerpt that begins with a token of a source and ends with one is scanned, as code on its own,
into the tokens that it has in the source. The scanner of the excerpt knows less on both sides: not
the tokens, the mode and the braces in front of the excerpt, and not the text behind it.

* `Crosses s ts s'` says that a scanner gets from `s` to `s'`, piece by piece, and gives `ts` on the
  way; `exists_crosses` finds it in the tokens of a run, and `Crosses.tokens_eq` leads back;
* `Excerpt w s r` says that `r` scans what `s` scans, but without the text `w` at its end;
  `Excerpt.skip`, `Excerpt.enter` and `Excerpt.remember` keep it;
* `Crosses.excerpt` follows a crossing with a scanner of the excerpt, and `Crosses.tokens_ofCode`
  says this of the excerpt from its beginning;
* `exists_excerpt` is about a source: the text between two of its ordinary tokens.
-/

namespace Introspect.Token

/-- Whether a name behind a token of the kind may be that of a member. -/
def Kind.leadsToMember (k : Kind) : Bool := k.opensMemberName || k == .amp

theorem Kind.leadsToMember_of_isOrdinary {k : Kind} (h : k.isOrdinary = false) :
    k.leadsToMember = false := by
  revert h
  cases k <;> decide

namespace Scanner

/-! ### Crossing text -/

/-- **Crossing text.** From `s` the scanner gets to `s'`, piece by piece, and gives the tokens on
the way. -/
inductive Crosses : Scanner → List Token → Scanner → Prop where
  | refl (s : Scanner) : Crosses s [] s
  | pass {s s' : Scanner} {ts : List Token} {p : Piece} (hp : s.piece? = some p)
      (hv : p.verdict = .trivia) (h : Crosses (s.skip p.length) ts s') : Crosses s ts s'
  | token {s s' : Scanner} {ts : List Token} {p : Piece} {kind : Kind} (hp : s.piece? = some p)
      (hv : p.verdict = .token kind) (h : Crosses (s.take kind p.length).2 ts s') :
      Crosses s ((s.take kind p.length).1 :: ts) s'
  | broken {s s' : Scanner} {ts : List Token} {p : Piece} {fault : LexicalFault}
      (hp : s.piece? = some p) (hv : p.verdict = .broken fault)
      (h : Crosses (s.reject fault p.length).2 ts s') :
      Crosses s ((s.reject fault p.length).1 :: ts) s'

variable {s s' s'' r : Scanner} {t : Token} {ts ts' : List Token}

theorem Crosses.trans (h : Crosses s ts s') (h' : Crosses s' ts' s'') :
    Crosses s (ts ++ ts') s'' := by
  induction h with
  | refl s => exact h'
  | pass hp hv h ih => exact .pass hp hv (ih h')
  | token hp hv h ih => exact .token hp hv (ih h')
  | broken hp hv h ih => exact .broken hp hv (ih h')

theorem Passes.crosses (h : Passes s s') : Crosses s [] s' := by
  induction h with
  | refl s => exact .refl s
  | skip hp hv h ih => exact .pass hp hv ih

theorem Emits.crosses (h : Emits s t s') (hk : t.kind ≠ .endOfText) : Crosses s [t] s' := by
  cases h with
  | finish hr => exact absurd rfl hk
  | token hp hv => exact .token hp hv (.refl _)
  | broken hp hv => exact .broken hp hv (.refl _)

/-- The first tokens of a run are given on the way to the scanner that gives the others. -/
theorem exists_crosses (h : s.tokens = ts ++ ts') (hne : ts' ≠ []) :
    ∃ s', Crosses s ts s' ∧ s'.tokens = ts' := by
  induction ts generalizing s with
  | nil => exact ⟨s, .refl s, h⟩
  | cons t ts ih =>
    by_cases hk : s.next.1.kind = .endOfText
    · -- the end of the text is the only token, but there are two
      rw [tokens_of_endOfText hk] at h
      have htail := (List.cons.inj h).2
      exact absurd (List.append_eq_nil_iff.mp htail.symm).2 hne
    · rw [tokens_of_ne hk, List.cons_append] at h
      obtain ⟨rfl, htail⟩ := List.cons.inj h
      obtain ⟨s', hcross, htokens⟩ := ih htail
      obtain ⟨s₁, hpass, hemit⟩ := s.next_spec
      exact ⟨s', (hpass.crosses.trans (hemit.crosses hk)).trans hcross, htokens⟩

/-- A token of a run is emitted by the scanner that the tokens in front of it lead to. -/
theorem exists_crosses_emits (h : s.tokens = ts ++ t :: ts') :
    ∃ s₁ s₂, Crosses s ts s₁ ∧ Emits s₁ t s₂ ∧ (t.kind ≠ .endOfText → s₂.tokens = ts') := by
  obtain ⟨s₀, hcross, htokens⟩ := exists_crosses h (List.cons_ne_nil t ts')
  obtain ⟨s₁, hpass, hemit⟩ := s₀.next_spec
  have hcross₁ := hcross.trans hpass.crosses
  rw [List.append_nil] at hcross₁
  by_cases hk : s₀.next.1.kind = .endOfText
  · rw [tokens_of_endOfText hk] at htokens
    obtain ⟨rfl, -⟩ := List.cons.inj htokens
    exact ⟨s₁, _, hcross₁, hemit, fun hne => absurd hk hne⟩
  · rw [tokens_of_ne hk] at htokens
    obtain ⟨rfl, htail⟩ := List.cons.inj htokens
    exact ⟨s₁, _, hcross₁, hemit, fun _ => htail⟩

theorem tokens_congr (h : s.next = r.next) : s.tokens = r.tokens := by
  by_cases hk : s.next.1.kind = .endOfText
  · rw [tokens_of_endOfText hk, tokens_of_endOfText (h ▸ hk), h]
  · rw [tokens_of_ne hk, tokens_of_ne (s := r) (h ▸ hk), h]

theorem tokens_of_rest_eq_nil (h : s.rest = []) : s.tokens = [s.finish.1] := by
  have hnext := (Emits.finish h).next_eq
  rw [tokens_of_endOfText (by rw [hnext]; rfl), hnext]

/-- What is given on the way comes first among the tokens. -/
theorem Crosses.tokens_eq (h : Crosses s ts s') : s.tokens = ts ++ s'.tokens := by
  induction h with
  | refl s => rfl
  | pass hp hv h ih =>
    rw [← ih]
    refine tokens_congr ?_
    rw [next_of_some hp, hv]
  | token hp hv h ih =>
    have hproper := piece?_proper hp
    have hnext := (Emits.token hp hv).next_eq
    rw [hv] at hproper
    rw [tokens_of_ne (by rw [hnext]; exact hproper.1), hnext, ih]
    rfl
  | broken hp hv h ih =>
    have hnext := (Emits.broken hp hv).next_eq
    rw [tokens_of_ne (by rw [hnext]; exact Kind.noConfusion), hnext, ih]
    rfl

theorem Crosses.rest_suffix (h : Crosses s ts s') : s'.rest <:+ s.rest := by
  induction h with
  | refl s => exact List.suffix_refl _
  | pass hp hv h ih => exact ih.trans (List.drop_suffix _ _)
  | token hp hv h ih =>
    rw [rest_take] at ih
    exact ih.trans (List.drop_suffix _ _)
  | broken hp hv h ih => exact ih.trans (List.drop_suffix _ _)

/-- Unless the way is over, it leads across the piece in front of the scanner. -/
theorem Crosses.eq_or_piece? (h : Crosses s ts s') :
    s = s' ∨ ∃ p, s.piece? = some p ∧ s'.rest <:+ s.rest.drop p.length := by
  cases h with
  | refl s => exact .inl rfl
  | pass hp hv h => exact .inr ⟨_, hp, h.rest_suffix⟩
  | token hp hv h =>
    have hsuffix := h.rest_suffix
    rw [rest_take] at hsuffix
    exact .inr ⟨_, hp, hsuffix⟩
  | broken hp hv h => exact .inr ⟨_, hp, h.rest_suffix⟩

/-! ### What stands behind a piece -/

/-- No way ends inside of a close tag. -/
theorem Crosses.not_mark (h : Crosses s ts s') (hm : s.mode = .code) :
    ¬ (s.rest = '?' :: s'.rest ∧ s'.rest.head? = some '>') := by
  rintro ⟨hrest, hhead⟩
  obtain ⟨w, hw⟩ := List.head?_eq_some_iff.mp hhead
  rcases h.eq_or_piece? with rfl | ⟨p, hp, hsuffix⟩
  · exact absurd (congrArg List.length hrest) (by simp)
  · -- the piece is the close tag, of two characters at least
    rw [piece?_of_code hm, hrest, hw, codePiece?_closeTag] at hp
    obtain rfl := Option.some.inj hp
    have hlen := hsuffix.length_le
    rw [hrest, List.length_drop, hw] at hlen
    simp only [List.length_cons] at hlen
    omega

/-- A way that leads into code leads across an open tag. -/
theorem Crosses.exists_openTag? (h : Crosses s ts s') (hm : s.mode = .html)
    (hm' : s'.mode = .code) (htag : s.rest = [] ∨ (openTag? s.rest).isSome = true) :
    ∃ kind n, openTag? s.rest = some (kind, n) ∧ s'.rest <:+ s.rest.drop n := by
  rcases h.eq_or_piece? with rfl | ⟨p, hp, hsuffix⟩
  · exact absurd (hm.symm.trans hm') (by decide)
  · obtain ⟨⟨kind, n⟩, htag⟩ :=
      Option.isSome_iff_exists.mp (htag.resolve_left (rest_ne_nil_of_piece? hp))
    obtain ⟨m, rfl⟩ : ∃ m, n = m + 1 := by
      have htwo := two_le_of_openTag? htag
      exact ⟨n - 1, by omega⟩
    rw [piece?_of_html hm, htmlPiece?.eq_def, htag] at hp
    obtain rfl := Option.some.inj hp
    exact ⟨kind, m + 1, htag, hsuffix⟩

/-- Behind text outside of code stands an open tag, or nothing. -/
theorem htmlPiece?_behind {cs : List Char} {p : Piece} (h : htmlPiece? cs = some p)
    (hv : p.verdict = .token .inlineHtml) :
    cs.drop p.length = [] ∨ (openTag? (cs.drop p.length)).isSome = true := by
  unfold htmlPiece? at h
  split at h
  · next kind n htag =>
    -- the piece would be the tag
    obtain rfl := Option.some.inj h
    obtain rfl := Verdict.token.inj hv
    rcases openTag?_kind htag with hkind | hkind <;> exact Kind.noConfusion hkind
  · split at h
    · exact absurd h (by simp)
    · obtain rfl := Option.some.inj h
      exact drop_htmlLength _

/-! ### Scanning an excerpt -/

/-- **Excerpts.** `r` scans what `s` scans, but without the text `w` at its end. Of what was in
front of the two, only what makes the next name that of a member is the same. -/
structure Excerpt (w : List Char) (s r : Scanner) : Prop where
  rest_eq : s.rest = r.rest ++ w
  mode_eq : s.mode = r.mode
  atMemberName_eq : s.atMemberName = r.atMemberName
  /-- An ampersand here would stand behind the word `function` in both texts, or in none. -/
  last_iff : s.last = .functionWord ↔ r.last = .functionWord
  offset_ne : s.pos.offset ≠ 0
  head_ne : r.pos.offset = 0 → r.rest.head? ≠ some '\uFEFF'

namespace Excerpt

variable {w : List Char}

/-- The piece in front of both, if it ends in the excerpt and the excerpt does not break off inside
of the next one. -/
theorem piece?_eq {p : Piece} (h : Excerpt w s r) (hp : s.piece? = some p)
    (hlen : p.length ≤ r.rest.length)
    (hmark : p.verdict = .trivia → ¬ (r.rest.drop p.length = ['?'] ∧ w.head? = some '>'))
    (htag : s.mode = .html → p.verdict = .token .inlineHtml → ∃ kind n,
      openTag? (r.rest.drop p.length ++ w) = some (kind, n) ∧
        n ≤ (r.rest.drop p.length).length) :
    r.piece? = some p := by
  cases hm : s.mode with
  | html =>
    rw [piece?_of_html hm, h.rest_eq] at hp
    rw [piece?_of_html (h.mode_eq ▸ hm)]
    exact htmlPiece?_cut hp hlen (htag hm)
  | code =>
    rw [piece?_of_code hm, h.rest_eq] at hp
    have hcut := codePiece?_cut hp ⟨hlen, hmark⟩
    rw [piece?_of_code (h.mode_eq ▸ hm), ← h.atMemberName_eq, ← hcut]
    have hstart : (s.pos.offset == 0) = false := beq_eq_false_iff_ne.mpr h.offset_ne
    by_cases hzero : r.pos.offset = 0
    · exact codePiece?_of_head?_ne (h.head_ne hzero) _ _ _
    · rw [hstart, beq_eq_false_iff_ne.mpr hzero]

theorem skip {n : Nat} (h : Excerpt w s r) (hpos : 0 < n) (hn : n ≤ r.rest.length) :
    Excerpt w (s.skip n) (r.skip n) where
  __ := h
  rest_eq := by rw [rest_skip, rest_skip, h.rest_eq, List.drop_append_of_le_length hn]
  offset_ne := by
    have hne := h.offset_ne
    simp only [Scanner.skip, Position.offset_after]
    omega
  head_ne := by
    -- the excerpt is not at its beginning any more
    intro hzero
    have htake : r.rest.take n ≠ [] := by
      rw [ne_eq, List.take_eq_nil_iff, not_or]
      exact ⟨by omega, List.ne_nil_of_length_pos (by omega)⟩
    have hbytes := Text.byteLength_pos htake
    simp only [Scanner.skip, Position.offset_after] at hzero
    omega

theorem report (h : Excerpt w s r) (fault : LexicalFault) (span span' : Span) :
    Excerpt w (s.report fault span) (r.report fault span') := { h with }

theorem enter (h : Excerpt w s r) (kind : Kind) (span span' : Span) :
    Excerpt w (s.enter kind span) (r.enter kind span') := by
  unfold Scanner.enter
  split
  · exact { h with mode_eq := rfl }
  · exact { h with mode_eq := rfl }
  · exact { h with mode_eq := rfl }
  · exact { h with }
  · -- how deep the braces are makes no difference
    cases s.depth <;> cases r.depth <;> exact { h with }
  · exact h

theorem remember (h : Excerpt w s r) (kind : Kind) :
    Excerpt w (s.remember kind) (r.remember kind) := by
  have hlast : (s.last == Kind.functionWord) = (r.last == Kind.functionWord) := by
    rw [Bool.eq_iff_iff, beq_iff_eq, beq_iff_eq]
    exact h.last_iff
  unfold Scanner.remember
  split
  · exact h
  · exact h
  · exact h
  · exact
      { h with
        atMemberName_eq := by simp only [atMemberName, hlast]
        last_iff := Iff.rfl }

theorem take {n : Nat} (h : Excerpt w s r) (kind : Kind) (hpos : 0 < n) (hn : n ≤ r.rest.length) :
    (r.take kind n).1.spelling = (s.take kind n).1.spelling ∧
      Excerpt w (s.take kind n).2 (r.take kind n).2 := by
  refine ⟨?_, ((h.skip hpos hn).enter kind _ _).remember kind⟩
  simp only [Scanner.take, spelling, h.rest_eq, List.take_append_of_le_length hn]

end Excerpt

/-- Trivia is passed over in code only. -/
theorem mode_of_trivia {p : Piece} (hp : s.piece? = some p) (hv : p.verdict = .trivia) :
    s.mode = .code := by
  cases hm : s.mode with
  | html =>
    rw [piece?_of_html hm] at hp
    exact absurd hv (htmlPiece?_emitted hp).1
  | code => rfl

theorem length_le_of_suffix_drop {u w : List Char} {n : Nat} (hw : w ≠ [])
    (h : w <:+ (u ++ w).drop n) : n ≤ u.length := by
  have hlen := h.length_le
  have hpos := List.length_pos_of_ne_nil hw
  rw [List.length_drop, List.length_append] at hlen
  omega

/-- **The way through an excerpt.** A way that ends in code, in front of more text, is gone by a
scanner of the excerpt up to there. It gives the same tokens, but for their places, and comes to the
end. -/
theorem Crosses.excerpt (h : Crosses s ts s') (hne : s'.rest ≠ []) (hm : s'.mode = .code)
    (hr : Excerpt s'.rest s r) :
    ∃ ts' r', Crosses r ts' r' ∧ r'.rest = [] ∧ ts'.map spelling = ts.map spelling := by
  induction h generalizing r with
  | refl s =>
    -- what is left to `s` is the text behind the excerpt, so nothing is left to `r`
    have hrest : r.rest = [] := List.append_left_eq_self.mp hr.rest_eq.symm
    exact ⟨[], r, .refl r, hrest, rfl⟩
  | @pass s s' ts p hp hv h ih =>
    -- the way goes on behind the piece, so the piece ends inside of the excerpt
    have hlen : p.length ≤ r.rest.length :=
      length_le_of_suffix_drop hne (hr.rest_eq ▸ h.rest_suffix)
    have hcode : s.mode = .code := mode_of_trivia hp hv
    have hmark : ¬ (r.rest.drop p.length = ['?'] ∧ s'.rest.head? = some '>') := by
      rintro ⟨hdrop, hhead⟩
      refine h.not_mark hcode ⟨?_, hhead⟩
      rw [rest_skip, hr.rest_eq, List.drop_append_of_le_length hlen, hdrop]
      rfl
    have hpiece := hr.piece?_eq hp hlen (fun _ => hmark) fun hhtml =>
      absurd (hcode.symm.trans hhtml) (by decide)
    obtain ⟨ts', r', hcross, hend, hspell⟩ := ih hne hm (hr.skip p.length_pos hlen)
    exact ⟨ts', r', .pass hpiece hv hcross, hend, hspell⟩
  | @token s s' ts p kind hp hv h ih =>
    have hsuffix := h.rest_suffix
    rw [rest_take, hr.rest_eq] at hsuffix
    have hlen := length_le_of_suffix_drop hne hsuffix
    have hpiece : r.piece? = some p := by
      refine hr.piece?_eq hp hlen (fun htrivia => ?_) fun hhtml hinline => ?_
      · exact absurd (hv.symm.trans htrivia) (by simp)
      · -- the way goes on outside of code, so the tag behind the text is on it
        obtain rfl : kind = .inlineHtml := Verdict.token.inj (hv.symm.trans hinline)
        have hbehind := htmlPiece?_behind (piece?_of_html hhtml ▸ hp) hinline
        obtain ⟨kind, n, htag, hn⟩ := h.exists_openTag? hhtml hm (by rwa [rest_take])
        rw [rest_take, hr.rest_eq, List.drop_append_of_le_length hlen] at htag hn
        exact ⟨kind, n, htag, length_le_of_suffix_drop hne hn⟩
    obtain ⟨hspelling, hr'⟩ := hr.take kind p.length_pos hlen
    obtain ⟨ts', r', hcross, hend, hspell⟩ := ih hne hm hr'
    refine ⟨_ :: ts', r', .token hpiece hv hcross, hend, ?_⟩
    rw [List.map_cons, List.map_cons, hspelling, hspell]
  | @broken s s' ts p fault hp hv h ih =>
    have hlen : p.length ≤ r.rest.length :=
      length_le_of_suffix_drop hne (hr.rest_eq ▸ h.rest_suffix)
    have hpiece := hr.piece?_eq hp hlen (fun htrivia => absurd (hv.symm.trans htrivia) (by simp))
      fun _ hinline => absurd (hv.symm.trans hinline) (by simp)
    have hr' := (hr.skip p.length_pos hlen).report fault
    obtain ⟨ts', r', hcross, hend, hspell⟩ := ih hne hm (hr' _ _)
    refine ⟨_ :: ts', r', .broken hpiece hv hcross, hend, ?_⟩
    rw [List.map_cons, List.map_cons, hspell]
    rfl

/-- **Excerpts are scanned as they are in the source.** The text `u` between two places of a source,
in code, where no name of a member would stand. -/
theorem Crosses.tokens_ofCode {u : List Char} (h : Crosses s ts s') (hrest : s.rest = u ++ s'.rest)
    (hne : s'.rest ≠ []) (hm : s.mode = .code) (hm' : s'.mode = .code) (hoffset : s.pos.offset ≠ 0)
    (hlast : s.last.leadsToMember = false) (hhead : u.head? ≠ some '\uFEFF') :
    (ofCode (String.ofList u)).tokens.map spelling = ts.map spelling ++ [(.endOfText, "")] := by
  have hword : s.last ≠ .functionWord := by
    intro hword
    rw [hword] at hlast
    exact absurd hlast (by decide)
  rw [Kind.leadsToMember, Bool.or_eq_false_iff] at hlast
  have hr : Excerpt s'.rest s (ofCode (String.ofList u)) :=
    { rest_eq := by simp [ofCode, start, hrest]
      mode_eq := hm
      atMemberName_eq := by rw [atMemberName, hlast.1, hlast.2]; rfl
      last_iff := by simp [ofCode, start, hword]
      offset_ne := hoffset
      head_ne := fun _ => by simpa [ofCode, start] using hhead }
  obtain ⟨ts', r', hcross, hend, hspell⟩ := h.excerpt hne hm' hr
  rw [hcross.tokens_eq, tokens_of_rest_eq_nil hend, List.map_append, hspell]
  rfl

/-! ### Excerpts between two tokens -/

section Between

variable {entry : Mode} {source before : List Char}

theorem Stands.crosses (h : Stands entry source before s) (hcross : Crosses s ts s') :
    ∃ before', Stands entry source before' s' := by
  induction hcross generalizing before with
  | refl s => exact ⟨before, h⟩
  | pass hp hv _ ih => exact ih (h.skip _)
  | token hp hv _ ih =>
    obtain ⟨text, -, -, h'⟩ := h.emits (.token hp hv)
    exact ih h'
  | broken hp hv _ ih =>
    obtain ⟨text, -, -, h'⟩ := h.emits (.broken hp hv)
    exact ih h'

theorem ne_endOfText_of_isOrdinary {kind : Kind} (h : kind.isOrdinary = true) :
    kind ≠ .endOfText := by
  rintro rfl
  exact absurd h (by decide)

@[simp] theorem last_enter (s : Scanner) (kind : Kind) (span : Span) :
    (s.enter kind span).last = s.last := by
  unfold Scanner.enter
  split <;> try rfl
  split <;> rfl

theorem mode_enter_of_isOrdinary {kind : Kind} (hkind : kind.isOrdinary = true) (span : Span) :
    (s.enter kind span).mode = s.mode := by
  unfold Scanner.enter
  split
  · exact absurd hkind (by decide)
  · exact absurd hkind (by decide)
  · exact absurd hkind (by decide)
  · rfl
  · split <;> rfl
  · rfl

/-- Outside of code there are no ordinary tokens. -/
theorem htmlPiece?_isOrdinary {cs : List Char} {p : Piece} {kind : Kind}
    (h : htmlPiece? cs = some p) (hv : p.verdict = .token kind) : kind.isOrdinary = false := by
  rcases htmlPiece?_cases h with hinline | ⟨kind', n, htag, hkind⟩
  · obtain rfl := Verdict.token.inj (hv.symm.trans hinline)
    rfl
  · obtain rfl := Verdict.token.inj (hv.symm.trans hkind)
    rcases openTag?_kind htag with rfl | rfl <;> rfl

/-- An ordinary token stands in code, which goes on behind it. -/
theorem Emits.of_isOrdinary (h : Emits s t s') (hkind : t.kind.isOrdinary = true) :
    s.mode = .code ∧ s'.mode = .code ∧ s'.last = t.kind := by
  cases h with
  | finish hr => exact absurd hkind (by simp [Scanner.finish, Kind.isOrdinary])
  | broken hp hv => exact absurd hkind (by simp [Scanner.reject, Kind.isOrdinary])
  | @token p kind hp hv =>
    replace hkind : kind.isOrdinary = true := hkind
    have hm : s.mode = .code := by
      cases hm : s.mode with
      | code => rfl
      | html =>
        rw [piece?_of_html hm] at hp
        exact absurd ((htmlPiece?_isOrdinary hp hv).symm.trans hkind) (by decide)
    refine ⟨hm, ?_⟩
    simp only [Scanner.take, remember_of_isOrdinary _ hkind, mode_enter_of_isOrdinary hkind]
    exact ⟨hm, trivial⟩

theorem last_take_cases (s : Scanner) (kind : Kind) (n : Nat) :
    (s.take kind n).2.last = kind ∨ (s.take kind n).2.last = s.last := by
  simp only [Scanner.take]
  unfold Scanner.remember
  split
  · exact .inr (last_enter _ _ _)
  · exact .inr (last_enter _ _ _)
  · exact .inr (last_enter _ _ _)
  · exact .inl rfl

/-- What is no ordinary token, a tag for instance, does not lead to the name of a member. -/
theorem Crosses.last_eq_false (h : Crosses s ts s')
    (hts : ∀ t ∈ ts, t.kind.isOrdinary = false) (hs : s.last.leadsToMember = false) :
    s'.last.leadsToMember = false := by
  induction h with
  | refl s => exact hs
  | pass hp hv _ ih => exact ih hts hs
  | @token s s' ts p kind hp hv _ ih =>
    rw [List.forall_mem_cons] at hts
    refine ih hts.2 ?_
    rcases last_take_cases s kind p.length with hlast | hlast
    · rw [hlast]
      exact Kind.leadsToMember_of_isOrdinary hts.1
    · rw [hlast]
      exact hs
  | broken hp hv _ ih =>
    rw [List.forall_mem_cons] at hts
    exact ih hts.2 hs

/-- The next ordinary token of a run, behind others that are passed. -/
theorem exists_emits {rest : List Token} (hs : Stands entry source before s)
    (h : s.tokens.filter (·.kind.isOrdinary) = t :: rest) :
    t.kind.isOrdinary = true ∧
      ∃ passed before' s₁ s₂, Crosses s passed s₁ ∧ (∀ u ∈ passed, u.kind.isOrdinary = false) ∧
        Stands entry source before' s₁ ∧ Emits s₁ t s₂ ∧
        s₂.tokens.filter (·.kind.isOrdinary) = rest := by
  obtain ⟨passed, behind, htokens, hpassed, hordinary, hrest⟩ := List.filter_eq_cons_iff.mp h
  obtain ⟨s₁, s₂, hcross, hemit, hbehind⟩ := exists_crosses_emits htokens
  obtain ⟨before', hs'⟩ := hs.crosses hcross
  rw [← hbehind (ne_endOfText_of_isOrdinary hordinary)] at hrest
  exact ⟨hordinary, passed, before', s₁, s₂, hcross, by simpa using hpassed, hs', hemit, hrest⟩

/-- **From one ordinary token to another.** `first` is in front of `s`, and of the tokens behind it
the way leads across `more`. It ends in code, behind the last of them. -/
theorem exists_crosses_ordinary {first : Token} {more after : List Token}
    (hs : Stands entry source before s) (hemit : Emits s first s')
    (hfirst : first.kind.isOrdinary = true)
    (h : s'.tokens.filter (·.kind.isOrdinary) = more ++ after) :
    ∃ ts before' s'' last, Crosses s ts s'' ∧ Stands entry source before' s'' ∧ s''.mode = .code ∧
      s''.rest <:+ s'.rest ∧ s''.tokens.filter (·.kind.isOrdinary) = after ∧
      ts.filter (·.kind.isOrdinary) = first :: more ∧ (first :: more).getLast? = some last ∧
      last.span.stop = Text.byteLength before' := by
  induction more generalizing before s first s' with
  | nil =>
    obtain ⟨text, -, hcovers, hs'⟩ := hs.emits hemit
    obtain ⟨-, hm, -⟩ := hemit.of_isOrdinary hfirst
    have hcross : Crosses s [first] s' := hemit.crosses (ne_endOfText_of_isOrdinary hfirst)
    refine ⟨[first], _, s', first, hcross, hs', hm, List.suffix_refl _, h, ?_, rfl, hcovers.stop_eq⟩
    simp [hfirst]
  | cons t more ih =>
    obtain ⟨text, -, -, hs'⟩ := hs.emits hemit
    -- the next ordinary token, and what the scanner passes on the way to it
    obtain ⟨ht, passed, before₁, s₁, s₂, hcross, hpassed, hs₁, hemit₁, hrest⟩ :=
      exists_emits hs' h
    obtain ⟨ts, before', s'', last, hcross', hs'', hm, hsuffix, hafter, hts, hlast, hstop⟩ :=
      ih hs₁ hemit₁ ht hrest
    have hcross₀ : Crosses s [first] s' := hemit.crosses (ne_endOfText_of_isOrdinary hfirst)
    refine ⟨[first] ++ passed ++ ts, before', s'', last, (hcross₀.trans hcross).trans hcross', hs'',
      hm, ?_, hafter, ?_, ?_, hstop⟩
    · exact hcross'.rest_suffix.trans hcross.rest_suffix
    · -- what is passed between two ordinary tokens is none
      have hnone : passed.filter (·.kind.isOrdinary) = [] := by
        rw [List.filter_eq_nil_iff]
        intro u hu
        rw [hpassed u hu]
        exact Bool.false_ne_true
      simp [List.filter_append, hnone, hts, hfirst]
    · rw [List.getLast?_cons_cons]
      exact hlast

/-- The first of some ordinary tokens, in its place. If there is a token in front of it, that does
not lead to the name of a member. -/
theorem exists_emits_behind {source : String} {front rest : List Token} {first : Token}
    (h : (ofFile source).tokens.filter (·.kind.isOrdinary) = front ++ first :: rest)
    (hfront : ∀ t ∈ front.getLast?, t.kind.leadsToMember = false) :
    first.kind.isOrdinary = true ∧
      ∃ before s s', Stands .html source.toList before s ∧ Emits s first s' ∧
        s.last.leadsToMember = false ∧ s'.tokens.filter (·.kind.isOrdinary) = rest := by
  obtain rfl | ⟨front, t, rfl⟩ := front.eq_nil_or_concat
  · obtain ⟨hfirst, passed, before, s, s', hcross, hpassed, hs, hemit, hrest⟩ :=
      exists_emits (stands_start .html source) h
    exact ⟨hfirst, before, s, s', hs, hemit, hcross.last_eq_false hpassed rfl, hrest⟩
  · have ht : t.kind.leadsToMember = false := hfront t (by simp)
    rw [List.concat_eq_append, List.append_assoc, List.singleton_append] at h
    -- up to `t`, behind it, and from there to `first`
    obtain ⟨l₁, l₂, htokens, -, hl₂⟩ := List.filter_eq_append_iff.mp h
    obtain ⟨s₀, hcross₀, rfl⟩ := exists_crosses htokens (by rintro rfl; simp at hl₂)
    obtain ⟨before₀, hs₀⟩ := (stands_start .html source).crosses hcross₀
    obtain ⟨hordinary, -, before₁, s₁, s₂, -, -, hs₁, hemit₁, hrest₁⟩ := exists_emits hs₀ hl₂
    obtain ⟨-, -, hlast⟩ := hemit₁.of_isOrdinary hordinary
    obtain ⟨text, -, -, hs₂⟩ := hs₁.emits hemit₁
    obtain ⟨hfirst, passed, before, s, s', hcross, hpassed, hs, hemit, hrest⟩ :=
      exists_emits hs₂ hrest₁
    exact ⟨hfirst, before, s, s', hs, hemit, hcross.last_eq_false hpassed (hlast ▸ ht), hrest⟩

/-- **Excerpts between two tokens.** Ordinary tokens of a source that stand together, with more of
them behind. The text from the first of them to the last one is scanned into the same ordinary
tokens, unless it begins with a byte order mark. -/
theorem exists_excerpt {source : String} {front more after : List Token} {first : Token}
    (h : (ofFile source).tokens.filter (·.kind.isOrdinary) = front ++ first :: (more ++ after))
    (hafter : after ≠ []) (hfront : ∀ t ∈ front.getLast?, t.kind.leadsToMember = false) :
    ∃ text last, (first :: more).getLast? = some last ∧ text ≠ "" ∧
      Text.slice? source first.span.offset (last.span.stop - first.span.offset) = some text ∧
      (text.toList.head? ≠ some '\uFEFF' →
        ((ofCode text).tokens.filter (·.kind.isOrdinary)).map spelling
          = (first :: more).map spelling) := by
  obtain ⟨hfirst, before, s, s', hs, hemit, hlast, hrest⟩ := exists_emits_behind h hfront
  obtain ⟨ts, before', s'', last, hcross, hs'', hm'', hsuffix, hbehind, hts, hgetLast, hstop⟩ :=
    exists_crosses_ordinary hs hemit hfirst hrest
  obtain ⟨hm, -, -⟩ := hemit.of_isOrdinary hfirst
  -- the excerpt is what the way leads across
  obtain ⟨u, hu⟩ := hcross.rest_suffix
  -- where the way ends is where it begins, and the excerpt
  have hbefore : before' = before ++ u := by
    have hsource := hs.source_eq.symm.trans hs''.source_eq
    rw [← hu, ← List.append_assoc] at hsource
    exact (List.append_cancel_right hsource).symm
  refine ⟨String.ofList u, last, hgetLast, ?_, ?_, ?_⟩
  · -- the first token is not empty
    intro hempty
    obtain rfl : u = [] := String.ofList_eq_empty_iff.mp hempty
    have hlt := next_rest_lt s (by rw [hemit.next_eq]; exact ne_endOfText_of_isOrdinary hfirst)
    rw [hemit.next_eq, ← hu, List.nil_append] at hlt
    exact absurd hsuffix.length_le (Nat.not_le_of_lt hlt)
  · obtain ⟨text, -, hcovers, -⟩ := hs.emits hemit
    have hsource : source = String.ofList (before ++ u ++ s''.rest) := by
      rw [← String.ofList_toList (s := source), hs.source_eq, ← hu, List.append_assoc]
    rw [hcovers.offset_eq, hstop, hbefore, Text.byteLength_append, Nat.add_sub_cancel_left, hsource]
    exact Text.slice?_byteLength before u s''.rest
  · intro hhead
    rw [String.toList_ofList] at hhead
    have hne : s''.rest ≠ [] := by
      intro hnil
      rw [tokens_of_rest_eq_nil hnil] at hbehind
      exact hafter hbehind.symm
    -- a file begins outside of code, so there is something in front
    have hoffset : s.pos.offset ≠ 0 := by
      intro hzero
      exact absurd ((hs.mode_eq (hs.before_eq_nil hzero)).symm.trans hm) (by decide)
    have htokens := hcross.tokens_ofCode hu.symm hne hm hm'' hoffset hlast hhead
    have hfilter : ∀ l : List Token, (l.filter (·.kind.isOrdinary)).map spelling
        = (l.map spelling).filter (·.1.isOrdinary) := by
      intro l
      rw [List.filter_map]
      rfl
    rw [hfilter, htokens, List.filter_append, ← hfilter, hts]
    exact List.append_nil _

end Between

end Scanner

end Introspect.Token
