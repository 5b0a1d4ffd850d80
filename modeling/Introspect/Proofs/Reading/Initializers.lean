import Introspect.Proofs.Reading.Nesting
import Introspect.Proofs.Scan.Excerpts

/-!
# Values as they are written

The text that is kept of a default value or of a constant's value is the text of the source from the
first of its tokens to the last one, whatever comments, tags or invalid input stand between them. It
holds its own: its brackets are balanced, and scanned alone it has the tokens that it has in the
file.

* `IsValue` says this of a text and the tokens that are read for it;
* `splitInitializer_bracketed`: the walk over a value ends where its brackets are balanced;
* `map_token_entries`: the entries of a file are its ordinary tokens, so a value is an excerpt of
  the source between two of them (`Token.Scanner.exists_excerpt`);
* `AtValue` is a place at which a value may be read. `values_verbatim` is about every such place,
  and says that default values and values of constants are read at one.
-/

namespace Introspect.Reading

open Token (Scanner spelling)

/-! ### Brackets -/

/-- Opening brackets of all three sorts among the tokens. -/
def openings (ts : List Token) : Nat := ts.countP (·.kind.closer?.isSome)

/-- Closing brackets of all three sorts among the tokens. -/
def closings (ts : List Token) : Nat := ts.countP (·.kind.isCloser)

/-- **Balanced brackets.** There are as many closing brackets as opening ones, where `n` are open in
front of the tokens, and at no place more. -/
structure Bracketed (n : Nat) (ts : List Token) : Prop where
  total : closings ts = openings ts + n
  never_more : ∀ front, front <+: ts → closings front ≤ openings front + n

theorem bracketed_nil : Bracketed 0 [] := by
  refine ⟨rfl, fun front hfront => ?_⟩
  rw [List.prefix_nil.mp hfront]
  rfl

theorem bracketsAfter_eq_some {kind : Token.Kind} {n m : Nat}
    (h : bracketsAfter kind n = some m) :
    (if kind.isCloser then 1 else 0) + m = (if kind.closer?.isSome then 1 else 0) + n := by
  revert h
  cases kind <;> simp [bracketsAfter, Token.Kind.isCloser, Token.Kind.closer?] <;> omega

theorem eq_zero_of_bracketsAfter {kind : Token.Kind} {n : Nat}
    (h : bracketsAfter kind n = none) : n = 0 := by
  unfold bracketsAfter at h
  split at h <;> simp_all

theorem Bracketed.cons {n m : Nat} {t : Token} {ts : List Token} (h : Bracketed m ts)
    (hcount : bracketsAfter t.kind n = some m) : Bracketed n (t :: ts) := by
  have hstep := bracketsAfter_eq_some hcount
  constructor
  · have htotal := h.total
    simp only [closings, openings, List.countP_cons] at htotal ⊢
    omega
  · intro front hfront
    rcases List.prefix_cons_iff.mp hfront with rfl | ⟨front', rfl, hfront'⟩
    · exact Nat.zero_le _
    · have hmore := h.never_more front' hfront'
      simp only [closings, openings, List.countP_cons] at hmore ⊢
      omega

/-- A value that ends in front of a token has balanced brackets. The induction is along the walk,
which counts the brackets that are open. -/
theorem splitInitializer_bracketed (stops : List Token.Kind) (n : Nat) (es : List Entry)
    (h : (splitInitializer stops n es).2 ≠ []) :
    Bracketed n (splitInitializer stops n es).1 := by
  induction es generalizing n with
  | nil => exact absurd rfl h
  | cons e es ih =>
    rw [splitInitializer] at h ⊢
    split_ifs at h ⊢ with hstop
    · rw [hstop.1]
      exact bracketed_nil
    · cases hcount : bracketsAfter e.kind n with
      | none =>
        rw [eq_zero_of_bracketsAfter hcount]
        exact bracketed_nil
      | some m =>
        rw [hcount] at h
        exact (ih m h).cons hcount

/-! ### Entries and tokens -/

/-- The entries of a file are its ordinary tokens. -/
theorem map_token_entries (s : Scanner) (doc : Option String) :
    (entries doc s.tokens).map (·.token) = s.tokens.filter (·.kind.isOrdinary) := by
  induction s using Scanner.stream_induction generalizing doc with
  | last s hk =>
    rw [Scanner.tokens_of_endOfText hk, entries, hk, List.filter_cons, hk]
    rfl
  | step s hk ih =>
    rw [Scanner.tokens_of_ne hk, entries, List.filter_cons]
    split
    case h_7 hend => exact absurd hend hk
    case h_8 hhtml hopen hecho hclose hinvalid hdoc hend =>
      have hordinary : s.next.1.kind.isOrdinary = true := by
        unfold Token.Kind.isOrdinary
        split <;> simp_all
      rw [if_pos hordinary, List.map_cons, ih]
    all_goals
      next hkind =>
        rw [hkind]
        exact ih _

/-! ### Values -/

/-- **Values.** `text` is a value, and `tokens` are those that are read for it. -/
structure IsValue (source : String) (tokens : List Token) (text : String) : Prop where
  ne_empty : text ≠ ""
  /-- It goes from the first byte of the first token to the last byte of the last one. -/
  slice : ∃ first last, tokens.head? = some first ∧ tokens.getLast? = some last ∧
    Text.slice? source first.span.offset (last.span.stop - first.span.offset) = some text
  bracketed : Bracketed 0 tokens
  /-- Alone it has the same tokens; a byte order mark is no token at the beginning of a text. -/
  scanned : text.toList.head? ≠ some '\uFEFF' →
    ((Scanner.ofCode text).tokens.filter (·.kind.isOrdinary)).map spelling = tokens.map spelling

/-- **Reading a value.** From `es` on, the value `text` is read, and `es'` are left. -/
def ReadsValue (source : String) (es es' : List Entry) (text : String) : Prop :=
  ∃ value, es = value ++ es' ∧ IsValue source (value.map (·.token)) text

/-- **A place of values** in a file: the token in front, if there is one, does not lead to the name
of a member. -/
def AtValue (source : String) (s : State) : Prop :=
  ∃ front, (FileState.start source).rest = front ++ s.rest ∧
    ∀ e ∈ front.getLast?, e.kind.leadsToMember = false

variable {source : String} {stops : List Token.Kind} {s s' : State} {text : String} {last : Token}

/-- What a value that is read is made of. -/
theorem Yields.of_initializer (h : Yields (initializer source stops) s (text, last) s') :
    ∃ first more, (splitInitializer stops 0 s.rest).1 = first :: more ∧
      s'.rest = (splitInitializer stops 0 s.rest).2 ∧ s'.rest ≠ [] ∧
      (first :: more).getLast? = some last ∧
      text = ((first.span.merge last.span).slice? source).getD "" := by
  obtain ⟨s₀, s₁, hget, h⟩ := h.of_bind
  obtain ⟨rfl, rfl⟩ := EStateM.Result.ok.inj hget
  dsimp only at h
  obtain ⟨_, s₂, hset, h⟩ := h.of_bind
  obtain ⟨-, rfl⟩ := EStateM.Result.ok.inj hset
  split_ifs at h with hend
  · -- a value that runs to the end of the file is given up
    obtain ⟨_, _, hthrow, -⟩ := h.of_bind
    exact nomatch hthrow
  · cases hsplit : (splitInitializer stops 0 s.rest).1 with
    | nil =>
      obtain ⟨d, hfails⟩ := Fails.unexpected (α := String × Token) "value"
      rw [hsplit] at h
      exact (hfails.not_yields h).elim
    | cons first more =>
      rw [hsplit] at h
      obtain ⟨hvalue, rfl⟩ := EStateM.Result.ok.inj h
      obtain ⟨rfl, rfl⟩ := Prod.mk.inj hvalue
      refine ⟨first, more, rfl, rfl, hend, ?_, rfl⟩
      rw [List.getLast?_cons, List.getLastD_eq_getLast?]

/-- Of tokens in order, the first and the last are the ends of what both of them cover. -/
theorem merge_eq {first last : Token} {more : List Token}
    (hordered : (first :: more).Pairwise fun t u =>
      t.span.offset < u.span.offset ∧ t.span.stop ≤ u.span.offset)
    (hlast : (first :: more).getLast? = some last) :
    (first.span.merge last.span).offset = first.span.offset ∧
      (first.span.merge last.span).len = last.span.stop - first.span.offset := by
  have hends : first.span.offset ≤ last.span.offset ∧ first.span.stop ≤ last.span.stop := by
    rcases List.mem_cons.mp (List.mem_of_getLast? hlast) with rfl | hmem
    · exact ⟨Nat.le_refl _, Nat.le_refl _⟩
    · obtain ⟨hoffset, hstop⟩ := List.rel_of_pairwise_cons hordered hmem
      exact ⟨Nat.le_of_lt hoffset, Nat.le_trans hstop (Nat.le_add_right _ _)⟩
  simp only [Span.merge, if_pos hends.1, Nat.max_eq_right hends.2, and_self]

/-- **Values.** What is read at a place of values is one. -/
theorem AtValue.readsValue (hs : AtValue source s)
    (h : Yields (initializer source stops) s (text, last) s') :
    ReadsValue source s.rest s'.rest text := by
  obtain ⟨first, more, hsplit, hrest, hne, hlast, htext⟩ := h.of_initializer
  obtain ⟨value, hvalue, htokens⟩ := splitInitializer_split stops 0 s.rest
  obtain ⟨front, hstart, hfront⟩ := hs
  rw [hsplit] at htokens
  rw [← hrest] at hvalue
  -- the entries of the file, as its ordinary tokens
  have hentries : (Scanner.ofFile source).tokens.filter (·.kind.isOrdinary)
      = front.map (·.token) ++ first :: (more ++ s'.rest.map (·.token)) := by
    have hmap := map_token_entries (Scanner.ofFile source) none
    have hfile : entries none (Scanner.ofFile source).tokens = front ++ (value ++ s'.rest) := by
      rw [← hvalue, ← hstart]
      rfl
    rw [← hmap, hfile, List.map_append, List.map_append, htokens]
    rfl
  obtain ⟨text', last', hlast', hempty, hslice, hscanned⟩ :=
    Scanner.exists_excerpt hentries (by simpa using hne) (by simpa [Entry.kind] using hfront)
  obtain rfl : last = last' := Option.some.inj (hlast.symm.trans hlast')
  have hordered : (first :: more).Pairwise fun t u =>
      t.span.offset < u.span.offset ∧ t.span.stop ≤ u.span.offset := by
    have hall : ((Scanner.ofFile source).tokens.filter (·.kind.isOrdinary)).Pairwise _ :=
      (Scanner.stands_start .html source).tiles.ordered.filter _
    rw [hentries] at hall
    refine hall.sublist (.trans ?_ (List.sublist_append_right _ _))
    exact List.sublist_append_left (first :: more) _
  obtain ⟨hoffset, hlen⟩ := merge_eq hordered hlast'
  obtain rfl : text = text' := by
    rw [htext, Span.slice?, hoffset, hlen, hslice, Option.getD_some]
  refine ⟨value, hvalue, ?_⟩
  rw [htokens]
  exact ⟨hempty, ⟨first, last, rfl, hlast', hslice⟩,
    hsplit ▸ splitInitializer_bracketed stops 0 s.rest (hrest ▸ hne), hscanned⟩

/-- Behind an equals sign a value may stand. -/
theorem atValue_advance (hs : Reads (FileState.start source).toState s)
    (hk : s.peek.kind = .equal) : AtValue source s.advance := by
  obtain ⟨front, hstart⟩ := hs.suffix
  cases hrest : s.rest with
  | nil =>
    -- the end of the file is no equals sign
    rw [State.peek_of_rest_nil hrest, hs.eof_eq, FileState.kind_eof_start] at hk
    exact Token.Kind.noConfusion hk
  | cons e es =>
    rw [State.peek_of_rest hrest] at hk
    refine ⟨front ++ [e], ?_, ?_⟩
    · rw [State.rest_advance, ← hstart, hrest]
      simp
    · intro e' he'
      obtain rfl : e = e' := by simpa using he'
      rw [Entry.kind, hk]
      rfl

theorem Yields.of_memberName {t : Token} (h : Yields memberName s t s') : s' = s.advance := by
  unfold memberName at h
  obtain ⟨t₀, s₀, hpeek, h⟩ := h.of_bind
  obtain ⟨rfl, rfl⟩ := EStateM.Result.ok.inj hpeek
  split_ifs at h with hname
  · exact (EStateM.Result.ok.inj h).2.symm
  · obtain ⟨d, hfails⟩ := Fails.unexpectedName (s := s) (α := Token)
    exact (hfails.not_yields h).elim

/-- **Values are kept as they are written.** Whatever is read as a value, at a place where a value
may stand, is one. Default values are read behind an equals sign, and values of constants behind a
name and an equals sign, which are such places. -/
theorem values_verbatim (source : String) :
    (∀ stops s text last s', AtValue source s →
      Yields (initializer source stops) s (text, last) s' →
      ReadsValue source s.rest s'.rest text) ∧
    (∀ resolver stops s text last s', Reads (FileState.start source).toState s →
      Yields (defaultValue? ⟨source, resolver⟩ stops) s (some (text, last)) s' →
      ReadsValue source (s.rest.drop 1) s'.rest text) ∧
    (∀ resolver mods hint s c span s', Reads (FileState.start source).toState s →
      Yields (constantDraft ⟨source, resolver⟩ mods hint) s (c, span) s' →
      ReadsValue source (s.rest.drop 2) s'.rest c.value) := by
  refine ⟨fun _ _ _ _ _ => AtValue.readsValue, ?_, ?_⟩
  · intro resolver stops s text last s' hs h
    -- without an equals sign there is no value, so one has been read
    by_cases hk : s.peek.kind = .equal
    · obtain ⟨_, s₁, heat, h⟩ := h.of_bind
      obtain ⟨rfl, rfl⟩ := EStateM.Result.ok.inj ((Yields.eat hk).symm.trans heat)
      obtain ⟨_, s₂, hvalue, h⟩ := h.of_bind
      obtain ⟨heq, rfl⟩ := EStateM.Result.ok.inj h
      obtain rfl := Option.some.inj heq
      rw [List.drop_one]
      exact (atValue_advance hs hk).readsValue hvalue
    · obtain ⟨_, s₁, heat, h⟩ := h.of_bind
      obtain ⟨rfl, rfl⟩ := EStateM.Result.ok.inj ((Yields.eat_none hk).symm.trans heat)
      exact absurd (EStateM.Result.ok.inj h).1 (by simp)
  · intro resolver mods hint s c span s' hs h
    -- the name and the equals sign stand in front of the value
    obtain ⟨name, s₁, hname, h⟩ := h.of_bind
    obtain rfl := hname.of_memberName
    obtain ⟨_, s₂, hequal, h⟩ := h.of_bind
    obtain ⟨_, _, hequal, hpure⟩ := Yields.of_bind hequal
    obtain ⟨hk, -, rfl⟩ := hequal.of_expect
    obtain ⟨-, rfl⟩ := EStateM.Result.ok.inj hpure
    obtain ⟨value, s₃, hvalue, h⟩ := h.of_bind
    obtain ⟨heq, rfl⟩ := EStateM.Result.ok.inj h
    obtain ⟨rfl, -⟩ := Prod.mk.inj heq
    rw [show s.rest.drop 2 = s.advance.advance.rest by simp [← List.drop_one, List.drop_drop]]
    exact (atValue_advance hs.advance hk).readsValue hvalue

/-- A list with a comment in it, which has a closing bracket, and a letter of two bytes: read as the
value of a constant, behind its equals sign, and as a value. -/
theorem values_verbatim_list :
    ∃ source text, source = "<?php class A \x7b const X = [1, /* ] */ 'é']; \x7d" ∧
      text = "[1, /* ] */ 'é']" ∧
      ∃ s : State, Reads (FileState.start source).toState s ∧ AtValue source s.advance.advance ∧
        ∃ c span s', Yields (constantDraft ⟨source, .namespaced⟩ .empty none) s (c, span) s' ∧
          c.value = text ∧ ReadsValue source (s.rest.drop 2) s'.rest text ∧
        ∃ last s', Yields (defaultValue? ⟨source, .namespaced⟩ [.comma, .semicolon]) s.advance
            (some (text, last)) s' ∧ ReadsValue source (s.advance.rest.drop 1) s'.rest text ∧
        ∃ last s', Yields (initializer source [.comma, .semicolon]) s.advance.advance
            (text, last) s' ∧ ReadsValue source s.advance.advance.rest s'.rest text := by
  refine ⟨_, _, rfl, rfl, ?_⟩
  obtain ⟨hvalue, hdefault, hconstant⟩ :=
    values_verbatim "<?php class A \x7b const X = [1, /* ] */ 'é']; \x7d"
  -- the constant begins behind four tokens
  let file := FileState.start "<?php class A \x7b const X = [1, /* ] */ 'é']; \x7d"
  let s : State := { file.toState with rest := file.rest.drop 4 }
  have hs : Reads file.toState s := (Reads.refl _).to_suffix (List.drop_suffix 4 _)
  have hplace := atValue_advance hs.advance (by decide +kernel)
  refine ⟨s, hs, hplace, ?_⟩
  obtain ⟨⟨c, span⟩, s₁, hc, hctext⟩ := exists_yields_with (s := s)
    (r := constantDraft ⟨"<?php class A \x7b const X = [1, /* ] */ 'é']; \x7d", .namespaced⟩
      .empty none)
    (p := fun r _ => r.1.value == "[1, /* ] */ 'é']") (by decide +kernel)
  obtain ⟨d, s₂, hd, hdtext⟩ := exists_yields_with (s := s.advance)
    (r := defaultValue? ⟨"<?php class A \x7b const X = [1, /* ] */ 'é']; \x7d", .namespaced⟩
      [.comma, .semicolon])
    (p := fun r _ => r.any (·.1 == "[1, /* ] */ 'é']")) (by decide +kernel)
  obtain ⟨⟨text, last⟩, s₃, hv, hvtext⟩ := exists_yields_with (s := s.advance.advance)
    (r := initializer "<?php class A \x7b const X = [1, /* ] */ 'é']; \x7d" [.comma, .semicolon])
    (p := fun r _ => r.1 == "[1, /* ] */ 'é']") (by decide +kernel)
  obtain ⟨⟨text', last'⟩, rfl, hdtext⟩ := (Option.any_eq_true _ _).mp hdtext
  obtain rfl := beq_iff_eq.mp hdtext
  obtain rfl := beq_iff_eq.mp hvtext
  refine ⟨c, span, s₁, hc, beq_iff_eq.mp hctext, ?_, last', s₂, hd,
    hdefault _ _ _ _ _ _ hs.advance hd, last, s₃, hv, hvalue _ _ _ _ _ hplace hv⟩
  exact beq_iff_eq.mp hctext ▸ hconstant _ _ _ _ _ _ _ hs hc

end Introspect.Reading
