import Introspect.Reading.Routine
import Mathlib.Tactic.Common

/-!
# Doc comments between significant tokens

A doc comment is no significant token. It is kept with the significant token that it stands in front
of, and a declaration takes the last one that is kept with any of a stretch of tokens. In the tokens
as they were scanned this is the last doc comment of a stretch.

* `place ts i` is the number of significant tokens in front of the token with the index `i`, so a
  doc comment stands in front of the significant token with that index;
* `LastDoc ts p q i raw`: of the doc comments in front of the tokens from `p` to `q`, the one with
  the index `i` is the last, and its text is `raw`;
* `doc_of_entries` says which doc comment is kept with a token, and `lastDoc_eq_some_iff` which one
  is found in a stretch;
* `token_cases`: what is neither a doc comment nor left out is one of the significant tokens.
-/

namespace Introspect.Reading

/-! ### Places -/

/-- The number of significant tokens in front of the token with the index `i`. -/
def place (ts : List Token) (i : Nat) : Nat := (entries none (ts.take i)).length

/-- The token with the index `i` is a doc comment, with the text `raw`, in front of one of the
significant tokens from `p` to `q`. -/
structure DocWithin (ts : List Token) (p q i : Nat) (raw : String) : Prop where
  token : ∃ t, ts[i]? = some t ∧ t.kind = .docComment ∧ t.lexeme = raw
  le_place : p ≤ place ts i
  place_le : place ts i ≤ q

/-- Whether tokens of the kind are left out of the significant ones: tags, text outside of code and
invalid input. -/
def isLeftOut : Token.Kind → Bool
  | .inlineHtml | .openTag | .openTagWithEcho | .closeTag | .invalid => true
  | _ => false

/-- **The last doc comment** in front of any of the significant tokens from `p` to `q`. -/
structure LastDoc (ts : List Token) (p q i : Nat) (raw : String) : Prop where
  within : DocWithin ts p q i raw
  last : ∀ {j raw'}, DocWithin ts p q j raw' → j ≤ i

section Places

variable {ts : List Token} {t : Token} {doc : Option String} {n p q r i j : Nat}
  {raw raw' : String}

/-- What a token does to the significant ones: nothing, or it is a doc comment, or the end of the
text, or it is significant itself. -/
theorem entries_cases (t : Token) :
    (isLeftOut t.kind = true ∧ ∀ doc ts, entries doc (t :: ts) = entries doc ts) ∨
    (t.kind = .docComment ∧ ∀ doc ts, entries doc (t :: ts) = entries (some t.lexeme) ts) ∨
    (t.kind ≠ .docComment ∧ ∀ doc ts, entries doc (t :: ts) = []) ∨
    (t.kind ≠ .docComment ∧ ∀ doc ts, entries doc (t :: ts) = ⟨t, doc⟩ :: entries none ts) := by
  cases hk : t.kind
  case docComment => exact .inr (.inl ⟨rfl, fun doc ts => by simp [entries, hk]⟩)
  case endOfText => exact .inr (.inr (.inl ⟨nofun, fun doc ts => by simp [entries, hk]⟩))
  case inlineHtml | openTag | openTagWithEcho | closeTag | invalid =>
    exact .inl ⟨rfl, fun doc ts => by simp [entries, hk]⟩
  all_goals exact .inr (.inr (.inr ⟨nofun, fun doc ts => by simp [entries, hk]⟩))

/-- The doc comment that waits for its token does not count. -/
theorem length_entries (doc doc' : Option String) (ts : List Token) :
    (entries doc ts).length = (entries doc' ts).length := by
  induction ts generalizing doc doc' with
  | nil => rfl
  | cons t ts ih =>
    -- behind a doc comment, and behind a significant token, both wait for the same
    rcases entries_cases t with ⟨-, h⟩ | ⟨-, h⟩ | ⟨-, h⟩ | ⟨-, h⟩ <;> rw [h, h]
    · exact ih doc doc'
    · rfl

/-- What is further on has at least as many significant tokens in front of it. -/
theorem place_mono (ts : List Token) (h : i ≤ j) : place ts i ≤ place ts j := by
  unfold place
  induction ts generalizing i j with
  | nil => simp
  | cons t ts ih =>
    cases i with
    | zero => simp [entries]
    | succ i =>
      cases j with
      | zero => exact absurd h (by simp)
      | succ j =>
        have ih := ih (Nat.le_of_succ_le_succ h)
        simp only [List.take_succ_cons]
        -- the token counts the same for both, and behind the end of the text nothing is counted
        rcases entries_cases t with ⟨-, h⟩ | ⟨-, h⟩ | ⟨-, h⟩ | ⟨-, h⟩
        · rw [h, h]
          exact ih
        · rw [h, h, length_entries _ none, length_entries _ none (ts.take j)]
          exact ih
        · rw [h]
          exact Nat.zero_le _
        · rw [h, h]
          exact Nat.succ_le_succ ih

theorem ne_docComment_of_isLeftOut {kind : Token.Kind} (h : isLeftOut kind = true) :
    kind ≠ .docComment := by
  rintro rfl
  cases h

@[simp] theorem place_zero (ts : List Token) : place ts 0 = 0 := rfl

theorem place_cons_succ (t : Token) (ts : List Token) (j : Nat) :
    place (t :: ts) (j + 1) = (entries none (t :: ts.take j)).length := rfl

/-- In front of the end of the text, a token is left out, or it is a doc comment, or it is one of
the significant tokens. -/
theorem token_cases (ht : ts[j]? = some t) (hj : place ts (j + 1) < (entries doc ts).length) :
    isLeftOut t.kind = true ∨ t.kind = .docComment ∨
      ∃ e, (entries doc ts)[place ts j]? = some e ∧ e.token = t ∧
        place ts j < place ts (j + 1) := by
  induction ts generalizing doc j with
  | nil => simp at ht
  | cons u ts ih =>
    cases j with
    | zero =>
      obtain rfl : u = t := by simpa using ht
      rcases entries_cases u with ⟨hu, -⟩ | ⟨hu, -⟩ | ⟨-, h⟩ | ⟨-, h⟩
      · exact .inl hu
      · exact .inr (.inl hu)
      · -- behind the end of the text there is no significant token
        simp [h] at hj
      · exact .inr (.inr ⟨_, by rw [h]; rfl, rfl, by simp [place_cons_succ, h]⟩)
    | succ j =>
      have ht : ts[j]? = some t := by simpa using ht
      rw [place_cons_succ] at hj
      rw [place_cons_succ, place_cons_succ]
      rcases entries_cases u with ⟨-, h⟩ | ⟨-, h⟩ | ⟨-, h⟩ | ⟨-, h⟩ <;> simp only [h] at hj ⊢
      · exact ih ht hj
      · rw [length_entries _ none] at hj
        rw [length_entries _ none (ts.take j), length_entries _ none (ts.take (j + 1))]
        exact ih ht hj
      · exact absurd hj (Nat.not_lt_zero _)
      · simpa [place] using ih ht (Nat.lt_of_succ_lt_succ hj)

theorem DocWithin.lt_length (h : DocWithin ts p q i raw) : i < ts.length := by
  obtain ⟨t, ht, -⟩ := h.token
  exact (List.getElem?_eq_some_iff.mp ht).1

theorem DocWithin.raw_eq (h : DocWithin ts p q i raw) (h' : DocWithin ts n r i raw') :
    raw = raw' := by
  obtain ⟨t, ht, -, rfl⟩ := h.token
  obtain ⟨t', ht', -, rfl⟩ := h'.token
  rw [Option.some.inj (ht.symm.trans ht')]

/-- If there are doc comments in a stretch, one of them is the last. -/
theorem DocWithin.exists_last (h : DocWithin ts p q i raw) : ∃ j raw', LastDoc ts p q j raw' := by
  -- on the number of tokens behind
  induction hn : ts.length - i using Nat.strongRecOn generalizing i raw with
  | ind n ih =>
    by_cases hlast : ∀ {j raw'}, DocWithin ts p q j raw' → j ≤ i
    · exact ⟨i, raw, h, hlast⟩
    · obtain ⟨j, raw', h', hj⟩ : ∃ j raw', DocWithin ts p q j raw' ∧ i < j := by
        by_contra hno
        exact hlast fun {j raw'} h' => Nat.le_of_not_lt fun hj => hno ⟨j, raw', h', hj⟩
      have hlt := h'.lt_length
      exact ih (ts.length - j) (by omega) h' rfl

theorem LastDoc.unique (h : LastDoc ts p q i raw) (h' : LastDoc ts p q j raw') :
    i = j ∧ raw = raw' := by
  obtain rfl := Nat.le_antisymm (h'.last h.within) (h.last h'.within)
  exact ⟨rfl, h.within.raw_eq h'.within⟩

/-! ### The doc comment of a token -/

/-- The entry has the last doc comment in front of the significant token `n`, and `doc` if there is
none. -/
structure HasLastDoc (ts : List Token) (n : Nat) (doc : Option String) (e : Entry) : Prop where
  last : ∀ {i raw}, LastDoc ts n n i raw → e.doc = some raw
  without : (∀ i raw, ¬ DocWithin ts n n i raw) → e.doc = doc

/-- A token that is no doc comment itself only shifts the others. -/
theorem HasLastDoc.shift {e : Entry} (h : HasLastDoc ts p doc e) (ht : t.kind ≠ .docComment)
    (hsucc : ∀ {i raw}, DocWithin (t :: ts) n n (i + 1) raw ↔ DocWithin ts p p i raw) :
    HasLastDoc (t :: ts) n doc e where
  last {i raw} hi := by
    cases i with
    | zero =>
      obtain ⟨u, hu, hkind, -⟩ := hi.within.token
      obtain rfl : t = u := by simpa using hu
      exact absurd hkind ht
    | succ i =>
      exact h.last ⟨hsucc.mp hi.within, fun h' =>
        Nat.le_of_succ_le_succ (hi.last (hsucc.mpr h'))⟩
  without hno := h.without fun i raw h' => hno (i + 1) raw (hsucc.mpr h')

/-- What is no significant token counts for nothing behind it. -/
theorem docWithin_succ (h : ∀ ts, (entries none (t :: ts)).length = (entries none ts).length) :
    DocWithin (t :: ts) n n (i + 1) raw ↔ DocWithin ts n n i raw := by
  have hplace : place (t :: ts) (i + 1) = place ts i := by
    rw [place, List.take_succ_cons, h, place]
  constructor <;> rintro ⟨⟨u, hu⟩, hle, hge⟩ <;>
    exact ⟨⟨u, by simpa using hu⟩, by omega, by omega⟩

/-- A significant token counts for everything behind it. -/
theorem docWithin_succ_of_significant
    (h : ∀ doc ts, entries doc (t :: ts) = ⟨t, doc⟩ :: entries none ts) :
    DocWithin (t :: ts) (n + 1) (n + 1) (i + 1) raw ↔ DocWithin ts n n i raw := by
  have hplace : place (t :: ts) (i + 1) = place ts i + 1 := by
    rw [place, List.take_succ_cons, h]
    rfl
  constructor <;> rintro ⟨⟨u, hu⟩, hle, hge⟩ <;>
    exact ⟨⟨u, by simpa using hu⟩, by omega, by omega⟩

/-- A doc comment takes the place of the one that has been waiting. -/
theorem HasLastDoc.behind_comment {e : Entry} (ht : t.kind = .docComment)
    (hsucc : ∀ {i raw}, DocWithin (t :: ts) n n (i + 1) raw ↔ DocWithin ts n n i raw)
    (h : HasLastDoc ts n (if n = 0 then some t.lexeme else none) e) :
    HasLastDoc (t :: ts) n (if n = 0 then doc else none) e := by
  have hzero : n = 0 → DocWithin (t :: ts) n n 0 t.lexeme := fun hn =>
    ⟨⟨t, rfl, ht, rfl⟩, by simp [hn], by simp⟩
  constructor
  · intro i raw hi
    cases i with
    | succ i =>
      exact h.last ⟨hsucc.mp hi.within, fun h' =>
        Nat.le_of_succ_le_succ (hi.last (hsucc.mpr h'))⟩
    | zero =>
      -- the doc comment itself is the last one, so there is none behind it
      have hn : n = 0 := Nat.le_zero.mp hi.within.le_place
      have hno : ∀ i raw, ¬ DocWithin ts n n i raw := fun i raw h' =>
        absurd (hi.last (hsucc.mpr h')) (Nat.not_succ_le_zero i)
      rw [hi.within.raw_eq (hzero hn), h.without hno, if_pos hn]
  · intro hno
    have hn : n ≠ 0 := fun hn => hno 0 _ (hzero hn)
    rw [h.without fun i raw h' => hno (i + 1) raw (hsucc.mpr h'), if_neg hn, if_neg hn]

/-- The first significant token takes the doc comment that has been waiting: all that is behind the
token is behind the first significant one. -/
theorem hasLastDoc_first (ht : t.kind ≠ .docComment)
    (h : ∀ doc ts, entries doc (t :: ts) = ⟨t, doc⟩ :: entries none ts) :
    HasLastDoc (t :: ts) 0 doc ⟨t, doc⟩ where
  last {i raw} hi := by
    obtain ⟨⟨u, hu, hkind, -⟩, -, hplace⟩ := hi.within
    cases i with
    | zero =>
      obtain rfl : t = u := by simpa using hu
      exact absurd hkind ht
    | succ i =>
      rw [place, List.take_succ_cons, h] at hplace
      -- what is behind the token has a significant one in front of it
      exact absurd hplace (Nat.not_succ_le_zero _)
  without _ := rfl

/-- **The doc comment of a token** is the last one in front of it, or, in front of the first token,
the one that has been waiting. -/
theorem doc_of_entries {e : Entry} (he : (entries doc ts)[n]? = some e) :
    HasLastDoc ts n (if n = 0 then doc else none) e := by
  induction ts generalizing doc n with
  | nil => simp [entries] at he
  | cons t ts ih =>
    rcases entries_cases t with ⟨ht, h⟩ | ⟨ht, h⟩ | ⟨ht, h⟩ | ⟨ht, h⟩ <;> rw [h] at he
    · exact (ih he).shift (ne_docComment_of_isLeftOut ht) (docWithin_succ fun ts => by rw [h])
    · exact (ih he).behind_comment ht (docWithin_succ fun ts => by rw [h, length_entries _ none])
    · simp at he
    · cases n with
      | zero =>
        obtain rfl : ⟨t, doc⟩ = e := by simpa using he
        exact hasLastDoc_first ht h
      | succ n =>
        have ih := ih (n := n) (by simpa using he)
        rw [ite_self] at ih
        rw [if_neg (Nat.succ_ne_zero n)]
        exact ih.shift ht (docWithin_succ_of_significant h)

/-! ### The doc comment of a stretch -/

theorem lastDoc_concat (es : List Entry) (e : Entry) :
    lastDoc (es ++ [e]) = e.doc.or (lastDoc es) := by
  unfold lastDoc
  rw [List.reverse_append, List.reverse_singleton, List.singleton_append, List.findSome?_cons]
  cases e.doc <;> rfl

/-- In one more token of a stretch, the last doc comment is the last one of the token, if it has
one. -/
theorem lastDoc_stretch {k : Nat} (hk : p + k < (entries none ts).length) :
    (∀ {i raw}, LastDoc ts p (p + k) i raw →
        lastDoc (((entries none ts).drop p).take (k + 1)) = some raw) ∧
      ((∀ i raw, ¬ DocWithin ts p (p + k) i raw) →
        lastDoc (((entries none ts).drop p).take (k + 1)) = none) := by
  induction k with
  | zero =>
    obtain ⟨hsome, hnone⟩ := doc_of_entries (List.getElem?_eq_getElem hk)
    have hone : ((entries none ts).drop p).take 1 = [(entries none ts)[p + 0]] :=
      congrArg (List.take 1) (List.drop_eq_getElem_cons hk)
    have hdoc : lastDoc (((entries none ts).drop p).take 1) = (entries none ts)[p + 0].doc := by
      rw [hone, ← List.nil_append [_], lastDoc_concat]
      exact Option.or_none
    rw [hdoc]
    exact ⟨hsome, fun hno => by rw [hnone hno, ite_self]⟩
  | succ k ih =>
    obtain ⟨ihsome, ihnone⟩ := ih (by omega)
    -- the doc comment of the new token counts, or else, where it has none, that of the others
    obtain ⟨hsome, hnone⟩ := doc_of_entries (List.getElem?_eq_getElem hk)
    have hone : ((entries none ts).drop p).take (k + 1 + 1)
        = ((entries none ts).drop p).take (k + 1) ++ [(entries none ts)[p + (k + 1)]] := by
      rw [List.take_add_one, List.getElem?_drop, List.getElem?_eq_getElem hk]
      rfl
    rw [hone, lastDoc_concat]
    have hwider : ∀ {i raw}, DocWithin ts (p + (k + 1)) (p + (k + 1)) i raw →
        DocWithin ts p (p + (k + 1)) i raw :=
      fun h => ⟨h.token, by have := h.le_place; omega, h.place_le⟩
    refine ⟨fun {i raw} hi => ?_, fun hno => ?_⟩
    · by_cases hplace : place ts i ≤ p + k
      · -- one in front of the new token would be further on
        have hno : ∀ j raw', ¬ DocWithin ts (p + (k + 1)) (p + (k + 1)) j raw' := by
          intro j raw' h'
          have hle := place_mono ts (hi.last (hwider h'))
          have := h'.le_place
          omega
        rw [hnone hno, ite_self, Option.none_or]
        exact ihsome ⟨⟨hi.within.token, hi.within.le_place, hplace⟩, fun h' =>
          hi.last ⟨h'.token, h'.le_place, by have := h'.place_le; omega⟩⟩
      · -- it is in front of the new token
        rw [hsome ⟨⟨hi.within.token, by omega, hi.within.place_le⟩, fun h' => hi.last (hwider h')⟩,
          Option.some_or]
    · rw [hnone fun i raw h' => hno i raw (hwider h'), ite_self, Option.none_or]
      exact ihnone fun i raw h' => hno i raw ⟨h'.token, h'.le_place, by have := h'.place_le; omega⟩

/-- **The doc comment that is found in a stretch** of significant tokens is the last one in front of
any of them. -/
theorem lastDoc_eq_some_iff (hpq : p ≤ q) (hq : q < (entries none ts).length) :
    lastDoc (((entries none ts).drop p).take (q - p + 1)) = some raw ↔
      ∃ i, LastDoc ts p q i raw := by
  have hk : p + (q - p) < (entries none ts).length := by omega
  obtain ⟨hsome, hnone⟩ := lastDoc_stretch hk
  rw [Nat.add_sub_cancel' hpq] at hsome hnone
  refine ⟨fun h => ?_, fun ⟨i, hi⟩ => hsome hi⟩
  -- what is found is the last one, and without one nothing would be found
  by_cases hex : ∃ i raw', DocWithin ts p q i raw'
  · obtain ⟨i, raw', hi⟩ := hex
    obtain ⟨j, raw'', hj⟩ := hi.exists_last
    obtain rfl := Option.some.inj ((hsome hj).symm.trans h)
    exact ⟨j, hj⟩
  · rw [hnone fun i raw' hi => hex ⟨i, raw', hi⟩] at h
    cases h

end Places

end Introspect.Reading
