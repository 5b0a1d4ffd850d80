import Introspect.Proofs.Reading.Classes
import Introspect.Proofs.Scan.Scopes

/-!
# Agreement on scopes

The scanner counts braces and nothing else. The reader finds the end of a class by reading its
members, and in the loose stretches of a body it counts brackets, each sort in its own way. In a
file about which nothing is to be reported, the two agree wherever the braces in the loose stretches
of a body are balanced.

* `scopeEnd?` is the scanner's side: the token behind which the depth is first back to what it was
  in front of an opening brace;
* `ClassEnds` is the reader's side: the brace that was taken as the end of a class;
* `Walk.level_eq`: along a walk, only the loose stretches change the depth;
* `exists_classEnds`: in a file about which nothing is to be reported, every class has such a brace;
* `closing_matches` joins the two sides, and `crossed_brackets_disagree` is a file where they
  differ.
-/

namespace Introspect

namespace Token

/-! ### The depth along a stream -/

/-- The tokens with the depth behind each of them. -/
def depths (depth : Nat) : List Token → List (Token × Nat)
  | [] => []
  | t :: ts => (t, depthAfter depth t.kind) :: depths (depthAfter depth t.kind) ts

/-- **Matching braces.** The token behind which the depth is first back to what it was in front of
the opening brace. -/
def scopeEnd? (opening : Token) (stream : List (Token × Nat)) : Option Token :=
  match stream.dropWhile (·.1 ≠ opening) with
  | [] => none
  | (_, depth) :: behind => (behind.find? (·.2 + 1 = depth)).map (·.1)

/-- How many braces are open behind some tokens if `k` are open in front of them. There is no answer
if more are closed on the way than have been opened. -/
def level (k : Nat) : List Token → Option Nat
  | [] => some k
  | t :: ts =>
    match t.kind with
    | .leftBrace => level (k + 1) ts
    | .rightBrace =>
      match k with
      | 0 => none
      | k + 1 => level k ts
    | _ => level k ts

theorem depths_append (depth : Nat) (ts us : List Token) :
    depths depth (ts ++ us) = depths depth ts ++ depths (depthFrom depth ts) us := by
  induction ts generalizing depth with
  | nil => rfl
  | cons t ts ih =>
    rw [List.cons_append, depths, depths, ih]
    rfl

theorem mem_of_mem_depths {depth : Nat} {ts : List Token} {p : Token × Nat}
    (hp : p ∈ depths depth ts) : p.1 ∈ ts := by
  induction ts generalizing depth with
  | nil => simp [depths] at hp
  | cons t ts ih =>
    rcases List.mem_cons.mp hp with rfl | hp
    · exact List.mem_cons_self
    · exact List.mem_cons_of_mem _ (ih hp)

/-- The scanner gives each token with the depth behind it. -/
theorem Scanner.run_eq_depths (s : Scanner) : s.run.1 = depths s.depth s.tokens := by
  induction s using Scanner.stream_induction with
  | last s h =>
    rw [run_of_endOfText h, tokens_of_endOfText h, depths, s.next_scoped.depth_eq]
    rfl
  | step s h ih => rw [run_of_ne h, tokens_of_ne h, depths, ih, s.next_scoped.depth_eq]

section Level

variable {t : Token} {ts us : List Token} {k m : Nat}

theorem level_cons_up (h : t.kind = .leftBrace) : level k (t :: ts) = level (k + 1) ts := by
  simp [level, h]

theorem level_cons_down (h : t.kind = .rightBrace) : level (k + 1) (t :: ts) = level k ts := by
  simp [level, h]

theorem level_cons_stray (h : t.kind = .rightBrace) : level 0 (t :: ts) = none := by
  simp [level, h]

theorem level_cons_of_ne (hl : t.kind ≠ .leftBrace) (hr : t.kind ≠ .rightBrace) :
    level k (t :: ts) = level k ts := by
  rw [level.eq_def]
  dsimp only
  split
  · next h => exact absurd h hl
  · next h => exact absurd h hr
  · rfl

theorem level_cons_congr (h : ∀ k, level k ts = level k us) (k : Nat) :
    level k (t :: ts) = level k (t :: us) := by
  by_cases hl : t.kind = .leftBrace
  · rw [level_cons_up hl, level_cons_up hl, h]
  by_cases hr : t.kind = .rightBrace
  · cases k with
    | zero => rw [level_cons_stray hr, level_cons_stray hr]
    | succ k => rw [level_cons_down hr, level_cons_down hr, h]
  · rw [level_cons_of_ne hl hr, level_cons_of_ne hl hr, h]

theorem level_append (k : Nat) (ts us : List Token) :
    level k (ts ++ us) = (level k ts).bind (level · us) := by
  induction ts generalizing k with
  | nil => rfl
  | cons t ts ih =>
    rw [List.cons_append]
    by_cases hl : t.kind = .leftBrace
    · rw [level_cons_up hl, level_cons_up hl, ih]
    by_cases hr : t.kind = .rightBrace
    · cases k with
      | zero => rw [level_cons_stray hr, level_cons_stray hr, Option.bind_none]
      | succ k => rw [level_cons_down hr, level_cons_down hr, ih]
    · rw [level_cons_of_ne hl hr, level_cons_of_ne hl hr, ih]

/-- Braces that are open further out change nothing. -/
theorem level_add (h : level k ts = some m) (j : Nat) : level (k + j) ts = some (m + j) := by
  induction ts generalizing k with
  | nil =>
    obtain rfl := Option.some.inj h
    rfl
  | cons t ts ih =>
    by_cases hl : t.kind = .leftBrace
    · rw [level_cons_up hl] at h ⊢
      rw [Nat.add_right_comm]
      exact ih h
    by_cases hr : t.kind = .rightBrace
    · cases k with
      | zero => simp [level_cons_stray hr] at h
      | succ k =>
        rw [level_cons_down hr] at h
        rw [Nat.add_right_comm, level_cons_down hr]
        exact ih h
    · rw [level_cons_of_ne hl hr] at h ⊢
      exact ih h

/-- Where the level is known, the depth stays above what is open further out. -/
theorem le_depth_of_level (h : level k ts = some m) (n : Nat) :
    (∀ p ∈ depths (n + k) ts, n ≤ p.2) ∧ depthFrom (n + k) ts = n + m := by
  induction ts generalizing k with
  | nil =>
    obtain rfl := Option.some.inj h
    exact ⟨by simp [depths], rfl⟩
  | cons t ts ih =>
    -- behind the first token `j` braces are open, and not more are closed
    suffices hstep : ∃ j, depthAfter (n + k) t.kind = n + j ∧ level j ts = some m by
      obtain ⟨j, hafter, hj⟩ := hstep
      obtain ⟨hle, hfrom⟩ := ih hj
      rw [depths, hafter]
      refine ⟨fun p hp => ?_, ?_⟩
      · rcases List.mem_cons.mp hp with rfl | hp
        · exact Nat.le_add_right n j
        · exact hle p hp
      · rw [← hfrom, ← hafter]
        rfl
    by_cases hl : t.kind = .leftBrace
    · rw [level_cons_up hl] at h
      exact ⟨k + 1, by rw [hl]; rfl, h⟩
    by_cases hr : t.kind = .rightBrace
    · cases k with
      | zero => simp [level_cons_stray hr] at h
      | succ k =>
        rw [level_cons_down hr] at h
        exact ⟨k, by rw [hr]; rfl, h⟩
    · rw [level_cons_of_ne hl hr] at h
      exact ⟨k, depthAfter_of_ne _ hl hr, h⟩

/-- Where no brace is stray, the level is the depth. -/
theorem level_of_strayFree (h : StrayFree k ts) : level k ts = some (depthFrom k ts) := by
  induction ts generalizing k with
  | nil => rfl
  | cons t ts ih =>
    obtain ⟨hstray, htail⟩ := strayFree_cons.mp h
    have hlevel := ih htail
    have hfrom : depthFrom k (t :: ts) = depthFrom (depthAfter k t.kind) ts := rfl
    rw [hfrom]
    by_cases hl : t.kind = .leftBrace
    · rw [level_cons_up hl]
      rwa [hl] at hlevel ⊢
    by_cases hr : t.kind = .rightBrace
    · obtain ⟨k, rfl⟩ := Nat.exists_eq_succ_of_ne_zero (hstray hr)
      rw [level_cons_down hr]
      rwa [hr] at hlevel ⊢
    · rw [level_cons_of_ne hl hr]
      rwa [depthAfter_of_ne k hl hr] at hlevel ⊢

/-- Balanced braces lead back to the level in front of them. -/
theorem level_of_dyck (w : DyckWord) (hw : w.toList = braceWord ts) : level 0 ts = some 0 := by
  have hstray : StrayFree 0 ts := by
    rw [strayFree_iff, ← hw]
    intro i
    rw [Nat.zero_add]
    exact w.count_D_le_count_U i
  have hcount := depthFrom_add_count hstray
  have heq := w.count_U_eq_count_D
  rw [hw] at heq
  rw [level_of_strayFree hstray]
  congr 1
  omega

end Level

/-- Between matching braces the level comes back to where it was. -/
theorem scopeEnd?_eq {before between behind : List Token} {opening closing : Token}
    (hopening : opening.kind = .leftBrace) (hclosing : closing.kind = .rightBrace)
    (hbefore : opening ∉ before) (hbetween : level 0 between = some 0) (depth : Nat) :
    scopeEnd? opening (depths depth (before ++ opening :: (between ++ closing :: behind)))
      = some closing := by
  have hskip : ∀ p ∈ depths depth before, decide (p.1 ≠ opening) = true := by
    intro p hp
    refine decide_eq_true fun heq => hbefore ?_
    rw [← heq]
    exact mem_of_mem_depths hp
  -- in between, the depth stays above the one in front of the opening brace
  obtain ⟨hle, hfrom⟩ := le_depth_of_level hbetween (depthFrom depth before + 1)
  have hnone : (depths (depthFrom depth before + 1) between).find?
      (·.2 + 1 = depthFrom depth before + 1) = none := by
    refine List.find?_eq_none.mpr fun p hp => ?_
    have hp' := hle p hp
    simp only [decide_eq_true_eq]
    omega
  rw [scopeEnd?, depths_append, List.dropWhile_append_of_pos hskip, depths, hopening]
  simp only [List.dropWhile_cons, ne_eq, not_true_eq_false, decide_false, Bool.false_eq_true,
    if_false]
  rw [show depthAfter (depthFrom depth before) .leftBrace = depthFrom depth before + 1 from rfl,
    depths_append, List.find?_append, hnone, hfrom, depths, hclosing]
  simp [depthAfter]

end Token

/-- A file about which nothing is to be reported is read strictly. -/
theorem SourceFile.readStrictly_of_quiet {file : SourceFile} (hquiet : file.read.2 = []) :
    file.readStrictly = .ok file.read.1 := by
  rw [readStrictly, ← Prod.mk.eta (p := file.read), hquiet]

theorem SourceFile.quiet_of_readStrictly {file : SourceFile} {classes : List Class}
    (h : file.readStrictly = .ok classes) : file.read.2 = [] := by
  unfold readStrictly at h
  split at h
  · next hread => rw [hread]
  · exact absurd h (by simp)

namespace Reading

/-! ### The depth along a walk -/

section Walk

variable {es es' behind : List Entry} {loose : List (List Entry)} {closing : Token}

/-- A block is closed by a brace, and the braces in front of that close each other. -/
theorem exists_level_of_closeBlock {t : Token} {depth : Nat}
    (h : closeBlock depth es = some (t, behind)) :
    ∃ inner closing, es = inner ++ closing :: behind ∧ closing.token = t ∧
      closing.kind = .rightBrace ∧ Token.level depth (inner.map (·.token)) = some 0 := by
  induction es generalizing depth with
  | nil => simp [closeBlock] at h
  | cons e es ih =>
    -- where the walk goes on, what it passes over has a level
    have hpass : ∀ {k}, closeBlock k es = some (t, behind) →
        (∀ ts, Token.level depth (e.token :: ts) = Token.level k ts) →
        ∃ inner closing, e :: es = inner ++ closing :: behind ∧ closing.token = t ∧
          closing.kind = .rightBrace ∧ Token.level depth (inner.map (·.token)) = some 0 := by
      intro k h' hlevel
      obtain ⟨inner, closing, rfl, htoken, hkind, hinner⟩ := ih h'
      exact ⟨e :: inner, closing, rfl, htoken, hkind, by rw [List.map_cons, hlevel, hinner]⟩
    unfold closeBlock at h
    split at h
    · next hk => exact hpass h fun _ => Token.level_cons_up hk
    · next hk =>
      cases depth with
      | zero =>
        obtain ⟨rfl, rfl⟩ := Prod.mk.inj (Option.some.inj h)
        exact ⟨[], e, rfl, rfl, hk, rfl⟩
      | succ depth => exact hpass h fun _ => Token.level_cons_down hk
    · next hl hr => exact hpass h fun _ => Token.level_cons_of_ne hl hr

/-- **Along a walk** that does not get lost, only the loose stretches change the depth. -/
theorem Walk.level_eq (h : Walk es loose es') (hne : es' ≠ []) :
    ∃ passed, es = passed ++ es' ∧
      ∀ k, Token.level k (passed.map (·.token)) = Token.level k (loose.flatten.map (·.token)) := by
  induction h with
  | stay es => exact ⟨[], rfl, fun _ => rfl⟩
  | @token e es es' loose he _ ih =>
    obtain ⟨passed, rfl, hlevel⟩ := ih hne
    refine ⟨e :: passed, rfl, fun k => ?_⟩
    rw [List.map_cons, Token.level_cons_of_ne, hlevel]
    · exact fun hk => by simp [Entry.kind, hk, Token.Kind.isBrace] at he
    · exact fun hk => by simp [Entry.kind, hk, Token.Kind.isBrace] at he
  | @block e closing es behind es' loose he hclose _ ih =>
    obtain ⟨passed, rfl, hlevel⟩ := ih hne
    obtain ⟨inner, brace, rfl, -, hbrace, hinner⟩ := exists_level_of_closeBlock hclose
    refine ⟨e :: inner ++ brace :: passed, by simp, fun k => ?_⟩
    -- the block goes up by one and comes down again at its end
    have hadd : Token.level (k + 1) (inner.map (·.token)) = some (k + 1) := by
      simpa using Token.level_add hinner (k + 1)
    rw [List.map_append, Token.level_append, List.map_cons, Token.level_cons_up he, hadd,
      Option.bind_some, List.map_cons, Token.level_cons_down hbrace, hlevel]
  | @loosely l es es' loose hl _ ih =>
    obtain ⟨passed, rfl, hlevel⟩ := ih hne
    refine ⟨l ++ passed, by simp, fun k => ?_⟩
    rw [List.flatten_cons, List.map_append, List.map_append, Token.level_append,
      Token.level_append]
    simp only [hlevel]
  | lost _ hwalk _ =>
    -- behind the end of the file there is no token to come to
    exact absurd (List.suffix_nil.mp hwalk.suffix) hne

/-- The tokens of an entry and of those around it, with the braces in front of it. -/
theorem entries_split {doc : Option String} {ts : List Token} {e : Entry}
    (h : entries doc ts = es ++ e :: es') :
    ∃ before behind, ts = before ++ e.token :: behind ∧ entries none behind = es' ∧
      ∀ k, Token.level k before = Token.level k (es.map (·.token)) := by
  induction ts generalizing doc es with
  | nil => simp [entries] at h
  | cons t ts ih =>
    -- tokens that make no entry are no braces
    have hskip : ∀ {doc'}, t.kind ≠ .leftBrace → t.kind ≠ .rightBrace →
        entries doc' ts = es ++ e :: es' →
        ∃ before behind, t :: ts = before ++ e.token :: behind ∧ entries none behind = es' ∧
          ∀ k, Token.level k before = Token.level k (es.map (·.token)) := by
      intro doc' hl hr h
      obtain ⟨before, behind, rfl, hbehind, hlevel⟩ := ih h
      refine ⟨t :: before, behind, rfl, hbehind, fun k => ?_⟩
      rw [Token.level_cons_of_ne hl hr, hlevel]
    rw [entries] at h
    split at h
    case h_7 => simp at h
    case h_8 =>
      cases es with
      | nil =>
        obtain ⟨rfl, rfl⟩ := List.cons.inj h
        exact ⟨[], ts, rfl, rfl, fun _ => rfl⟩
      | cons e' es =>
        obtain ⟨rfl, h'⟩ := List.cons.inj h
        obtain ⟨before, behind, rfl, hbehind, hlevel⟩ := ih h'
        exact ⟨t :: before, behind, rfl, hbehind, Token.level_cons_congr hlevel⟩
    all_goals
      next hk => exact hskip (by simp [hk]) (by simp [hk]) h

end Walk

/-! ### Files about which nothing is to be reported -/

section Quiet

variable {file : SourceFile} {start : List Entry} {f : FileState} {s s' : State}

/-- What is reported stays reported. -/
theorem Reads.diagnostics_eq_nil (h : Reads s s') (hquiet : s'.diagnostics = []) :
    s.diagnostics = [] := by
  obtain ⟨ds, heq, -⟩ := h.reported
  rw [hquiet] at heq
  exact (List.append_eq_nil_iff.mp heq.symm).1

theorem State.diagnostics_report_ne_nil (s : State) (d : Diagnostic) :
    (s.report d).diagnostics ≠ [] := by
  simp [State.report]

/-- In such a file no step reports anything. -/
theorem FileState.Visits.diagnostics_step {classes : List Class}
    (haccepted : file.readStrictly = .ok classes) (hf : (FileState.start file.text).Visits file f)
    (hrest : f.rest ≠ []) : (f.step file).diagnostics = [] := by
  have hquiet : (f.finish file).diagnostics = [] := by
    rw [hf.finish_eq]
    exact SourceFile.quiet_of_readStrictly haccepted
  have hreads : Reads (f.step file).toState (f.finish file).toState := by
    rw [FileState.finish]
    simp only [hrest, if_false]
    split_ifs
    · exact (Reads.refl _).finish file
    · exact Reads.refl _
  exact hreads.diagnostics_eq_nil hquiet

/-- A class that is read without a report has a header, a body and an end. -/
theorem classDeclaration_quiet {o : Option (ClassDraft × Span)}
    (h : Yields (classDeclaration file start) s o s') (hquiet : s'.diagnostics = []) :
    ∃ d name header s₂ d₂ s₃ d₃,
      Yields (classOpening file start) s (d, name, header) s₂ ∧
      Yields (classMembers ⟨file.text, file.resolver⟩ d) s₂ d₂ s₃ ∧
      Yields (classEnd start header d₂) s₃ d₃ s' ∧ o = some (d₃, name.span) := by
  obtain ⟨⟨d₀, name, header⟩, s₁, hdraft, h⟩ := h.of_bind
  obtain ⟨r, s₂, hattempt, h⟩ := h.of_bind
  cases r with
  | error e =>
    obtain ⟨_, s₃, hreport, h⟩ := h.of_bind
    obtain ⟨-, rfl⟩ := EStateM.Result.ok.inj hreport
    obtain ⟨_, s₄, hrecover, h⟩ := h.of_bind
    obtain ⟨-, rfl⟩ := EStateM.Result.ok.inj h
    -- a header that cannot be read is reported, and what is reported stays
    have hforward : Forward (s₂.report e) (fun _ => True) recoverDeclaration :=
      Forward.recoverDeclaration
    have hreads := (hforward.of_ok (Reads.refl _) hrecover).1
    exact absurd (hreads.diagnostics_eq_nil hquiet) (s₂.diagnostics_report_ne_nil e)
  | ok d =>
    obtain ⟨d₂, s₃, hmembers, h⟩ := h.of_bind
    obtain ⟨d₃, s₄, hend, h⟩ := h.of_bind
    obtain ⟨rfl, rfl⟩ := EStateM.Result.ok.inj h
    have hopen : Yields (classOpening file start) s (d, name, header) s₂ :=
      hdraft.bind (hattempt.of_attempt.bind .pure)
    exact ⟨d, name, header, s₂, d₂, s₃, d₃, hopen, hmembers, hend, rfl⟩

/-- A class that ends without a report ends with a brace, on whose line it ends. -/
theorem classEnd_quiet {header : Span} {d d' : ClassDraft}
    (h : Yields (classEnd start header d) s d' s') (hquiet : s'.diagnostics = []) :
    s.peek.kind = .rightBrace ∧ s'.rest = s.rest.tail ∧
      d'.endLine = some s.peek.span.endLine := by
  -- a write that is refused is reported
  have hwrite : ∀ {s₁ : State} {span : Span} {line : Nat},
      Yields (write span d (·.writeEndLine line)) s₁ d' s' →
        s₁ = s' ∧ d.writeEndLine line = .ok d' := by
    intro s₁ span line hrun
    cases hres : d.writeEndLine line with
    | ok d₁ =>
      rw [Yields, Yields.write hres] at hrun
      obtain ⟨rfl, rfl⟩ := EStateM.Result.ok.inj hrun
      exact ⟨rfl, rfl⟩
    | error e =>
      rw [Yields, Yields.write_refused hres] at hrun
      obtain ⟨-, rfl⟩ := EStateM.Result.ok.inj hrun
      exact absurd hquiet (State.diagnostics_report_ne_nil _ _)
  obtain ⟨r, s₁, hattempt, h⟩ := h.of_bind
  cases r with
  | error e =>
    obtain ⟨_, s₂, hreport, h⟩ := h.of_bind
    obtain ⟨-, rfl⟩ := EStateM.Result.ok.inj hreport
    obtain ⟨rfl, -⟩ := hwrite h
    exact absurd hquiet (s₁.diagnostics_report_ne_nil e)
  | ok closing =>
    obtain ⟨hk, rfl, rfl⟩ := hattempt.of_attempt.of_expect
    obtain ⟨rfl, hline⟩ := hwrite h
    refine ⟨hk, rfl, ?_⟩
    unfold ClassDraft.writeEndLine at hline
    cases hd : d.endLine with
    | some n => simp [hd, bind, Except.bind] at hline
    | none =>
      rw [hd] at hline
      rw [← Except.ok.inj hline]

/-- A class that is published has been reported on already, or never is. -/
theorem FileState.diagnostics_of_publish {d : ClassDraft} {span : Span}
    (hquiet : (f.publish file d span).diagnostics = []) : f.diagnostics = [] := by
  cases f.publishesTo_publish file d span with
  | known _ _ heq | new _ heq =>
    rw [heq] at hquiet
    exact hquiet
  | duplicate _ _ heq =>
    rw [heq] at hquiet
    exact absurd hquiet (State.diagnostics_report_ne_nil _ _)

/-- The reading of the body of a class is a walk. -/
theorem classMembers_along {cfg : Setting} {d d' : ClassDraft}
    (h : Yields (classMembers cfg d) s d' s') : Along s s' := by
  obtain ⟨d₁, s₁, hrun, halong, -⟩ := exists_classMembers cfg d s
  rw [Yields, h] at hrun
  obtain ⟨-, rfl⟩ := EStateM.Result.ok.inj hrun
  exact halong

theorem classMembers_eof {cfg : Setting} {d d' : ClassDraft}
    (h : Yields (classMembers cfg d) s d' s') : s'.eof = s.eof := by
  have hforward : Forward s _ (classMembers cfg d) := Forward.classMembers cfg d
  exact (hforward.of_ok (Reads.refl s) h).1.eof_eq

theorem classOpening_eof {r : ClassDraft × Token × Span}
    (h : Yields (classOpening file start) s r s') : s'.eof = s.eof := by
  obtain ⟨s₁, hs₁, -, rfl⟩ := classOpening_behind h
  exact hs₁.eof_eq

end Quiet

/-! ### The two ends of a class -/

/-- **The end that the reader takes.** The class that is entered at `f` begins at `s`. Its body
begins behind `opening` and is walked over up to `closing`, with which the class ends. -/
structure ClassEnds (file : SourceFile) (f : FileState) (s : State) (opening closing : Entry)
    (body behind : List Entry) (c : ClassDraft × Span) : Prop where
  rest_eq : ∃ before, s.rest = before ++ opening :: (body ++ closing :: behind)
  opening_kind : opening.kind = .leftBrace
  closing_kind : closing.kind = .rightBrace
  opens : ∃ r s₂, Yields (classOpening file f.rest) s r s₂ ∧ s₂.rest = body ++ closing :: behind
  walks : ∃ loose, Walk (body ++ closing :: behind) loose (closing :: behind)
  yields : ∃ s', Yields (classDeclaration file f.rest) s (some c) s' ∧ s'.rest = behind
  endLine_eq : c.1.endLine = some closing.token.span.endLine

/-- The braces in some stretches of tokens, one stretch after another, are balanced. -/
def Balanced (stretches : List (List Entry)) : Prop :=
  ∃ w : DyckWord, w.toList = Token.braceWord (stretches.flatten.map (·.token))

section Ends

variable {file : SourceFile} {f : FileState} {s : State}

/-- In a file about which nothing is to be reported, every class that is entered ends with
a brace. -/
theorem exists_classEnds {classes : List Class} (haccepted : file.readStrictly = .ok classes)
    (hf : (FileState.start file.text).Visits file f) (henters : f.Enters s) :
    ∃ opening closing body behind c, ClassEnds file f s opening closing body behind c := by
  have hs := henters.reads hf.reads
  have hrest : f.rest ≠ [] := by
    intro hnil
    have hs' : s.rest = [] :=
      List.suffix_nil.mp (hnil ▸ (henters.reads (Reads.refl f.toState)).suffix)
    simpa [hs', atClass] using henters.2
  have hquiet := hf.diagnostics_step haccepted hrest
  rw [henters.step_eq, FileState.readClass] at hquiet
  cases hres : classDeclaration file f.rest s with
  | error e s' =>
    simp only [hres] at hquiet
    exact absurd hquiet (State.diagnostics_report_ne_nil _ _)
  | ok o s' =>
    have hquiet' : s'.diagnostics = [] := by
      cases o with
      | none => simpa only [hres] using hquiet
      | some c =>
        simp only [hres] at hquiet
        exact FileState.diagnostics_of_publish hquiet
    obtain ⟨d, name, header, s₂, d₂, s₃, d₃, hopen, hmembers, hend, rfl⟩ :=
      classDeclaration_quiet hres hquiet'
    obtain ⟨hk, hs', hline⟩ := classEnd_quiet hend hquiet'
    obtain ⟨closing, hs₃⟩ : ∃ closing, s₃.rest = closing :: s'.rest := by
      cases hs₃ : s₃.rest with
      | cons closing behind => exact ⟨closing, by rw [hs', hs₃, List.tail_cons]⟩
      | nil =>
        -- the end of the file is no brace
        have heof : s₃.eof.kind = .endOfText := by
          rw [classMembers_eof hmembers, classOpening_eof hopen, hs.eof_eq,
            FileState.kind_eof_start]
        rw [State.peek_of_rest_nil hs₃, heof] at hk
        exact absurd hk (by decide)
    rw [State.peek_of_rest hs₃] at hk hline
    obtain ⟨before, opening, hbefore, hopening⟩ := exists_opening hs hopen
    obtain ⟨loose, hwalk⟩ := (classMembers_along hmembers).walk
    rw [hs₃] at hwalk
    obtain ⟨body, hbody⟩ := hwalk.suffix
    exact ⟨opening, closing, body, s'.rest, (d₃, name.span),
      { rest_eq := ⟨before, by rw [hbefore, hbody]⟩
        opening_kind := hopening
        closing_kind := hk
        opens := ⟨_, s₂, hopen, hbody.symm⟩
        walks := ⟨loose, by rwa [hbody]⟩
        yields := ⟨s', hres, rfl⟩
        endLine_eq := hline }⟩

/-- Where the braces of the loose stretches are balanced, the two ends are the same. -/
theorem ClassEnds.scopeEnd?_eq {opening closing : Entry} {body behind : List Entry}
    {c : ClassDraft × Span} {loose : List (List Entry)}
    (h : ClassEnds file f s opening closing body behind c)
    (hs : Reads (FileState.start file.text).toState s)
    (hwalk : Walk (body ++ closing :: behind) loose (closing :: behind))
    (hbalanced : Balanced loose) :
    Token.scopeEnd? opening.token (Token.Scanner.ofFile file.text).run.1 = some closing.token := by
  -- the tokens of the file around the two braces
  obtain ⟨before, hbefore⟩ := h.rest_eq
  obtain ⟨lead, hlead⟩ := hs.suffix
  rw [hbefore, ← List.append_assoc] at hlead
  obtain ⟨ts, us, htokens, hus, -⟩ := entries_split hlead.symm
  obtain ⟨between, rest, rfl, -, hbetween⟩ := entries_split hus
  -- between them, the depth changes as it does in the loose stretches
  have hlevel : Token.level 0 between = some 0 := by
    obtain ⟨passed, hpassed, hloose⟩ := hwalk.level_eq (List.cons_ne_nil _ _)
    obtain rfl := List.append_cancel_right hpassed
    obtain ⟨w, hw⟩ := hbalanced
    rw [hbetween, hloose, Token.level_of_dyck w hw]
  have htokens' : (Token.Scanner.ofFile file.text).tokens
      = ts ++ opening.token :: (between ++ closing.token :: rest) := htokens
  have hopening : opening.token ∉ ts := by
    intro hmem
    have hordered := (Token.Scanner.stands_start .html file.text).tiles.ordered
    rw [← Token.Scanner.ofFile, htokens', List.pairwise_append] at hordered
    exact absurd (hordered.2.2 _ hmem _ List.mem_cons_self).1 (Nat.lt_irrefl _)
  rw [Token.Scanner.run_eq_depths, htokens']
  exact Token.scopeEnd?_eq h.opening_kind h.closing_kind hopening hlevel _

end Ends

/-! ### The places of the two braces -/

/-- What a routine leaves of the tokens, whether it yields or gives up. -/
def leftBy {α : Type} (r : Routine α) (s : State) : List Entry :=
  match r s with
  | .ok _ s' | .error _ s' => s'.rest

theorem Yields.rest_eq {α : Type} {r : Routine α} {s s' : State} {a : α} (h : Yields r s a s') :
    s'.rest = leftBy r s := by
  rw [leftBy, h]

/-- The braces of a class are where the reading of its header and of all of it has led. -/
theorem ClassEnds.braces_eq {file : SourceFile} {f : FileState} {s : State}
    {opening closing : Entry} {body behind : List Entry} {c : ClassDraft × Span} {i j : Nat}
    (h : ClassEnds file f s opening closing body behind c)
    (hi : i + 1 + (leftBy (classOpening file f.rest) s).length = s.rest.length)
    (hj : j + 1 + (leftBy (classDeclaration file f.rest) s).length = s.rest.length) :
    s.rest.drop i = opening :: (body ++ closing :: behind) ∧
      s.rest.drop j = closing :: behind := by
  obtain ⟨before, hrest⟩ := h.rest_eq
  obtain ⟨r, s₂, hopen, hs₂⟩ := h.opens
  obtain ⟨s', hclass, rfl⟩ := h.yields
  rw [← hopen.rest_eq, hs₂] at hi
  rw [← hclass.rest_eq] at hj
  rw [hrest] at hi hj ⊢
  simp only [List.length_append, List.length_cons] at hi hj
  constructor
  · exact List.drop_left' (by omega)
  · rw [← List.cons_append, ← List.append_assoc]
    refine List.drop_left' ?_
    simp only [List.length_append, List.length_cons]
    omega

/-- **Agreement on scopes.** In a file about which nothing is to be reported, every class that is
entered ends with a brace, and ends on the line of that brace. If the braces in the loose stretches
of its body are balanced, that brace is the one that matches the opening brace of the body: the
depth is there, for the first time, what it was in front of the opening brace. -/
theorem closing_matches (file : SourceFile) {classes : List Class}
    (haccepted : file.readStrictly = .ok classes) {f : FileState}
    (hf : (FileState.start file.text).Visits file f) {s : State} (henters : f.Enters s) :
    ∃ opening closing body behind c, ClassEnds file f s opening closing body behind c ∧
      ∀ loose, Walk (body ++ closing :: behind) loose (closing :: behind) → Balanced loose →
        Token.scopeEnd? opening.token (Token.Scanner.ofFile file.text).run.1
          = some closing.token := by
  obtain ⟨opening, closing, body, behind, c, h⟩ := exists_classEnds haccepted hf henters
  refine ⟨opening, closing, body, behind, c, h, fun loose hwalk hbalanced => ?_⟩
  exact h.scopeEnd?_eq (henters.reads hf.reads) hwalk hbalanced

/-- A file with a class that uses a trait, with braces in parentheses. -/
def traitFile : SourceFile where
  text := "<?php class A \x7b use S (\x7b\x7d); \x7d\n class B \x7b\x7d"

theorem closing_matches_traitUse :
    ∃ classes f opening closing body behind c loose, traitFile.readStrictly = .ok classes ∧
      (FileState.start traitFile.text).Visits traitFile f ∧ f.Enters f.toState ∧
      ClassEnds traitFile f f.toState opening closing body behind c ∧
      Walk (body ++ closing :: behind) loose (closing :: behind) ∧ Balanced loose ∧
      Token.scopeEnd? opening.token (Token.Scanner.ofFile traitFile.text).run.1
        = some closing.token := by
  let f := FileState.start traitFile.text
  let word := f.rest.getD 3 default
  let l := (f.rest.drop 4).take 5
  let semicolon := f.rest.getD 9 default
  obtain ⟨hquiet, hpeek, hclass, hi, hj, hrest, hword, hend, hsemicolon, hbraces⟩ :
      traitFile.read.2 = [] ∧ f.peek.kind ≠ .attributeOpen ∧ atClass f.rest = true ∧
        2 + 1 + (leftBy (classOpening traitFile f.rest) f.toState).length = f.rest.length ∧
        10 + 1 + (leftBy (classDeclaration traitFile f.rest) f.toState).length = f.rest.length ∧
        (f.rest.drop 2).tail = (word :: l) ++ semicolon :: f.rest.drop 10 ∧
        word.kind = .useWord ∧
        statementEnd 0 (l ++ semicolon :: f.rest.drop 10) = semicolon :: f.rest.drop 10 ∧
        semicolon.kind.isBrace = false ∧
        Token.braceWord ([word :: l].flatten.map (·.token)) = [.U, .D] := by
    decide +kernel
  have haccepted : traitFile.readStrictly = .ok traitFile.read.1 :=
    SourceFile.readStrictly_of_quiet hquiet
  have henters : f.Enters f.toState := ⟨Yields.skipAttributes hpeek, hclass⟩
  obtain ⟨opening, closing, body, behind, c, h, hmatches⟩ :=
    closing_matches traitFile haccepted (.here f) henters
  obtain ⟨hopening, hclosing⟩ := h.braces_eq hi hj
  -- the body is the use of a trait, which is read loosely, and its semicolon
  have hwalk : Walk (body ++ closing :: behind) [word :: l] (closing :: behind) := by
    rw [← hclosing]
    rw [hopening, List.tail_cons] at hrest
    rw [← hclosing] at hrest
    rw [hrest]
    exact .loosely (.traitUse hword hend) (.token hsemicolon (.stay _))
  have hbalanced : Balanced [word :: l] := ⟨DyckWord.nest 0, hbraces.symm⟩
  exact ⟨_, f, opening, closing, body, behind, c, _, haccepted, .here f, henters, h, hwalk,
    hbalanced, hmatches _ hwalk hbalanced⟩

/-- A file with a class in whose values brackets are closed by brackets of another sort. -/
def crossedFile : SourceFile where
  text := "<?php class A \x7b const X = ( \x7d ; const Y = \x7b ) ;\n \x7d"

/-- There, scanner and reader differ on where the class ends. -/
theorem crossed_brackets_disagree :
    ∃ classes f opening closing body behind c, crossedFile.readStrictly = .ok classes ∧
      (FileState.start crossedFile.text).Visits crossedFile f ∧ f.Enters f.toState ∧
      ClassEnds crossedFile f f.toState opening closing body behind c ∧
      Token.scopeEnd? opening.token (Token.Scanner.ofFile crossedFile.text).run.1
        ≠ some closing.token := by
  let f := FileState.start crossedFile.text
  obtain ⟨hquiet, hpeek, hclass, hi, hj, hends⟩ :
      crossedFile.read.2 = [] ∧ f.peek.kind ≠ .attributeOpen ∧ atClass f.rest = true ∧
        2 + 1 + (leftBy (classOpening crossedFile f.rest) f.toState).length = f.rest.length ∧
        15 + 1 + (leftBy (classDeclaration crossedFile f.rest) f.toState).length
          = f.rest.length ∧
        ∀ opening ∈ (f.rest.drop 2).head?, ∀ closing ∈ (f.rest.drop 15).head?,
          Token.scopeEnd? opening.token (Token.Scanner.ofFile crossedFile.text).run.1
            ≠ some closing.token := by
    decide +kernel
  have haccepted : crossedFile.readStrictly = .ok crossedFile.read.1 :=
    SourceFile.readStrictly_of_quiet hquiet
  have henters : f.Enters f.toState := ⟨Yields.skipAttributes hpeek, hclass⟩
  obtain ⟨opening, closing, body, behind, c, h⟩ := exists_classEnds haccepted (.here f) henters
  obtain ⟨hopening, hclosing⟩ := h.braces_eq hi hj
  refine ⟨_, f, opening, closing, body, behind, c, haccepted, .here f, henters, h, ?_⟩
  -- the two braces are found by their indices in the file
  exact hends opening (by rw [hopening]; rfl) closing (by rw [hclosing]; rfl)

end Reading

end Introspect
