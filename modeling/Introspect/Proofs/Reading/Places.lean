import Introspect.Proofs.Reading.Members
import Introspect.Proofs.Reading.Steps
import Introspect.Proofs.Scan.Positions

/-!
# The places of diagnostics

Whatever is reported about a file is reported at a token of it, at its end, or is an error of the
scanner. All of these have exact spans, so the span of every diagnostic lies in the source, cuts no
character, and has the line and the column of its first byte.

* `FileState.finish_keeps`: the induction over the steps in which a file is read;
* `Reads.step` and `Reads.finish`: the reading of a file reads forward, step by step;
* `SourceFile.lexical_or_mayReport`: which diagnostics there can be about a file;
* `SourceFile.exact_of_mem_read`: diagnostics have exact spans;
* `positions_exact` puts the positions of tokens, errors and diagnostics together.
-/

namespace Introspect.Reading

/-! ### Namespaces and imports -/

namespace Forward

variable {s₀ : State}

theorem importAlias : Forward s₀ (fun _ => True) importAlias := by
  refine Keeps.bind (eat _) fun _ _ => ?_
  refine Keeps.ite (fun _ => ?_) fun _ => Keeps.pure trivial
  exact Keeps.bind (eat _) fun _ _ => Keeps.pure trivial

theorem addImport (target : String) (aliasName : Option String) :
    Forward s₀ (fun _ => True) (addImport target aliasName) :=
  Keeps.modify fun _ hs => hs.to_scope _

theorem groupMark : Forward s₀ (fun _ => True) groupMark := by
  refine Keeps.bind (eat _) fun _ _ => ?_
  exact Keeps.ite (fun _ => Keeps.pure trivial) fun _ => eats _

theorem groupItem (lead : String) : Forward s₀ (fun _ => True) (groupItem lead) := by
  refine Keeps.bind groupMark fun _ _ => ?_
  refine Keeps.bind (expect _) fun _ _ => ?_
  refine Keeps.bind importAlias fun _ _ => ?_
  exact Keeps.ite (fun _ => addImport _ _) fun _ => Keeps.pure trivial

theorem groupImport (lead : String) : Forward s₀ (fun _ => True) (groupImport lead) := by
  refine Keeps.bind (Keeps.discard (expect _)) fun _ _ => ?_
  refine Keeps.bind peekKind fun _ _ => ?_
  extract_lets close
  have hclose : ∀ u, Forward s₀ (fun _ => True) (close u) := fun _ => Keeps.discard (expect _)
  refine Keeps.ite (fun _ => ?_) fun _ => hclose ()
  exact Keeps.bind (Keeps.discard (listOf (groupItem lead) (commaBefore _))) fun u _ => hclose u

theorem importItem : Forward s₀ (fun _ => True) importItem := by
  refine Keeps.bind (eat _) fun o _ => ?_
  cases o with
  | none => exact unexpectedName
  | some target =>
    refine Keeps.bind Keeps.get fun _ _ => ?_
    refine Keeps.ite (fun _ => ?_) fun _ => ?_
    · exact Keeps.bind (Keeps.discard advance) fun _ _ => groupImport _
    · exact Keeps.bind importAlias fun _ _ => addImport _ _

theorem imports : Forward s₀ (fun _ => True) imports := by
  refine Keeps.bind (Keeps.discard (listOf importItem comma)) fun _ _ => ?_
  exact Keeps.discard (expect _)

/-- A recovery reports what was given up with, and passes over the rest of the statement. -/
theorem reportAndSkip {d : Diagnostic} (hd : s₀.MayReport d) :
    Forward s₀ (fun _ => True) (do Reading.report d; Reading.skipStatement) :=
  Keeps.bind (report hd) fun _ _ => skipStatement

theorem importStatement : Behind importStatement := by
  refine ⟨_, rfl, fun s₀ => ?_⟩
  refine Keeps.bind peekKind fun k _ => ?_
  split
  · exact skipStatement
  · exact skipStatement
  · refine Keeps.bind (Keeps.attempt imports) fun r hr => ?_
    cases r with
    | ok _ => exact Keeps.pure trivial
    | error d => exact reportAndSkip hr

theorem namespaceEnd : Forward s₀ (fun _ => True) namespaceEnd := by
  refine Keeps.bind (eat _) fun _ _ => ?_
  exact Keeps.ite (fun _ => unexpected _) fun _ => Keeps.pure trivial

theorem namespaceStatement : Behind namespaceStatement := by
  refine ⟨_, rfl, fun s₀ => ?_⟩
  refine Keeps.bind (eat _) fun _ _ => ?_
  refine Keeps.bind (eat _) fun _ _ => ?_
  extract_lets _ enter
  have henter : ∀ u, Forward s₀ (fun _ => True) (enter u) := fun _ =>
    Keeps.bind (Keeps.modify fun _ hs => hs.to_scope _) fun _ _ => Keeps.pure trivial
  refine Keeps.ite (fun _ => ?_) fun _ => henter ()
  refine Keeps.bind (Keeps.attempt namespaceEnd) fun r hr => ?_
  cases r with
  | ok u => exact henter u
  | error d =>
    refine Keeps.bind (report hr) fun _ _ => ?_
    exact Keeps.bind skipStatement fun u _ => henter u

/-! ### Classes -/

theorem classFlags : Forward s₀ (fun _ => True) classFlags := by
  refine Keeps.bind (Keeps.iterate_trivial (fun flags => ?_) _) fun _ _ =>
    Keeps.bind advance fun _ _ => Keeps.pure trivial
  refine Keeps.bind peekKind fun k _ => ?_
  split
  case h_4 => exact Keeps.pure trivial
  all_goals exact Keeps.bind (Keeps.discard advance) fun _ _ => Keeps.pure trivial

theorem className (resolver : Resolver) : Forward s₀ (fun _ => True) (className resolver) := by
  refine Keeps.bind (eat _) fun o _ => ?_
  cases o with
  | none => exact unexpectedName
  | some t => exact Keeps.bind Keeps.get fun _ _ => Keeps.pure trivial

theorem interfaceList (resolver : Resolver) (d : ClassDraft) :
    Forward s₀ (Headed d) (interfaceList resolver d) :=
  Keeps.bind (listOf (className resolver) comma) fun names _ =>
    Keeps.pure (headed_addInterfaces d names)

theorem extendsClause (resolver : Resolver) {d : ClassDraft} (hd : d.parentName = none) :
    Forward s₀ (Headed d) (extendsClause resolver d) := by
  refine Keeps.bind (eat _) fun _ _ => ?_
  refine Keeps.ite (fun _ => Keeps.pure (Headed.refl d)) fun _ => ?_
  refine Keeps.ite (fun _ => interfaceList _ _) fun _ => ?_
  refine Keeps.bind peek fun t _ => ?_
  refine Keeps.bind (className _) fun parent _ => ?_
  -- the parent has not been written, so the write is not refused
  have hwrite : d.writeParent parent = .ok { d with parentName := some parent } := by
    rw [ClassDraft.writeParent, hd]
    rfl
  exact Keeps.known (fun _ => Yields.write hwrite) ⟨some parent, d.interfaceNames, rfl⟩

theorem implementsClause (resolver : Resolver) (d : ClassDraft) :
    Forward s₀ (Headed d) (implementsClause resolver d) :=
  Keeps.bind (eat _) fun _ _ =>
    Keeps.ite (fun _ => interfaceList _ _) fun _ => Keeps.pure (Headed.refl d)

/-- The header of a class without a parent names its parent and its interfaces. -/
theorem classHeader (resolver : Resolver) {d : ClassDraft} (hd : d.parentName = none) :
    Forward s₀ (Headed d) (classHeader resolver d) := by
  rw [classHeader_eq]
  refine Keeps.bind (extendsClause _ hd) fun d₁ hd₁ => ?_
  refine Keeps.bind (implementsClause _ d₁) fun d₂ hd₂ => ?_
  exact Keeps.bind (Keeps.discard (expect _)) fun _ _ => Keeps.pure (hd₁.trans hd₂)

theorem classMembers (cfg : Setting) (d : ClassDraft) :
    Forward s₀ (fun d' : ClassDraft => d'.endLine = d.endLine) (classMembers cfg d) := by
  intro s hs
  have hbody : BodyForward s₀ d.endLine (fun _ => True) (Reading.classBody cfg) :=
    BodyForward.classBody cfg
  unfold Reading.classMembers
  cases h : Reading.classBody cfg { s with draft := d } with
  | ok _ b =>
    obtain ⟨hb, -⟩ := hbody.of_ok ⟨hs, rfl⟩ h
    exact ⟨hb.reads, hb.endLine_eq⟩
  | error e b =>
    obtain ⟨hb, he⟩ := hbody.of_error ⟨hs, rfl⟩ h
    exact ⟨hb.reads, he⟩

/-- The line on which a class ends is written where it ends, whether or not there is a brace. -/
theorem classEnd (start : List Entry) (header : Span) {d : ClassDraft} (hd : d.endLine = none) :
    Forward s₀ (fun _ => True) (classEnd start header d) := by
  have hwrite : ∀ line, d.writeEndLine line = .ok { d with endLine := some line } := by
    intro line
    rw [ClassDraft.writeEndLine, hd]
    rfl
  refine Keeps.bind (Keeps.attempt (expect _)) fun r hr => ?_
  cases r with
  | ok closing => exact Keeps.known (fun _ => Yields.write (hwrite _)) trivial
  | error e =>
    refine Keeps.bind (report hr) fun _ _ => ?_
    exact Keeps.known (fun _ => Yields.write (hwrite _)) trivial

/-- **The beginning of a class that has been read.** The name, at which a redeclaration of the class
is reported, is a token in front, and neither a parent nor an end has been written. -/
structure ReadsClass (s₀ : State) (r : ClassDraft × Token × Span) : Prop where
  sees : s₀.Sees r.2.1.span
  parentName_eq : r.1.parentName = none
  endLine_eq : r.1.endLine = none

theorem classDraft (file : SourceFile) (start : List Entry) :
    Forward s₀ (ReadsClass s₀) (classDraft file start) := by
  rw [classDraft_eq]
  refine Keeps.bind peek fun first _ => ?_
  refine Keeps.bind classFlags fun flags _ => ?_
  refine Keeps.bind (docSince _) fun doc _ => ?_
  refine Keeps.bind advance fun name hname => ?_
  refine Keeps.bind Keeps.get fun s _ => ?_
  exact Keeps.pure ⟨hname, rfl, rfl⟩

theorem classDeclaration (file : SourceFile) (start : List Entry) :
    Forward s₀ (fun o : Option (ClassDraft × Span) => ∀ p ∈ o, s₀.Sees p.2)
      (classDeclaration file start) := by
  refine Keeps.bind (classDraft _ _) fun (d, name, header) hd => ?_
  refine Keeps.bind (Keeps.attempt (classHeader _ hd.parentName_eq)) fun r hr => ?_
  cases r with
  | error e =>
    refine Keeps.bind (report hr) fun _ _ => ?_
    exact Keeps.bind recoverDeclaration fun _ _ => Keeps.pure (by simp)
  | ok d' =>
    refine Keeps.bind (classMembers _ d') fun d'' hd'' => ?_
    -- neither the header nor the members write the line of the end
    have hend : d''.endLine = none := hd''.trans (Eq.trans (Headed.endLine_eq hr) hd.endLine_eq)
    refine Keeps.bind (classEnd start header hend) fun _ _ => Keeps.pure ?_
    intro p hp
    rw [← Option.mem_some.mp hp]
    exact hd.sees

end Forward

/-! ### Whole files -/

/-- **Induction over the steps of a file.** What every step keeps is kept by all of them. -/
theorem FileState.finish_keeps {file : SourceFile} {P : FileState → Prop}
    (hstep : ∀ f, P f → P (f.step file)) {f : FileState} (h : P f) : P (f.finish file) := by
  fun_induction FileState.finish f file with
  | case1 f hnil => exact h
  | case2 f hcons f' hless ih => exact ih (hstep f h)
  -- a step that reads nothing would be the last one
  | case3 f hcons f' hless => exact hstep f h

namespace Reads

variable {s₀ : State} {f : FileState}

/-- What a routine that reads forward leaves, whether or not it gives up. -/
theorem run {α : Type} {good : α → Prop} {r : Routine α} (hr : Forward s₀ good r)
    (h : Reads s₀ f.toState) : Reads s₀ (f.run r).toState :=
  FileState.of_run (hr.meets.to_post fun _ _ hs => hs.1) (fun _ _ hs => hs.1.report hs.2) h

/-- A class is reported as a duplicate at its name, which is one of the tokens. -/
theorem readsClass (file : SourceFile) (start : List Entry) :
    ReadsDeclaration file start (Reads s₀) (Reads s₀) fun e s => Reads s₀ s ∧ s₀.MayReport e :=
  (Forward.classDeclaration file start).meets.to_post fun _ _ hs =>
    ⟨hs.1, fun c hc => hs.1.report (State.Sees.mayReport (hs.2 c hc) ⟨nofun, nofun⟩)⟩

theorem readClass (h : Reads s₀ f.toState) (file : SourceFile) (start : List Entry) :
    Reads s₀ (f.readClass file start).toState :=
  FileState.of_readClass (readsClass file start) (fun _ _ hs => hs.1.report hs.2) h

theorem readAttributed (h : Reads s₀ f.toState) (file : SourceFile) :
    Reads s₀ (f.readAttributed file).toState := by
  have hskip : Forward s₀ (fun _ => True) skipAttributes := Forward.skipAttributes
  exact FileState.of_readAttributed (hskip.meets.to_post fun _ _ hs => hs.1)
    ((readsClass file f.rest).of_pre fun _ hs => hs.1) (fun _ hs => hs)
    (fun _ _ hs => hs.1.report hs.2) h

/-- **One step** of the reading of a file reads forward. -/
theorem step (h : Reads s₀ f.toState) (file : SourceFile) : Reads s₀ (f.step file).toState := by
  have hpass : Reads s₀ (f.run Reading.advance).toState := run Forward.advance h
  have hbody : Forward s₀ (fun _ => True) (do discard Reading.advance; skipToBody) :=
    Keeps.bind (Keeps.discard Forward.advance) fun _ _ => Forward.skipToBody
  cases f.stepsTo_step file with
  | space _ _ _ heq => exact heq ▸ run Forward.namespaceStatement.forward h
  | imports _ heq => exact heq ▸ run Forward.importStatement.forward h
  | attributed _ heq => exact heq ▸ readAttributed h file
  | enters _ heq => exact heq ▸ readClass h file f.rest
  | body _ heq => exact heq ▸ run hbody h
  | anonymous _ _ heq =>
    exact heq ▸ run (Keeps.bind (Keeps.discard Forward.advance) fun _ _ => hbody) h
  | opens _ heq | closes _ _ heq | passes _ _ _ heq => exact heq ▸ hpass
  | leaves _ _ heq => exact heq ▸ hpass.to_scope _

/-- **All steps** of the reading of a file read forward. -/
theorem finish (h : Reads s₀ f.toState) (file : SourceFile) :
    Reads s₀ (f.finish file).toState :=
  FileState.finish_keeps (P := fun f => Reads s₀ f.toState) (fun _ hf => hf.step file) h

end Reads

/-! ### The buffer of a file -/

theorem mem_of_mem_entries {doc : Option String} {ts : List Token} {e : Entry}
    (he : e ∈ entries doc ts) : e.token ∈ ts := by
  induction ts generalizing doc with
  | nil => exact absurd he (by simp [entries])
  | cons t ts ih =>
    have hbehind : ∀ doc', e ∈ entries doc' ts → e.token ∈ t :: ts := fun _ h =>
      List.mem_cons_of_mem t (ih h)
    rw [entries] at he
    -- what makes no entry is passed over; left are the end of the text and significant tokens
    split at he <;> try exact hbehind _ he
    · exact absurd he (by simp)
    · rcases List.mem_cons.mp he with rfl | he
      · exact List.mem_cons_self
      · exact hbehind _ he

/-- What a file has in front of it when its reading begins are the places of its tokens. -/
theorem FileState.exact_of_sees {source : String} {span : Span}
    (h : (FileState.start source).Sees span) : span.Exact source := by
  obtain ⟨last, hlast, -⟩ := (Token.Scanner.stands_start .html source).tiles.last_eq
  have heof : (FileState.start source).eof = last := by
    show (Token.Scanner.ofFile source).tokens.getLastD default = last
    rw [List.getLastD_eq_getLast?, Token.Scanner.ofFile, hlast, Option.getD_some]
  rcases h with hspan | ⟨e, he, hspan⟩
  · rw [hspan, heof]
    exact Token.Scanner.exact_of_mem_tokens (List.mem_of_getLast? hlast)
  · rw [hspan]
    exact Token.Scanner.exact_of_mem_tokens (mem_of_mem_entries he)

end Introspect.Reading

namespace Introspect

open Token.Scanner

/-- A diagnostic about a file is an error of the scanner, or one that may be reported from its
beginning on. -/
theorem SourceFile.lexical_or_mayReport {file : SourceFile} {d : Diagnostic}
    (hd : d ∈ file.read.2) :
    (∃ e ∈ (ofFile file.text).run.2.errors, d = .ofLexical e) ∨
      (Reading.FileState.start file.text).MayReport d := by
  obtain ⟨ds, heq, hds⟩ :=
    ((Reading.Reads.refl (Reading.FileState.start file.text).toState).finish file).reported
  have hmem : d ∈ (Reading.FileState.start file.text).diagnostics ++ ds := heq ▸ hd
  -- the reading begins with the errors of the scanner
  rcases List.mem_append.mp hmem with hlexical | hread
  · obtain ⟨e, he, rfl⟩ := List.mem_map.mp hlexical
    exact .inl ⟨e, he, rfl⟩
  · exact .inr (hds d hread)

/-- **Diagnostics have exact spans.** -/
theorem SourceFile.exact_of_mem_read {file : SourceFile} {d : Diagnostic} (hd : d ∈ file.read.2) :
    d.span.Exact file.text := by
  rcases lexical_or_mayReport hd with ⟨e, he, rfl⟩ | hreport
  · exact exact_of_mem_errors he
  · exact Reading.FileState.exact_of_sees hreport.sees

/-- **Positions of a source.** What the places of its tokens, of its errors and of the diagnostics
about it have to do with its text. -/
structure PositionsExact (entry : Token.Mode) (source : String) : Prop where
  /-- The spans of tokens are exact. -/
  tokens : ∀ t ∈ (start entry source).tokens, t.span.Exact source
  /-- The spans of errors are exact. -/
  errors : ∀ e ∈ (start entry source).run.2.errors, e.span.Exact source
  /-- A token ends on the line of its last character. -/
  endLine_eq : ∀ t ∈ (start entry source).tokens, t.kind ≠ .invalid →
    t.span.endLine = t.span.line + t.lexeme.toList.count '\n'
      - (if t.lexeme.toList.getLast? = some '\n' then 1 else 0)
  /-- No token ends before the line on which it starts. -/
  line_le : ∀ t ∈ (start entry source).tokens, t.span.line ≤ t.span.endLine
  /-- Every token starts on a line on which the tokens before it have ended. -/
  monotone : (start entry source).tokens.Pairwise fun t u => t.span.endLine ≤ u.span.line
  /-- Positions are those of prefixes of the source. -/
  behind : ∀ n, ∃ before, before <+: source.toList ∧
    ((start entry source).behind n).pos = Position.start.after before
  /-- All of these fit into 32 bits. -/
  fits : ∀ before, before <+: source.toList → (Position.start.after before).Fits
  /-- The spans of diagnostics are exact. -/
  diagnostics : ∀ file : SourceFile, file.text = source → ∀ d ∈ file.read.2, d.span.Exact source

/-- **Exact positions.** In a source of fewer than `2 ^ 32 - 1` bytes, whichever way it is entered,
all places are exact, and no position on the way to them overflows. -/
theorem positions_exact (entry : Token.Mode) (source : String)
    (hsize : source.utf8ByteSize < 2 ^ 32 - 1) : PositionsExact entry source := by
  have htiles := (stands_start entry source).tiles
  refine
    { tokens := fun t ht => exact_of_mem_tokens ht
      errors := fun e he => exact_of_mem_errors he
      endLine_eq := fun t ht hkind => ?_
      line_le := fun t ht => ?_
      monotone := htiles.endLine_le
      behind := exists_pos_behind_eq entry source
      fits := fun before hbefore => Position.fits_start_after hsize hbefore
      diagnostics := fun file hfile d hd => hfile ▸ file.exact_of_mem_read hd }
  · obtain ⟨gap, text, after, -, hcovers⟩ := htiles.covers_of_mem ht
    exact hcovers.endLine_eq hkind
  · obtain ⟨gap, text, after, -, hcovers⟩ := htiles.covers_of_mem ht
    exact hcovers.endLine_le.1

/-- A text with a tag that ends its line, a character of two bytes, a string over two lines, a class
without a body and a brace that is never closed. -/
theorem positions_exact_unclosed :
    "é<?php\r\nclass A extends \"é\nb\" \x7b".utf8ByteSize < 2 ^ 32 - 1 ∧
      PositionsExact .html "é<?php\r\nclass A extends \"é\nb\" \x7b" :=
  ⟨by decide, positions_exact .html _ (by decide)⟩

end Introspect
