import Introspect.Proofs.Distinct
import Introspect.Proofs.Reading.Classes

/-!
# Classes that are declared again

A file may declare a class more than once. The reader keeps the first declaration of each key and
remembers, per key, a single flag: whether that first declaration was conditional. From this flag
alone it decides what to report. This module compares what it reports with the whole history.

* `SourceFile.declarations` are the declarations of a file whose headers can be read, in order, each
  with whether it is conditional;
* `Recorded` is the invariant: the classes and the flags are those of the first declarations, and
  what has to be reported has been. A step keeps it (`Recorded.step`), and so do all of them
  (`Recorded.finish`);
* `SourceFile.redeclarations_reported`: of each key the first declaration is kept, and one that is
  not conditional is reported if the first one of its key is not conditional either.

If the first one is conditional the flag hides all that follow it: two unconditional declarations
behind a conditional one are not reported (`SourceFile.redeclared_behind_condition`).
-/

namespace Introspect

namespace Reading

/-! ### Declarations of a file -/

/-- **Declarations.** A class as it has been read, before it is known whether its key is taken. -/
structure Declaration where
  draft : ClassDraft
  /-- The place of the name. -/
  span : Span
  /-- Whether it stands in braces that are not a namespace's. -/
  conditional : Bool
  deriving Repr

namespace Declaration

/-- The key under which the class is declared. -/
def key (D : Declaration) : String := Name.lookupKey D.draft.name

/-- What is reported if the key is taken. -/
def redeclared (D : Declaration) : Diagnostic := .redeclared D.span "class" D.draft.name

end Declaration

namespace FileState

/-- The class that begins here, behind attributes or none, if there is one and its header can be
read. -/
def declaration? (f : FileState) (file : SourceFile) : Option Declaration :=
  match skipAttributes f.toState with
  | .error _ _ => none
  | .ok () s =>
    if atClass s.rest then
      match classDeclaration file f.rest s with
      | .ok (some (d, span)) _ => some ⟨d, span, f.isConditional⟩
      | .ok none _ | .error _ _ => none
    else none

/-- The declarations from here to the end of the file. -/
def declarations (f : FileState) (file : SourceFile) : List Declaration :=
  if f.rest = [] then []
  else
    let f' := f.step file
    (f.declaration? file).toList ++
      if f'.rest.length < f.rest.length then f'.declarations file else []
termination_by f.rest.length

variable {file : SourceFile} {f : FileState} {D : Declaration}

/-- A declaration is published in the step in which it is read. -/
theorem step_of_declaration? (h : f.declaration? file = some D) :
    D.conditional = f.isConditional ∧
      ∃ s, f.step file = FileState.publish { f with toState := s } file D.draft D.span := by
  unfold declaration? at h
  cases hskip : skipAttributes f.toState with
  | error e s => simp [hskip] at h
  | ok u s =>
    simp only [hskip] at h
    split at h
    · next hclass =>
      have henters : f.Enters s := ⟨hskip, hclass⟩
      rw [henters.step_eq, readClass]
      split at h
      · next d span s' hres =>
        obtain rfl := Option.some.inj h
        rw [hres]
        exact ⟨rfl, s', rfl⟩
      · cases h
      · cases h
    · cases h

/-- Without a declaration a step adds no class. -/
theorem step_of_declaration?_none (h : f.declaration? file = none) :
    (f.step file).classes = f.classes ∧ (f.step file).declared = f.declared := by
  by_cases henters : ∃ s, f.Enters s
  · obtain ⟨s, henters⟩ := henters
    rw [henters.step_eq, readClass]
    unfold declaration? at h
    rw [henters.1] at h
    simp only [henters.2, if_true] at h
    -- the header could not be read
    cases hres : classDeclaration file f.rest s with
    | error e s' => exact ⟨rfl, rfl⟩
    | ok o s' =>
      cases o with
      | none => exact ⟨rfl, rfl⟩
      | some c => simp [hres] at h
  · exact step_of_not_enters fun s hs => henters ⟨s, hs⟩

end FileState

/-! ### What has been recorded -/

/-- **Recorded declarations.** What the reader knows when it has read the declarations `ds`. -/
structure Recorded (file : SourceFile) (ds : List Declaration) (f : FileState) : Prop where
  /-- The classes are the first declarations of their keys. -/
  classes_eq : f.classes = (distinctBy Declaration.key ds).map (·.draft.build file.linked)
  /-- Of each key the flag of the first declaration is remembered. -/
  declared_eq : f.declared = (distinctBy Declaration.key ds).map fun D => (D.key, D.conditional)
  /-- An unconditional declaration is reported if the first one of its key is unconditional. -/
  reported : ∀ before D first, before ++ [D] <+: ds →
    before.find? (·.key == D.key) = some first → first.conditional = false →
      D.conditional = false → D.redeclared ∈ f.diagnostics

namespace Recorded

variable {file : SourceFile} {ds : List Declaration} {f g : FileState} {D : Declaration}

theorem lookup_map_conditional (ds : List Declaration) (k : String) :
    (ds.map fun D => (D.key, D.conditional)).lookup k
      = (ds.find? (·.key == k)).map (·.conditional) := by
  induction ds with
  | nil => rfl
  | cons D ds ih =>
    rw [List.map_cons, List.lookup_cons, List.find?_cons, Bool.beq_comm]
    cases D.key == k with
    | true => rfl
    | false => exact ih

/-- What is remembered of a key. -/
theorem lookup_eq (h : Recorded file ds f) (k : String) :
    f.declared.lookup k = (ds.find? (·.key == k)).map (·.conditional) := by
  rw [h.declared_eq, lookup_map_conditional, find?_distinctBy]

/-- What has been reported stays reported. -/
theorem reported_of_reads (h : Recorded file ds f) (hreads : Reads f.toState g.toState)
    {before : List Declaration} {first : Declaration} (hbefore : before ++ [D] <+: ds)
    (hfirst : before.find? (·.key == D.key) = some first) (hopen : first.conditional = false)
    (hD : D.conditional = false) : D.redeclared ∈ g.diagnostics := by
  obtain ⟨more, hmore, -⟩ := hreads.reported
  rw [hmore]
  exact List.mem_append_left more (h.reported before D first hbefore hfirst hopen hD)

/-- Reading on without a declaration keeps the record. -/
theorem of_reads (h : Recorded file ds f) (hreads : Reads f.toState g.toState)
    (hclasses : g.classes = f.classes) (hdeclared : g.declared = f.declared) :
    Recorded file ds g where
  classes_eq := hclasses.trans h.classes_eq
  declared_eq := hdeclared.trans h.declared_eq
  reported _ _ _ := h.reported_of_reads hreads

/-- **Publication** records one more declaration. -/
theorem publish {s : State} (h : Recorded file ds f) (hcond : D.conditional = f.isConditional)
    (hreads : Reads f.toState
      (FileState.publish { f with toState := s } file D.draft D.span).toState) :
    Recorded file (ds ++ [D]) (FileState.publish { f with toState := s } file D.draft D.span) := by
  have hlookup : f.declared.lookup D.key = (ds.find? (·.key == D.key)).map (·.conditional) :=
    h.lookup_eq D.key
  cases hfound : ds.find? (·.key == D.key) with
  | none =>
    rw [hfound, Option.map_none] at hlookup
    have hpublish := FileState.publish_of_new (f := { f with toState := s }) file D.span hlookup
    refine ⟨?_, ?_, fun before D' first hbefore hfirst => ?_⟩
    · rw [hpublish, distinctBy_concat_of_find?_none hfound, List.map_append, ← h.classes_eq]
      rfl
    · rw [hpublish, distinctBy_concat_of_find?_none hfound, List.map_append, ← h.declared_eq,
        List.map_singleton, hcond]
      rfl
    · rcases List.prefix_concat_iff.mp hbefore with hnew | hold
      · -- the new declaration is the first one of its key
        obtain ⟨rfl, hD⟩ := List.append_inj' hnew rfl
        cases hD
        exact absurd (hfound.symm.trans hfirst) (Option.some_ne_none first).symm
      · exact h.reported_of_reads hreads hold hfirst
  | some first =>
    rw [hfound, Option.map_some] at hlookup
    obtain ⟨hclasses, hdeclared⟩ :=
      FileState.publish_of_taken (f := { f with toState := s }) file D.span hlookup
    refine ⟨?_, ?_, fun before D' first' hbefore hfirst hopen hD' => ?_⟩
    · rw [hclasses, distinctBy_concat_of_find?_some hfound, h.classes_eq]
    · rw [hdeclared, distinctBy_concat_of_find?_some hfound, h.declared_eq]
    · rcases List.prefix_concat_iff.mp hbefore with hnew | hold
      · -- the new declaration is reported now, because neither flag keeps it silent
        obtain ⟨rfl, hD⟩ := List.append_inj' hnew rfl
        cases hD
        obtain rfl := Option.some.inj (hfound.symm.trans hfirst)
        rw [hopen] at hlookup
        rw [hcond] at hD'
        exact FileState.publish_reports (f := { f with toState := s }) file D.span hlookup hD'
      · exact h.reported_of_reads hreads hold hfirst hopen hD'

/-- **One step** records the declaration that it reads, if it reads one. -/
theorem step (h : Recorded file ds f) :
    Recorded file (ds ++ (f.declaration? file).toList) (f.step file) := by
  have hreads := (Reads.refl f.toState).step file
  cases hD : f.declaration? file with
  | none =>
    obtain ⟨hclasses, hdeclared⟩ := FileState.step_of_declaration?_none hD
    rw [Option.toList_none, List.append_nil]
    exact h.of_reads hreads hclasses hdeclared
  | some D =>
    obtain ⟨hcond, s, hstep⟩ := FileState.step_of_declaration? hD
    rw [hstep] at hreads ⊢
    exact h.publish hcond hreads

/-- **All steps** record the declarations to the end of the file. -/
theorem finish (h : Recorded file ds f) :
    Recorded file (ds ++ f.declarations file) (f.finish file) := by
  -- on the number of tokens in front, with any declarations read so far
  induction hn : f.rest.length using Nat.strongRecOn generalizing f ds with
  | ind n ih =>
    rw [FileState.finish, FileState.declarations]
    by_cases hnil : f.rest = []
    · rw [if_pos hnil, if_pos hnil, List.append_nil]
      exact h
    · rw [if_neg hnil, if_neg hnil]
      by_cases hless : (f.step file).rest.length < f.rest.length
      · simp only [hless, if_true]
        rw [← List.append_assoc]
        exact ih _ (hn ▸ hless) h.step rfl
      · simp only [hless, if_false, List.append_nil]
        exact h.step

end Recorded

end Reading

open Reading

namespace SourceFile

/-- The classes and interfaces that a file declares, with those that are declared again. -/
def declarations (file : SourceFile) : List Declaration :=
  (FileState.start file.text).declarations file

/-- **Redeclarations.** What becomes of the declarations of a file. -/
structure RedeclarationsReported (file : SourceFile) : Prop where
  /-- The classes that are read are the first declarations of their keys. -/
  classes_eq : file.read.1
    = (distinctBy Declaration.key file.declarations).map (·.draft.build file.linked)
  /-- The class that is kept for a key is the first declaration of the key. -/
  kept : ∀ key, findClass file.read.1 key
    = (file.declarations.find? (·.key == key)).map (·.draft.build file.linked)
  /-- An unconditional declaration of a key that is taken is reported, unless the first declaration
  of the key is conditional. -/
  reported : ∀ before D first, before ++ [D] <+: file.declarations →
    before.find? (·.key == D.key) = some first → first.conditional = false →
      D.conditional = false → Diagnostic.redeclared D.span "class" D.draft.name ∈ file.read.2

/-- **Redeclarations are reported,** in every file whose first declarations are unconditional,
whatever comes in between. The first declarations are kept in any case. -/
theorem redeclarations_reported (file : SourceFile) : file.RedeclarationsReported := by
  have hstart : Recorded file [] (FileState.start file.text) :=
    { classes_eq := rfl
      declared_eq := rfl
      reported := fun before D _ hprefix =>
        absurd (List.prefix_nil.mp hprefix) (List.concat_ne_nil D before) }
  have hend : Recorded file file.declarations ((FileState.start file.text).finish file) :=
    hstart.finish
  refine ⟨hend.classes_eq, fun key => ?_, hend.reported⟩
  show findClass ((FileState.start file.text).finish file).classes key = _
  rw [hend.classes_eq, findClass, List.find?_map, ← find?_distinctBy]
  rfl

/-- A class behind a conditional one of the same name, twice. -/
def behindCondition : SourceFile where
  text := "<?php if (PHP_VERSION_ID < 80000) \x7b class A \x7b\x7d \x7d "
    ++ "class A \x7b\x7d class A \x7b\x7d"

/-- **A condition hides redeclarations.** -/
theorem redeclared_behind_condition :
    behindCondition.declarations.map (fun D => (D.key, D.conditional))
        = [("a", true), ("a", false), ("a", false)] ∧
      behindCondition.read.2 = [] := by
  decide +kernel

end SourceFile

end Introspect
