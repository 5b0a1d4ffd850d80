import Introspect.Proofs.Session.Cache
import Introspect.Query

/-!
# What a session answers, and what a query collects

A session answers a request with what it has kept of the file, or with what comes of the file now.
Other requests in between change nothing about that, because a file is kept as it came
(`Session.answer_parse`). So what a query collects can be said of the session at the beginning:

* `Session.parseAll_answers`: every request of a run is answered as it would be at the beginning;
* `Session.collect_eq`: what is collected, and the session behind it;
* `Session.Agrees` relates two sessions that differ only in files which do not parse. Leaving such
  files out of a run leads to a session that agrees (`Session.Agrees.parseAll`), and in particular
  has the same registry.
-/

namespace Introspect

namespace Session

section Answers

variable {s t : Session} {tree : FileTree} {path : String} {l : Location}

/-- What a session answers to a request for a file. -/
def answer (s : Session) (tree : FileTree) (path : String) : Outcome :=
  (s.parse tree path).2

/-- What came of the file at a location, if it was loaded, or what comes of it now. -/
def outcomeAt (s : Session) (tree : FileTree) (l : Location) : Outcome :=
  (s.known? l).getD (Outcome.ofFile tree s.resolver l)

/-- Whether a request is answered with classes. -/
def parses (s : Session) (tree : FileTree) (path : String) : Bool :=
  (s.answer tree path).isOk

theorem answer_of_error {fault : PathFault} (h : tree.locate path = .error fault) :
    s.answer tree path = .error (.unreadable path (.path fault)) := by
  rw [answer, parse_of_error s h]

theorem parse_of_known {outcome : Outcome} (h : tree.locate path = .ok l)
    (hknown : s.known? l = some outcome) :
    s.parse tree path = ({ s with cacheHits := s.cacheHits + 1 }, outcome) := by
  rw [parse, h]
  dsimp only
  rw [hknown]

theorem parse_of_unknown (h : tree.locate path = .ok l) (hknown : s.known? l = none) :
    s.parse tree path = s.load tree l := by
  rw [parse, h]
  dsimp only
  rw [hknown]

theorem registry_load (s : Session) (tree : FileTree) (l : Location) :
    (s.load tree l).1.registry
      = s.registry.registerAll (Outcome.ofFile tree s.resolver l).classes := rfl

theorem answer_of_ok (h : tree.locate path = .ok l) :
    s.answer tree path = s.outcomeAt tree l := by
  unfold answer outcomeAt
  cases hknown : s.known? l with
  | some outcome => rw [parse_of_known h hknown, Option.getD_some]
  | none => rw [parse_of_unknown h hknown, Option.getD_none, load]

/-- A file that is loaded is known from then on, and nothing else is. -/
theorem known?_load (hknown : s.known? l = none) (k : Location) :
    (s.load tree l).1.known? k
      = if k = l then some (Outcome.ofFile tree s.resolver l) else s.known? k := by
  have happend : (s.load tree l).1.known? k
      = (s.known? k).or (List.lookup k [(l, Outcome.ofFile tree s.resolver l)]) :=
    List.lookup_append
  rw [happend]
  by_cases hk : k = l
  · subst hk
    rw [hknown, if_pos rfl, Option.none_or, List.lookup_cons_self]
  · rw [if_neg hk, List.lookup_cons, beq_false_of_ne hk]
    exact Option.or_none

/-- **Stability.** What comes of a file is not changed by a request. -/
theorem outcomeAt_parse (s : Session) (tree : FileTree) (path : String) (k : Location) :
    (s.parse tree path).1.outcomeAt tree k = s.outcomeAt tree k := by
  cases hl : tree.locate path with
  | error fault => rw [parse_of_error s hl]
  | ok l =>
    cases hknown : s.known? l with
    | some outcome => rw [parse_of_known hl hknown]; rfl
    | none =>
      -- the file that is loaded is kept as it would come now
      rw [parse_of_unknown hl hknown, outcomeAt, known?_load hknown]
      split
      · next hk => rw [hk, outcomeAt, hknown, Option.getD_some, Option.getD_none]
      · rfl

theorem answer_parse (s : Session) (tree : FileTree) (path other : String) :
    (s.parse tree path).1.answer tree other = s.answer tree other := by
  cases hl : tree.locate other with
  | error fault => rw [answer_of_error hl, answer_of_error hl]
  | ok l => rw [answer_of_ok hl, answer_of_ok hl, outcomeAt_parse]

/-- **A run** answers every request as the session would at the beginning. -/
theorem parseAll_answers (s : Session) (tree : FileTree) (paths : List String) :
    (s.parseAll tree paths).2 = paths.map (s.answer tree) := by
  induction paths generalizing s with
  | nil => rfl
  | cons path paths ih =>
    have hrest : (s.parse tree path).1.answer tree = s.answer tree :=
      funext (s.answer_parse tree path)
    rw [parseAll, List.map_cons, ih, hrest]
    rfl

end Answers

/-! ### Sessions that agree but for failures -/

/-- **Agreement.** The same classes are registered, the same comes of every file, and the same files
are known among those that parse. -/
structure Agrees (tree : FileTree) (s t : Session) : Prop where
  registry_eq : s.registry = t.registry
  outcomeAt_eq : ∀ l, s.outcomeAt tree l = t.outcomeAt tree l
  known_eq : ∀ l file, s.outcomeAt tree l = .ok file → (s.known? l).isSome = (t.known? l).isSome

section Agrees

variable {tree : FileTree} {s t : Session} {path : String}

theorem Agrees.refl (tree : FileTree) (s : Session) : s.Agrees tree s where
  registry_eq := rfl
  outcomeAt_eq _ := rfl
  known_eq _ _ _ := rfl

/-- A request that fails registers nothing, and of the files that parse none becomes known. -/
theorem Agrees.parse_failing (h : s.Agrees tree t) {error : FileError}
    (hfail : s.answer tree path = .error error) : (s.parse tree path).1.Agrees tree t := by
  cases hl : tree.locate path with
  | error fault => rwa [parse_of_error s hl]
  | ok l =>
    rw [answer_of_ok hl] at hfail
    cases hknown : s.known? l with
    | some outcome =>
      rw [parse_of_known hl hknown]
      exact ⟨h.registry_eq, h.outcomeAt_eq, h.known_eq⟩
    | none =>
      -- what is kept of the file is its failure, in which there are no classes
      have hload : Outcome.ofFile tree s.resolver l = .error error := by
        rwa [outcomeAt, hknown, Option.getD_none] at hfail
      refine ⟨?_, fun k => (outcomeAt_parse s tree path k).trans (h.outcomeAt_eq k),
        fun k file hk => ?_⟩
      · rw [parse_of_unknown hl hknown, registry_load, hload]
        exact h.registry_eq
      · rw [outcomeAt_parse] at hk
        rw [parse_of_unknown hl hknown, known?_load hknown, if_neg, h.known_eq k file hk]
        -- the file that failed is not among those that parse
        rintro rfl
        cases hk.symm.trans hfail

/-- A request that succeeds has the same effect in both. -/
theorem Agrees.parse (h : s.Agrees tree t) {file : ParsedFile}
    (hok : s.answer tree path = .ok file) :
    (s.parse tree path).1.Agrees tree (t.parse tree path).1 := by
  have houtcomes : ∀ k, (s.parse tree path).1.outcomeAt tree k
      = (t.parse tree path).1.outcomeAt tree k := fun k => by
    rw [outcomeAt_parse, outcomeAt_parse, h.outcomeAt_eq]
  cases hl : tree.locate path with
  | error fault => cases (answer_of_error hl).symm.trans hok
  | ok l =>
    have hs : s.outcomeAt tree l = .ok file := (answer_of_ok hl).symm.trans hok
    have ht : t.outcomeAt tree l = .ok file := by rw [← h.outcomeAt_eq l, hs]
    have hsame := h.known_eq l file hs
    -- the file is known to both or to none of them
    cases hknown : s.known? l with
    | some outcome =>
      rw [hknown] at hsame
      obtain ⟨outcome', hknown'⟩ := Option.isSome_iff_exists.mp hsame.symm
      rw [parse_of_known hl hknown, parse_of_known hl hknown']
      exact ⟨h.registry_eq, h.outcomeAt_eq, h.known_eq⟩
    | none =>
      rw [hknown] at hsame
      have hknown' : t.known? l = none := by simpa using hsame.symm
      have hload : Outcome.ofFile tree s.resolver l = .ok file := by
        rwa [outcomeAt, hknown, Option.getD_none] at hs
      have hload' : Outcome.ofFile tree t.resolver l = .ok file := by
        rwa [outcomeAt, hknown', Option.getD_none] at ht
      refine ⟨?_, houtcomes, fun k other hk => ?_⟩
      · rw [parse_of_unknown hl hknown, parse_of_unknown hl hknown', registry_load, registry_load,
          hload, hload', h.registry_eq]
      · rw [outcomeAt_parse] at hk
        rw [parse_of_unknown hl hknown, parse_of_unknown hl hknown', known?_load hknown,
          known?_load hknown']
        split
        · -- both know the file now
          rw [Option.isSome_some, Option.isSome_some]
        · exact h.known_eq k other hk

/-- **Leaving out what fails** of a run leads to a session that agrees. -/
theorem Agrees.parseAll (h : s.Agrees tree t) (paths : List String) :
    (s.parseAll tree paths).1.Agrees tree (t.parseAll tree (paths.filter (s.parses tree))).1 := by
  induction paths generalizing s t with
  | nil => exact h
  | cons path paths ih =>
    have hparses : (s.parse tree path).1.parses tree = s.parses tree :=
      funext fun other => congrArg Except.isOk (s.answer_parse tree path other)
    cases hanswer : s.answer tree path with
    | error error =>
      -- a failing path is left out, so only the first session asks for it
      have hfails : ¬ s.parses tree path = true := by
        rw [parses, hanswer]
        exact Bool.false_ne_true
      rw [List.filter_cons_of_neg hfails, ← hparses]
      exact ih (h.parse_failing hanswer)
    | ok file =>
      -- both sessions ask for the file
      have hparse : s.parses tree path = true := by rw [parses, hanswer]; rfl
      rw [List.filter_cons_of_pos hparse, ← hparses]
      exact ih (h.parse hanswer)

end Agrees

end Session

/-! ### Collecting -/

/-- What a failure is recorded as; classes are none. -/
def Outcome.failure? (path : String) : Outcome → Option FileFailure
  | .ok _ => none
  | .error error => some ⟨path, error⟩

/-- The file that is parsed. -/
def Visit.file? : Visit → Option String
  | .file path => some path
  | .fault _ _ => none

namespace Session

/-- What a visit is answered with: a file as when it is asked for, a fault as a failure. -/
def answerVisit (s : Session) (tree : FileTree) : Visit → Outcome
  | .file path => s.answer tree path
  | .fault path f => .error (.unreadable path (.walk f))

theorem add_eq (r : QueryResult) (path : String) (outcome : Outcome) :
    r.add path outcome
      = ⟨r.classes ++ outcome.classes, r.failures ++ (outcome.failure? path).toList⟩ := by
  cases outcome with
  | ok file => simp [QueryResult.add, Outcome.classes, Outcome.failure?]
  | error error => simp [QueryResult.add, Outcome.classes, Outcome.failure?]

theorem answerVisit_parse (s : Session) (tree : FileTree) (path : String) :
    (s.parse tree path).1.answerVisit tree = s.answerVisit tree := by
  funext v
  cases v with
  | file other => exact s.answer_parse tree path other
  | fault _ f => rfl

theorem filterMap_cons_toList {α β : Type} (f : α → Option β) (a : α) (as : List α) :
    (a :: as).filterMap f = (f a).toList ++ as.filterMap f := by
  cases h : f a with
  | none => rw [List.filterMap_cons_none h]; rfl
  | some b => rw [List.filterMap_cons_some h]; rfl

theorem foldl_collectVisit (s : Session) (tree : FileTree) (r : QueryResult) (visits : List Visit) :
    visits.foldl (collectVisit tree) (s, r)
      = ((s.parseAll tree (visits.filterMap Visit.file?)).1,
          ⟨r.classes ++ visits.flatMap fun v => (s.answerVisit tree v).classes,
            r.failures ++ visits.filterMap fun v => (s.answerVisit tree v).failure? v.path⟩) := by
  induction visits generalizing s r with
  | nil => simp [parseAll]
  | cons v visits ih =>
    rw [List.foldl_cons, List.flatMap_cons]
    cases v with
    | file path =>
      -- what is asked for later is answered as at the beginning
      have hstep : collectVisit tree (s, r) (.file path)
          = ((s.parse tree path).1, r.add path (s.answer tree path)) := rfl
      have hrun : (s.parseAll tree ((Visit.file path :: visits).filterMap Visit.file?)).1
          = ((s.parse tree path).1.parseAll tree (visits.filterMap Visit.file?)).1 := rfl
      rw [hstep, ih, answerVisit_parse, add_eq, hrun, filterMap_cons_toList, List.append_assoc,
        List.append_assoc]
      rfl
    | fault path f =>
      -- a fault is recorded and leaves the session as it is
      have hstep : collectVisit tree (s, r) (.fault path f)
          = (s, r.add path (s.answerVisit tree (.fault path f))) := rfl
      have hrun : (s.parseAll tree ((Visit.fault path f :: visits).filterMap Visit.file?)).1
          = (s.parseAll tree (visits.filterMap Visit.file?)).1 := rfl
      rw [hstep, ih, add_eq, hrun, filterMap_cons_toList, List.append_assoc, List.append_assoc]
      rfl

/-- **What is collected:** of each visit what it is answered with at the beginning, in the order of
the visits. -/
theorem collect_eq (s : Session) (tree : FileTree) (visits : List Visit) :
    s.collect tree visits
      = ((s.parseAll tree (visits.filterMap Visit.file?)).1,
          { classes := visits.flatMap fun v => (s.answerVisit tree v).classes
            failures := visits.filterMap fun v => (s.answerVisit tree v).failure? v.path }) := by
  rw [collect, foldl_collectVisit]
  rfl

end Session

end Introspect
