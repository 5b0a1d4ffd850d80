import Introspect.Proofs.FileTree.Locating
import Introspect.Proofs.Query.Collecting

/-!
# Queries for files

A query for files checks all of its paths before it parses the first file. So it is refused as a
whole, with the session as it was, or it is answered; and then a file that does not parse harms none
of the others.

* `Session.checkFile_of_file`, `Session.checkFile_of_error`, `Session.checkFile_of_dir`: the check
  of one path, by where it leads;
* `Session.queryFiles_refused`: the first path that fails the check decides;
* `Session.FilesAnswer` is what is known of an answer: the classes and the failures path by path,
  and that without the failing paths the same classes are found and registered;
* `Session.queryFiles_contract` puts both together for every session, tree and list of paths.
-/

namespace Introspect

namespace Session

variable {s : Session} {tree : FileTree} {path : String} {l : Location}

/-! ### Checks -/

theorem checkFile_of_error {fault : PathFault} (h : tree.locate path = .error fault) :
    checkFile tree path = .error (.notFound path) := by
  rw [checkFile, Listing.isDir_of_error h]

theorem checkFile_of_dir (h : tree.locate path = .ok l) (hl : tree.HoldsDir l) :
    checkFile tree path = .error (.notAFile path) := by
  rw [checkFile, Listing.isDir_of_holdsDir h hl]

theorem checkFile_of_file (h : tree.LeadsToFile path) : checkFile tree path = .ok () := by
  obtain ⟨l, hl, hfile⟩ := h
  rw [checkFile, Listing.isDir_of_holdsFile hl hfile]

/-- Paths that lead to files pass the check, and the others decide. -/
theorem forM_checkFile_append {before : List String} (h : ∀ p ∈ before, tree.LeadsToFile p)
    (after : List String) :
    (before ++ after).forM (checkFile tree) = after.forM (checkFile tree) := by
  induction before with
  | nil => rfl
  | cons p before ih =>
    -- a path that passes leaves the check to the others
    have hrest := ih fun q hq => h q (List.mem_cons_of_mem p hq)
    show (checkFile tree p >>= fun _ => (before ++ after).forM (checkFile tree)) = _
    rw [checkFile_of_file (h p List.mem_cons_self)]
    exact hrest

theorem forM_checkFile {paths : List String} (h : ∀ p ∈ paths, tree.LeadsToFile p) :
    paths.forM (checkFile tree) = .ok () := by
  have hall := forM_checkFile_append h []
  rwa [List.append_nil] at hall

/-- **Refusal.** The first path that fails the check decides, and nothing has happened. -/
theorem queryFiles_refused {before after : List String} {e : QueryError}
    (hbefore : ∀ p ∈ before, tree.LeadsToFile p) (hpath : checkFile tree path = .error e) :
    s.queryFiles tree (before ++ path :: after) = (s, .error e) := by
  have hcheck : (before ++ path :: after).forM (checkFile tree) = .error e := by
    -- the check comes to the path and ends there, before anything is parsed
    rw [forM_checkFile_append hbefore]
    show (checkFile tree path >>= fun _ => after.forM (checkFile tree)) = .error e
    rw [hpath]
    rfl
  rw [queryFiles, hcheck]

/-! ### Answers -/

/-- **An answered query** parses all paths, one after the other. -/
theorem queryFiles_answered {paths : List String} (h : ∀ p ∈ paths, tree.LeadsToFile p) :
    s.queryFiles tree paths
      = ((s.parseAll tree paths).1,
          .ok { classes := paths.flatMap fun p => (s.answer tree p).classes
                failures := paths.filterMap fun p => (s.answer tree p).failure? p }) := by
  have hpaths : (paths.map Visit.file).filterMap Visit.file? = paths := by
    rw [List.filterMap_map]
    exact List.filterMap_some
  -- the check passes, and from there on the query is a collection of all paths
  rw [queryFiles, forM_checkFile h]
  dsimp only
  rw [collect_eq, hpaths, List.flatMap_map, List.filterMap_map]
  rfl

/-- **Answers to a query for files.** What is known of the session `s'` and the result behind it, if
the session was `s` before. -/
structure FilesAnswer (s : Session) (tree : FileTree) (paths : List String) (s' : Session)
    (result : QueryResult) : Prop where
  /-- The paths are parsed one after the other, each with the outcome that it had alone. -/
  session_eq : s' = (s.parseAll tree paths).1
  outcomes_eq : (s.parseAll tree paths).2 = paths.map (s.answer tree)
  /-- The classes of the paths that parse, in the order of the paths and as often. -/
  classes_eq : result.classes = paths.flatMap fun p => (s.answer tree p).classes
  /-- All other paths, with what they are answered with. -/
  failures_eq : result.failures = paths.filterMap fun p => (s.answer tree p).failure? p
  failed_eq : result.failures.map (·.path) = paths.filter (! s.parses tree ·)
  isComplete_iff : result.isComplete = true ↔ ∀ p ∈ paths, s.parses tree p = true
  /-- Without the failing paths the same classes are found and registered. -/
  isolated : ∃ t, s.queryFiles tree (paths.filter (s.parses tree))
    = (t, .ok { classes := result.classes }) ∧ t.registry = s'.registry

theorem failure?_of_parses (h : s.parses tree path = true) :
    (s.answer tree path).failure? path = none := by
  unfold parses at h
  cases hanswer : s.answer tree path with
  | ok file => rfl
  | error error => rw [hanswer] at h; cases h

theorem exists_failure?_of_not_parses (h : ¬ s.parses tree path = true) :
    (s.answer tree path).classes = [] ∧
      ∃ error, (s.answer tree path).failure? path = some ⟨path, error⟩ := by
  unfold parses at h
  cases hanswer : s.answer tree path with
  | ok file => rw [hanswer] at h; exact absurd rfl h
  | error error => exact ⟨rfl, error, rfl⟩

/-- Failures are recorded path by path. -/
theorem map_path_failures (s : Session) (tree : FileTree) (paths : List String) :
    (paths.filterMap fun p => (s.answer tree p).failure? p).map (·.path)
      = paths.filter (! s.parses tree ·) := by
  induction paths with
  | nil => rfl
  | cons p paths ih =>
    by_cases hp : s.parses tree p = true
    · simp only [List.filterMap_cons, failure?_of_parses hp]
      rw [List.filter_cons_of_neg (by simp [hp]), ih]
    · -- a path that does not parse is recorded, under the path itself
      obtain ⟨-, error, herror⟩ := exists_failure?_of_not_parses hp
      simp only [List.filterMap_cons, herror]
      rw [List.filter_cons_of_pos (by simp [hp]), List.map_cons, ih]

/-- Paths that do not parse have no classes. -/
theorem flatMap_classes_filter (s : Session) (tree : FileTree) (paths : List String) :
    (paths.filter (s.parses tree)).flatMap (fun p => (s.answer tree p).classes)
      = paths.flatMap fun p => (s.answer tree p).classes := by
  induction paths with
  | nil => rfl
  | cons p paths ih =>
    rw [List.flatMap_cons]
    by_cases hp : s.parses tree p = true
    · rw [List.filter_cons_of_pos hp, List.flatMap_cons, ih]
    · rw [List.filter_cons_of_neg hp, ih, (exists_failure?_of_not_parses hp).1, List.nil_append]

theorem filesAnswer {paths : List String} (h : ∀ p ∈ paths, tree.LeadsToFile p) :
    ∃ s' result, s.queryFiles tree paths = (s', .ok result) ∧
      s.FilesAnswer tree paths s' result := by
  refine ⟨_, _, queryFiles_answered h, ?_⟩
  refine
    { session_eq := rfl
      outcomes_eq := s.parseAll_answers tree paths
      classes_eq := rfl
      failures_eq := rfl
      failed_eq := s.map_path_failures tree paths
      isComplete_iff := ?_
      isolated := ?_ }
  · -- there is no failure iff there is no failed path
    have hnil : ((paths.filterMap fun p => (s.answer tree p).failure? p) = [])
        ↔ paths.filter (! s.parses tree ·) = [] := by
      rw [← s.map_path_failures tree paths, List.map_eq_nil_iff]
    rw [QueryResult.isComplete, List.isEmpty_iff, hnil, List.filter_eq_nil_iff]
    simp
  · -- the query without the failing paths is answered as well, and has no failures
    have hgood : ∀ p ∈ paths.filter (s.parses tree), tree.LeadsToFile p := fun p hp =>
      h p (List.mem_of_mem_filter hp)
    have hfailures : (paths.filter (s.parses tree)).filterMap
        (fun p => (s.answer tree p).failure? p) = [] := by
      refine List.filterMap_eq_nil_iff.mpr fun p hp => ?_
      exact failure?_of_parses (List.of_mem_filter hp)
    refine ⟨_, (queryFiles_answered hgood).trans ?_,
      ((Agrees.refl tree s).parseAll paths).registry_eq.symm⟩
    rw [s.flatMap_classes_filter tree paths, hfailures]

/-- **The contract of queries for files.** What a query for the files at some paths does. -/
structure FilesContract (s : Session) (tree : FileTree) (paths : List String) : Prop where
  /-- The first path that leads nowhere or to no file is refused, and the session is as it was. -/
  refuses_missing : ∀ before path after fault, paths = before ++ path :: after →
    (∀ p ∈ before, tree.LeadsToFile p) → tree.locate path = .error fault →
      s.queryFiles tree paths = (s, .error (.notFound path))
  refuses_dir : ∀ before path after l, paths = before ++ path :: after →
    (∀ p ∈ before, tree.LeadsToFile p) → tree.locate path = .ok l → ¬ tree.HoldsFile l →
      s.queryFiles tree paths = (s, .error (.notAFile path))
  /-- If all paths lead to files, the query is answered. -/
  answers : (∀ p ∈ paths, tree.LeadsToFile p) →
    ∃ s' result, s.queryFiles tree paths = (s', .ok result) ∧ s.FilesAnswer tree paths s' result

/-- **The contract holds,** for every session, tree and list of paths. -/
theorem queryFiles_contract (s : Session) (tree : FileTree) (paths : List String) :
    FilesContract s tree paths where
  refuses_missing := by
    rintro before path after fault rfl hbefore hfault
    exact queryFiles_refused hbefore (checkFile_of_error hfault)
  refuses_dir := by
    rintro before path after l rfl hbefore hl hfile
    have hdir := (Listing.holdsDir_or_holdsFile_of_locate hl).resolve_right hfile
    exact queryFiles_refused hbefore (checkFile_of_dir hl hdir)
  answers := filesAnswer

end Session

end Introspect
