import Introspect.Proofs.FileTree.Links
import Introspect.Proofs.Query.Directory

/-!
# What is left out of a query for a directory

Names are matched when a walk has come to an entry. So nothing excluded is parsed or walked, links
or not. But what cannot be read, and a link that leads nowhere or back to a directory on the way, is
a fault of the walk before its name is matched, and faults are recorded as failures whatever the
name.

* `DirectoryQuery.Excludes` are the names that a query leaves out, `Session.excluded_scope_iff` says
  that these are the ones that its walk leaves out;
* `Session.Traces` says of an answered query where its classes and its failures come from. An
  excluded name leaves no trace but one: at the end of the path of a fault of the walk;
* `Session.queryDirectory_traces` is that statement for every query, in every language of patterns
  and with every walker that descends, and `Session.hidden_link_recorded` shows that the exception
  is needed.
-/

namespace Introspect

/-- One of the patterns matches the name, or the pattern of hidden names does. -/
def DirectoryQuery.Excludes (q : DirectoryQuery) (language : PatternLanguage) (name : String) :
    Prop :=
  ∃ text ∈ Session.hidden :: q.exclude, ∃ p, language text = .ok p ∧ p name = true

/-- **Faults.** The failure is that of one of these items, which carries the path. -/
def FileFailure.OfFault (items : List WalkItem) (f : FileFailure) : Prop :=
  ∃ fault, .error fault ∈ items ∧ fault.path? = some f.path ∧
    f.error = .unreadable f.path (.walk fault)

namespace Session

variable {s s' : Session} {tree : FileTree} {q : DirectoryQuery} {root path : String}
  {result : QueryResult} {w : WalkScope} {language : PatternLanguage} {walker : Walker}
  {items : List WalkItem} {extensions : List String} {fault : WalkFault}

/-- The names that a query leaves out are those that its walk leaves out. -/
theorem excluded_scope_iff (q : DirectoryQuery) (language : PatternLanguage) (name : String) :
    (q.scope language).excluded name = true ↔ q.Excludes language name := by
  unfold DirectoryQuery.scope DirectoryQuery.Excludes
  simp only [List.any_eq_true, PatternLanguage.mem_tests_iff]
  constructor
  · rintro ⟨p, ⟨text, htext, hp⟩, hmatch⟩
    exact ⟨text, htext, p, hp, hmatch⟩
  · rintro ⟨text, htext, p, hp, hmatch⟩
    exact ⟨p, ⟨text, htext, hp⟩, hmatch⟩

theorem keeps_scope_iff {names : Location} : (q.scope language).Keeps names ↔
    ∀ name ∈ names, Path.IsName name ∧ ¬ q.Excludes language name := by
  unfold WalkScope.Keeps
  simp only [← excluded_scope_iff, Bool.not_eq_true]

/-- A query that is answered has scanned the directory. -/
theorem scan_of_queryDirectory_eq_ok
    (h : s.queryDirectory tree q root language walker = (s', .ok result)) :
    s.scan tree q.extensions root (walker tree root (q.scope language).options) = (s', result) := by
  unfold queryDirectory at h
  cases hdir : tree.isDir root with
  | error fault => rw [hdir] at h; cases h
  | ok isDir =>
    cases isDir with
    | false => rw [hdir] at h; cases h
    | true =>
      cases hpatterns : readPatterns language (hidden :: q.exclude) with
      | error e => rw [hdir, hpatterns] at h; cases h
      | ok patterns =>
        rw [hdir, hpatterns, eq_of_readPatterns_eq_ok hpatterns] at h
        simp only [Prod.mk.injEq, Except.ok.injEq] at h
        exact Prod.ext h.1 h.2

/-- **Traces.** Where the classes and the failures of an answered query come from. -/
structure Traces (s : Session) (tree : FileTree) (q : DirectoryQuery) (root : String)
    (language : PatternLanguage) (walker : Walker) (s' : Session) (result : QueryResult) :
    Prop where
  /-- Classes come from files, and only files are parsed, that have no excluded name on the way. -/
  files : ∃ found : List Location,
    (∀ names ∈ found, ∀ name ∈ names, Path.IsName name ∧ ¬ q.Excludes language name) ∧
      s' = (s.parseAll tree (found.map (Path.below root))).1 ∧
      result.classes = found.flatMap fun names => (s.answer tree (Path.below root names)).classes
  /-- Failures are recorded under paths below the root, or under that of the root. -/
  failures : ∀ f ∈ result.failures, ∃ names : Location,
    (∀ name ∈ names, Path.IsName name) ∧ f.path = Path.below root names
  /-- If a name on the way to a failure is excluded, it is the last one, and the failure is that of
  a fault of the walk. -/
  excluded : ∀ f ∈ result.failures, ∀ before name after,
    (∀ n ∈ before ++ name :: after, Path.IsName n) →
      f.path = Path.below root (before ++ name :: after) → q.Excludes language name →
        after = [] ∧ f.OfFault (walker tree root (q.scope language).options)
  /-- The faults of the walk are failures, whatever their names. Those without a path are recorded
  for the root. -/
  faults : ∀ fault, .error fault ∈ walker tree root (q.scope language).options →
    ⟨fault.path?.getD root, .unreadable (fault.path?.getD root) (.walk fault)⟩ ∈ result.failures

/-- What is collected comes from the items of the walk. -/
theorem mem_wanted {v : Visit} (h : v ∈ items.filterMap (wanted? extensions root)) :
    (∃ e, .ok e ∈ items ∧ v = .file e.path) ∨
      ∃ fault, .error fault ∈ items ∧ v = .fault (fault.path?.getD root) fault := by
  obtain ⟨item, hitem, hv⟩ := List.mem_filterMap.mp h
  cases item with
  | ok e =>
    rw [wanted?] at hv
    split at hv
    · exact Or.inl ⟨e, hitem, (Option.some.inj hv).symm⟩
    · cases hv
  | error fault => exact Or.inr ⟨fault, hitem, (Option.some.inj hv).symm⟩

/-- Classes are those of the files that were found. -/
theorem flatMap_classes_visits (s : Session) (tree : FileTree) (visits : List Visit) :
    visits.flatMap (fun v => (s.answerVisit tree v).classes)
      = (visits.filterMap Visit.file?).flatMap fun p => (s.answer tree p).classes := by
  induction visits with
  | nil => rfl
  | cons v visits ih =>
    rw [List.flatMap_cons, ih]
    cases v with
    | file path => rfl
    | fault path f => rfl

/-- Paths that are made of names are the paths of a list of names. -/
theorem exists_map_below {paths : List String}
    (h : ∀ p ∈ paths, ∃ names, w.Keeps names ∧ p = Path.below root names) :
    ∃ found : List Location, (∀ names ∈ found, w.Keeps names) ∧
      paths = found.map (Path.below root) := by
  induction paths with
  | nil => exact ⟨[], fun _ h => absurd h List.not_mem_nil, rfl⟩
  | cons p paths ih =>
    obtain ⟨⟨names, hnames, rfl⟩, hpaths⟩ := List.forall_mem_cons.mp h
    obtain ⟨found, hfound, rfl⟩ := ih hpaths
    exact ⟨names :: found, List.forall_mem_cons.mpr ⟨hnames, hfound⟩, rfl⟩

/-- The files that are parsed, by the names on the way to them. -/
theorem exists_found (hwalker : walker.Descends tree) (extensions : List String) (root : String)
    (w : WalkScope) : ∃ found : List Location, (∀ names ∈ found, w.Keeps names) ∧
      ((walker tree root w.options).filterMap (wanted? extensions root)).filterMap Visit.file?
        = found.map (Path.below root) := by
  refine exists_map_below fun p hp => ?_
  obtain ⟨v, hv, hfile⟩ := List.mem_filterMap.mp hp
  rcases mem_wanted hv with ⟨e, he, rfl⟩ | ⟨fault, -, rfl⟩
  · obtain rfl := Option.some.inj hfile
    exact hwalker.exists_names he
  · cases hfile

/-- A failure is recorded under the path of a file, or of a fault of the walk. -/
theorem cases_of_failure {f : FileFailure} {v : Visit}
    (hv : v ∈ items.filterMap (wanted? extensions root))
    (hf : (s.answerVisit tree v).failure? v.path = some f) :
    (∃ e, .ok e ∈ items ∧ f.path = e.path) ∨
      ∃ fault, .error fault ∈ items ∧ f.path = fault.path?.getD root ∧
        f.error = .unreadable f.path (.walk fault) := by
  rcases mem_wanted hv with ⟨e, he, rfl⟩ | ⟨fault, hfault, rfl⟩
  · -- a file fails as its request does, whatever the reason
    rw [answerVisit] at hf
    generalize s.answer tree _ = outcome at hf
    cases outcome with
    | ok file => cases hf
    | error error =>
      obtain rfl := Option.some.inj hf
      exact Or.inl ⟨e, he, rfl⟩
  · obtain rfl := Option.some.inj hf
    exact Or.inr ⟨fault, hfault, rfl, rfl⟩

/-- **Failures** are recorded under the path of the root, or with no excluded name on the way but
for the last name of a fault. -/
theorem cases_of_mem_failures (hwalker : walker.Descends tree) {f : FileFailure}
    (hf : f ∈ (s.scan tree extensions root (walker tree root w.options)).2.failures) :
    f.path = Path.below root [] ∨ ∃ before name, f.path = Path.below root (before ++ [name]) ∧
      w.Keeps before ∧ Path.IsName name ∧
      (w.excluded name = true → f.OfFault (walker tree root w.options)) := by
  rw [scan, collect_eq] at hf
  obtain ⟨v, hv, hf⟩ := List.mem_filterMap.mp hf
  rcases cases_of_failure hv hf with ⟨e, he, hpath⟩ | ⟨fault, hfault, hpath, herror⟩
  · obtain ⟨names, hnames, hentry⟩ := hwalker.exists_names he
    rw [hpath, hentry]
    rcases List.eq_nil_or_concat' names with rfl | ⟨before, name, rfl⟩
    · exact Or.inl rfl
    · obtain ⟨hbefore, hname, hkept⟩ := WalkScope.keeps_concat_iff.mp hnames
      exact Or.inr ⟨before, name, rfl, hbefore, hname, fun h => absurd h (by simp [hkept])⟩
  · cases hcarried : fault.path? with
    | none =>
      -- without a path, it is recorded for the root
      rw [hcarried] at hpath
      exact Or.inl hpath
    | some p =>
      rw [hcarried] at hpath
      obtain rfl : f.path = p := hpath
      rcases hwalker.exists_names_of_fault hfault hcarried with
        h | ⟨before, name, hbefore, hname, h⟩
      · exact Or.inl h
      · exact Or.inr ⟨before, name, h, hbefore, hname, fun _ => ⟨fault, hfault, hcarried, herror⟩⟩

/-- If a name on the way to a failure is excluded, it is the last one. The names on the way are
known from the path. -/
theorem ofFault_of_excluded (hwalker : walker.Descends tree) {f : FileFailure}
    (hf : f ∈ (s.scan tree extensions root (walker tree root w.options)).2.failures)
    {before after : Location} {name : String}
    (hnames : ∀ n ∈ before ++ name :: after, Path.IsName n)
    (hpath : f.path = Path.below root (before ++ name :: after)) (hname : w.excluded name = true) :
    after = [] ∧ f.OfFault (walker tree root w.options) := by
  rcases cases_of_mem_failures hwalker hf with h | ⟨front, last, h, hfront, hlast, hfault⟩
  · have heq := Path.below_injective hnames (fun _ h => absurd h List.not_mem_nil)
      (hpath.symm.trans h)
    simp at heq
  · have hnames' : ∀ n ∈ front ++ [last], Path.IsName n := List.forall_mem_append.mpr
      ⟨fun n hn => (hfront n hn).1, List.forall_mem_singleton.mpr hlast⟩
    have heq := Path.below_injective hnames hnames' (hpath.symm.trans h)
    rcases List.eq_nil_or_concat' after with rfl | ⟨mid, n, rfl⟩
    · obtain ⟨-, hsame⟩ := List.append_inj' heq rfl
      exact ⟨rfl, hfault (List.singleton_inj.mp hsame ▸ hname)⟩
    · -- the name stands before the last one, where nothing is excluded
      rw [← List.cons_append, ← List.append_assoc] at heq
      obtain ⟨rfl, -⟩ := List.append_inj' heq rfl
      have hkept := (hfront name (by simp)).2
      rw [hname] at hkept
      cases hkept

/-- What a walk delivers as a fault is a failure of the scan. -/
theorem mem_failures_scan (h : .error fault ∈ items) :
    ⟨fault.path?.getD root, .unreadable (fault.path?.getD root) (.walk fault)⟩
      ∈ (s.scan tree extensions root items).2.failures := by
  -- faults are not filtered by their extension
  have hwanted : Visit.fault (fault.path?.getD root) fault
      ∈ items.filterMap (wanted? extensions root) :=
    List.mem_filterMap.mpr ⟨.error fault, h, rfl⟩
  rw [scan, collect_eq]
  exact List.mem_filterMap.mpr ⟨_, hwanted, rfl⟩

/-- **Excluded names leave no trace** in the answer to a query for a directory, but for the names of
faults. -/
theorem queryDirectory_traces (hwalker : walker.Descends tree)
    (h : s.queryDirectory tree q root language walker = (s', .ok result)) :
    s.Traces tree q root language walker s' result := by
  -- what the walk comes to decides, path by path, where classes and failures are from
  obtain ⟨rfl, rfl⟩ := Prod.ext_iff.mp (scan_of_queryDirectory_eq_ok h)
  refine
    { files := ?_
      failures := fun f hf => ?_
      excluded := fun f hf before name after hnames hpath hname => ?_
      faults := fun fault hfault => mem_failures_scan hfault }
  · obtain ⟨found, hnames, hfound⟩ := exists_found hwalker q.extensions root (q.scope language)
    rw [scan, collect_eq, hfound]
    refine ⟨found, fun names hmem => keeps_scope_iff.mp (hnames names hmem), rfl, ?_⟩
    dsimp only
    rw [flatMap_classes_visits, hfound, List.flatMap_map]
  · rcases cases_of_mem_failures hwalker hf with h | ⟨front, last, h, hfront, hlast, -⟩
    · exact ⟨[], fun _ h => absurd h List.not_mem_nil, h⟩
    · exact ⟨front ++ [last], List.forall_mem_append.mpr
        ⟨fun n hn => (hfront n hn).1, List.forall_mem_singleton.mpr hlast⟩, h⟩
  · have hexcluded := (excluded_scope_iff q language name).mpr hname
    exact ofFault_of_excluded hwalker hf hnames hpath hexcluded

/-! ### Links that lead nowhere -/

/-- A hidden directory with a file in it, and a hidden link that leads nowhere. -/
def hiddenTree : FileTree :=
  .dir ".git" (.leaf "config" (.file (some [])) .empty) <| .leaf ".gone" (.link "nowhere") .empty

/-- The query for this tree is answered, and the link is among the failures. -/
theorem exists_answer_hiddenTree (s : Session) : ∃ s' result,
    s.queryDirectory hiddenTree {} "." = (s', .ok result) ∧
      ∃ f ∈ result.failures, f.path = Path.below "." [".gone"] := by
  have hroot : hiddenTree.at? [] = some (.dir hiddenTree) := rfl
  have hl := hiddenTree.locate_dot
  have hlink : hiddenTree.locate (Path.child "." ".gone") = .error .notFound := by
    have hsteps : Path.steps (Path.child "." ".gone") = [".", ".gone"] := by decide +kernel
    have htarget : Path.steps "nowhere" = ["nowhere"] := by decide +kernel
    -- the dot stays, the link is followed, and what it names is missing
    rw [Listing.locate, if_neg (by decide +kernel), if_neg (by decide), hsteps,
      Listing.follow_stay (Or.inr rfl), Path.maxLinks,
      Listing.follow_link (by decide) (by decide) rfl (by decide), htarget, List.append_nil,
      Listing.follow_missing (by decide) (by decide) rfl]
  have hpatterns : ∀ text ∈ hidden :: ({} : DirectoryQuery).exclude,
      (Pattern.language text).isOk = true := by decide +kernel
  have hmem : (".gone", Entry.leaf (.link "nowhere")) ∈ hiddenTree.toList := by decide
  exact ⟨_, _, queryDirectory_eq_scan hl ⟨_, hroot⟩ hpatterns, _,
    mem_failures_scan (Listing.broken_mem_walker hl hroot hmem hlink), rfl⟩

theorem queryDirectory_traces_hiddenTree : Listing.walker.Descends hiddenTree ∧ ∃ s' result,
    queryDirectory {} hiddenTree {} "." = (s', .ok result) ∧ result.failures ≠ [] ∧
      Traces {} hiddenTree {} "." Pattern.language Listing.walker s' result := by
  have hwalker : Listing.walker.Descends hiddenTree := Listing.walker_descends (by decide +kernel)
  obtain ⟨s', result, hresult, f, hf, -⟩ := exists_answer_hiddenTree {}
  exact ⟨hwalker, s', result, hresult, List.ne_nil_of_mem hf,
    queryDirectory_traces hwalker hresult⟩

/-- **The exception is needed:** every name in this tree is excluded, and yet the answer is not
complete. -/
theorem hidden_link_recorded : hiddenTree.Tidy ∧
    (∀ e ∈ hiddenTree.toList, DirectoryQuery.Excludes {} Pattern.language e.1) ∧ ∃ s' result,
      queryDirectory {} hiddenTree {} "." = (s', .ok result) ∧ result.isComplete = false ∧
        ∃ f ∈ result.failures, f.path = Path.below "." [".gone"] := by
  have htidy : hiddenTree.Tidy := by decide +kernel
  obtain ⟨s', result, hresult, f, hf, hpath⟩ := exists_answer_hiddenTree {}
  have hcomplete : result.isComplete = false := by
    rw [QueryResult.isComplete, List.isEmpty_eq_false_iff]
    exact List.ne_nil_of_mem hf
  refine ⟨htidy, fun e he => ?_, s', result, hresult, hcomplete, f, hf, hpath⟩
  have htests : (Pattern.language.tests [hidden]).any (· e.1) = true := by
    revert e
    decide +kernel
  obtain ⟨p, hp, hmatch⟩ := List.any_eq_true.mp htests
  obtain ⟨text, htext, hp⟩ := PatternLanguage.mem_tests_iff.mp hp
  exact ⟨text, List.mem_singleton.mp htext ▸ List.mem_cons_self, p, hp, hmatch⟩

end Session

end Introspect
