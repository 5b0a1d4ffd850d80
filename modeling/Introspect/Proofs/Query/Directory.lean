import Introspect.Proofs.FileTree.Walking
import Introspect.Proofs.Query.Files

/-!
# Queries for directories

In a tree without links, a query for a directory is a query for the files below it: for those that
have no excluded name on the way and a wanted extension, in the order of the names on the way.

* `Listing.Lists` says of a list that it holds these files, in this order. There is exactly one such
  list (`Listing.Lists.unique`, `Listing.lists_filesBelow`);
* `Session.scan_eq_queryFiles`: a scan is the query for that list, for names excluded in any way and
  for any walker in order;
* `Session.queryDirectory_contract` adds the checks that come before: of the path, and of the
  patterns in their order, with the hidden one first. The language of the patterns is any.
-/

namespace Introspect

/-! ### The files that are asked for -/

/-- The tests of names that texts write, of those that write one. -/
def PatternLanguage.tests (language : PatternLanguage) (texts : List String) :
    List (String → Bool) :=
  texts.filterMap fun text => (language text).toOption

theorem PatternLanguage.mem_tests_iff {language : PatternLanguage} {texts : List String}
    {p : String → Bool} : p ∈ language.tests texts ↔ ∃ text ∈ texts, language text = .ok p := by
  unfold PatternLanguage.tests
  rw [List.mem_filterMap]
  refine exists_congr fun text => and_congr_right fun _ => ?_
  cases language text <;> simp [Except.toOption]

/-- The names that a query leaves out, which are those that match one of its patterns or the pattern
of hidden names, and whether directories inside are walked. -/
def DirectoryQuery.scope (q : DirectoryQuery) (language : PatternLanguage) : WalkScope :=
  ⟨fun name => (language.tests (Session.hidden :: q.exclude)).any (· name), q.recursive⟩

/-- The last name on the way has one of the extensions, in any letter case, if there are any. -/
def WantsExtension (extensions : List String) (names : Location) : Prop :=
  extensions = [] ∨ ∃ name ∈ names.getLast?, ∃ e ∈ Path.extension? name,
    ∃ wanted ∈ extensions, Text.foldCase wanted = Text.foldCase e

/-- **Lists of files.** All files below the directory at a location that have no excluded name on
the way and a wanted extension, each by the names on the way and in the order of these; without
those deeper in the tree if the directories inside are not walked. -/
structure Listing.Lists (tree : Listing) (w : WalkScope) (extensions : List String) (l : Location)
    (files : List Location) : Prop where
  mem_iff : ∀ names, names ∈ files ↔ names ≠ [] ∧ tree.HoldsFile (l ++ names) ∧
    (∀ name ∈ names, w.excluded name = false) ∧ (w.recursive = true ∨ names.length = 1) ∧
    WantsExtension extensions names
  ordered : files.Pairwise Before

namespace Listing

variable {tree inside : Listing} {w : WalkScope} {extensions : List String} {l : Location}

theorem Lists.unique {files files' : List Location} (h : tree.Lists w extensions l files)
    (h' : tree.Lists w extensions l files') : files = files' :=
  eq_of_pairwise_before h.ordered h'.ordered fun names => by rw [h.mem_iff, h'.mem_iff]

/-- The extension of a path below a directory is that of the last name on the way. -/
theorem hasExtension_below_iff {path : String} {names : Location}
    (hnames : ∀ name ∈ names, Path.IsName name) (hne : names ≠ []) :
    Session.hasExtension extensions (Path.below path names) = true
      ↔ WantsExtension extensions names := by
  obtain ⟨init, name, rfl⟩ := (List.eq_nil_or_concat' names).resolve_left hne
  have hname : Path.IsName name := hnames name (by simp)
  rw [Path.below_concat, Session.hasExtension, Path.fileName_child _ hname, WantsExtension]
  simp [Option.any_eq_true]

/-- **The list** is what a walk in order finds, less what has no wanted extension. -/
theorem lists_filesBelow (htidy : tree.Tidy) (hl : tree.at? l = some (.dir inside))
    (path : String) :
    tree.Lists w extensions l
      ((inside.filesBelow w).filter fun names =>
        Session.hasExtension extensions (Path.below path names)) := by
  have hinside : inside.Tidy := (htidy.at? hl).2 inside rfl
  refine ⟨fun names => ?_, (pairwise_filesBelow hinside).filter _⟩
  have hfile : tree.HoldsFile (l ++ names) ↔ inside.HoldsFile names := by
    unfold HoldsFile
    rw [at?_append hl]
  rw [List.mem_filter, mem_filesBelow_iff hinside, hfile]
  constructor
  · rintro ⟨⟨hholds, hexcluded, hdepth⟩, hextension⟩
    obtain ⟨bytes, hat⟩ := hholds
    -- the directory itself is no file
    have hne : names ≠ [] := by
      rintro rfl
      exact inside.not_holdsFile_nil ⟨bytes, hat⟩
    exact ⟨hne, ⟨bytes, hat⟩, hexcluded, hdepth,
      (hasExtension_below_iff (hinside.at? hat).1 hne).mp hextension⟩
  · rintro ⟨hne, ⟨bytes, hat⟩, hexcluded, hdepth, hextension⟩
    exact ⟨⟨⟨bytes, hat⟩, hexcluded, hdepth⟩,
      (hasExtension_below_iff (hinside.at? hat).1 hne).mpr hextension⟩

/-- The files of the list are found under their paths. -/
theorem Lists.leadsToFile {path : String} {files : List Location}
    (h : tree.Lists w extensions l files) (htidy : tree.Tidy) (hl : tree.locate path = .ok l)
    (hdir : tree.HoldsDir l) {names : Location} (hmem : names ∈ files) :
    tree.LeadsToFile (Path.below path names) := by
  obtain ⟨-, hfile, -⟩ := (h.mem_iff names).mp hmem
  obtain ⟨bytes, hat⟩ := hfile
  have hnames : ∀ name ∈ names, Path.IsName name := fun name hname =>
    (htidy.at? hat).1 name (List.mem_append_right _ hname)
  exact ⟨l ++ names, locate_below hl hdir hnames (Or.inr ⟨bytes, hat⟩), bytes, hat⟩

end Listing

namespace Session

variable {s : Session} {tree : FileTree} {q : DirectoryQuery} {path : String} {l : Location}
  {language : PatternLanguage} {walker : Walker}

/-! ### Scans -/

/-- What is collected of a walk in order are the files that it finds. -/
theorem filterMap_wanted?_preorder {inside : Listing} (h : inside.Tidy) (w : WalkScope)
    (extensions : List String) (root dir : String) (k : Nat) :
    (inside.preorder w.options dir (k + 1)).filterMap (wanted? extensions root)
      = ((inside.filesBelow w).filter fun names =>
          hasExtension extensions (Path.below dir names)).map
            fun names => .file (Path.below dir names) := by
  -- a directory of the listing has a path of its own and is deeper, so both are any
  induction inside generalizing dir k with
  | empty => rfl
  | leaf name x rest ih =>
    obtain ⟨hname, -, hrest⟩ := h
    cases x with
    | link target => exact ih hrest dir k
    | file bytes =>
      rw [Listing.preorder, Listing.filesBelow, List.filterMap_append, List.filter_append,
        List.map_append, ih hrest, w.visit_options hname]
      congr 1
      have hbelow : Path.below dir [name] = Path.child dir name := rfl
      cases w.excluded name <;> cases hext : hasExtension extensions (Path.child dir name) <;>
        simp [wanted?, hbelow, hext]
  | dir name inner rest ihinner ih =>
    obtain ⟨hname, -, hinner, hrest⟩ := h
    rw [Listing.preorder, Listing.filesBelow, List.filterMap_append, List.filter_append,
      List.map_append, ih hrest, w.visit_options hname]
    congr 1
    -- the directory itself is not collected
    have hbelow (names : Location) :
        Path.below dir (name :: names) = Path.below (Path.child dir name) names := rfl
    have hentered := ihinner hinner (Path.child dir name) (k + 1)
    cases hexcluded : w.excluded name <;> cases hrecursive : w.recursive <;>
      simp [WalkScope.enters, hexcluded, hrecursive, wanted?, hentered, List.filter_map, hbelow,
        Function.comp_def]

/-- **A scan is a query for the list,** whatever names are excluded. -/
theorem scan_eq_queryFiles {w : WalkScope} {extensions : List String} {files : List Location}
    (htidy : tree.Tidy) (hlinks : tree.LinkFree) (hwalker : walker.InOrder tree)
    (hl : tree.locate path = .ok l) (hdir : tree.HoldsDir l)
    (hfiles : tree.Lists w extensions l files) :
    s.queryFiles tree (files.map (Path.below path))
      = ((s.scan tree extensions path (walker tree path w.options)).1,
          .ok (s.scan tree extensions path (walker tree path w.options)).2) := by
  obtain ⟨inside, hinside⟩ := hdir
  have hvisits : (walker tree path w.options).filterMap (wanted? extensions path)
      = (files.map (Path.below path)).map Visit.file := by
    -- the list is that of a walk in order, and the root is not collected
    rw [hfiles.unique (Listing.lists_filesBelow htidy hinside path), hwalker hlinks path _ l
      inside hl hinside, w.visit_options_root, List.map_map]
    exact filterMap_wanted?_preorder ((htidy.at? hinside).2 inside rfl) w extensions path path 0
  -- the query for the files checks their paths first, and the scan has no such check
  have hcheck : (files.map (Path.below path)).forM (checkFile tree) = .ok () := by
    refine forM_checkFile fun p hp => ?_
    obtain ⟨names, hnames, rfl⟩ := List.mem_map.mp hp
    exact hfiles.leadsToFile htidy hl ⟨inside, hinside⟩ hnames
  rw [queryFiles, hcheck, scan, hvisits]

/-! ### Patterns -/

theorem tests_cons {text : String} {p : String → Bool} (h : language text = .ok p)
    (texts : List String) : language.tests (text :: texts) = p :: language.tests texts :=
  List.filterMap_cons_some (by rw [h]; rfl)

/-- A text that is read writes a pattern. -/
theorem exists_of_isOk {text : String} (h : (language text).isOk = true) :
    ∃ p, language text = .ok p := by
  cases hp : language text with
  | error reason => rw [hp] at h; cases h
  | ok p => exact ⟨p, rfl⟩

/-- Patterns are read if all of them are patterns. -/
theorem readPatterns_of_isOk {texts : List String}
    (h : ∀ t ∈ texts, (language t).isOk = true) :
    readPatterns language texts = .ok (language.tests texts) := by
  induction texts with
  | nil => rfl
  | cons text texts ih =>
    obtain ⟨htext, hrest⟩ := List.forall_mem_cons.mp h
    obtain ⟨p, hp⟩ := exists_of_isOk htext
    rw [readPatterns, tests_cons hp, hp, ih hrest]
    rfl

/-- What is read are the patterns that the texts write. -/
theorem eq_of_readPatterns_eq_ok {texts : List String} {patterns : List (String → Bool)}
    (h : readPatterns language texts = .ok patterns) : patterns = language.tests texts := by
  induction texts generalizing patterns with
  | nil => exact (Except.ok.inj h).symm
  | cons text texts ih =>
    rw [readPatterns] at h
    split at h
    · cases h
    · next p hp =>
      cases hrest : readPatterns language texts with
      | error e => rw [hrest] at h; cases h
      | ok others =>
        rw [hrest] at h
        rw [tests_cons hp, ← ih hrest]
        exact (Except.ok.inj h).symm

/-- The first text that is no pattern is reported. -/
theorem readPatterns_eq_error {before after : List String} {text reason : String}
    (hbefore : ∀ t ∈ before, (language t).isOk = true) (htext : language text = .error reason) :
    readPatterns language (before ++ text :: after) = .error (.invalidPattern text reason) := by
  induction before with
  | nil => rw [List.nil_append, readPatterns, htext]
  | cons t before ih =>
    -- the first text is a pattern, so the reading goes on behind it
    obtain ⟨p, hp⟩ := exists_of_isOk (hbefore t List.mem_cons_self)
    rw [List.cons_append, readPatterns, hp, ih fun u hu => hbefore u (List.mem_cons_of_mem t hu)]
    rfl

/-! ### The contract -/

/-- **An answered query** scans the directory. -/
theorem queryDirectory_eq_scan (hl : tree.locate path = .ok l) (hdir : tree.HoldsDir l)
    (hpatterns : ∀ text ∈ hidden :: q.exclude, (language text).isOk = true) :
    s.queryDirectory tree q path language walker
      = ((s.scan tree q.extensions path (walker tree path (q.scope language).options)).1,
          .ok (s.scan tree q.extensions path (walker tree path (q.scope language).options)).2) := by
  rw [queryDirectory, Listing.isDir_of_holdsDir hl hdir, readPatterns_of_isOk hpatterns]
  rfl

/-- **The contract of queries for directories.** -/
structure DirectoryContract (s : Session) (tree : FileTree) (q : DirectoryQuery) (path : String)
    (language : PatternLanguage) (walker : Walker) : Prop where
  /-- What is wrong with the query is reported, and the session is as it was. -/
  refuses_missing : ∀ fault, tree.locate path = .error fault →
    s.queryDirectory tree q path language walker = (s, .error (.notFound path))
  refuses_file : ∀ l, tree.locate path = .ok l → ¬ tree.HoldsDir l →
    s.queryDirectory tree q path language walker = (s, .error (.notADirectory path))
  refuses_pattern : ∀ l before text reason after, tree.locate path = .ok l → tree.HoldsDir l →
    hidden :: q.exclude = before ++ text :: after →
    (∀ t ∈ before, (language t).isOk = true) → language text = .error reason →
      s.queryDirectory tree q path language walker = (s, .error (.invalidPattern text reason))
  /-- With patterns that are patterns, the query is the one for the files of the list. -/
  agrees : ∀ l, tree.locate path = .ok l → tree.HoldsDir l →
    (∀ text ∈ hidden :: q.exclude, (language text).isOk = true) →
      ∃ files, tree.Lists (q.scope language) q.extensions l files ∧
        s.queryDirectory tree q path language walker
          = s.queryFiles tree (files.map (Path.below path))
  /-- There is one such list only. -/
  unique : ∀ l files files', tree.Lists (q.scope language) q.extensions l files →
    tree.Lists (q.scope language) q.extensions l files' → files = files'

/-- **A query for a directory is a query for its files,** in every tidy tree without links, in every
language of patterns and with every walker that walks the tree in order. -/
theorem queryDirectory_contract (s : Session) {tree : FileTree} (htidy : tree.Tidy)
    (hlinks : tree.LinkFree) (q : DirectoryQuery) (path : String) (language : PatternLanguage)
    {walker : Walker} (hwalker : walker.InOrder tree) :
    DirectoryContract s tree q path language walker where
  refuses_missing fault hfault := by
    rw [queryDirectory, Listing.isDir_of_error hfault]
  refuses_file l hl hdir := by
    have hfile := (Listing.holdsDir_or_holdsFile_of_locate hl).resolve_left hdir
    rw [queryDirectory, Listing.isDir_of_holdsFile hl hfile]
  refuses_pattern l before text reason after hl hdir htexts hbefore htext := by
    rw [queryDirectory, Listing.isDir_of_holdsDir hl hdir, htexts,
      readPatterns_eq_error hbefore htext]
  agrees l hl hdir hpatterns := by
    obtain ⟨inside, hinside⟩ := hdir
    have hlists : tree.Lists (q.scope language) q.extensions l _ :=
      Listing.lists_filesBelow htidy hinside path
    exact ⟨_, hlists, (queryDirectory_eq_scan hl ⟨inside, hinside⟩ hpatterns).trans
      (scan_eq_queryFiles htidy hlinks hwalker hl ⟨inside, hinside⟩ hlists).symm⟩
  unique _ _ _ h h' := h.unique h'

/-- Two directories with nothing to be found, one with two files, and a file in capital letters. -/
def projectTree : FileTree :=
  .dir ".cache" (.leaf "Old.php" (.file (some [])) .empty) <|
  .dir "build" (.leaf "Made.php" (.file (some [])) .empty) <|
  .dir "lib" (.leaf "Kept.php" (.file (some [])) <| .leaf "notes.txt" (.file (some [])) .empty) <|
  .leaf "top.PHP" (.file (some [])) .empty

def projectQuery : DirectoryQuery := { exclude := ["^build$"], extensions := ["php"] }

theorem queryDirectory_contract_project :
    projectTree.Tidy ∧ projectTree.LinkFree ∧ Listing.walker.InOrder projectTree ∧
      DirectoryContract {} projectTree projectQuery "." Pattern.language Listing.walker ∧
      queryDirectory {} projectTree projectQuery "."
        = queryFiles {} projectTree ["./lib/Kept.php", "./top.PHP"] := by
  have htidy : projectTree.Tidy := by decide +kernel
  have hlinks : projectTree.LinkFree := by decide +kernel
  have hwalker := Listing.walker_inOrder projectTree
  have hcontract :=
    queryDirectory_contract {} htidy hlinks projectQuery "." Pattern.language hwalker
  refine ⟨htidy, hlinks, hwalker, hcontract, ?_⟩
  have hroot : projectTree.at? [] = some (.dir projectTree) := rfl
  have hpatterns : ∀ text ∈ hidden :: projectQuery.exclude,
      (Pattern.language text).isOk = true := by decide +kernel
  obtain ⟨files, hlists, heq⟩ := hcontract.agrees [] projectTree.locate_dot ⟨_, hroot⟩ hpatterns
  have hfiles : files.map (Path.below ".") = ["./lib/Kept.php", "./top.PHP"] := by
    rw [hlists.unique (Listing.lists_filesBelow htidy hroot ".")]
    decide +kernel
  rw [heq, hfiles]

end Session

end Introspect
