import Introspect.FileTree.Path
import Introspect.Proofs.Text

/-!
# Where paths lead

A path that leads anywhere leads to a directory or to a file: links are followed, and there is
nothing inside a file. Below a directory, the path of an entry is put together from the path of the
directory and the names on the way.

* `Path.below` puts names behind a path. A slash at its end adds an empty step, which is why its
  `Path.stem` is what the names are put behind (`Path.steps_below`); the names can be read off again
  (`Path.below_injective`);
* `Listing.follow_spec`: the end of a path is a directory or a file;
* `Listing.locate_below`: behind the path of a directory, names lead to what is there.
-/

namespace Introspect

/-! ### Names behind a path -/

namespace Path

/-- **Names of entries.** They are not empty, have neither a slash nor the character zero, and are
none of the two names that lead elsewhere. -/
structure IsName (name : String) : Prop where
  ne_empty : name ≠ ""
  ne_dot : name ≠ "."
  ne_dots : name ≠ ".."
  no_slash : '/' ∉ name.toList
  no_zero : '\x00' ∉ name.toList

instance (name : String) : Decidable (IsName name) :=
  decidable_of_iff
    (name ≠ "" ∧ name ≠ "." ∧ name ≠ ".." ∧ '/' ∉ name.toList ∧ '\x00' ∉ name.toList)
    ⟨fun ⟨h₁, h₂, h₃, h₄, h₅⟩ => ⟨h₁, h₂, h₃, h₄, h₅⟩,
      fun ⟨h₁, h₂, h₃, h₄, h₅⟩ => ⟨h₁, h₂, h₃, h₄, h₅⟩⟩

/-- The path of an entry below a directory, by the names on the way. -/
def below (path : String) (names : List String) : String := names.foldl child path

/-- The steps of a path without the empty one behind a last slash. -/
def stem (path : String) : List String :=
  if (steps path).getLast? = some "" then (steps path).dropLast else steps path

theorem steps_of_slash (front back : List Char) :
    steps (String.ofList (front ++ '/' :: back))
      = steps (String.ofList front) ++ steps (String.ofList back) := by
  simp only [steps, Text.split, String.toList_ofList]
  rw [Text.cutAt_append_sep (by decide), List.map_append]

theorem steps_of_isName {name : String} (h : IsName name) : steps name = [name] := by
  have hsep : ∀ c ∈ name.toList, (c == '/') = false := fun c hc => by
    simpa using fun heq : c = '/' => h.no_slash (heq ▸ hc)
  rw [steps, Text.split, Text.cutAt_of_forall_not hsep, List.map_singleton, String.ofList_toList]

theorem stem_of_slash (front : List Char) :
    stem (String.ofList (front ++ ['/'])) = steps (String.ofList front) := by
  have hsteps : steps (String.ofList (front ++ ['/'])) = steps (String.ofList front) ++ [""] :=
    steps_of_slash front []
  rw [stem, hsteps, List.getLast?_concat, if_pos rfl, List.dropLast_concat]

theorem stem_of_no_slash {path : String} (hne : path ≠ "")
    (hslash : path.toList.getLast? ≠ some '/') : stem path = steps path := by
  refine if_neg fun hlast => ?_
  -- an empty last step is behind a last slash, or the path is empty
  rw [steps, Text.split, List.getLast?_map] at hlast
  obtain ⟨piece, hpiece, hempty⟩ := Option.map_eq_some_iff.mp hlast
  obtain rfl : piece = [] := by simpa using congrArg String.toList hempty
  rcases Text.ends_of_getLast?_cutAt hpiece with h | ⟨c, hc, hsep⟩
  · exact hne (by rw [← String.ofList_toList (s := path), h])
  · obtain rfl : c = '/' := by simpa using hsep
    exact hslash hc

/-- **Steps of an entry.** Its name is put behind the stem of the directory. -/
theorem steps_child (dir : String) {name : String} (h : IsName name) :
    steps (child dir name) = stem dir ++ [name] := by
  have hname := steps_of_isName h
  unfold child
  split
  · next hend =>
    rcases hend with rfl | hslash
    · rw [String.empty_append, hname]
      rfl
    · -- the slash is there already
      obtain ⟨front, hfront⟩ := List.getLast?_eq_some_iff.mp hslash
      obtain rfl : dir = String.ofList (front ++ ['/']) := by
        rw [← hfront, String.ofList_toList]
      have hchild : String.ofList (front ++ ['/']) ++ name
          = String.ofList (front ++ '/' :: name.toList) := by
        apply String.toList_injective
        simp
      rw [hchild, steps_of_slash, stem_of_slash, String.ofList_toList, hname]
  · next hend =>
    rw [not_or] at hend
    have hchild : dir ++ "/" ++ name = String.ofList (dir.toList ++ '/' :: name.toList) := by
      apply String.toList_injective
      simp
    rw [hchild, steps_of_slash, String.ofList_toList, String.ofList_toList, hname,
      stem_of_no_slash hend.1 hend.2]

theorem stem_child (dir : String) {name : String} (h : IsName name) :
    stem (child dir name) = stem dir ++ [name] := by
  rw [stem, steps_child dir h, List.getLast?_concat, if_neg (by simpa using h.ne_empty)]

theorem stem_below (path : String) {names : List String} (h : ∀ name ∈ names, IsName name) :
    stem (below path names) = stem path ++ names := by
  induction names generalizing path with
  | nil => exact (List.append_nil _).symm
  | cons name names ih =>
    rw [below, List.foldl_cons, ← below, ih _ fun n hn => h n (List.mem_cons_of_mem name hn),
      stem_child path (h name List.mem_cons_self), List.append_assoc, List.singleton_append]

/-- The names behind a path can be read off the path of the entry. -/
theorem below_injective {path : String} {names names' : List String}
    (h : ∀ name ∈ names, IsName name) (h' : ∀ name ∈ names', IsName name)
    (heq : below path names = below path names') : names = names' := by
  have hstem := congrArg stem heq
  rw [stem_below path h, stem_below path h'] at hstem
  exact List.append_cancel_left hstem

theorem below_concat (path : String) (names : List String) (name : String) :
    below path (names ++ [name]) = child (below path names) name := by
  rw [below, below, List.foldl_append, List.foldl_cons, List.foldl_nil]

theorem child_ne_empty (dir : String) {name : String} (h : IsName name) : child dir name ≠ "" := by
  intro hnil
  -- the only step of the empty path is empty, and the name is not
  have hsteps := steps_child dir h
  rw [hnil, ← List.concat_eq_append] at hsteps
  have hlast := congrArg List.getLast? hsteps
  rw [List.concat_eq_append, List.getLast?_concat] at hlast
  exact h.ne_empty (Option.some.inj hlast).symm

theorem no_zero_child {dir name : String} (hdir : '\x00' ∉ dir.toList) (h : IsName name) :
    '\x00' ∉ (child dir name).toList := by
  unfold child
  split <;> simp [hdir, h.no_zero]

theorem fileName_child (dir : String) {name : String} (h : IsName name) :
    fileName (child dir name) = name := by
  rw [fileName, steps_child dir h, List.getLast?_concat, Option.getD_some]

end Path

namespace Listing

/-! ### Locations -/

/-- There is a directory at a location. -/
def HoldsDir (tree : Listing) (l : Location) : Prop :=
  ∃ inside, tree.at? l = some (.dir inside)

/-- There is a regular file at a location. -/
def HoldsFile (tree : Listing) (l : Location) : Prop :=
  ∃ bytes?, tree.at? l = some (.leaf (.file bytes?))

/-- A path leads to a regular file. -/
def LeadsToFile (tree : Listing) (path : String) : Prop :=
  ∃ l, tree.locate path = .ok l ∧ tree.HoldsFile l

section Locations

variable {tree inside : Listing} {l below : Location} {name : String} {e : Entry}

theorem holdsDir_nil (tree : Listing) : tree.HoldsDir [] := ⟨tree, by rw [at?]⟩

theorem at?_cons_of_dir (h : tree.get? name = some (.dir inside)) (below : Location) :
    tree.at? (name :: below) = inside.at? below := by
  rw [at?, h]

/-- What is behind a name is in the directory of that name. -/
theorem exists_dir_of_at?_cons (h : tree.at? (name :: below) = some e) (hne : below ≠ []) :
    ∃ inside, tree.get? name = some (.dir inside) ∧ inside.at? below = some e := by
  rw [at?] at h
  split at h
  · next inside hname => exact ⟨inside, hname, h⟩
  · simp [hne] at h
  · cases h

/-- **Locations.** Behind the location of a directory, entries are found in what it holds. -/
theorem at?_append (h : tree.at? l = some (.dir inside)) (below : Location) :
    tree.at? (l ++ below) = inside.at? below := by
  fun_induction at? tree l with
  | case1 tree =>
    obtain rfl : tree = inside := by simpa using h
    rfl
  | case2 tree name l inner hname ih =>
    rw [List.cons_append, at?_cons_of_dir hname]
    exact ih h
  | _ => simp_all

/-- What is on the way to an entry is a directory. -/
theorem holdsDir_of_at?_append (h : tree.at? (l ++ below) = some e) (hne : below ≠ []) :
    tree.HoldsDir l := by
  induction l generalizing tree with
  | nil => exact tree.holdsDir_nil
  | cons name l ih =>
    -- the first name is that of a directory, in which the rest is found
    obtain ⟨inner, hname, hbelow⟩ := exists_dir_of_at?_cons h (by simp [hne])
    obtain ⟨inside, hl⟩ := ih hbelow
    exact ⟨inside, by rw [at?_cons_of_dir hname, hl]⟩

theorem HoldsDir.dropLast (h : tree.HoldsDir l) : tree.HoldsDir l.dropLast := by
  rcases List.eq_nil_or_concat l with rfl | ⟨parent, name, rfl⟩
  · exact h
  · obtain ⟨inside, h⟩ := h
    rw [List.concat_eq_append] at h
    rw [List.concat_eq_append, List.dropLast_concat]
    exact holdsDir_of_at?_append h (by simp)

theorem HoldsDir.not_holdsFile (h : tree.HoldsDir l) : ¬ tree.HoldsFile l := by
  rintro ⟨bytes, hfile⟩
  obtain ⟨inside, hdir⟩ := h
  cases hdir.symm.trans hfile

end Locations

/-! ### Following a path -/

section Following

variable {tree : Listing} {links : Nat} {here l : Location} {pending more : List String}

/-- Targets of links begin in directories. -/
theorem HoldsDir.base (h : tree.HoldsDir here) (target : String) :
    tree.HoldsDir (Path.base here target) := by
  unfold Path.base
  split
  · exact tree.holdsDir_nil
  · exact h

/-- **The end of a path.** From a directory, steps lead to a directory or to a file. -/
theorem follow_spec (hhere : tree.HoldsDir here) (h : tree.follow links here pending = .ok l) :
    tree.HoldsDir l ∨ tree.HoldsFile l := by
  fun_induction follow tree links here pending with
  | case1 links here =>
    obtain rfl : here = l := by simpa using h
    exact Or.inl hhere
  | case2 links here name pending hstay ih => exact ih hhere h
  | case3 links here pending hname ih => exact ih hhere.dropLast h
  | case5 links here name pending hstay hup inside hdir ih => exact ih ⟨inside, hdir⟩ h
  | case6 links here name hstay hup bytes hfile =>
    obtain rfl : here ++ [name] = l := by simpa using h
    exact Or.inr ⟨bytes, hfile⟩
  -- a link is replaced by the steps of its target, which begin in a directory
  | case10 here name pending hstay hup target hlink links hne ih => exact ih (hhere.base target) h
  | case4 | case7 | case8 | case9 => cases h

section Steps

variable {name : String}

theorem follow_stay (h : name = "" ∨ name = ".") :
    tree.follow links here (name :: pending) = tree.follow links here pending := by
  rw [follow, if_pos h]

theorem follow_up :
    tree.follow links here (".." :: pending) = tree.follow links here.dropLast pending := by
  rw [follow, if_neg (by decide), if_pos rfl]

variable (hstay : ¬ (name = "" ∨ name = ".")) (hup : name ≠ "..")
include hstay hup

theorem follow_missing (h : tree.at? (here ++ [name]) = none) :
    tree.follow links here (name :: pending) = .error .notFound := by
  rw [follow, if_neg hstay, if_neg hup, h]

theorem follow_dir {inside : Listing} (h : tree.at? (here ++ [name]) = some (.dir inside)) :
    tree.follow links here (name :: pending) = tree.follow links (here ++ [name]) pending := by
  rw [follow, if_neg hstay, if_neg hup, h]

theorem follow_file {bytes? : Option (List UInt8)}
    (h : tree.at? (here ++ [name]) = some (.leaf (.file bytes?))) :
    tree.follow links here (name :: pending)
      = if pending = [] then .ok (here ++ [name]) else .error .notADirectory := by
  rw [follow, if_neg hstay, if_neg hup, h]

theorem follow_link {target : String}
    (h : tree.at? (here ++ [name]) = some (.leaf (.link target))) (hne : target ≠ "") :
    tree.follow (links + 1) here (name :: pending)
      = tree.follow links (Path.base here target) (Path.steps target ++ pending) := by
  rw [follow, if_neg hstay, if_neg hup, h]
  exact if_neg hne

end Steps

/-- Along a path that leads to a directory, one comes there first and then goes on. Some links may
be left to follow. -/
theorem follow_append (h : tree.follow links here pending = .ok l) (hl : tree.HoldsDir l)
    (more : List String) :
    ∃ left, tree.follow links here (pending ++ more) = tree.follow left l more := by
  fun_induction follow tree links here pending with
  | case1 links here =>
    obtain rfl : here = l := by simpa using h
    exact ⟨links, rfl⟩
  | case2 links here name pending hstay ih =>
    rw [List.cons_append, follow_stay hstay]
    exact ih h
  | case3 links here pending hname ih =>
    rw [List.cons_append, follow_up]
    exact ih h
  | case5 links here name pending hstay hup inside hdir ih =>
    rw [List.cons_append, follow_dir hstay hup hdir]
    exact ih h
  -- a file is no directory
  | case6 links here name hstay hup bytes hfile =>
    obtain rfl : here ++ [name] = l := by simpa using h
    exact absurd ⟨bytes, hfile⟩ hl.not_holdsFile
  | case10 here name pending hstay hup target hlink links hne ih =>
    rw [List.cons_append, follow_link hstay hup hlink hne, ← List.append_assoc]
    exact ih h
  | case4 | case7 | case8 | case9 => cases h

/-- An empty step behind a path asks for a directory and leads nowhere else. -/
theorem follow_of_empty_behind (hhere : tree.HoldsDir here)
    (h : tree.follow links here (pending ++ [""]) = .ok l) :
    tree.follow links here pending = .ok l := by
  fun_induction follow tree links here pending with
  | case1 links here =>
    rw [List.nil_append, follow_stay (Or.inl rfl), follow] at h
    obtain rfl : here = l := by simpa using h
    rfl
  | case2 links here name pending hstay ih =>
    rw [List.cons_append, follow_stay hstay] at h
    exact ih hhere h
  | case3 links here pending hname ih =>
    rw [List.cons_append, follow_up] at h
    exact ih hhere.dropLast h
  | case5 links here name pending hstay hup inside hdir ih =>
    rw [List.cons_append, follow_dir hstay hup hdir] at h
    exact ih ⟨inside, hdir⟩ h
  -- behind a file the empty step would lead nowhere
  | case6 links here name hstay hup bytes hfile =>
    rw [List.cons_append, follow_file hstay hup hfile, if_neg (by simp)] at h
    cases h
  | case10 here name pending hstay hup target hlink links hne ih =>
    rw [List.cons_append, follow_link hstay hup hlink hne, ← List.append_assoc] at h
    exact ih (hhere.base target) h
  | case4 | case7 | case8 | case9 =>
    rw [List.cons_append, follow] at h
    simp_all

end Following

section Locating

variable {tree : Listing} {path name : String} {l : Location} {names : List String}

/-- A path that leads anywhere is a path, not empty, and its steps lead there. -/
theorem locate_eq_ok_iff :
    tree.locate path = .ok l ↔ '\x00' ∉ path.toList ∧ path ≠ "" ∧
      tree.follow Path.maxLinks [] (Path.steps path) = .ok l := by
  unfold locate
  split
  · simp [*]
  · split <;> simp [*]

/-- The stem of a path leads there as well. -/
theorem follow_stem (h : tree.locate path = .ok l) :
    tree.follow Path.maxLinks [] (Path.stem path) = .ok l := by
  obtain ⟨-, -, h⟩ := locate_eq_ok_iff.mp h
  unfold Path.stem
  split
  · next hlast =>
    obtain ⟨front, hsteps⟩ := List.getLast?_eq_some_iff.mp hlast
    rw [hsteps] at h
    -- the empty step behind a last slash may be left out
    rw [hsteps, List.dropLast_concat]
    exact follow_of_empty_behind tree.holdsDir_nil h
  · exact h

/-- The path of an entry of a directory leads to it, unless the entry is a link. -/
theorem locate_child (h : tree.locate path = .ok l) (hl : tree.HoldsDir l)
    (hname : Path.IsName name)
    (hentry : tree.HoldsDir (l ++ [name]) ∨ tree.HoldsFile (l ++ [name])) :
    tree.locate (Path.child path name) = .ok (l ++ [name]) := by
  obtain ⟨left, hleft⟩ := follow_append (follow_stem h) hl [name]
  have hstay : ¬ (name = "" ∨ name = ".") := not_or.mpr ⟨hname.ne_empty, hname.ne_dot⟩
  have hzero := Path.no_zero_child (locate_eq_ok_iff.mp h).1 hname
  refine locate_eq_ok_iff.mpr ⟨hzero, Path.child_ne_empty path hname, ?_⟩
  rw [Path.steps_child path hname, hleft]
  rcases hentry with ⟨inside, hdir⟩ | ⟨bytes, hfile⟩
  · rw [follow_dir hstay hname.ne_dots hdir, follow]
  · rw [follow_file hstay hname.ne_dots hfile, if_pos rfl]

/-- A dot leads to the root. -/
theorem locate_dot (tree : Listing) : tree.locate "." = .ok [] := by
  have hsteps : Path.steps "." = ["."] := by decide +kernel
  refine locate_eq_ok_iff.mpr ⟨by decide, by decide, ?_⟩
  rw [hsteps, follow_stay (Or.inr rfl), follow]

theorem holdsDir_or_holdsFile_of_locate (h : tree.locate path = .ok l) :
    tree.HoldsDir l ∨ tree.HoldsFile l :=
  follow_spec tree.holdsDir_nil (locate_eq_ok_iff.mp h).2.2

theorem isDir_of_error {fault : PathFault} (h : tree.locate path = .error fault) :
    tree.isDir path = .error fault := by
  rw [isDir, entry?, h]
  rfl

theorem isDir_of_holdsDir (h : tree.locate path = .ok l) (hl : tree.HoldsDir l) :
    tree.isDir path = .ok true := by
  obtain ⟨inside, hl⟩ := hl
  simp only [isDir, entry?, h, bind, Except.bind, hl]

theorem isDir_of_holdsFile (h : tree.locate path = .ok l) (hl : tree.HoldsFile l) :
    tree.isDir path = .ok false := by
  obtain ⟨bytes, hl⟩ := hl
  simp only [isDir, entry?, h, bind, Except.bind, hl]

/-- **Names below a directory** lead to what is there. -/
theorem locate_below (h : tree.locate path = .ok l) (hl : tree.HoldsDir l)
    (hnames : ∀ name ∈ names, Path.IsName name)
    (hentry : tree.HoldsDir (l ++ names) ∨ tree.HoldsFile (l ++ names)) :
    tree.locate (Path.below path names) = .ok (l ++ names) := by
  induction names generalizing path l with
  | nil => rwa [List.append_nil]
  | cons name names ih =>
    have hname := hnames name List.mem_cons_self
    have hassoc : l ++ name :: names = (l ++ [name]) ++ names := by simp
    rw [hassoc] at hentry ⊢
    by_cases hne : names = []
    · subst hne
      rw [List.append_nil] at hentry ⊢
      exact locate_child h hl hname hentry
    · -- there is more behind the name, so it is that of a directory
      have hdir : tree.HoldsDir (l ++ [name]) := by
        rcases hentry with ⟨inside, h⟩ | ⟨bytes, h⟩ <;> exact holdsDir_of_at?_append h hne
      exact ih (locate_child h hl hname (Or.inl hdir)) hdir
        (fun n hn => hnames n (List.mem_cons_of_mem name hn)) hentry

end Locating

end Listing

end Introspect
