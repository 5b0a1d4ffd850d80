import Introspect.Session
import Mathlib.Data.List.Induction
import Mathlib.Data.List.Nodup

/-!
# What a session keeps

A session is asked for files again and again, by any paths. It loads a file when a path leads to it
for the first time and answers from what it has kept from then on. `Session.parseAll` is a run of
requests, and `requested` are the locations to which their paths lead; a path that leads nowhere has
none.

* `Session.Serves` is what is known of a session behind the requests for some locations. One request
  keeps it, and adds its location (`Serves.parse`); so does a run (`Serves.parseAll`);
* `Session.cache_contract` says of every run of a fresh session what is answered, loaded, counted
  and registered.

Everything is stated over the locations in the order in which they were first requested, which is
`List.eraseDups` of all of them.
-/

namespace Introspect

/-! ### Runs of requests -/

/-- The locations to which paths lead, request by request. -/
def requested (tree : FileTree) (paths : List String) : List Location :=
  paths.filterMap fun path => (tree.locate path).toOption

/-- What comes of a request: of the file to which the path leads, or of a path that leads
nowhere. -/
def Outcome.ofPath (tree : FileTree) (resolver : Resolver) (path : String) : Outcome :=
  match tree.locate path with
  | .error fault => .error (.unreadable path (.path fault))
  | .ok location => .ofFile tree resolver location

namespace Session

/-- A session that has been asked for nothing. -/
def fresh (resolver : Resolver) : Session := { resolver }

/-- **Runs.** Parses the files to which the paths lead, one after the other, and yields what came of
each request. -/
def parseAll (s : Session) (tree : FileTree) : List String → Session × List Outcome
  | [] => (s, [])
  | path :: paths =>
    let first := s.parse tree path
    let others := first.1.parseAll tree paths
    (others.1, first.2 :: others.2)

end Session

section Locations

variable {tree : FileTree} {path : String} {paths : List String} {location : Location}

theorem requested_of_ok (h : tree.locate path = .ok location) :
    requested tree (path :: paths) = location :: requested tree paths := by
  simp [requested, h, Except.toOption]

theorem requested_of_error {fault : PathFault} (h : tree.locate path = .error fault) :
    requested tree (path :: paths) = requested tree paths := by
  simp [requested, h, Except.toOption]

/-- A location that has been requested before is not new. -/
theorem eraseDups_concat_of_mem {asked : List Location} (h : location ∈ asked) :
    (asked ++ [location]).eraseDups = asked.eraseDups := by
  simp [List.eraseDups_append, List.removeAll, h]

theorem eraseDups_concat_of_not_mem {asked : List Location} (h : location ∉ asked) :
    (asked ++ [location]).eraseDups = asked.eraseDups ++ [location] := by
  simp [List.eraseDups_append, List.removeAll, h, List.eraseDups_cons]

theorem nodup_eraseDups (asked : List Location) : asked.eraseDups.Nodup := by
  -- from the end, where a location is new or not
  induction asked using List.reverseRecOn with
  | nil => simp
  | append_singleton asked location ih =>
    by_cases h : location ∈ asked
    · rw [eraseDups_concat_of_mem h]
      exact ih
    · rw [eraseDups_concat_of_not_mem h]
      refine List.nodup_append.mpr ⟨ih, List.nodup_singleton location, fun l hl k hk => ?_⟩
      rintro rfl
      rw [List.mem_singleton.mp hk] at hl
      exact h (List.mem_eraseDups.mp hl)

end Locations

namespace Session

/-! ### What one request keeps -/

/-- **Serving.** What is known of a session that has been asked for the files at some locations, in
this order: it has kept what comes of each of them once, has registered their classes in the order
of the first requests, and has counted. -/
structure Serves (tree : FileTree) (resolver : Resolver) (asked : List Location) (s : Session) :
    Prop where
  resolver_eq : s.resolver = resolver
  loaded_eq : s.loaded = asked.eraseDups.map fun l => (l, Outcome.ofFile tree resolver l)
  registry_eq : s.registry
    = Registry.empty.registerAll
        (asked.eraseDups.flatMap fun l => (Outcome.ofFile tree resolver l).classes)
  filesParsed_eq : s.filesParsed = asked.eraseDups.length
  requests_eq : s.filesParsed + s.cacheHits = asked.length

section Serves

variable {tree : FileTree} {resolver : Resolver} {asked : List Location} {s : Session}
variable {path : String} {location : Location}

theorem serves_fresh (tree : FileTree) (resolver : Resolver) :
    (fresh resolver).Serves tree resolver [] where
  resolver_eq := rfl
  loaded_eq := rfl
  registry_eq := rfl
  filesParsed_eq := rfl
  requests_eq := rfl

/-- What was requested is known. -/
theorem Serves.known?_of_mem (h : s.Serves tree resolver asked) (hl : location ∈ asked) :
    s.known? location = some (Outcome.ofFile tree resolver location) := by
  rw [known?, h.loaded_eq]
  exact List.lookup_graph _ (List.mem_eraseDups.mpr hl)

/-- Nothing else is. -/
theorem Serves.known?_of_not_mem (h : s.Serves tree resolver asked) (hl : location ∉ asked) :
    s.known? location = none := by
  rw [known?, h.loaded_eq, List.lookup_eq_none_iff]
  intro p hp
  obtain ⟨l, hmem, rfl⟩ := List.mem_map.mp hp
  have hne : location ≠ l := fun heq => hl (heq ▸ List.mem_eraseDups.mp hmem)
  simpa using hne

/-- A file that is loaded is kept behind all others, and so are its classes. -/
theorem Serves.load (h : s.Serves tree resolver asked) (hl : location ∉ asked) :
    (s.load tree location).1.Serves tree resolver (asked ++ [location]) := by
  have hnew := eraseDups_concat_of_not_mem hl
  have hcount := h.requests_eq
  exact
    { resolver_eq := h.resolver_eq
      loaded_eq := by
        show s.loaded ++ [(location, Outcome.ofFile tree s.resolver location)] = _
        rw [hnew, List.map_append, h.loaded_eq, h.resolver_eq]
        rfl
      registry_eq := by
        -- of a file that does not parse, no classes are registered
        show s.registry.registerAll (Outcome.ofFile tree s.resolver location).classes = _
        rw [hnew, List.flatMap_append, h.registry_eq, h.resolver_eq, List.flatMap_singleton]
        exact List.foldl_append.symm
      filesParsed_eq := by
        show s.filesParsed + 1 = _
        rw [hnew, List.length_append, h.filesParsed_eq]
        rfl
      requests_eq := by
        show s.filesParsed + 1 + s.cacheHits = _
        rw [List.length_append, List.length_singleton]
        omega }

/-- A file that is known is only counted. -/
theorem Serves.hit (h : s.Serves tree resolver asked) (hl : location ∈ asked) :
    Serves tree resolver (asked ++ [location]) { s with cacheHits := s.cacheHits + 1 } := by
  have hsame := eraseDups_concat_of_mem hl
  have hcount := h.requests_eq
  exact
    { resolver_eq := h.resolver_eq
      loaded_eq := by rw [hsame]; exact h.loaded_eq
      registry_eq := by rw [hsame]; exact h.registry_eq
      filesParsed_eq := by rw [hsame]; exact h.filesParsed_eq
      requests_eq := by
        show s.filesParsed + (s.cacheHits + 1) = _
        rw [List.length_append, List.length_singleton]
        omega }

/-- **One request** whose path leads to a location is answered with what comes of the file there,
whether or not it has been asked for before. -/
theorem Serves.parse (h : s.Serves tree resolver asked) (hl : tree.locate path = .ok location) :
    (s.parse tree path).1.Serves tree resolver (asked ++ [location]) ∧
      (s.parse tree path).2 = Outcome.ofFile tree resolver location := by
  -- the same answer for two reasons: it was kept, or it is what loading yields
  by_cases hmem : location ∈ asked
  · have hknown := h.known?_of_mem hmem
    simp only [Session.parse, hl, hknown]
    exact ⟨h.hit hmem, trivial⟩
  · have hknown := h.known?_of_not_mem hmem
    simp only [Session.parse, hl, hknown]
    refine ⟨h.load hmem, ?_⟩
    show Outcome.ofFile tree s.resolver location = _
    rw [h.resolver_eq]

/-- A path that leads nowhere leaves no trace. -/
theorem parse_of_error (s : Session) {fault : PathFault} (hl : tree.locate path = .error fault) :
    s.parse tree path = (s, .error (.unreadable path (.path fault))) := by
  rw [Session.parse, hl]

/-! ### What a run keeps -/

/-- **A run of requests** is answered request by request, whatever was asked for before. -/
theorem Serves.parseAll (h : s.Serves tree resolver asked) (paths : List String) :
    (s.parseAll tree paths).1.Serves tree resolver (asked ++ requested tree paths) ∧
      (s.parseAll tree paths).2 = paths.map (Outcome.ofPath tree resolver) := by
  induction paths generalizing s asked with
  | nil => exact ⟨by simpa [Session.parseAll, requested] using h, rfl⟩
  | cons path paths ih =>
    rw [List.map_cons]
    cases hl : tree.locate path with
    | error fault =>
      -- the rest of the run begins at the same session
      obtain ⟨hserves, hanswers⟩ := ih h
      simp only [Session.parseAll, parse_of_error s hl, requested_of_error hl]
      exact ⟨hserves, by rw [hanswers, Outcome.ofPath, hl]⟩
    | ok location =>
      -- the rest of the run begins behind one more location
      obtain ⟨hfirst, hanswer⟩ := h.parse hl
      obtain ⟨hserves, hanswers⟩ := ih hfirst
      simp only [Session.parseAll, requested_of_ok hl]
      rw [List.append_assoc] at hserves
      exact ⟨hserves, by rw [hanswer, hanswers, Outcome.ofPath, hl]⟩

theorem serves_parseAll (tree : FileTree) (resolver : Resolver) (paths : List String) :
    ((fresh resolver).parseAll tree paths).1.Serves tree resolver (requested tree paths) :=
  ((serves_fresh tree resolver).parseAll paths).1

theorem answers_parseAll (tree : FileTree) (resolver : Resolver) (paths : List String) :
    ((fresh resolver).parseAll tree paths).2 = paths.map (Outcome.ofPath tree resolver) :=
  ((serves_fresh tree resolver).parseAll paths).2

theorem parseAll_concat (s : Session) (tree : FileTree) (paths : List String) (path : String) :
    (s.parseAll tree (paths ++ [path])).1 = ((s.parseAll tree paths).1.parse tree path).1 := by
  induction paths generalizing s with
  | nil => rfl
  | cons p paths ih => exact ih (s.parse tree p).1

end Serves

/-! ### The contract -/

/-- The files at some locations that parse, in the same order. -/
def parsedFiles (tree : FileTree) (resolver : Resolver) (locations : List Location) :
    List ParsedFile :=
  locations.filterMap fun l => (Outcome.ofFile tree resolver l).toOption

/-- A file that does not parse has no classes to register. -/
theorem flatMap_classes (tree : FileTree) (resolver : Resolver) (locations : List Location) :
    (locations.flatMap fun l => (Outcome.ofFile tree resolver l).classes)
      = (parsedFiles tree resolver locations).flatMap ParsedFile.classes := by
  induction locations with
  | nil => rfl
  | cons l locations ih =>
    rw [List.flatMap_cons, ih, parsedFiles, parsedFiles, List.filterMap_cons]
    cases Outcome.ofFile tree resolver l <;> rfl

/-- **The contract of a session.** What a fresh session does when it is asked for files by a list of
paths. -/
structure CacheContract (tree : FileTree) (resolver : Resolver) (paths : List String) : Prop where
  /-- Every request is answered with what comes of the file, or of the path. -/
  answers : ((fresh resolver).parseAll tree paths).2 = paths.map (Outcome.ofPath tree resolver)
  /-- Two requests that lead to the same location have the same answer. -/
  same_answer : ∀ (i j : Nat) (p q : String) (l : Location), paths[i]? = some p →
    paths[j]? = some q → tree.locate p = .ok l → tree.locate q = .ok l →
      ((fresh resolver).parseAll tree paths).2[j]? = ((fresh resolver).parseAll tree paths).2[i]?
  /-- The locations are loaded in the order of the first requests. -/
  loads : ((fresh resolver).parseAll tree paths).1.loaded.map (·.1)
    = (requested tree paths).eraseDups
  /-- Each of them is loaded exactly once. -/
  loads_once : ∀ l ∈ requested tree paths,
    (((fresh resolver).parseAll tree paths).1.loaded.map (·.1)).count l = 1
  filesParsed_eq : ((fresh resolver).parseAll tree paths).1.filesParsed
    = (requested tree paths).eraseDups.length
  requests_eq : ((fresh resolver).parseAll tree paths).1.filesParsed
      + ((fresh resolver).parseAll tree paths).1.cacheHits = (requested tree paths).length
  /-- A request that leads nowhere changes nothing. -/
  leaves_no_trace : ∀ (before after : List String) (path : String) (fault : PathFault),
    paths = before ++ path :: after → tree.locate path = .error fault →
      ((fresh resolver).parseAll tree (before ++ [path])).1
        = ((fresh resolver).parseAll tree before).1
  /-- The classes of the files that parse are registered, file by file. -/
  registry_eq : ((fresh resolver).parseAll tree paths).1.registry
    = Registry.empty.registerAll
        ((parsedFiles tree resolver (requested tree paths).eraseDups).flatMap ParsedFile.classes)

/-- **The contract holds,** for every tree, every resolver and every list of requests. -/
theorem cache_contract (tree : FileTree) (resolver : Resolver) (paths : List String) :
    CacheContract tree resolver paths := by
  have hserves := serves_parseAll tree resolver paths
  have hanswers := answers_parseAll tree resolver paths
  have hloads : ((fresh resolver).parseAll tree paths).1.loaded.map (·.1)
      = (requested tree paths).eraseDups := by
    rw [hserves.loaded_eq, List.map_map]
    exact List.map_id _
  refine
    { answers := hanswers
      same_answer := fun i j p q l hi hj hp hq => ?_
      loads := hloads
      loads_once := fun l hl => ?_
      filesParsed_eq := hserves.filesParsed_eq
      requests_eq := hserves.requests_eq
      leaves_no_trace := fun before after path fault _ hfault => ?_
      registry_eq := ?_ }
  · -- paths that lead to one location have the answer of that location
    rw [hanswers, List.getElem?_map, List.getElem?_map, hi, hj, Option.map_some, Option.map_some,
      Outcome.ofPath, Outcome.ofPath, hp, hq]
  · rw [hloads]
    exact List.count_eq_one_of_mem (nodup_eraseDups _) (List.mem_eraseDups.mpr hl)
  · rw [parseAll_concat, parse_of_error _ hfault]
  · rw [hserves.registry_eq, flatMap_classes]

end Session

end Introspect
