import Introspect.FileTree.Walk
import Introspect.Reading.File
import Introspect.Registry
import Introspect.Text.Lossy

/-!
# Sessions

A session parses files of a tree and registers the classes that they declare. It parses every file
at most once: what came of a file is kept under its location, so that the file is known again by
every path that leads to it, and stays even if the file changes. Failures are kept as well. A path
that leads nowhere is refused and leaves no trace.

* `Outcome.ofFile` is what comes of a file, a function of the tree alone;
* `Session.parse` is the only operation on a session; `Session.load` is what it does for a file that
  it has not seen.
-/

namespace Introspect

/-! ### Failures -/

/-- Why the bytes of a file cannot be had. -/
inductive ReadFault where
  /-- The path leads nowhere or to no file. -/
  | path (fault : PathFault)
  /-- A walk could not visit it. -/
  | walk (fault : WalkFault)
  /-- There is a file, but it may not be read. -/
  | denied
  deriving DecidableEq, Repr

/-- The fault in words. -/
def ReadFault.text : ReadFault → String
  | path fault => fault.text
  | walk fault => fault.text
  | denied => "Permission denied (os error 13)"

/-- The fault of a path behind it; a loop of links and a file that may not be read have none. -/
def ReadFault.cause? : ReadFault → Option PathFault
  | path fault => some fault
  | walk (.io _ _ cause?) => cause?
  | walk (.loop _ _) => none
  | denied => none

/-- The bytes of the file at a location. -/
def Listing.read (tree : Listing) (location : Location) : Except ReadFault (List UInt8) :=
  match tree.at? location with
  | some (.leaf (.file (some bytes))) => .ok bytes
  | some (.leaf (.file none)) => .error .denied
  | some (.dir _) => .error (.path .isADirectory)
  | _ => .error (.path .notFound)

/-- Why a file yields no classes. -/
inductive FileError where
  | unreadable (path : String) (fault : ReadFault)
  /-- There is something to report about the text of the file. -/
  | malformed (path : String) (diagnostics : List Diagnostic)
  deriving DecidableEq, Repr

namespace FileError

/-- The path of the file. -/
def path : FileError → String
  | unreadable path _ => path
  | malformed path _ => path

/-- The diagnostics, if the file could be read. -/
def diagnostics? : FileError → Option (List Diagnostic)
  | unreadable _ _ => none
  | malformed _ diagnostics => some diagnostics

/-- The failure in words. -/
def message : FileError → String
  | unreadable path fault => "failed to read " ++ path ++ ": " ++ fault.text
  | malformed path diagnostics =>
    "failed to parse " ++ path ++ ": " ++ Diagnostic.listText diagnostics

end FileError

/-! ### Sessions -/

/-- The classes that a file declares. -/
structure ParsedFile where
  /-- The text of the location of the file. -/
  path : String
  classes : List Class
  deriving Repr

/-- What came of a file. -/
abbrev Outcome := Except FileError ParsedFile

/-- The classes that came of a file; none if it failed. -/
def Outcome.classes : Outcome → List Class
  | .ok file => file.classes
  | .error _ => []

/-- Files parsed together, whose classes see each other. -/
structure Session where
  resolver : Resolver := .namespaced
  /-- What came of the files, by location, in the order in which they were loaded. -/
  loaded : List (Location × Outcome) := []
  registry : Registry := .empty
  /-- The number of files that were loaded. -/
  filesParsed : Nat := 0
  /-- The number of requests that were answered without loading. -/
  cacheHits : Nat := 0

/-- What comes of the file at a location. -/
def Outcome.ofFile (tree : FileTree) (resolver : Resolver) (location : Location) : Outcome :=
  match tree.read location with
  | .error fault => .error (.unreadable location.text fault)
  | .ok bytes =>
    let file : SourceFile :=
      { text := Text.Utf8.decode bytes, resolver, path := some location.text }
    match file.readStrictly with
    | .ok classes => .ok ⟨location.text, classes⟩
    | .error diagnostics => .error (.malformed location.text diagnostics)

namespace Session

/-- What came of the file at a location, if it was loaded. -/
def known? (s : Session) (location : Location) : Option Outcome :=
  s.loaded.lookup location

/-- Loads the file at a location: keeps what comes of it and registers its classes. -/
def load (s : Session) (tree : FileTree) (location : Location) : Session × Outcome :=
  let outcome := Outcome.ofFile tree s.resolver location
  ({ s with
      loaded := s.loaded ++ [(location, outcome)]
      registry := s.registry.registerAll outcome.classes
      filesParsed := s.filesParsed + 1 }, outcome)

/-- **Parsing a file.** What comes of the file to which a path leads, or what came of it when it was
loaded. -/
def parse (s : Session) (tree : FileTree) (path : String) : Session × Outcome :=
  match tree.locate path with
  | .error fault => (s, .error (.unreadable path (.path fault)))
  | .ok location =>
    match s.known? location with
    | some outcome => ({ s with cacheHits := s.cacheHits + 1 }, outcome)
    | none => s.load tree location

end Session

end Introspect
