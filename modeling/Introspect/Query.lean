import Introspect.Pattern.Reading
import Introspect.Session

/-!
# Queries

A query parses many files in a session and collects the classes that they declare. What is wrong
with the question fails the whole query, before any file is parsed (`QueryError`). What is wrong
with one file is recorded beside the classes of the others (`QueryResult`).

* `Session.queryFiles` is a query for a list of files;
* `Session.queryDirectory` is a query for the files below a directory: those with no excluded name
  on the way to them, in the order of a walk. Names with a leading dot are always excluded. The
  language of the patterns and the walker are parameters.
-/

namespace Introspect

/-- What is wrong with a query. -/
inductive QueryError where
  | notFound (path : String)
  | notAFile (path : String)
  | notADirectory (path : String)
  | invalidPattern (pattern reason : String)
  deriving DecidableEq, Repr

/-- The error in words. -/
def QueryError.message : QueryError → String
  | notFound path => "no such file or directory: " ++ path
  | notAFile path => "not a regular file: " ++ path
  | notADirectory path => "not a directory: " ++ path
  | invalidPattern pattern reason => "invalid exclusion pattern '" ++ pattern ++ "': " ++ reason

/-- A file that yields no classes, by the path at which it was found. -/
structure FileFailure where
  path : String
  error : FileError
  deriving DecidableEq, Repr

/-- The classes of the files that parsed, in the order of the files, and the files that did not. -/
structure QueryResult where
  classes : List Class := []
  failures : List FileFailure := []
  deriving Repr

namespace QueryResult

/-- Whether all files parsed. -/
def isComplete (r : QueryResult) : Bool := r.failures.isEmpty

/-- The first class of a name. -/
def class? (r : QueryResult) (name : String) : Option Class :=
  findClass r.classes (Name.lookupKey name)

/-- Adds what came of the file at a path. -/
def add (r : QueryResult) (path : String) : Outcome → QueryResult
  | .ok file => { r with classes := r.classes ++ file.classes }
  | .error error => { r with failures := r.failures ++ [⟨path, error⟩] }

end QueryResult

/-- What is asked for below a directory. -/
structure DirectoryQuery where
  /-- Patterns of the names that are left out, beside the hidden ones. -/
  exclude : List String := []
  /-- The extensions of the files that are parsed; all files if there are none. -/
  extensions : List String := []
  /-- Whether directories inside the directory are walked. -/
  recursive : Bool := true
  deriving Repr

/-- What a query collects. -/
inductive Visit where
  | file (path : String)
  /-- A fault of a walk, recorded under a path. -/
  | fault (path : String) (f : WalkFault)
  deriving DecidableEq, Repr

/-- The path under which it is recorded. -/
def Visit.path : Visit → String
  | file path => path
  | fault path _ => path

namespace Session

/-! ### Collecting -/

/-- Parses what is to be collected and adds it to a result. A fault of a walk is a failure. -/
def collectVisit (tree : FileTree) (state : Session × QueryResult) : Visit → Session × QueryResult
  | .file path =>
    let (s, outcome) := state.1.parse tree path
    (s, state.2.add path outcome)
  | .fault path f =>
    (state.1, state.2.add path (.error (.unreadable path (.walk f))))

/-- **Collecting.** Parses files, one after the other. -/
def collect (s : Session) (tree : FileTree) (visits : List Visit) : Session × QueryResult :=
  visits.foldl (collectVisit tree) (s, {})

/-! ### Lists of files -/

/-- Whether a path leads to a regular file, and if not, what is wrong with it. -/
def checkFile (tree : FileTree) (path : String) : Except QueryError Unit :=
  match tree.isDir path with
  | .error _ => .error (.notFound path)
  | .ok true => .error (.notAFile path)
  | .ok false => .ok ()

/-- **Queries for files.** Every path has to lead to a regular file. -/
def queryFiles (s : Session) (tree : FileTree) (paths : List String) :
    Session × Except QueryError QueryResult :=
  -- All paths are checked before the first file is parsed.
  match paths.forM (checkFile tree) with
  | .error e => (s, .error e)
  | .ok _ =>
    let (s, result) := s.collect tree (paths.map .file)
    (s, .ok result)

/-! ### Directories -/

/-- The pattern of hidden names. -/
def hidden : String := "^\\."

/-- Reads patterns, up to the first that is none. -/
def readPatterns (language : PatternLanguage) :
    List String → Except QueryError (List (String → Bool))
  | [] => .ok []
  | text :: texts =>
    match language text with
    | .error reason => .error (.invalidPattern text reason)
    | .ok p => (readPatterns language texts).map (p :: ·)

/-- Whether a file has one of the extensions, in any letter case, if there are any. -/
def hasExtension (extensions : List String) (path : String) : Bool :=
  extensions.isEmpty
    || (Path.extension? (Path.fileName path)).any fun e =>
      extensions.any (Text.eqIgnoringCase · e)

/-- What is to be collected of an item of a walk from `root`: files with a wanted extension, and
every fault. A fault without a path is one of the root. -/
def wanted? (extensions : List String) (root : String) : WalkItem → Option Visit
  | .ok e => if e.isFile && hasExtension extensions e.path then some (.file e.path) else none
  | .error f => some (.fault (f.path?.getD root) f)

/-- Collects what a walk from `root` delivers. -/
def scan (s : Session) (tree : FileTree) (extensions : List String) (root : String)
    (items : List WalkItem) : Session × QueryResult :=
  s.collect tree (items.filterMap (wanted? extensions root))

/-- **Queries for directories.** The path has to lead to a directory, and every pattern has to be
one. -/
def queryDirectory (s : Session) (tree : FileTree) (q : DirectoryQuery) (path : String)
    (language : PatternLanguage := Pattern.language) (walker : Walker := Listing.walker) :
    Session × Except QueryError QueryResult :=
  match tree.isDir path with
  | .error _ => (s, .error (.notFound path))
  | .ok false => (s, .error (.notADirectory path))
  | .ok true =>
    -- A wrong pattern is found even if no name would be matched against it.
    match readPatterns language (hidden :: q.exclude) with
    | .error e => (s, .error e)
    | .ok patterns =>
      let w : WalkScope := ⟨fun name => patterns.any (· name), q.recursive⟩
      let (s, result) := s.scan tree q.extensions path (walker tree path w.options)
      (s, .ok result)

end Session

end Introspect
