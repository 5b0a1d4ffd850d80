import Introspect.FileTree.Basic

/-!
# Paths

A path is a text that leads to an entry of a tree, in steps between slashes. A step enters a
directory, a dot or an empty step stays, two dots leave a directory, and a symbolic link is replaced
by the steps of its target. `Listing.locate` goes along a path to the location of the entry, or says
why there is none (`PathFault`). At most forty links are followed.

The tree is the whole file system, and its root is the working directory: all paths begin there,
whether or not they begin with a slash. The target of a link begins in the directory that holds the
link, unless it begins with a slash. Two dots in the root stay in the root. The empty path leads
nowhere, and a path that holds the character zero is none.
-/

namespace Introspect

/-- Why a path leads nowhere, or to something else than is asked for. -/
inductive PathFault where
  | notFound
  | notADirectory
  | isADirectory
  | tooManyLinks
  | invalid
  deriving DecidableEq, Repr

/-- The fault in words. -/
def PathFault.text : PathFault → String
  | .notFound => "No such file or directory (os error 2)"
  | .notADirectory => "Not a directory (os error 20)"
  | .isADirectory => "Is a directory (os error 21)"
  | .tooManyLinks => "Too many levels of symbolic links (os error 40)"
  | .invalid => "file name contained an unexpected NUL byte"

namespace Path

/-- The steps of a path. -/
def steps (path : String) : List String := Text.split '/' path

/-- The path of an entry of a directory. -/
def child (dir name : String) : String :=
  if dir = "" ∨ dir.toList.getLast? = some '/' then dir ++ name else dir ++ "/" ++ name

/-- The directory in which a path begins that is met in the directory at `here`. -/
def base (here : Location) (path : String) : Location :=
  if path.toList.head? = some '/' then [] else here

/-- The most links that are followed on the way along a path. -/
def maxLinks : Nat := 40

/-- The last name of a path. -/
def fileName (path : String) : String :=
  (steps path).getLast?.getD ""

/-- **Extensions.** What stands behind the last dot of a name, if something stands before it. -/
def extension? (name : String) : Option String :=
  let after := name.toList.reverse.takeWhile (· ≠ '.')
  match name.toList.reverse.drop after.length with
  | [] => none
  | [_] => none
  | _ => some (String.ofList after.reverse)

end Path

namespace Listing

/-- Goes the steps `pending` from the directory at `here` and follows at most `links` links. -/
def follow (tree : Listing) (links : Nat) (here : Location) (pending : List String) :
    Except PathFault Location :=
  match pending with
  | [] => .ok here
  | name :: pending =>
    if name = "" ∨ name = "." then tree.follow links here pending
    -- Above the root there is the root.
    else if name = ".." then tree.follow links here.dropLast pending
    else
      match tree.at? (here ++ [name]) with
      | none => .error .notFound
      | some (.dir _) => tree.follow links (here ++ [name]) pending
      | some (.leaf (.file _)) =>
        -- Nothing is inside a file, not even the empty step behind a last slash.
        if pending = [] then .ok (here ++ [name]) else .error .notADirectory
      | some (.leaf (.link target)) =>
        match links with
        | 0 => .error .tooManyLinks
        | links + 1 =>
          if target = "" then .error .notFound
          else tree.follow links (Path.base here target) (Path.steps target ++ pending)
termination_by (links, pending.length)

/-- **Locating.** The location to which a path leads. -/
def locate (tree : Listing) (path : String) : Except PathFault Location :=
  -- The character zero would end the path before the file system has read it.
  if '\x00' ∈ path.toList then .error .invalid
  else if path = "" then .error .notFound
  else tree.follow Path.maxLinks [] (Path.steps path)

/-- What a path leads to. -/
def entry? (tree : Listing) (path : String) : Except PathFault Entry := do
  let location ← tree.locate path
  match tree.at? location with
  | some e => .ok e
  | none => .error .notFound

/-- Whether a path leads to a directory, if it leads anywhere. -/
def isDir (tree : Listing) (path : String) : Except PathFault Bool := do
  match ← tree.entry? path with
  | .dir _ => .ok true
  | .leaf _ => .ok false

/-! ### Changing a tree along a path -/

/-- The location that an entry made under a path gets. Where the directories on the way are missing
they are made as they are written. -/
def home (tree : Listing) (path : String) : Location :=
  let steps := (Path.steps path).filter fun s => s ≠ "" ∧ s ≠ "."
  match tree.follow Path.maxLinks [] steps.dropLast with
  | .ok location => location ++ steps.getLast?.toList
  -- The directories on the way do not exist yet.
  | .error _ => steps

/-- Writes a file under a path. If the path leads to a file, that file is replaced. -/
def writeFile (tree : Listing) (path : String) (bytes : List UInt8) : Listing :=
  tree.place (.leaf (.file (some bytes))) ((tree.locate path).toOption.getD (tree.home path))

/-- Makes a link under a path. -/
def makeLink (tree : Listing) (path target : String) : Listing :=
  tree.place (.leaf (.link target)) (tree.home path)

/-- Makes a directory under a path, unless the path leads to one. -/
def makeDir (tree : Listing) (path : String) : Listing :=
  match tree.locate path with
  | .ok _ => tree
  | .error _ => tree.place (.dir .empty) (tree.home path)

/-- Removes the entry under a path; a link is removed and not what it leads to. -/
def removeEntry (tree : Listing) (path : String) : Listing :=
  tree.remove (tree.home path)

end Listing

end Introspect
