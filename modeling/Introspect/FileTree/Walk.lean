import Introspect.FileTree.Path

/-!
# Walking a tree

A walk begins at a path and delivers the entries that it comes to, one after the other
(`WalkItem`). It comes to a directory before it comes to what is inside, and goes through each
directory in the order of the names. Links are followed: a link is delivered as what it leads to,
under the path of the link. How deep a walk goes and which entries it leaves out is told to it
(`WalkOptions`); what is inside of a directory that is left out is not come to. An entry that cannot
be had is delivered as a fault, and so is a link to a directory inside of which the walk is; faults
are delivered whatever is left out.

How a tree is walked is not settled here. A `Walker` is any way to do it, and queries are stated for
any of them; what is known of one is said where it is needed. `Listing.walker` is the one that runs.

Its walk ends although links are followed: a link to a directory of the `trail`, the directories
inside of which the walk is, is not followed, so every link that is followed adds a new directory of
the tree to the trail. The number of directories therefore bounds how deeply links are nested.
-/

namespace Introspect

/-! ### Walkers -/

/-- Why an entry cannot be visited. -/
inductive WalkFault where
  /-- The file system refuses something, about a path or about none. The cause is known if it lies
  in the path. -/
  | io (path? : Option String) (text : String) (cause? : Option PathFault)
  /-- The link leads to a directory inside of which it was found. -/
  | loop (link ancestor : String)
  deriving DecidableEq, Repr

namespace WalkFault

/-- The fault of a path that leads nowhere. -/
def broken (path : String) (fault : PathFault) : WalkFault :=
  io (some path) fault.text (some fault)

/-- The path of the entry that cannot be visited, if the fault carries one. -/
def path? : WalkFault → Option String
  | io path? _ _ => path?
  | loop link _ => some link

/-- The fault in words. -/
def text : WalkFault → String
  | io none text _ => text
  | io (some path) text _ => "IO error for operation on " ++ path ++ ": " ++ text
  | loop link ancestor =>
    "File system loop found: " ++ link ++ " points to an ancestor " ++ ancestor

end WalkFault

/-- An entry to which a walk comes: a regular file or a directory. -/
structure WalkEntry where
  path : String
  /-- The number of names behind the path at which the walk began. -/
  depth : Nat
  isFile : Bool
  deriving DecidableEq, Repr

/-- What a walk delivers. -/
abbrev WalkItem := Except WalkFault WalkEntry

/-- What is asked of a walk. -/
structure WalkOptions where
  /-- The greatest depth of an entry, if there is one. -/
  maxDepth? : Option Nat
  /-- Whether the entry is delivered, and what is inside of it. -/
  keeps : WalkEntry → Bool

namespace WalkOptions

/-- Whether entries of this depth are delivered. -/
def reaches (o : WalkOptions) (depth : Nat) : Bool :=
  o.maxDepth?.all (depth ≤ ·)

/-- What is delivered of an entry, if this is found inside of it. -/
@[macro_inline]
def visit (o : WalkOptions) (e : WalkEntry) (inside : List WalkItem) : List WalkItem :=
  if o.keeps e then .ok e :: if o.reaches (e.depth + 1) then inside else [] else []

end WalkOptions

/-- **Walkers.** What a walk through a tree from a path delivers. -/
abbrev Walker := FileTree → String → WalkOptions → List WalkItem

/-! ### What queries ask of walks -/

/-- What is left out of a walk below the path at which it begins. -/
structure WalkScope where
  /-- Whether entries of this name are left out. -/
  excluded : String → Bool
  /-- Whether directories below the first one are walked. -/
  recursive : Bool

namespace WalkScope

/-- Whether a directory of this name is walked. -/
def enters (w : WalkScope) (name : String) : Bool :=
  w.recursive && !w.excluded name

/-- What is asked of a walk. The name of the entry at which it begins does not matter. -/
def options (w : WalkScope) : WalkOptions where
  maxDepth? := if w.recursive then none else some 1
  keeps e := e.depth == 0 || !w.excluded (Path.fileName e.path)

end WalkScope

/-! ### The walker that runs -/

/-- A directory inside of which a walk is. -/
structure OpenDir where
  path : String
  location : Location
  deriving DecidableEq, Repr

/-- The path of an entry in the innermost directory of a trail. -/
def OpenDir.childPath (trail : List OpenDir) (name : String) : String :=
  Path.child (trail.head?.elim "" (·.path)) name

/-- The trail inside a directory of the innermost one. -/
def OpenDir.enter (trail : List OpenDir) (name : String) : List OpenDir :=
  ⟨childPath trail name, (trail.head?.elim [] (·.location)) ++ [name]⟩ :: trail

namespace Listing

/-- **Walking a listing.** What is delivered of the innermost directory of the trail, of which the
listing is given. What is behind a link is left to `links`. -/
def walk (o : WalkOptions) (links : List OpenDir → String → List WalkItem) (trail : List OpenDir) :
    Listing → List WalkItem
  | empty => []
  | leaf name (.file _) rest =>
    o.visit ⟨OpenDir.childPath trail name, trail.length, true⟩ [] ++ rest.walk o links trail
  -- Whether the link is left out depends on what it leads to.
  | leaf name (.link _) rest => links trail name ++ rest.walk o links trail
  | dir name inside rest =>
    o.visit ⟨OpenDir.childPath trail name, trail.length, false⟩
      (inside.walk o links (OpenDir.enter trail name)) ++ rest.walk o links trail

/-- What is delivered of the link of a name in the innermost directory of the trail, if links are
nested at most `nesting` deep. -/
def behindLink (tree : Listing) (o : WalkOptions) : Nat → List OpenDir → String → List WalkItem
  | nesting, trail, name =>
    let path := OpenDir.childPath trail name
    match tree.locate path with
    -- A fault is found before there is an entry, so that nothing leaves it out.
    | .error f => [.error (.broken path f)]
    | .ok location =>
      match tree.at? location with
      | some (.dir inside) =>
        match trail.find? (·.location == location) with
        | some ancestor => [.error (.loop path ancestor.path)]
        | none =>
          match nesting with
          -- Not reached from `walker`: every level puts another directory of the tree on the trail.
          | 0 => []
          | nesting + 1 =>
            o.visit ⟨path, trail.length, false⟩
              (inside.walk o (tree.behindLink o nesting) (⟨path, location⟩ :: trail))
      | _ => o.visit ⟨path, trail.length, true⟩ []

/-- **The walker that runs.** -/
def walker : Walker := fun tree path o =>
  match tree.locate path with
  | .error f => [.error (.broken path f)]
  | .ok location =>
    match tree.at? location with
    | some (.dir inside) =>
      o.visit ⟨path, 0, false⟩
        (inside.walk o (tree.behindLink o (tree.dirCount + 1)) [⟨path, location⟩])
    | _ => o.visit ⟨path, 0, true⟩ []

end Listing

end Introspect
