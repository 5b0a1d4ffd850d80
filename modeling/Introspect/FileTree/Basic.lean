import Introspect.Text.Split

/-!
# File trees

A file tree holds files, directories and symbolic links. A `Listing` is what a directory holds, and
so a whole tree is the listing of its root. Entries stand in the order of their names, each name
occurring once; `Listing.insert` keeps it so.

A `Location` is the place of an entry: the names on the way from the root, none of which is a link,
`.` or `..`. Every entry has one location, while many paths may lead to it.

* `Listing.get?` and `Listing.at?` find an entry by its name or its location;
* `Listing.insert`, `Listing.erase` change one directory, `Listing.place` and `Listing.remove` the
  tree.
-/

namespace Introspect

/-- An entry that holds no others. -/
inductive Leaf where
  /-- A file and its bytes; none if the file may not be read. -/
  | file (bytes? : Option (List UInt8))
  /-- A symbolic link and the path it names. -/
  | link (target : String)
  deriving DecidableEq, Repr

/-- The entries of a directory, in the order of their names. -/
inductive Listing where
  | empty
  | leaf (name : String) (entry : Leaf) (rest : Listing)
  | dir (name : String) (inside rest : Listing)
  deriving DecidableEq, Repr

/-- An entry of a directory. -/
inductive Entry where
  | leaf (entry : Leaf)
  | dir (inside : Listing)
  deriving DecidableEq, Repr

/-- The names on the way from the root to an entry. -/
abbrev Location := List String

/-- The text of a location, as it is written in the root. The root itself is a dot. -/
def Location.text (l : Location) : String :=
  if l = [] then "." else "/".intercalate l

namespace Listing

/-- Puts an entry with its name before other entries. -/
def cons (name : String) : Entry → Listing → Listing
  | .leaf entry, rest => leaf name entry rest
  | .dir inside, rest => dir name inside rest

/-- The entries with their names. -/
def toList : Listing → List (String × Entry)
  | empty => []
  | leaf name entry rest => (name, .leaf entry) :: rest.toList
  | dir name inside rest => (name, .dir inside) :: rest.toList

@[simp] theorem toList_cons (name : String) (e : Entry) (rest : Listing) :
    (cons name e rest).toList = (name, e) :: rest.toList := by
  cases e <;> rfl

/-- The entry of a name. -/
def get? (name : String) (l : Listing) : Option Entry :=
  l.toList.lookup name

/-- Puts an entry at the place of its name, where it replaces what is there. -/
def insert (name : String) (e : Entry) : Listing → Listing
  | empty => cons name e empty
  | leaf n x rest =>
    if name < n then cons name e (leaf n x rest)
    else if name = n then cons name e rest
    else leaf n x (rest.insert name e)
  | dir n x rest =>
    if name < n then cons name e (dir n x rest)
    else if name = n then cons name e rest
    else dir n x (rest.insert name e)

@[simp] theorem get?_empty (name : String) : empty.get? name = none := rfl

@[simp] theorem get?_cons (name n : String) (e : Entry) (rest : Listing) :
    (cons n e rest).get? name = if name = n then some e else rest.get? name := by
  by_cases h : name = n
  · simp [get?, h]
  · have hb : (name == n) = false := by simp [h]
    simp [get?, List.lookup_cons, h, hb]

theorem leaf_eq_cons (name : String) (x : Leaf) (rest : Listing) :
    leaf name x rest = cons name (.leaf x) rest := rfl

theorem dir_eq_cons (name : String) (x rest : Listing) :
    dir name x rest = cons name (.dir x) rest := rfl

/-- Takes the entry of a name away. -/
def erase (name : String) : Listing → Listing
  | empty => empty
  | leaf n x rest => if name = n then rest else leaf n x (rest.erase name)
  | dir n x rest => if name = n then rest else dir n x (rest.erase name)

/-- What the directory of a name holds; nothing if there is no such directory. -/
def inside (name : String) (l : Listing) : Listing :=
  match l.get? name with
  | some (.dir inside) => inside
  | _ => empty

/-! ### Trees -/

/-- The entry at a location of the tree. -/
def at? (tree : Listing) : Location → Option Entry
  | [] => some (.dir tree)
  | name :: below =>
    match tree.get? name with
    | some (.dir inside) => inside.at? below
    | some (.leaf entry) => if below = [] then some (.leaf entry) else none
    | none => none

/-- Puts an entry at a location and makes the directories on the way. The root stays. -/
def place (e : Entry) (tree : Listing) : Location → Listing
  | [] => tree
  | [name] => tree.insert name e
  | name :: below => tree.insert name (.dir ((tree.inside name).place e below))

/-- Takes away the entry at a location. -/
def remove (tree : Listing) : Location → Listing
  | [] => tree
  | [name] => tree.erase name
  | name :: below =>
    match tree.get? name with
    | some (.dir inside) => tree.insert name (.dir (inside.remove below))
    | _ => tree

/-- The number of directories in the tree. -/
def dirCount : Listing → Nat
  | empty => 0
  | leaf _ _ rest => rest.dirCount
  | dir _ inside rest => inside.dirCount + rest.dirCount + 1

end Listing

/-- A tree of files: what its root directory holds. -/
abbrev FileTree := Listing

end Introspect
