/-!
# Directory trees

A node is a file or a directory of named nodes.  Names and paths are lists of characters, and the
parts of a path stand between slashes.  So every name is a text, and names that are not UTF-8 are
out of scope.  Names are ordered by their characters, which is the order of their bytes in UTF-8.
-/

namespace ChuckLayout.Files

abbrev Name := List Char

/-- A path as it is given and shown. -/
abbrev Path := List Char

/-- A tree whose files hold values of type `Content`. -/
inductive Node (Content : Type) where
  | file (content : Content)
  | directory (entries : List (Name × Node Content))

namespace Path

/-- The path of an entry of the directory at `path`. -/
def entry (path : Path) (name : Name) : Path :=
  if path.getLast? = some '/' then path ++ name else path ++ '/' :: name

def parts (path : Path) : List Name :=
  path.splitOn '/'

def isAbsolute (path : Path) : Bool :=
  path.head? == some '/'

end Path

namespace Node

variable {Content : Type}

/-- The node of that name, if this is a directory that has one. -/
def child? (name : Name) : Node Content → Option (Node Content)
  | file _ => none
  | directory entries => entries.lookup name

/-- The node at a place, given by the names that lead to it. -/
def at? (node : Node Content) : List Name → Option (Node Content)
  | [] => some node
  | name :: rest => (node.child? name).bind fun child => child.at? rest

/-- Puts `content` into the file at a place.  Where there is no file, nothing changes. -/
def replace (content : Content) : List Name → Node Content → Node Content
  | [], file _ => file content
  | name :: rest, directory entries =>
      directory (entries.map fun entry =>
        if entry.1 = name then (entry.1, replace content rest entry.2) else entry)
  | _, node => node

mutual

/-- The same tree without what is in its files. -/
def shape : Node Content → Node Unit
  | file _ => file ()
  | directory entries => directory (shapeEntries entries)

def shapeEntries : List (Name × Node Content) → List (Name × Node Unit)
  | [] => []
  | (name, node) :: rest => (name, shape node) :: shapeEntries rest

end

end Node

end ChuckLayout.Files
