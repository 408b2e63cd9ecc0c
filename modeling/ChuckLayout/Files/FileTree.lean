import ChuckLayout.Files.Node

/-!
# Reading and writing by path

A file tree is a root directory and the directory that relative paths start from.  Files hold
bytes; a text is read from a file whose bytes are its UTF-8 form.
-/

namespace ChuckLayout.Files

/-- Why a file cannot be read or written. -/
inductive Fault where
  | missing
  | notDirectory
  | isDirectory
  | notText
  | other (message : String)
  deriving DecidableEq, Repr

def Fault.message : Fault → String
  | missing => "No such file or directory (os error 2)"
  | notDirectory => "Not a directory (os error 20)"
  | isDirectory => "Is a directory (os error 21)"
  | notText => "stream did not contain valid UTF-8"
  | other message => message

/-- The text with these bytes, if they are valid UTF-8. -/
def textOfBytes? (bytes : ByteArray) : Option (List Char) :=
  (String.fromUTF8? bytes).map String.toList

def bytesOfText (text : List Char) : ByteArray :=
  (String.ofList text).toUTF8

structure FileTree where
  root : Node ByteArray
  /-- The place of the directory that relative paths start from. -/
  workingDirectory : List Name

namespace FileTree

/-- Follows the parts of a path from a place.  Every part, an empty one at the end included, has to
start from a directory; the root is its own parent. -/
def follow (root : Node ByteArray) (place : List Name) : List Name → Except Fault (List Name)
  | [] => .ok place
  | part :: rest =>
      match root.at? place with
      | some (.directory entries) =>
          if part = [] || part = ['.'] then follow root place rest
          else if part = ['.', '.'] then follow root place.dropLast rest
          else if (entries.lookup part).isSome then follow root (place ++ [part]) rest
          else .error .missing
      | some (.file _) => .error .notDirectory
      | none => .error .missing

/-- The place that a path leads to.  The empty path leads nowhere. -/
def resolve (tree : FileTree) (path : Path) : Except Fault (List Name) :=
  if path = [] then .error .missing
  else follow tree.root (if path.isAbsolute then [] else tree.workingDirectory) path.parts

/-- The node that a path leads to, if it leads to one. -/
def node? (tree : FileTree) (path : Path) : Option (Node ByteArray) :=
  match tree.resolve path with
  | .ok place => tree.root.at? place
  | .error _ => none

def read (tree : FileTree) (path : Path) : Except Fault (List Char) :=
  match tree.resolve path with
  | .error fault => .error fault
  | .ok place =>
      match tree.root.at? place with
      | none => .error .missing
      | some (.directory _) => .error .isDirectory
      | some (.file bytes) =>
          match textOfBytes? bytes with
          | none => .error .notText
          | some text => .ok text

/-- Gives the file at `path` a new text. -/
def write (tree : FileTree) (path : Path) (text : List Char) : Except Fault FileTree :=
  match tree.resolve path with
  | .error fault => .error fault
  | .ok place =>
      match tree.root.at? place with
      | none => .error .missing
      | some (.directory _) => .error .isDirectory
      | some (.file _) => .ok { tree with root := tree.root.replace (bytesOfText text) place }

end FileTree

end ChuckLayout.Files
