import ChuckLayout.Files.FileTree

/-!
# Workspaces

A workspace is what a run of the program works on: its standard input, and files that it can list,
read and write in a monad `m`.  A file tree together with an input is one.
-/

namespace ChuckLayout.Files

structure Workspace (m : Type → Type) where
  input : m ByteArray
  /-- The shape of what a path leads to, if it leads to anything.  Unless the search is deep, what
  is in the directories below does not matter. -/
  shape? : (deep : Bool) → Path → m (Option (Node Unit))
  read : Path → m (Except Fault (List Char))
  write : Path → List Char → m (Except Fault Unit)

/-- The workspace whose files are those of the tree that is its state. -/
def FileTree.workspace (input : ByteArray) : Workspace (StateM FileTree) where
  input := pure input
  shape? _ path := do
    let tree ← get
    pure ((tree.node? path).map Node.shape)
  read path := do
    let tree ← get
    pure (tree.read path)
  write path text := do
    let tree ← get
    match tree.write path text with
    | .error fault => pure (.error fault)
    | .ok written => do
        set written
        pure (.ok ())

end ChuckLayout.Files
