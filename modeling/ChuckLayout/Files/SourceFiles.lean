import ChuckLayout.Files.Node

/-!
# Finding source files

A directory given as an argument stands for the source files in it, in the order of their names;
a recursive search goes into its directories too, except hidden ones.  Any other argument stands
for itself, whatever its name.
-/

namespace ChuckLayout.Files

/-- A name with something before its last dot and `ck` after it. -/
def isSourceName (name : Name) : Bool :=
  3 < name.length && ".ck".toList.isSuffixOf name

def isHidden (name : Name) : Bool :=
  name.head? == some '.'

/-- The order of names: that of their first different characters, a name before its extensions. -/
def Name.notAfter : Name → Name → Bool
  | [], _ => true
  | _ :: _, [] => false
  | left :: leftRest, right :: rightRest =>
      left.toNat < right.toNat || (left == right && notAfter leftRest rightRest)

namespace Node

variable {Content : Type}

/-- Puts what was found at each entry of a directory in the order of the names of the entries. -/
def inNameOrder (found : List (Name × List Path)) : List Path :=
  (found.mergeSort fun left right => left.1.notAfter right.1).flatMap Prod.snd

mutual

/-- The source files found at an entry of a directory. -/
def sourceFilesAt (recursive : Bool) (path : Path) (name : Name) : Node Content → List Path
  | file _ => if isSourceName name then [path] else []
  | directory entries =>
      if recursive && !isHidden name then inNameOrder (sourceFilesByName recursive path entries)
      else []

/-- The source files found at each entry of the directory at `path`. -/
def sourceFilesByName (recursive : Bool) (path : Path) :
    List (Name × Node Content) → List (Name × List Path)
  | [] => []
  | (name, node) :: rest =>
      (name, sourceFilesAt recursive (path.entry name) name node) ::
        sourceFilesByName recursive path rest

end

/-- What an argument stands for, given the node it leads to, if it leads to one. -/
def expand (recursive : Bool) (path : Path) : Option (Node Content) → List Path
  | some (directory entries) => inNameOrder (sourceFilesByName recursive path entries)
  | _ => [path]

end Node

end ChuckLayout.Files
