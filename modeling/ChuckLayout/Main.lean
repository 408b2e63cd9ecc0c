import ChuckLayout.CommandLine.Run

/-!
# The program

The workspace of the program is the disk, seen from the current directory.
-/

namespace ChuckLayout.Disk

open Files (Fault Name Node Path Workspace)

/-- The number of a system error, which may be reported with its sign reversed. -/
def errorNumber (code : UInt32) : UInt32 :=
  if code ≤ 0x7FFFFFFF then code else 0 - code

def fault : IO.Error → Fault
  | .noFileOrDirectory _ _ _ => .missing
  | .inappropriateType _ code details =>
      let number := errorNumber code
      if number = 20 then .notDirectory
      else if number = 21 then .isDirectory
      else .other s!"{details} (os error {number})"
  | .permissionDenied _ code _ =>
      let number := errorNumber code
      .other s!"Permission denied (os error {number})"
  | error => .other error.toString

mutual

/-- The shape of what an entry of a directory leads to.  Unless the search is deep, a directory is
not looked into. -/
partial def shapeOf (deep : Bool) (entry : IO.FS.DirEntry) : IO (Node Unit) := do
  if ← entry.path.isDir then
    if deep then
      return .directory (← shapesOf deep (← entry.path.readDir).toList)
    else return .directory []
  else return .file ()

partial def shapesOf (deep : Bool) (entries : List IO.FS.DirEntry) :
    IO (List (Name × Node Unit)) :=
  entries.mapM fun entry => return (entry.fileName.toList, ← shapeOf deep entry)

end

def shape? (deep : Bool) (path : Path) : IO (Option (Node Unit)) := do
  let place := (← IO.currentDir) / String.ofList path
  if ← place.isDir then
    return some (.directory (← shapesOf deep (← place.readDir).toList))
  else return none

def read (path : Path) : IO (Except Fault (List Char)) := do
  match ← (IO.FS.readBinFile (String.ofList path)).toBaseIO with
  | .error error => return .error (fault error)
  | .ok bytes =>
      match Files.textOfBytes? bytes with
      | none => return .error .notText
      | some text => return .ok text

def write (path : Path) (text : List Char) : IO (Except Fault Unit) := do
  match ← (IO.FS.writeBinFile (String.ofList path) (Files.bytesOfText text)).toBaseIO with
  | .error error => return .error (fault error)
  | .ok () => return .ok ()

def workspace : Workspace IO where
  input := do
    let stdin ← IO.getStdin
    stdin.readBinToEnd
  shape?
  read
  write

end ChuckLayout.Disk

def main (arguments : List String) : IO UInt32 := do
  let outcome ←
    ChuckLayout.CommandLine.run ChuckLayout.Disk.workspace (arguments.map String.toList)
  IO.print (String.ofList outcome.output)
  IO.eprint (String.ofList outcome.errors)
  return outcome.exitCode
