import ChuckLayout.Files.FileTree

/-!
# Failures

Formatting a text never fails by its own rules; these are the failures of what surrounds it.
-/

namespace ChuckLayout

open Files (Path Fault)

inductive Failure where
  /-- The formatter itself broke off. -/
  | panicked (message : String)
  | unreadable (path : Path) (fault : Fault)
  | unwritable (path : Path) (fault : Fault)
  /-- A check found files that formatting would change. -/
  | untidy (paths : List Path)
  deriving DecidableEq, Repr

def Failure.message : Failure → String
  | panicked message => s!"formatter panicked: {message}"
  | unreadable path fault => s!"failed to read {String.ofList path}: {fault.message}"
  | unwritable path fault => s!"failed to write {String.ofList path}: {fault.message}"
  | untidy paths => s!"{paths.length} file(s) need formatting"

end ChuckLayout
