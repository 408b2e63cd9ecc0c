import ChuckLayout.CommandLine.Arguments
import ChuckLayout.Document
import ChuckLayout.Failure
import ChuckLayout.Files.SourceFiles
import ChuckLayout.Files.Workspace
import ChuckLayout.Lexeme.Listing

/-!
# Runs of the program

Files are formatted in the order in which they are given or found.  The first one that cannot be
read ends the run; what has been printed or written before that stays.  A file is written only
when its content changes, and a formatted file ends in one line break unless it is empty.
-/

namespace ChuckLayout.CommandLine

open Files (Path Workspace)

/-- A formatted text as the content of a file. -/
def fileContent (formatted : List Char) : List Char :=
  if formatted = [] then [] else formatted ++ ['\n']

/-- What is to be done about one file. -/
inductive Action where
  | print (text : List Char)
  | store (text : List Char)
  /-- Report the file as one that formatting would change. -/
  | report
  | leave
  deriving DecidableEq, Repr

def actionFor (mode : Mode) (emission : Emission) (source : List Char) : Action :=
  match emission with
  | .tokens => .print (Listing.render (Document.stream source) ++ ['\n'])
  | .text =>
      let formatted := fileContent (Document.tidy source)
      match mode with
      | .print => .print formatted
      | .write => if formatted = source then .leave else .store formatted
      | .check => if formatted = source then .leave else .report

/-- What a run has come to. -/
structure Report where
  printed : List Char := []
  /-- The files that formatting would change. -/
  untidy : List Path := []
  failure : Option Failure := none
  deriving DecidableEq, Repr

/-- Carries out an action on the file at `path`.  A failure ends the run. -/
def carryOut {m : Type → Type} [Monad m] (workspace : Workspace m) (path : Path) :
    Action → m Report
  | .print text => pure { printed := text }
  | .report => pure { untidy := [path] }
  | .leave => pure {}
  | .store text => do
      match ← workspace.write path text with
      | .error fault => pure { failure := some (.unwritable path fault) }
      | .ok () => pure {}

def formatFile {m : Type → Type} [Monad m] (workspace : Workspace m) (options : Options)
    (path : Path) : m Report := do
  match ← workspace.read path with
  | .error fault => pure { failure := some (.unreadable path fault) }
  | .ok source => carryOut workspace path (actionFor options.mode options.emission source)

def formatFiles {m : Type → Type} [Monad m] (workspace : Workspace m) (options : Options) :
    List Path → m Report
  | [] => pure {}
  | path :: rest => do
      let first ← formatFile workspace options path
      if first.failure.isSome then pure first
      else
        let later ← formatFiles workspace options rest
        pure
          { printed := first.printed ++ later.printed
            untidy := first.untidy ++ later.untidy
            failure := later.failure }

/-- The files that a list of arguments stands for. -/
def selectFiles {m : Type → Type} [Monad m] (workspace : Workspace m) (recursive : Bool) :
    List Path → m (List Path)
  | [] => pure []
  | path :: rest => do
      let shape ← workspace.shape? recursive path
      let later ← selectFiles workspace recursive rest
      pure (Files.Node.expand recursive path shape ++ later)

/-- How reports name the standard input. -/
def inputName : Path :=
  "<stdin>".toList

/-- Formats the standard input, which can be printed or checked but not written. -/
def formatInput (options : Options) (bytes : ByteArray) : Report :=
  match Files.textOfBytes? bytes with
  | none => { failure := some (.unreadable inputName .notText) }
  | some source =>
      let mode := if options.mode = .write then .print else options.mode
      match actionFor mode options.emission source with
      | .print text | .store text => { printed := text }
      | .report => { untidy := [inputName] }
      | .leave => {}

/-- What a run leaves to its caller.  The lines of its logger are not part of it, although they go
to the standard error stream as well: `Document.notices` tells what they say. -/
structure Outcome where
  exitCode : UInt32
  output : List Char
  errors : List Char
  deriving DecidableEq, Repr

namespace Outcome

/-- A failed check lists its files below the message. -/
def ofFailure (output : List Char) (failure : Failure) : Outcome :=
  let listed :=
    match failure with
    | .untidy paths => paths.flatMap fun path => "  ".toList ++ path ++ ['\n']
    | _ => []
  { exitCode := 1
    output
    errors := "Error: ".toList ++ failure.message.toList ++ ['\n'] ++ listed }

def ofReport (report : Report) : Outcome :=
  match report.failure, report.untidy with
  | some failure, _ => ofFailure report.printed failure
  | none, [] => ⟨0, report.printed, []⟩
  | none, paths => ofFailure report.printed (.untidy paths)

def versionText : String :=
  "chuckfmt 0.1.0\n"

def helpText : String :=
  "Format ChucK source files\n\n" ++
  "Usage: chuckfmt [OPTIONS] [paths]...\n\n" ++
  "Arguments:\n" ++
  "  [paths]...  Files or directories to format; reads stdin when omitted\n\n" ++
  "Options:\n" ++
  "  -w, --write        Rewrite files in place instead of printing them\n" ++
  "  -c, --check        Check if files are formatted (don't modify)\n" ++
  "  -r, --recursive    Search directories recursively for .ck files\n" ++
  "      --emit <emit>  What to output [default: text] [possible values: text, tokens]\n" ++
  "  -h, --help         Print help\n" ++
  "  -V, --version      Print version\n"

def ofHalt : Halt → Outcome
  | .version => ⟨0, versionText.toList, []⟩
  | .help => ⟨0, helpText.toList, []⟩
  | .usage error => ⟨2, [], error.message.toList ++ ['\n']⟩

end Outcome

/-- Formats what the options name. -/
def runOptions {m : Type → Type} [Monad m] (workspace : Workspace m) (options : Options) :
    m Outcome :=
  if options.paths = [] then do
    let bytes ← workspace.input
    pure (.ofReport (formatInput options bytes))
  else do
    let files ← selectFiles workspace options.recursive options.paths
    let report ← formatFiles workspace options files
    pure (.ofReport report)

def run {m : Type → Type} [Monad m] (workspace : Workspace m) (arguments : List (List Char)) :
    m Outcome :=
  match readArguments arguments with
  | .error halt => pure (.ofHalt halt)
  | .ok options => runOptions workspace options

end ChuckLayout.CommandLine
