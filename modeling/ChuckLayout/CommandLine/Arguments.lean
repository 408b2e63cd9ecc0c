import ChuckLayout.Files.Node

/-!
# Arguments

Arguments are read from left to right.  Asking for the version or for help ends the reading at
once, and so does the first argument that makes no sense; that two options exclude each other shows
only at the end.
-/

namespace ChuckLayout.CommandLine

open Files (Path)

/-- What is done with formatted files. -/
inductive Mode where
  | print
  | write
  | check
  deriving DecidableEq, Repr

inductive Emission where
  | text
  | tokens
  deriving DecidableEq, Repr

structure Options where
  mode : Mode
  recursive : Bool
  emission : Emission
  paths : List Path
  deriving DecidableEq, Repr

inductive UsageError where
  | unknownOption (option : List Char)
  | repeated (option : String)
  | exclusive (first second : String)
  | missingValue (option : String)
  | unexpectedValue (option : String) (value : List Char)
  | invalidValue (option : String) (value : List Char)
  deriving DecidableEq, Repr

def UsageError.message : UsageError → String
  | unknownOption option => s!"error: unexpected argument '{String.ofList option}' found"
  | repeated option => s!"error: the argument '{option}' cannot be used multiple times"
  | exclusive first second => s!"error: the argument '{first}' cannot be used with '{second}'"
  | missingValue option => s!"error: a value is required for '{option}' but none was supplied"
  | unexpectedValue option value =>
      s!"error: unexpected value '{String.ofList value}' for '{option}' found"
  | invalidValue option value => s!"error: invalid value '{String.ofList value}' for '{option}'"

/-- Why arguments do not lead to a run. -/
inductive Halt where
  | version
  | help
  | usage (error : UsageError)
  deriving DecidableEq, Repr

/-- The options read so far. -/
structure Reading where
  write : Bool := false
  check : Bool := false
  recursive : Bool := false
  emission : Option Emission := none
  paths : List Path := []
  deriving DecidableEq, Repr

namespace Reading

inductive Flag where
  | write
  | check
  | recursive
  | help
  | version
  deriving DecidableEq, Repr

def Flag.ofLetter? (letter : Char) : Option Flag :=
  match letter with
  | 'w' => some .write
  | 'c' => some .check
  | 'r' => some .recursive
  | 'h' => some .help
  | 'V' => some .version
  | _ => none

def Flag.all : List Flag :=
  [write, check, recursive, help, version]

def Flag.name : Flag → String
  | write => "--write"
  | check => "--check"
  | recursive => "--recursive"
  | help => "--help"
  | version => "--version"

def setFlag (reading : Reading) (flag : Flag) : Except Halt Reading :=
  match flag with
  | .help => .error .help
  | .version => .error .version
  | .write =>
      if reading.write then .error (.usage (.repeated flag.name))
      else .ok { reading with write := true }
  | .check =>
      if reading.check then .error (.usage (.repeated flag.name))
      else .ok { reading with check := true }
  | .recursive =>
      if reading.recursive then .error (.usage (.repeated flag.name))
      else .ok { reading with recursive := true }

/-- The letters after a single dash. -/
def setLetters (reading : Reading) : List Char → Except Halt Reading
  | [] => .ok reading
  | letter :: rest =>
      match Flag.ofLetter? letter with
      | none => .error (.usage (.unknownOption ['-', letter]))
      | some flag =>
          match reading.setFlag flag with
          | .error halt => .error halt
          | .ok read => read.setLetters rest

def emissionOption : String :=
  "--emit"

def setEmission (reading : Reading) (value : List Char) : Except Halt Reading :=
  if reading.emission.isSome then .error (.usage (.repeated emissionOption))
  else if value = "text".toList then .ok { reading with emission := some .text }
  else if value = "tokens".toList then .ok { reading with emission := some .tokens }
  else .error (.usage (.invalidValue emissionOption value))

def addPath (reading : Reading) (path : Path) : Except Halt Reading :=
  if path = [] then .error (.usage (.invalidValue "[paths]..." path))
  else .ok { reading with paths := reading.paths ++ [path] }

/-- A long option that takes no value; `value` is what was attached to it. -/
def setLong (reading : Reading) (option : List Char) (value : Option (List Char)) :
    Except Halt Reading :=
  match Flag.all.find? fun flag => flag.name.toList = option with
  | none => .error (.usage (.unknownOption option))
  | some flag =>
      match value with
      | some value => .error (.usage (.unexpectedValue flag.name value))
      | none => reading.setFlag flag

/-- What to read next. -/
inductive Expecting where
  | anything
  /-- The value of the option that names the emission. -/
  | emission
  /-- Paths only, after two dashes. -/
  | path
  deriving DecidableEq, Repr

/-- Splits a long option at its first equals sign. -/
def splitValue (argument : List Char) : List Char × Option (List Char) :=
  match argument.dropWhile (· != '=') with
  | [] => (argument, none)
  | _ :: value => (argument.takeWhile (· != '='), some value)

/-- Reads one argument. -/
def step (reading : Reading) (expecting : Expecting) (argument : List Char) :
    Except Halt (Reading × Expecting) :=
  match expecting, argument with
  | .path, path => (reading.addPath path).map (·, .path)
  | .emission, '-' :: _ => .error (.usage (.missingValue emissionOption))
  | .emission, value => (reading.setEmission value).map (·, .anything)
  | .anything, ['-', '-'] => .ok (reading, .path)
  | .anything, '-' :: '-' :: _ =>
      let (option, value) := splitValue argument
      if option = emissionOption.toList then
        match value with
        | none => .ok (reading, .emission)
        | some value => (reading.setEmission value).map (·, .anything)
      else (reading.setLong option value).map (·, .anything)
  | .anything, '-' :: letter :: letters =>
      (reading.setLetters (letter :: letters)).map (·, .anything)
  | .anything, path => (reading.addPath path).map (·, .anything)

def readFrom (reading : Reading) (expecting : Expecting) :
    List (List Char) → Except Halt Reading
  | [] =>
      if expecting = .emission then .error (.usage (.missingValue emissionOption)) else .ok reading
  | argument :: rest =>
      match reading.step expecting argument with
      | .error halt => .error halt
      | .ok (read, next) => read.readFrom next rest

def toOptions (reading : Reading) : Except Halt Options :=
  if reading.write && reading.check then .error (.usage (.exclusive "--write" "--check"))
  else
    .ok
      { mode := if reading.write then .write else if reading.check then .check else .print
        recursive := reading.recursive
        emission := reading.emission.getD .text
        paths := reading.paths }

end Reading

def readArguments (arguments : List (List Char)) : Except Halt Options :=
  match Reading.readFrom {} .anything arguments with
  | .error halt => .error halt
  | .ok reading => reading.toOptions

end ChuckLayout.CommandLine
