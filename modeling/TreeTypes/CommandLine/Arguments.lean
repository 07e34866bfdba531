import TreeTypes.FilePath

/-!
# Arguments

The command takes one file with a grammar and a few options. An option has a
long name, after two hyphens, and most have a short one of a letter, after one
hyphen. Options and the file may come in any order; `--` ends the options. A
value follows its option as the next argument, or stands in the same one:
after an equals sign for a long name, directly for a short one. Short options
without values can be joined in one argument. Of an option given twice the
last value counts.

Faulty arguments are refused before anything is done. If the arguments are
well formed and ask for help or for the version, that is all that is done,
even if the file is missing; of the two the first one counts.

## Main definitions

* `Options`: what a generating run needs to know.
* `Invocation`: what the arguments ask for.
* `Invocation.ofArguments`
-/

namespace TreeTypes

/-- The file with the grammar and the options of a generating run. -/
structure Options where
  grammar : FilePath
  settings : Option FilePath := none
  output : Option FilePath := none
  details : Bool := false

/-- What the arguments ask for. -/
inductive Invocation
  | misuse
  | help
  | version
  | generate (options : Options)

namespace CommandLine

/-- The options. -/
inductive Switch
  | settings
  | output
  | details
  | version
  | help
  deriving DecidableEq

/-- The option is followed by a value. -/
def Switch.takesValue : Switch → Bool
  | settings | output => true
  | details | version | help => false

/-- The option with a long name, given with its hyphens. -/
def longSwitch? (name : Text) : Option Switch :=
  if name = "--config" then some .settings
  else if name = "--output" then some .output
  else if name = "--verbose" then some .details
  else if name = "--version" then some .version
  else if name = "--help" then some .help
  else none

/-- The option with a letter. -/
def shortSwitch? (letter : CodePoint) : Option Switch :=
  if letter = .char 'c' then some .settings
  else if letter = .char 'o' then some .output
  else if letter = .char 'v' then some .version
  else none

/-- What has been read of the arguments. -/
structure Reading where
  files : List Text := []
  settings : Option Text := none
  output : Option Text := none
  details : Bool := false
  /-- The first option that is an end in itself. -/
  request : Option Invocation := none

namespace Reading

/-- Takes note of an option without a value. -/
def note (r : Reading) : Switch → Reading
  | .details => { r with details := true }
  | .version => { r with request := r.request <|> some .version }
  | .help => { r with request := r.request <|> some .help }
  | .settings | .output => r

/-- Takes note of an option with its value. -/
def noteValue (r : Reading) (value : Text) : Switch → Reading
  | .settings => { r with settings := some value }
  | .output => { r with output := some value }
  | .details | .version | .help => r

/-- Takes note of a file. -/
def noteFile (r : Reading) (file : Text) : Reading := { r with files := r.files ++ [file] }

end Reading

/-- What an argument of short options comes to. -/
inductive Cluster
  | unknown
  | complete (r : Reading)
  /-- The value of the last option is in the next argument. -/
  | awaiting (r : Reading) (switch : Switch)

/-- Reads the letters of an argument of short options. -/
def readCluster (r : Reading) : Text → Cluster
  | [] => .complete r
  | letter :: rest =>
    match shortSwitch? letter with
    | none => .unknown
    | some switch =>
      if switch.takesValue then
        if rest.isEmpty then .awaiting r switch else .complete (r.noteValue rest switch)
      else readCluster (r.note switch) rest

/-- A long name, and the value after an equals sign if there is one. -/
def splitEquals (argument : Text) : Text × Option Text :=
  match argument.dropWhile (· ≠ CodePoint.char '=') with
  | [] => (argument, none)
  | _ :: value => (argument.takeWhile (· ≠ CodePoint.char '='), some value)

/-- What an argument comes to. -/
inductive Reaction
  | refused
  | file
  | endOfOptions
  | noted (r : Reading)
  | awaiting (switch : Switch) (r : Reading)

/-- Reads one argument. -/
def react (r : Reading) (argument : Text) : Reaction :=
  match argument with
  | [.char '-', .char '-'] => .endOfOptions
  | .char '-' :: .char '-' :: _ =>
    let (name, value) := splitEquals argument
    match longSwitch? name, value with
    | none, _ => .refused
    | some switch, none =>
      if switch.takesValue then .awaiting switch r else .noted (r.note switch)
    | some switch, some value =>
      if switch.takesValue then .noted (r.noteValue value switch) else .refused
  | .char '-' :: letter :: letters =>
    match readCluster r (letter :: letters) with
    | .unknown => .refused
    | .complete r => .noted r
    | .awaiting r switch => .awaiting switch r
  | _ => .file

/-- Reads all arguments; `none` if they are faulty. -/
def read? (r : Reading) : List Text → Option Reading
  | [] => some r
  | argument :: rest =>
    match react r argument with
    | .refused => none
    | .file => read? (r.noteFile argument) rest
    | .endOfOptions => some (rest.foldl Reading.noteFile r)
    | .noted r => read? r rest
    | .awaiting switch r =>
      match rest with
      | [] => none
      | value :: rest => read? (r.noteValue value switch) rest

end CommandLine

/-- What a list of arguments asks for. -/
def Invocation.ofArguments (arguments : List Text) : Invocation :=
  match CommandLine.read? {} arguments with
  | none => .misuse
  | some r =>
    match r.request, r.files with
    | some request, _ => request
    | none, [file] =>
      .generate {
        grammar := .ofText file
        settings := r.settings.map .ofText
        output := r.output.map .ofText
        details := r.details }
    | none, _ => .misuse

end TreeTypes
