import TreeTypes.CommandLine.Arguments
import TreeTypes.CommandLine.Terminal
import TreeTypes.FileTree
import TreeTypes.Generation

/-!
# Running the command

A run reads the settings and the grammar, makes the block of declarations, and
writes it to the standard output or to a file. A failure that has a diagnostic
ends the run with one line about it. Nothing goes to the standard output
unless everything before has succeeded.

The run is written against `FileAccess` and `Terminal`, so the program that the
user calls and the one that is reasoned about are the same.

## Main definitions

* `Outcome`: exit code, outputs, and what escaped the run.
* `CommandLine.generate`: a generating run.
* `CommandLine.run`: any run.
-/

namespace TreeTypes

/-- What ends a run without a diagnostic. -/
inductive Escape
  /-- A failure that has none. -/
  | failure (failure : Failure)
  /-- The block holds a surrogate, so it has no bytes. -/
  | unencodable
  deriving DecidableEq

/-- What a run leaves behind, besides files. -/
structure Outcome where
  exit : Nat
  stdout : Text := []
  stderr : Text := []
  escaped : Option Escape := none
  deriving DecidableEq

namespace CommandLine

/-- The line about a diagnostic. -/
def diagnosticLine (d : Diagnostic) : Text := Text.concat ["error[", d.kind.label, "]: ", d.message]

/-- The line about an output that cannot be written. -/
def unwritableLine (path : FilePath) (fault : FileFault) : Text :=
  Text.concat ["error: cannot write ", path.text, ": ", fault.text path]

variable (t : Terminal)

/-- The outcome of a run that failed after showing some notes. -/
def failed (notes : Text) : Failure → Outcome
  | .diagnosed d => { exit := 1, stderr := notes ++ t.diagnostic (diagnosticLine d) }
  | failure => { exit := 1, stderr := notes, escaped := some (.failure failure) }

/-- The outcome of a run whose output cannot be written. -/
def unwritten (notes : Text) (path : FilePath) (fault : FileFault) : Outcome :=
  { exit := 1, stderr := notes ++ t.unwritable (unwritableLine path fault) }

variable {m : Type → Type} [Monad m]

/-- The settings of a run. -/
def settings (files : FileAccess m) : Option FilePath → m (Except Failure Settings)
  | none => return .ok {}
  | some path => return Generation.settingsOfFile path (← files.readText path)

/-- Writes a block to a file. The file is created before the block is encoded. -/
def writeBlock (files : FileAccess m) (path : FilePath) (notes block : Text) : m Outcome := do
  match ← files.create path with
  | .error fault => return unwritten t notes path fault
  | .ok () =>
    match Utf8.encode? block with
    | none => return { exit := 1, stderr := notes, escaped := some .unencodable }
    | some bytes =>
      match ← files.fill path bytes with
      | .error fault => return unwritten t notes path fault
      | .ok () => return { exit := 0, stderr := notes }

/-- Writes a block to the standard output, if it can be encoded. -/
def printBlock (notes block : Text) : Outcome :=
  match Utf8.encode? block with
  | none => { exit := 1, stderr := notes, escaped := some .unencodable }
  | some _ => { exit := 0, stdout := t.block block, stderr := notes }

variable [Nesting]

/-- A generating run. -/
def generate (files : FileAccess m) (options : Options) : m Outcome := do
  match ← settings files options.settings with
  | .error failure => return failed t [] failure
  | .ok settings =>
    let made := Generation.ofFile settings options.grammar (← files.readText options.grammar)
    let notes := t.notes options.details made.log
    match made.outcome with
    | .error failure => return failed t notes failure
    | .ok block =>
      match options.output with
      | none => return printBlock t notes block
      | some path => writeBlock t files path notes block

/-- What the version option shows. -/
def versionText : Text := "gramtypes version 0.1.0"

/-- What the help option shows. -/
def helpText : Text := Text.concat [
  "Usage: gramtypes [OPTIONS] GRAMMAR\n\n",
  "Writes the types of the parse trees of a grammar.\n\n",
  "  -c, --config FILE  settings\n",
  "  -o, --output FILE  write to this file instead of the standard output\n",
  "  --verbose          report every step\n",
  "  -v, --version      show the version\n",
  "  --help             show this text\n"]

/-- What faulty arguments are answered with. -/
def misuseText : Text := "Usage: gramtypes [OPTIONS] GRAMMAR\nTry 'gramtypes --help' for help.\n"

/-- A run with some arguments. -/
def run (files : FileAccess m) (arguments : List Text) : m Outcome :=
  match Invocation.ofArguments arguments with
  | .misuse => return { exit := 2, stderr := misuseText }
  | .help => return { exit := 0, stdout := helpText }
  | .version => return { exit := 0, stdout := versionText }
  | .generate options => generate t files options

end CommandLine

end TreeTypes
