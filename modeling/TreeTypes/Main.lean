import TreeTypes.CommandLine.Run

/-!
# The program

The thin layer around `CommandLine.run`: the real file system, the arguments
and the two output streams.
-/

namespace TreeTypes

/-- A text for the system. Arguments and paths hold no surrogates, and outputs are checked first. -/
def Text.toString (text : Text) : String := String.ofList (text.filterMap CodePoint.char?)

/-- The number of a refusal, which the system may give with its sign reversed. -/
def errorNumber (code : UInt32) : Nat := min code.toNat (0x100000000 - code.toNat)

/-- The fault that a refusal of the system means. -/
def FileFault.ofError : IO.Error → FileFault
  | .noFileOrDirectory .. => .missing
  | .inappropriateType _ code _ => if errorNumber code = 21 then .isDirectory else .notDirectory
  | .permissionDenied _ code words => .refused (errorNumber code) words
  | .resourceExhausted _ code words => .refused (errorNumber code) words
  | .invalidArgument _ code words => .refused (errorNumber code) words
  | .otherError code words => .refused (errorNumber code) words
  | _ => .refused 5 "Input/output error"

/-- An access to the file system whose refusals are values. -/
def attempt {α : Type} (action : IO α) : IO (Except FileFault α) := do
  match ← action.toBaseIO with
  | .ok a => return .ok a
  | .error e => return .error (.ofError e)

/-- The real file system. -/
def realFiles : FileAccess IO where
  read path := attempt do return (← IO.FS.readBinFile path.text.toString).toList
  create path := attempt (IO.FS.writeBinFile path.text.toString ByteArray.empty)
  fill path bytes := attempt (IO.FS.writeBinFile path.text.toString ⟨bytes.toArray⟩)

end TreeTypes

open TreeTypes in
def main (arguments : List String) : IO UInt32 := do
  let _ : Nesting := .upTo 254
  let outcome ← CommandLine.run (.plain []) realFiles (arguments.map Text.ofString)
  IO.print outcome.stdout.toString
  IO.eprint outcome.stderr.toString
  return outcome.exit.toUInt32
