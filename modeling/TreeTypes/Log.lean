import TreeTypes.Text.Basic

/-!
# Log records

The stages of the pipeline report what they do. A record has a level, the
stage it comes from and a message; the order of the records is the order in
which things happen. A run without details shows warnings only.

A message is put into words when the record is shown. One that shows a datum
may fail then (`Datum.literal`), so the message of a record can be missing.
-/

namespace TreeTypes

/-- How much a record matters. -/
inductive Level
  | debug
  | info
  | warning
  deriving DecidableEq

/-- The name of a level. -/
def Level.label : Level → Text
  | debug => "DEBUG"
  | info => "INFO"
  | warning => "WARNING"

/-- The stages that report. -/
inductive Stage
  | decoding
  | hoisting
  | ordering
  | declaring
  deriving DecidableEq

/-- The name under which a stage reports. -/
def Stage.label : Stage → Text
  | decoding => "gramtypes.core.loader"
  | hoisting => "gramtypes.core.hoist"
  | ordering => "gramtypes.core.graph"
  | declaring => "gramtypes.core.type_gen"

/-- One report of a stage. -/
structure Record where
  level : Level
  stage : Stage
  message : Option Text
  deriving DecidableEq

/--
A record as a line after a time stamp. A record without message is replaced by
a complaint.
-/
def Record.line (stamp complaint : Text) (record : Record) : Text :=
  match record.message with
  | some message =>
    Text.concat [stamp, " [", record.level.label, "] ", record.stage.label, ": ", message, "\n"]
  | none => complaint

/-- Records in the order in which they were made. -/
abbrev Log := List Record

/-- The records that a run shows: all of them with details, else the warnings. -/
def Log.shown (details : Bool) (log : Log) : Log :=
  log.filter fun record => details || record.level = .warning

end TreeTypes
