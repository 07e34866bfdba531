import TreeTypes.Diagnostic
import TreeTypes.Log

/-!
# Steps that report

A step of the pipeline makes records and then gives a result or fails. The
records made before a failure stay: a run that fails has still reported what
it did. `Traced` is the monad of such steps.
-/

namespace TreeTypes

/-- The records of a step and its outcome. -/
structure Traced (α : Type) where
  log : Log
  outcome : Except Failure α

namespace Traced

/-- A step that makes no record. -/
def ofExcept {α : Type} (outcome : Except Failure α) : Traced α := ⟨[], outcome⟩

/-- A step that fails. -/
def fail {α : Type} (failure : Failure) : Traced α := ⟨[], .error failure⟩

/-- A step that makes records only. -/
def report (log : Log) : Traced Unit := ⟨log, .ok ()⟩

/-- One step after another; after a failure nothing more happens. -/
def andThen {α β : Type} (first : Traced α) (next : α → Traced β) : Traced β :=
  match first.outcome with
  | .ok a => ⟨first.log ++ (next a).log, (next a).outcome⟩
  | .error failure => ⟨first.log, .error failure⟩

instance : Monad Traced where
  pure a := ⟨[], .ok a⟩
  bind := andThen

end Traced

end TreeTypes
