import TensorGraph.Error.Execution
import TensorGraph.Error.Graph
import TensorGraph.Error.Session

/-!
The errors of the library and the outcome of a call. A call ends with a value, with an error that names its
cause, or it aborts: an abort is a broken promise inside the library, such as an index that is out of range.
Calls that change a state keep what they changed before they failed.
-/
namespace TensorGraph

/-- The errors of the library, by kind. -/
inductive Error where
  | shape (cause : ShapeError)
  | config (cause : ConfigError)
  | gradientUnavailable (opType op : String)
  | placement (cause : PlacementError)
  | state (cause : StateError)
  | profilingUnavailable
  | deviceUnavailable (cause : DeviceError)
  | graph (cause : GraphError)
  | cache (cause : CacheError)
  | step (cause : StepError)
  | model (cause : ModelError)
  | execution (cause : ExecutionError)
  | files
  | callback (chain : List String)
  | logLevel (word : String)
deriving DecidableEq, Repr

namespace Error

/-- The name of the kind. -/
def kind : Error → String
  | shape _ => "Shape"
  | config _ => "Config"
  | gradientUnavailable _ _ => "GradientUnavailable"
  | placement _ => "Partition"
  | state _ => "State"
  | profilingUnavailable => "DeviceCapability"
  | deviceUnavailable _ => "DeviceUnavailable"
  | graph _ => "InvalidGraph"
  | cache _ => "CacheIntegrity"
  | step _ => "StepIo"
  | model _ => "Proto"
  | execution _ => "Backend"
  | files => "Io"
  | callback _ => "Callback"
  | logLevel _ => "Logging"

/-- The wording; a failure of the file store has none of its own. -/
def message? : Error → Option String
  | shape e => some e.message
  | config e => some e.message
  | gradientUnavailable opType op => some s!"does not have a valid grad op for {opType} ('{op}')"
  | placement e => some e.message
  | state e => some e.message
  | profilingUnavailable => some "Profiling is disabled for current device type."
  | deviceUnavailable e => some e.message
  | graph e => some e.message
  | cache e => some e.message
  | step e => some e.message
  | model e => some e.message
  | execution e => some e.message
  | files => none
  | callback chain => some ("step callback failed: " ++ ": ".intercalate chain)
  | logLevel word => some s!"invalid log level: {word}"

/-- Whether trying again later may help. -/
def isRecoverable : Error → Bool
  | deviceUnavailable _ => true
  | _ => false

end Error

/-- How a call can fail. -/
inductive Failure where
  | error (cause : Error)
  | abort
deriving DecidableEq, Repr

/-- A value or a failure. -/
abbrev Outcome (α : Type) := Except Failure α

/-- A call on a state of type `σ`, which is kept also when the call fails. -/
abbrev Stateful (σ α : Type) := ExceptT Failure (StateM σ) α

namespace Outcome

/-- Ends with an error. -/
def fail {α : Type} (e : Error) : Outcome α := .error (.error e)

/-- Ends with a fault of shapes. -/
def shape {α : Type} (e : ShapeError) : Outcome α := fail (.shape e)

/-- Ends with a fault of a kernel. -/
def execution {α : Type} (e : ExecutionError) : Outcome α := fail (.execution e)

/-- Ends with a fault of the graph. -/
def graph {α : Type} (e : GraphError) : Outcome α := fail (.graph e)

/-- The value, or an abort where the library promised one. -/
def promised {α : Type} : Option α → Outcome α
  | some a => .ok a
  | none => .error .abort

/-- The value, or the error `e`. -/
def orFail {α : Type} (o : Option α) (e : Error) : Outcome α :=
  match o with
  | some a => .ok a
  | none => fail e

/-- The same outcome, with a fault of shapes told as a fault of the kernel that met it. -/
def asExecution {α : Type} : Outcome α → Outcome α
  | .error (.error (.shape e)) => execution (.shape e)
  | o => o

end Outcome

namespace Stateful

/-- Runs a call and keeps the state it left. -/
def run {σ α : Type} (x : Stateful σ α) (s : σ) : Outcome α × σ := (ExceptT.run x).run s

/-- Fails with an error. -/
def fail {σ α : Type} (e : Error) : Stateful σ α := throw (.error e)

/-- A call that does not touch the state. -/
def lift {σ α : Type} (o : Outcome α) : Stateful σ α := ExceptT.mk (pure o)

/-- A change that either succeeds as a whole or leaves the state as it was. -/
def change {σ α : Type} (f : σ → Outcome (α × σ)) : Stateful σ α := ExceptT.mk fun s =>
  match f s with
  | .ok (a, t) => (.ok a, t)
  | .error e => (.error e, s)

/-- Runs a call on one part of the state. -/
def focus {σ τ α : Type} (get : τ → σ) (set : σ → τ → τ) (x : Stateful σ α) : Stateful τ α :=
  ExceptT.mk fun t =>
    match x.run (get t) with
    | (r, s) => (r, set s t)

end Stateful

end TensorGraph
