import TensorGraph.Engine.Runtime
import TensorGraph.Graph.Build
import TensorGraph.Model.Basic
import TensorGraph.Platform.Basic
import TensorGraph.Random.Normal
import TensorGraph.Session.DataFlow
import TensorGraph.Session.Options
import TensorGraph.Train.Optimizer

/-!
Sessions: a model on a device, from its graph to running steps. A session is constructed, then prepared, then
ready once its weights are on the device, and running after the first step.
-/
namespace TensorGraph

/-- How far a session has come. -/
inductive SessionState where
  | constructed
  | prepared
  | ready
  | running
deriving DecidableEq, Repr

/-- The name. -/
def SessionState.label : SessionState → String
  | constructed => "Constructed"
  | prepared => "Prepared"
  | ready => "Ready"
  | running => "Running"

/-- A session. -/
structure Session where
  model : Model
  graph : Graph
  dataFlow : DataFlow
  options : Options
  device : PlacedDevice
  /-- Whether the session holds a lease on its device. -/
  hasLease : Bool
  optimizer : Option Sgd
  hasLosses : Bool
  hostWeights : Dict TensorId HostTensor
  graphHash : UInt64
  cacheKey : UInt64
  state : SessionState := .constructed
  engine : Option Runtime := none
  cacheHit : Bool := false
  weightsUploaded : Bool := false
  optimizerUploaded : Bool := false
  stepsRun : Nat := 0
  random : Random.Generator
  log : List Diagnostic

/-- A call on a session. -/
abbrev SessionM := Stateful Session

namespace Session

/-- Whether the session trains. -/
def isTraining (s : Session) : Bool := s.optimizer.isSome

/-- Whether the device has been prepared. -/
def isPrepared (s : Session) : Bool := s.state ≠ .constructed

/-- The program, once there is one. -/
def executable? (s : Session) : Option Executable := s.engine.map (·.executable)

/-- Whether a tensor has a value on the device. -/
def hasDeviceValue (s : Session) (id : TensorId) : Bool := s.engine.any (·.hasValue id)

/-- Reports something. -/
def report (d : Diagnostic) : SessionM Unit := modify fun s => { s with log := s.log ++ [d] }

/-- Goes to another state and reports it, unless it is the same. -/
def enter (target : SessionState) : SessionM Unit := do
  let s ← get
  if s.state ≠ target then
    report (.stateChanged s.state.label target.label)
    modify fun s => { s with state := target }

/-- Runs a call on the graph of the session and keeps its reports. -/
def onBuild {α : Type} (x : BuildM α) : SessionM α :=
  x.focus (fun s => { graph := s.graph, log := s.log }) fun b s => { s with graph := b.graph, log := b.log }

/-- The loaded program, which a call needs. -/
def engineFor (s : Session) (call : String) : Outcome Runtime :=
  if s.isPrepared then .orFail s.engine (.state (.noEngine call)) else .fail (.state (.notPrepared call))

/-- Runs a call on the loaded program. -/
def onEngine {α : Type} (call : String) (x : RuntimeM α) : SessionM α := do
  let engine ← (← get).engineFor call
  x.focus (fun s => s.engine.getD engine) fun r s => { s with engine := some r }

/-- The reports since the last time they were taken. -/
def takeLog (s : Session) : List Diagnostic × Session := (s.log, { s with log := [] })

end Session

end TensorGraph
