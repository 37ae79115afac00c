import TensorGraph.Session.Basic
import TensorGraph.Session.StepIo

/-!
Running steps. A step feeds the streams batch by batch, runs the program, and gives back the values of the
anchors for the batches that they ask for. Made-up data replace the streams and give nothing back.
-/
namespace TensorGraph

/-- A session together with the data of its steps. -/
structure Stepping (σ : Type) where
  session : Session
  data : σ

/-- A call on a session and its data. -/
abbrev StepM (σ : Type) := Stateful (Stepping σ)

namespace Stepping

variable {σ : Type}

/-- Runs a call on the session. -/
def onSession {α : Type} (x : SessionM α) : StepM σ α := x.focus Stepping.session fun s t => { t with session := s }

/-- Runs a call on the data. -/
def onData {α : Type} (x : Stateful σ α) : StepM σ α := x.focus Stepping.data fun d t => { t with data := d }

end Stepping

/-- An anchor of a step. -/
structure StepAnchor where
  id : TensorId
  returns : ReturnType
  info : TensorInfo
deriving DecidableEq, Repr

/-- What a step does. -/
structure StepPlan where
  mode : RunMode
  batches : Nat
  streams : List (TensorId × TensorInfo)
  anchors : List StepAnchor
deriving DecidableEq, Repr

namespace StepPlan

/-- The elements that a step takes from each stream. -/
def inputCounts (p : StepPlan) : Outcome (Dict TensorId Nat) := do
  return .ofList (← p.streams.mapM fun (id, info) => do
    return (id, ← Word.nat ((← info.counted) * p.batches)))

/-- The elements that a step gives back for each anchor. -/
def outputCounts (p : StepPlan) : Outcome (Dict TensorId Nat) := do
  return .ofList (← p.anchors.mapM fun a => do
    return (a.id, ← (a.returns.bufferInfo p.batches a.info).counted))

end StepPlan

namespace Session

variable {σ : Type}

/-! ## Before a step -/

/-- Checks that the session can run in a mode. -/
def checkCanRun (s : Session) (mode : RunMode) : Outcome Runtime := do
  let engine ← s.engineFor mode.label
  if mode = .train ∧ s.isTraining = false then .fail (.state .notTraining)
  else if mode = .evaluate ∧ s.hasLosses = false then .fail (.state .noLoss)
  else if s.weightsUploaded = false ∧ s.hostWeights.isEmpty = false then
    .fail (.state (.weightsMissing mode.label))
  else if mode = .train ∧ s.optimizerUploaded = false ∧ engine.executable.optimizerStreams.isEmpty = false then
    .fail (.state .optimizerMissing)
  else return engine

/-- An anchor of a step, which must be computed in the mode of the step. -/
def stepAnchor (e : Executable) (mode : RunMode) (id : TensorId) (r : ReturnType) : Outcome StepAnchor := do
  if (e.availableAfter mode).contains id then
    return ⟨id, r, ← Outcome.orFail (e.infos.get? id) (.config (.anchorMissing id))⟩
  else .fail (.config (.anchorNotComputed id mode.label))

/-- What a step in a mode does. -/
def plan (s : Session) (mode : RunMode) : Outcome StepPlan := do
  let engine ← s.checkCanRun mode
  let e := engine.executable
  let anchors ← s.dataFlow.anchors.entries.mapM fun (id, r) => stepAnchor e mode id r
  return { mode, batches := s.dataFlow.batches, streams := e.streamsFor mode, anchors }

/-! ## Batches -/

/-- The values of a stream for one batch. -/
def streamData (io : StepIo σ) (id : TensorId) (info : TensorInfo) : StepM σ Storage := do
  let s := (← get).session
  match s.options.effectiveSynthetic with
  | .off => Stepping.onData do
    let data ← io.input id info
    io.inputDone id
    return data
  | .zeros => Stateful.lift (do Storage.zeros info.dtype (← info.counted))
  | .randomNormal =>
    let (data, random) ← Stateful.lift (Random.storage info s.random)
    Stepping.onSession (modify fun s => { s with random })
    return data

/-- Gives a stream its values for one batch. -/
def feed (io : StepIo σ) (call : String) (id : TensorId) (info : TensorInfo) : StepM σ Unit := do
  let data ← streamData io id info
  let value ← HostTensor.ofStorage info data
  Stepping.onSession (onEngine call (modify (·.upload id value)))

/-- The value of a tensor on the device. -/
def deviceValue (call : String) (id : TensorId) : StepM σ Storage := do
  let engine ← (← get).session.engineFor call
  let value ← engine.download id
  return value.data

/-- Adds a value to the sum of those before it. A value that cannot be added to them is left out. -/
def addTo (sums : Dict TensorId Storage) (id : TensorId) (value : Storage) :
    Outcome (Dict TensorId Storage) := do
  match sums.get? id with
  | none => return sums.insert id value
  | some total => return sums.insert id ((← total.accumulate value).getD total)

/-- Gives back the value of an anchor after batch `i`, if the anchor asks for it; the sums up to then. -/
def giveBack (io : StepIo σ) (p : StepPlan) (i : Nat) (sums : Dict TensorId Storage) (a : StepAnchor) :
    StepM σ (Dict TensorId Storage) := do
  let written := a.returns.writes i p.batches
  if a.returns = .sum then
    let total ← Stateful.lift (addTo sums a.id (← deviceValue p.mode.label a.id))
    if written then
      match total.get? a.id with
      | some value => Stepping.onData (io.output a.id value)
      | none => pure ()
    return total
  else
    if written then
      let value ← deviceValue p.mode.label a.id
      Stepping.onData (io.output a.id value)
    return sums

/-- Runs batch `i`; the sums up to then. -/
def runBatch (io : StepIo σ) (p : StepPlan) (i : Nat) (sums : Dict TensorId Storage) :
    StepM σ (Dict TensorId Storage) := do
  p.streams.forM fun (id, info) => feed io p.mode.label id info
  Stepping.onSession (onEngine p.mode.label (Runtime.runBatch p.mode))
  if (← get).session.options.effectiveSynthetic = .off then p.anchors.foldlM (giveBack io p i) sums
  else return sums

/-- Runs `n` batches, the first of which is batch `i`. -/
def runBatches (io : StepIo σ) (p : StepPlan) : Nat → Nat → Dict TensorId Storage → StepM σ Unit
  | 0, _, _ => pure ()
  | n + 1, i, sums => do
    let sums ← runBatch io p i sums
    runBatches io p n (i + 1) sums

/-! ## Steps -/

/-- Runs a step in a mode. -/
def runStep (io : StepIo σ) (mode : RunMode) : StepM σ Unit := do
  let s ← get
  let p ← s.session.plan mode
  if s.session.options.effectiveSynthetic = .off then
    Stateful.lift (do io.check (← p.inputCounts) (← p.outputCounts) s.data)
  runBatches io p p.batches 0 .empty
  Stepping.onSession do
    onEngine mode.label (Runtime.count fun c => { c with steps := c.steps + 1 })
    modify fun s => { s with stepsRun := s.stepsRun + 1 }
    enter .running

/-- The mode of a plain run: training if there is an optimizer, else with the losses if there are any. -/
def defaultMode (s : Session) : RunMode :=
  if s.isTraining then .train else if s.hasLosses then .evaluate else .infer

/-- Buffers for the anchors, filled with zeros. -/
def anchorBuffers (s : Session) : Outcome Anchors := do
  let buffers ← s.dataFlow.anchors.entries.mapM fun (id, r) => do
    let info ← s.graph.info id
    return (id, ← HostTensor.zeros (r.bufferInfo s.dataFlow.batches info))
  return .ofList buffers

end Session

end TensorGraph
