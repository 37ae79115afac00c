import TensorGraph.Session.Basic

/-!
Weights and optimizer settings of a session: moving them to the device and back, and replacing them.
-/
namespace TensorGraph

namespace Session

/-! ## To the device -/

/-- Puts the weights of the host on the device. -/
def uploadWeights : SessionM Unit := do
  let weights := (← get).hostWeights
  onEngine "weightsFromHost" (weights.entries.forM fun (id, value) => modify (·.upload id value))
  modify fun s => { s with weightsUploaded := true }
  if (← get).state = .prepared then enter .ready

/-- Puts the streamed settings of the optimizer on the device. -/
def uploadOptimizer : SessionM Unit := do
  let optimizer ← Outcome.orFail (← get).optimizer (.state .optimizerUpload)
  onEngine "optimizerFromHost" do
    (← get).executable.optimizerStreams.forM fun (id, _) =>
      match optimizer.values.lookup id with
      | some v => modify (·.upload id (HostTensor.ofSingle v.value))
      | none => pure ()
  modify fun s => { s with optimizerUploaded := true }

/-- Replaces the optimizer; streamed settings must then be put on the device again. -/
def updateOptimizer (optimizer : Sgd) : SessionM Unit := do
  let current ← Outcome.orFail (← get).optimizer (.state .optimizerUpdate)
  if current.replaceableBy optimizer then
    modify fun s => { s with optimizer := some optimizer, optimizerUploaded := false }
  else Stateful.fail (.config .optimizerReplacement)

/-! ## From the device -/

/-- The value of a weight: that on the device once weights have been put there. -/
def currentWeight (s : Session) (id : TensorId) : Outcome HostTensor :=
  match s.weightsUploaded, s.engine with
  | true, some engine => engine.download id
  | _, _ => .orFail (s.hostWeights.get? id) (.config (.noWeight id))

/-- The model with its weights as they are. -/
def exportModel (s : Session) : Outcome Model := do
  let _ ← s.engineFor "modelToHost"
  s.hostWeights.keys.foldlM
    (fun m id => do return m.setInitializer id (← s.currentWeight id).data) s.model

/-- Reads weights into buffers of the given infos, which must be those of the weights. -/
def readWeights (s : Session) (infos : Dict TensorId TensorInfo) : Outcome (Dict TensorId HostTensor) := do
  infos.entries.forM fun (_, info) => HostTensor.room info
  let read ← infos.entries.mapM fun (id, info) => do
    let value ← s.currentWeight id
    if info ≠ value.info then .fail (.step (.weightInfo id info value.info))
    else return (id, { value with info })
  return .ofList read

/-! ## Replacing weights -/

/-- Replaces a weight, on the device too once weights have been put there. -/
def writeWeight (id : TensorId) (value : HostTensor) : SessionM Unit := do
  let s ← get
  let current ← Outcome.orFail (s.hostWeights.get? id) (.config (.noWeight id))
  if current.info ≠ value.info then Stateful.fail (.step (.weightInfo id value.info current.info))
  modify fun s =>
    { s with
      hostWeights := s.hostWeights.insert id value
      engine := if s.weightsUploaded then s.engine.map (·.upload id value) else s.engine }

/-- Replaces weights one after the other; those before a fault are replaced. -/
def writeWeights (weights : Dict TensorId HostTensor) : SessionM Unit :=
  weights.entries.forM fun (id, value) => writeWeight id value

/-- Replaces a weight of the host by an initializer. -/
def resetWeight (init : NamedTensor) : SessionM Unit := do
  let s ← get
  let current ← Outcome.orFail (s.hostWeights.get? init.name) (.config (.resetUnknown init.name))
  if current.info ≠ init.info then
    Stateful.fail (.shape (.resetInfo init.name current.info init.info))
  let value ← HostTensor.ofStorage init.info init.data
  modify fun s => { s with hostWeights := s.hostWeights.insert init.name value }

/-- Replaces the weights of the host by the initializers of a model, one after the other. -/
def resetWeights (bytes : Bytes) : SessionM Unit := do
  let model ← Model.ofBytes bytes
  model.initializers.forM resetWeight

end Session

end TensorGraph
