import TensorGraph.Gradient.Synthesis
import TensorGraph.Graph.Import
import TensorGraph.Pattern.Pipeline
import TensorGraph.Session.Basic

/-!
Opening and closing sessions: the graph of a model gets losses, gradients and updates as asked, its anchors are
kept, patterns simplify it, and the device is taken into use. Closing gives the device back.
-/
namespace TensorGraph

/-- What a session is made of. -/
structure SessionConfig where
  model : Bytes
  dataFlow : DataFlow
  device : PlacedDevice
  losses : List Loss := []
  optimizer : Option Sgd := none
  options : Options := {}
  patterns : Selection
  inputInfos : Dict TensorId TensorInfo := .empty

namespace SessionConfig

/-- Keeps an anchor. -/
def keepAnchor (id : TensorId) : GraphM Unit := do
  if (← get).hasTensor id then modify (·.keep id) else Stateful.fail (.config (.anchorMissing id))

/-- Adds losses, the settings of an optimizer and the gradients of losses to the graph of a model, each if asked for. -/
def equip (rules : GradRegistry) (attached : List Loss) (optimizer : Option Sgd) (differentiated : Option (List Loss)) :
    BuildM Unit := do
  let _ ← BuildM.onGraph (Graph.attachLosses attached)
  optimizer.forM fun settings => BuildM.onGraph (Graph.addOptimizer settings)
  differentiated.forM fun losses => do
    let _ ← synthesizeGradients rules losses

/-- Makes the graph of a model into the graph of a session. -/
def build (c : SessionConfig) (p : Platform) : BuildM Unit := do
  if c.optimizer.isSome && c.losses.isEmpty then Stateful.fail (.config .trainingWithoutLoss)
  equip p.rules c.losses c.optimizer (c.optimizer.map fun _ => c.losses)
  BuildM.onGraph (c.dataFlow.anchors.keys.forM keepAnchor)
  let backend := Backend.named? c.device.device.type.word
  let _ ← Stage.runAll (c.patterns.pipeline p.patterns backend c.options.patternLimit)

/-- The key under which the program of a graph is kept: a hash of the graph, of the options and of what the
device can do. -/
def cacheKey (c : SessionConfig) (graphHash : UInt64) : UInt64 :=
  Hash.ofBytes (put graphHash ++ c.options.signature ++ Hash.frameText c.device.device.capability)

/-- The weights of a graph with their values. -/
def weightsOf (g : Graph) : Dict TensorId HostTensor :=
  .ofList ((g.tensors.values.filter (·.type = .weight)).filterMap fun t => t.data.map fun d => (t.id, d))

end SessionConfig

namespace Session

/-- Opens a session. -/
def open_ (c : SessionConfig) : PlatformM Session := do
  let p ← get
  let model ← Model.ofBytes c.model
  let imported ← Graph.ofModel model c.inputInfos
  let (built, b) := (c.build p).run { graph := imported }
  Stateful.lift built
  let graphHash ← b.graph.fingerprint
  -- the device is taken last, so that a fault of the model leaves it free
  let hasLease ← Platform.lease c.device
  return {
    model
    graph := b.graph
    dataFlow := c.dataFlow
    options := c.options
    device := c.device
    hasLease
    optimizer := c.optimizer
    hasLosses := !c.losses.isEmpty
    hostWeights := SessionConfig.weightsOf b.graph
    graphHash
    cacheKey := c.cacheKey graphHash
    random := .ofSeed c.options.randomSeed
    log := b.log ++ [.deviceAttached c.device.device.id] }

/-- Closes a session; a leased device is given back, which is reported. -/
def close (s : Session) : PlatformM (List Diagnostic) := do
  if s.hasLease then
    Platform.endLease s.device
    return s.log ++ [.deviceDetached s.device.device.id]
  else return s.log

end Session

end TensorGraph
