import TensorGraph.Graph.Edit

/-!
The optimizer: gradient descent with a learning rate, a weight decay and a scaling of the loss. Each of the three
is either fixed when a graph is built, or streamed, and then it may change between steps.
-/
namespace TensorGraph

/-- A setting of the optimizer. -/
structure OptimizerValue where
  value : Single
  isConst : Bool
deriving DecidableEq, Repr

namespace OptimizerValue

/-- A setting that never changes. -/
def fixed (x : Single) : OptimizerValue := ⟨x, true⟩

/-- A setting that may change between steps. -/
def streamed (x : Single) : OptimizerValue := ⟨x, false⟩

/-- Whether the setting may be replaced by another one: both are streamed, or both are fixed to equal values. -/
def replaceableBy (a b : OptimizerValue) : Bool :=
  a.isConst == b.isConst && (!a.isConst || a.value.numEq b.value)

end OptimizerValue

/-- Gradient descent. -/
structure Sgd where
  learningRate : OptimizerValue
  weightDecay : OptimizerValue
  lossScaling : OptimizerValue
deriving DecidableEq, Repr

namespace Sgd

/-- The name of the learning rate in a graph. -/
def learningRateId : TensorId := "learningRate_FLOAT"

/-- The name of the weight decay in a graph. -/
def weightDecayId : TensorId := "weightDecay_FLOAT"

/-- The name of the scaling of the loss in a graph. -/
def lossScalingId : TensorId := "lossScaling_FLOAT"

/-- The names of the settings. -/
def ids : List TensorId := [learningRateId, weightDecayId, lossScalingId]

/-- The settings with their names. -/
def values (s : Sgd) : List (TensorId × OptimizerValue) :=
  [(learningRateId, s.learningRate), (weightDecayId, s.weightDecay), (lossScalingId, s.lossScaling)]

/-- A fixed learning rate without decay and scaling. -/
def constant (rate : Single) : Sgd := ⟨.fixed rate, .fixed .zero, .fixed .one⟩

/-- A learning rate and a weight decay that may change. -/
def streamed (rate decay : Single) : Sgd := ⟨.streamed rate, .streamed decay, .fixed .one⟩

/-- Whether no setting may change. -/
def isConst (s : Sgd) : Bool := s.values.all (·.2.isConst)

/-- Whether another optimizer may take the place of this one. -/
def replaceableBy (a b : Sgd) : Bool :=
  a.learningRate.replaceableBy b.learningRate && a.weightDecay.replaceableBy b.weightDecay &&
    a.lossScaling.replaceableBy b.lossScaling

end Sgd

namespace Graph

/-- Adds a setting of the optimizer as a constant or as a stream of its own, to be kept. -/
def addSetting (g : Graph) (id : TensorId) (v : OptimizerValue) : Outcome Graph := do
  let value := HostTensor.ofSingle v.value
  let added ←
    if v.isConst then g.addConst id value else g.addTensor id (.scalar .float) .optimizerStream (some value)
  return added.keep id

/-- Adds the settings of an optimizer. -/
def addOptimizer (s : Sgd) : GraphM Unit :=
  s.values.forM fun (id, v) => Stateful.change fun g => do return ((), ← g.addSetting id v)

end Graph

end TensorGraph
