import TensorGraph.Graph.Edit

/-!
Losses: what a training run makes small. A loss becomes an op of its own phase whose result must be kept.
-/
namespace TensorGraph

/-- A loss over tensors of a graph. -/
inductive Loss where
  /-- The negative logarithm of the probabilities of the labels. -/
  | nll (probs labels output : TensorId) (reduction : Reduction) (ignored : Option Int)
  /-- The absolute values, scaled. -/
  | l1 (input output : TensorId) (lambda : Single) (reduction : Reduction)
deriving DecidableEq, Repr

namespace Loss

/-- The tensors that the loss reads. -/
def inputs : Loss → List TensorId
  | nll probs labels _ _ _ => [probs, labels]
  | l1 input _ _ _ => [input]

/-- The name of the loss. -/
def output : Loss → TensorId
  | nll _ _ output _ _ => output
  | l1 _ output _ _ => output

/-- The op that computes the loss. -/
def kind : Loss → OpKind
  | nll _ _ _ reduction ignored => .nll reduction ignored
  | l1 _ _ lambda reduction => .l1 lambda reduction

/-- The op that computes the gradient for the first operand of the loss. -/
def gradKind : Loss → OpKind
  | nll _ _ _ reduction ignored => .nllGrad reduction ignored
  | l1 _ _ lambda reduction => .l1Grad lambda reduction

end Loss

namespace Graph

/-- The virtual graph of the op that produces a tensor. -/
def placementOf (g : Graph) (id : TensorId) : Option Int :=
  ((g.producer? id).bind g.op?).bind (·.virtualGraph)

/-- Adds a loss beside the op that produces its first operand. -/
def attachLoss (g : Graph) (loss : Loss) : Outcome (OpId × Graph) := do
  match loss.inputs.find? fun i => !g.hasTensor i with
  | some input => .fail (.config (.lossInput loss.output input))
  | none =>
    let (id, added) ← g.addOp loss.kind loss.inputs [loss.output] .loss
    let place := loss.inputs.head?.bind added.placementOf
    return (id, (added.modifyOp id fun op => { op with virtualGraph := place }).keep loss.output)

/-- Adds losses one after the other; the ops that compute them. -/
def attachLosses (losses : List Loss) : GraphM (List OpId) :=
  losses.mapM fun loss => Stateful.change fun g => g.attachLoss loss

end Graph

end TensorGraph
