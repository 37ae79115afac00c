import TensorGraph.Kernel.Lanes
import TensorGraph.Kernel.Loss
import TensorGraph.Kernel.Movement

/-!
What every op does with its operands, over any number system. A plan either keeps the elements of the only
operand, moves elements, or gives new values. The plan is read in two ways: over stored elements, which a move
leaves untouched, and over the numbers themselves.
-/
namespace TensorGraph

namespace Kernel

variable {R : Type} [Scalar R]

/-- How the elements of a result come about. -/
inductive Plan (R : Type) where
  /-- The elements of the only operand under another info. -/
  | relabel
  /-- Elements of the operands in `pool`, counted through one behind the other. -/
  | move (pool : List Nat) (fill : Single) (sources : Outcome Sources)
  /-- New values. -/
  | values (result : List R)

/-- The plan of an op. -/
def plan (kind : OpKind) (inputs : List (Operand R)) (output : TensorInfo) : Outcome (Plan R) :=
  match kind with
  | .identity | .reshape _ => do
    let x ← Operand.only inputs
    if (← output.counted) ≠ x.values.length then .execution (.cannotView x.values.length output)
    else return .relabel
  | .unary f => do
    let x ← Operand.only inputs
    return .values (x.values.map f.apply)
  | .binary f => do
    Operand.requireCount 2 inputs
    return .values (← elementwise (onPair f.apply) inputs output)
  | .softmax axis => do
    let x ← Operand.only inputs
    return .values (← softmax axis x)
  | .sum => do return .values (← elementwise Scalar.sum inputs output)
  | .matMul => do
    let (a, b) ← Operand.pair inputs
    return .values (← matMul a b)
  | .reduceSum axes _ => do
    let x ← Operand.only inputs
    return .values (← reduceSum axes x)
  | .transpose perm => do
    let x ← Operand.only inputs
    return .move [0] .zero (.ok (← transposeSources perm x.dims output))
  | .slice starts ends axes => do
    let x ← Operand.only inputs
    return .move [0] .zero (.ok (← sliceSources x.info.shape starts ends axes output))
  | .pad pads value => do
    let x ← Operand.only inputs
    return .move [0] value (.ok (← padSources pads x.dims output))
  | .concat axis =>
    match inputs with
    | [] => .execution .concatEmpty
    | first :: _ => do
      let axis ← Index.axis axis first.info.rank
      return .move (List.range inputs.length) .zero (concatSources axis inputs output)
  | .gather axis => do
    let (data, indices) ← Operand.pair inputs
    return .move [0] .zero (.ok (← gatherSources axis data indices))
  | .scatter axis => do
    let (data, indices, _) ← Operand.triple inputs
    let targets ← scatterTargets axis data.dims indices
    return .move [0, 2] .zero (.ok (← scatterSources data.values.length targets))
  | .reduceToShape _ => do
    let x ← Operand.only inputs
    return .values (← reduceTo x.values x.dims output.dims)
  | .unaryGrad f => do
    Operand.requireCount 2 inputs
    return .values (← elementwise (onPair f.apply) inputs output)
  | .softmaxGrad axis => do
    let (gradient, probs) ← Operand.pair inputs
    return .values (← softmaxGrad axis gradient probs)
  | .operandGrad f _ => do return .values (← operandGrad f inputs output)
  | .reduceSumGrad _ axes => do
    let gradient ← Operand.only inputs
    return .move [0] .zero (.ok (← spreadSources axes gradient.dims output))
  | .gatherGrad axis _ => do
    let (gradient, indices) ← Operand.pair inputs
    return .values (← gatherGrad axis gradient indices output)
  | .scatterDataGrad axis => do
    let (gradient, indices) ← Operand.pair inputs
    return .values (← scatterDataGrad axis gradient indices)
  | .scatterUpdatesGrad axis => do
    let (gradient, indices) ← Operand.pair inputs
    return .values (← scatterUpdatesGrad axis gradient indices)
  | .nll reduction ignored => do
    let (probs, labels) ← Operand.pair inputs
    return .values (← nll reduction ignored probs labels)
  | .nllGrad reduction ignored => do
    let (probs, labels, seed) ← Operand.triple inputs
    return .values (← nllGrad reduction ignored probs labels seed)
  | .l1 lambda reduction => do
    let x ← Operand.only inputs
    return .values (l1 lambda reduction x)
  | .l1Grad lambda reduction => do
    let (x, seed) ← Operand.pair inputs
    return .values (← l1Grad lambda reduction x seed)
  | .sgdVarUpdate =>
    match inputs with
    | [weight, gradient, rate, decay, scaling] => do
      return .values (← sgdStep weight gradient rate decay scaling)
    | l => .execution (.arity 5 l.length)

/-- New values must be as many as the result has elements. -/
def finish (output : TensorInfo) (result : List R) : Outcome (List R) := do
  if result.length ≠ (← output.counted) then .execution (.producedValues result.length output)
  else return result

end Kernel

end TensorGraph
