import TensorGraph.Kernel.Operand
import TensorGraph.Op.Kind

/-!
Losses, their gradients, and the step of gradient descent on a weight.
-/
namespace TensorGraph

open Scalar

namespace Kernel

variable {R : Type} [Scalar R]

/-- The factor of a loss over `count` rows. -/
def reductionScale (r : Reduction) (count : Nat) : R :=
  match r with
  | .sum => 1
  | .mean => 1 / ofNat (max count 1)

/-- The number of rows, the number of classes and the class picked in each row, if it is not ignored. -/
def labelled (probs labels : Operand R) (ignored : Option Int) :
    Outcome (Nat × Nat × List (Option Nat)) :=
  match probs.dims with
  | [rows, classes] =>
    if labels.values.length ≠ rows then .execution (.lossOperands probs.info labels.info)
    else do
      let picks ← labels.values.mapM fun v =>
        let label := truncate v
        if ignored = some label then .ok none
        else if label < 0 ∨ label ≥ classes then .execution (.labelOutOfRange label classes)
        else .ok (some label.toNat)
      return (rows, classes, picks)
  | _ => .execution (.lossOperands probs.info labels.info)

/-- The flat indices of the picked classes in rows of `classes` elements. -/
def pickedCells (classes : Nat) (picks : List (Option Nat)) : List Nat :=
  picks.zipIdx.filterMap fun (pick, row) => pick.map fun c => row * classes + c

/-- The negative log-likelihood of the picked classes. -/
def nll (r : Reduction) (ignored : Option Int) (probs labels : Operand R) : Outcome (List R) := do
  let (rows, classes, picks) ← labelled probs labels ignored
  let p := probs.values.toArray
  let terms ← (pickedCells classes picks).mapM fun i => do return -(log (← Operand.fetch p i))
  return [sum terms * reductionScale r rows]

/-- The gradient of the negative log-likelihood, times the value of `seed`. There is one for each probability that
is held, whatever the shape says. -/
def nllGrad (r : Reduction) (ignored : Option Int) (probs labels seed : Operand R) : Outcome (List R) := do
  let (rows, classes, picks) ← labelled probs labels ignored
  let scale := (← seed.first) * reductionScale r rows
  let cells := pickedCells classes picks
  Operand.requireIndices probs.values.length cells
  return probs.values.zipIdx.map fun (p, i) => if cells.contains i then -scale / p else 0

/-- The number of rows that the mean of absolute values is taken over: the first extent, at least one. -/
def rowCount (x : Operand R) : Nat :=
  match x.info.shape with
  | [] => 1
  | d :: _ => max d.toNat 1

/-- The sum of absolute values times `lambda`. -/
def l1 (lambda : Single) (r : Reduction) (x : Operand R) : List R :=
  [sum (x.values.map Scalar.abs) * (ofSingle lambda * reductionScale r (rowCount x))]

/-- The gradient of the sum of absolute values, times the value of `seed`. -/
def l1Grad (lambda : Single) (r : Reduction) (x seed : Operand R) : Outcome (List R) := do
  let scale := ofSingle lambda * (← seed.first) * reductionScale r (rowCount x)
  return x.values.map fun v => signum v * scale

/-- The weight after one step of gradient descent with learning rate, weight decay and loss scaling. -/
def sgdStep (weight gradient rate decay scaling : Operand R) : Outcome (List R) := do
  let lr ← rate.first
  let wd ← decay.first
  let ls ← scaling.first
  if weight.values.length ≠ gradient.values.length then
    .execution (.updateOperands weight.info gradient.info)
  else return List.zipWith (fun w g => w - lr * (g / ls + wd * w)) weight.values gradient.values

end Kernel

end TensorGraph
