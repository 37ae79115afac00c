import TensorGraph.Kernel.Operand
import TensorGraph.Op.Kind
import TensorGraph.Tensor.Shape

/-!
Kernels that work element by element, with operands stretched to the shape of the result, and the sums over
stretched axes that lead back from it.
-/
namespace TensorGraph

open Scalar

variable {R : Type} [Scalar R]

/-! ## Functions of elements -/

/-- The value of a function of one element. -/
def Unary.apply : Unary → R → R
  | .neg, x => -x
  | .reciprocal, x => 1 / x
  | .sqrt, x => Scalar.sqrt x
  | .square, x => x * x
  | .exp, x => Scalar.exp x
  | .log, x => Scalar.log x
  | .abs, x => Scalar.abs x
  | .sign, x => signum x
  | .ceil, x => Scalar.ceil x
  | .floor, x => Scalar.floor x
  | .relu, x => maximum x 0
  | .sigmoid, x => 1 / (1 + Scalar.exp (-x))
  | .tanh, x => Scalar.tanh x
  | .scale factor, x => x * ofSingle factor
  | .clip low high, x => minimum (maximum x (ofSingle low)) (ofSingle high)

/-- The value of a function of two elements. -/
def Binary.apply : Binary → R → R → R
  | .add, a, b => a + b
  | .sub, a, b => a - b
  | .mul, a, b => a * b
  | .div, a, b => a / b

/-- The partial derivative times the incoming gradient `g`, from the saved value `y`. -/
def UnaryGrad.apply : UnaryGrad → R → R → R
  | .sqrt, g, y => g / (two * y)
  | .reciprocal, g, y => -g / (y * y)
  | .exp, g, y => g * y
  | .relu, g, y => if lt 0 y then g else 0
  | .sigmoid, g, y => g * y * (1 - y)
  | .tanh, g, y => g * (1 - y * y)
  | .clip low high, g, y => if le (ofSingle low) y && le y (ofSingle high) then g else 0

/-- The number of operands: the incoming gradient and the operands of the function that the partial derivative
depends on. -/
def OperandGrad.arity : OperandGrad → Nat
  | .subRight => 1
  | .mul | .divLeft => 2
  | .divRight => 3

/-- The partial derivative times the incoming gradient. -/
def OperandGrad.apply : OperandGrad → List R → R
  | .subRight, [g] => -g
  | .mul, [g, b] => g * b
  | .divLeft, [g, b] => g / b
  | .divRight, [g, a, b] => -g * a / (b * b)
  | _, _ => 0

namespace Kernel

/-! ## Stretching and summing back -/

/-- Applies `f` to the elements of the operands that stand for each element of a result with extents `dims`. -/
def zipWith (f : List R → R) (operands : List (Operand R)) (dims : List Nat) : Outcome (List R) := do
  let sources ← operands.mapM fun x => do
    let indices ← Index.broadcastSources x.dims dims
    return (x.values.toArray, indices.toArray)
  (List.range (← Word.product dims)).mapM fun i => do
    let args ← sources.mapM fun (values, indices) => do
      let index ← Outcome.promised indices[i]?
      Operand.fetch values index
    return f args

/-- The sums of the contributions to each of `n` elements, added in their order. -/
def accumulate (n : Nat) (contributions : List (Nat × R)) : List R :=
  (List.range n).map fun j =>
    contributions.foldl (fun total c => if c.1 = j then total + c.2 else total) 0

/-- Sums values with extents `source` over the axes that a tensor with extents `target` was stretched along. -/
def reduceTo (values : List R) (source target : List Nat) : Outcome (List R) := do
  let targets ← Index.broadcastSources target source
  let n ← Word.product target
  Operand.room n
  return accumulate n (targets.zip values)

/-- The values of an elementwise op. -/
def elementwise (f : List R → R) (operands : List (Operand R)) (output : TensorInfo) : Outcome (List R) :=
  if operands.isEmpty then .execution .noOperands else zipWith f operands output.dims

/-- A function of two elements on a list of two. -/
def onPair (f : R → R → R) : List R → R
  | [a, b] => f a b
  | _ => 0

/-- The gradient for one operand: the partial products at the shape of all operands together, summed back to
the shape of the operand. -/
def operandGrad (f : OperandGrad) (operands : List (Operand R)) (output : TensorInfo) : Outcome (List R) := do
  Operand.requireCount f.arity operands
  let full ← (operands.foldlM (fun s x => Shape.broadcast s x.info.shape) []).asExecution
  let values ← zipWith f.apply operands full.dims
  reduceTo values full.dims output.dims

/-- The sums over `axes`, all of them if none are named. -/
def reduceSum (axes : Option (List Int)) (x : Operand R) : Outcome (List R) := do
  let resolved ← (x.info.shape.reductionAxes axes).asExecution
  let kept := x.dims.zipIdx.map fun (d, i) => if resolved.contains i then 1 else d
  reduceTo x.values x.dims kept

end Kernel

end TensorGraph
