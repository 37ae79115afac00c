import TensorGraph.Kernel.Operand

/-!
Kernels along one axis or over two matrices: softmax and its gradient, and the matrix product.
-/
namespace TensorGraph

open Scalar

namespace Kernel

variable {R : Type} [Scalar R]

/-- One value for each position of the lanes, in row-major order. There must be `held` elements for them. -/
def overLanes (l : Index.Lanes) (held : Nat) (f : Nat → Nat → Nat → Outcome R) : Outcome (List R) :=
  if held < l.outer * l.extent * l.inner then .error .abort
  else ((List.range l.outer).flatMap fun o =>
    (List.range l.extent).flatMap fun k =>
      (List.range l.inner).map fun i => (o, k, i)).mapM fun (o, k, i) => f o k i

/-- The lanes of an axis, which may be counted from the end. -/
def lanesOf (dims : List Nat) (axis : Int) : Outcome Index.Lanes := do
  Index.Lanes.ofAxis dims (← Index.axis axis dims.length)

/-- The elements of one lane. -/
def lane (values : Array R) (l : Index.Lanes) (o i : Nat) : Outcome (List R) :=
  (List.range l.extent).mapM fun k => Operand.fetch values (l.index o k i)

/-- Exponentials over their sum along an axis. The greatest element is taken off first, so that none
overflows. Elements behind the last lane become zeros. -/
def softmax (axis : Int) (x : Operand R) : Outcome (List R) := do
  let l ← lanesOf x.dims axis
  let values := x.values.toArray
  let result ← overLanes l x.values.length fun o k i => do
    let row ← lane values l o i
    let top := greatest row
    let total := row.foldl (fun sum v => sum + exp (v - top)) 0
    let v ← Operand.fetch values (l.index o k i)
    return exp (v - top) / total
  return Operand.fit x.values.length result

/-- The gradient of softmax from the incoming gradient and the result, of which elements behind the last lane get
no gradient. -/
def softmaxGrad (axis : Int) (gradient probs : Operand R) : Outcome (List R) := do
  let l ← lanesOf probs.dims axis
  let g := gradient.values.toArray
  let p := probs.values.toArray
  let result ← overLanes l (min g.size p.size) fun o k i => do
    let products ← (List.range l.extent).mapM fun j => do
      let here := l.index o j i
      return (← Operand.fetch g here) * (← Operand.fetch p here)
    let here := l.index o k i
    return (← Operand.fetch p here) * ((← Operand.fetch g here) - sum products)
  return Operand.fit probs.values.length result

/-- The matrix product. A zero on the left adds nothing, whatever stands on the right. -/
def matMul (a b : Operand R) : Outcome (List R) :=
  match a.dims, b.dims with
  | [m, k], [k', n] =>
    if k ≠ k' then .execution (.matMulOperands a.info b.info)
    else do
      Operand.room (← Word.nat (m * n))
      let left := a.values.toArray
      let right := b.values.toArray
      -- the left factor is read also where the result has no column
      if left.size < m * k then .error .abort
      ((List.range m).flatMap fun row => (List.range n).map fun col => (row, col)).mapM fun (row, col) =>
        (List.range k).foldlM (fun total j => do
          let x ← Operand.fetch left (row * k + j)
          if isZero x then return total
          else return total + x * (← Operand.fetch right (j * n + col))) 0
  | _, _ => .execution (.matMulOperands a.info b.info)

end Kernel

end TensorGraph
