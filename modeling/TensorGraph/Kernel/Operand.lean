import TensorGraph.Number.Scalar
import TensorGraph.Tensor.Index

/-!
Operands of kernels: infos with values over any number system, and the checks that kernels make of them.
-/
namespace TensorGraph

/-- An operand of a kernel. -/
structure Operand (R : Type) where
  info : TensorInfo
  values : List R

namespace Operand

variable {R : Type}

/-- The extents. -/
def dims (x : Operand R) : List Nat := x.info.dims

/-- The value of a scalar operand: its first element. -/
def first (x : Operand R) : Outcome R := .orFail x.values.head? (.execution (.noScalar x.info))

/-- The only operand. -/
def only : List (Operand R) → Outcome (Operand R)
  | [x] => .ok x
  | _ => .execution .notSingle

/-- Both operands. -/
def pair : List (Operand R) → Outcome (Operand R × Operand R)
  | [a, b] => .ok (a, b)
  | l => .execution (.arity 2 l.length)

/-- The three operands. -/
def triple : List (Operand R) → Outcome (Operand R × Operand R × Operand R)
  | [a, b, c] => .ok (a, b, c)
  | l => .execution (.arity 3 l.length)

/-- Refuses another number of operands. -/
def requireCount (n : Nat) (l : List (Operand R)) : Outcome Unit :=
  if l.length ≠ n then .execution (.arity n l.length) else .ok ()

/-- Refuses a result of `n` values for which there is no room: while a kernel computes, each takes eight bytes. -/
def room (n : Nat) : Outcome Unit := Word.room 8 n

/-- The first `n` values, filled up with zeros. -/
def fit [Zero R] (n : Nat) (values : List R) : List R := (values ++ List.replicate (n - values.length) 0).take n

/-- The element at a flat index, which must be there. -/
def fetch (values : Array R) (i : Nat) : Outcome R := .promised values[i]?

/-- Refuses indices that are none of `n` elements. -/
def requireIndices (n : Nat) (indices : List Nat) : Outcome Unit :=
  if indices.all (· < n) then .ok () else .error .abort

/-- The positions that an operand of indices names on an axis of the given extent: a negative index is counted
from the end. -/
def positions [Scalar R] (indices : Operand R) (extent : Nat) : Outcome (List Nat) :=
  if indices.info.dtype.isFloat then .execution (.floatIndices indices.info)
  else indices.values.mapM fun v =>
    let raw := Scalar.truncate v
    let index := if raw < 0 then raw + extent else raw
    if index < 0 ∨ index ≥ extent then .execution (.indexOutOfRange raw extent) else .ok index.toNat

end Operand

end TensorGraph
