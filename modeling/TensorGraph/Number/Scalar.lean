import TensorGraph.Number.Double

/-!
The arithmetic that kernels need of the numbers they compute with. Kernels are written once over `Scalar`:
they run on doubles, and the same definitions can be read over an exact field.
-/
namespace TensorGraph

/-- A number system for kernels. No law is assumed: doubles have few. -/
class Scalar (R : Type) extends Zero R, One R, Neg R, Add R, Sub R, Mul R, Div R where
  /-- What an empty sum is, and every sum starts from. -/
  sumStart : R
  abs : R → R
  sqrt : R → R
  exp : R → R
  log : R → R
  tanh : R → R
  ceil : R → R
  floor : R → R
  maximum : R → R → R
  minimum : R → R → R
  lt : R → R → Bool
  le : R → R → Bool
  ofNat : Nat → R
  ofSingle : Single → R
  /-- The value towards zero, held within 64 signed bits. -/
  truncate : R → Int

namespace Scalar

variable {R : Type} [Scalar R]

/-- Adds up a list from the left. -/
def sum (l : List R) : R := l.foldl (· + ·) sumStart

/-- The greatest of a list, zero for the empty one. -/
def greatest : List R → R
  | [] => 0
  | a :: rest => rest.foldl maximum a

/-- One above zero, minus one below, and zero for all else. -/
def signum (x : R) : R :=
  if lt 0 x then 1 else if lt x 0 then -1 else 0

/-- Whether a value is zero. -/
def isZero (x : R) : Bool := le x 0 && le 0 x

/-- Twice one. -/
def two : R := ofNat 2

end Scalar

/-- Doubles. A sum starts from `-0`, which leaves every summand as it is. -/
instance : Scalar Double where
  zero := .ofFloat 0.0
  one := .ofFloat 1.0
  neg := Double.neg
  add := Double.lift₂ (· + ·)
  sub := Double.lift₂ (· - ·)
  mul := Double.lift₂ (· * ·)
  div := Double.lift₂ (· / ·)
  sumStart := .ofFloat (-0.0)
  abs := Double.abs
  sqrt := Double.lift Float.sqrt
  exp := Double.lift Float.exp
  log := Double.lift Float.log
  tanh := Double.lift Float.tanh
  ceil := Double.lift Float.ceil
  floor := Double.lift Float.floor
  maximum := Double.maximum
  minimum := Double.minimum
  lt := Double.lt
  le := Double.le
  ofNat n := .ofFloat (.ofNat n)
  ofSingle := Double.ofSingle
  truncate x := x.toFloat.toInt64.toInt

end TensorGraph
