import TensorGraph.Collection.SortedSet
import TensorGraph.Error.Basic

/-!
Rules on shapes: axes counted from either end, broadcasting of two shapes, the ranges that a slice takes and
the shape that a reduction leaves.
-/
namespace TensorGraph

namespace Shape

/-! ## Broadcasting -/

/-- The extent that two extents broadcast to: equal ones stay, and one gives way to any other. -/
def broadcastExtent (x y : Int) : Option Int :=
  if x = y then some x else if x = 1 then some y else if y = 1 then some x else none

/-- The shape with ones put in front up to the given rank. -/
def padTo (rank : Nat) (s : Shape) : Shape := List.replicate (rank - s.length) 1 ++ s

/-- The extents of two equally long shapes, joined axis by axis. -/
def joinExtents : Shape → Shape → Option Shape
  | x :: a, y :: b => do
    let d ← broadcastExtent x y
    let rest ← joinExtents a b
    return d :: rest
  | _, _ => some []

/-- The shape that two shapes broadcast to, their last axes standing under each other. -/
def broadcast? (a b : Shape) : Option Shape :=
  let rank := max a.length b.length
  joinExtents (padTo rank a) (padTo rank b)

/-- The shape that two shapes broadcast to, or the fault that they do not. -/
def broadcast (a b : Shape) : Outcome Shape :=
  .orFail (broadcast? a b) (.shape (.notAligned a b))

/-! ## Axes -/

/-- An axis counted from the front: a negative one is counted from the end. -/
def fromFront (axis : Int) (rank : Nat) : Int := if axis < 0 then axis + rank else axis

/-- The axis of a tensor that an axis number names. A scalar has the axis `0`. -/
def axis (s : Shape) (axis : Int) : Outcome Nat :=
  let resolved := fromFront axis s.length
  if resolved < 0 ∨ resolved ≥ max (s.length : Int) 1 then .shape (.axisOutOfRange axis s.length)
  else .ok resolved.toNat

/-- The axes that a reduction runs over, ascending and without repetition: all of them if none are named. -/
def reductionAxes (s : Shape) : Option (List Int) → Outcome (List Nat)
  | none => .ok (List.range s.length)
  | some axes => do
    let resolved ← axes.mapM s.axis
    return (SortedSet.ofList resolved).toList

/-- The shape after a reduction over `axes`, which keeps them with extent one or drops them. -/
def reduced (s : Shape) (axes : List Nat) (keepDims : Bool) : Shape :=
  s.zipIdx.filterMap fun (d, i) =>
    if axes.contains i then if keepDims then some 1 else none else some d

/-! ## Slices -/

/-- The positions `start ≤ i < stop` on one axis. -/
structure Range where
  axis : Nat
  start : Nat
  stop : Nat
deriving DecidableEq, Repr

/-- A position on an axis of the given extent: a negative one is counted from the end, and one outside is moved
to the nearer end. There is none on an axis of negative extent. -/
def clampPosition (extent position : Int) : Outcome Nat :=
  let fromStart := if position < 0 then position + extent else position
  if extent < 0 then .error .abort else .ok (max 0 (min fromStart extent)).toNat

/-- The range that a slice takes on one axis. It is empty when the end stands before the start. -/
def sliceRange (s : Shape) (start stop axis : Int) : Outcome Range := do
  let resolved := fromFront axis s.length
  if resolved < 0 ∨ resolved ≥ s.length then
    .shape (.sliceAxis resolved s.length)
  else
    let extent ← Outcome.promised s[resolved.toNat]?
    let first ← clampPosition extent start
    let last ← clampPosition extent stop
    return { axis := resolved.toNat, start := first, stop := max last first }

/-- The ranges that a slice takes, one for each named axis. -/
def sliceRanges (s : Shape) (starts stops axes : List Int) : Outcome (List Range) :=
  if starts.length ≠ stops.length ∨ starts.length ≠ axes.length then
    .shape (.sliceLengths starts.length stops.length axes.length)
  else
    ((starts.zip stops).zip axes).mapM fun ((start, stop), axis) => s.sliceRange start stop axis

end Shape

end TensorGraph
