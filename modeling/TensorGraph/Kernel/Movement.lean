import TensorGraph.Kernel.Elementwise
import TensorGraph.Tensor.Count

/-!
Kernels that move elements without computing with them. Each names, for every element of its result, the flat
index of the element that is moved there, or none where the result is filled.
-/
namespace TensorGraph

namespace Kernel

variable {R : Type} [Scalar R]

/-- The sources of a result, one for each of its elements. -/
abbrev Sources := List (Option Nat)

/-- The bytes that one source takes. -/
def sourceBytes : Nat := 16

/-- The source of each coordinate of the result. -/
def sourcesOf (output : TensorInfo) (f : List Nat → Outcome (Option Nat)) : Outcome Sources :=
  (Index.coords output.dims).mapM f

/-- Axes in another order. -/
def transposeSources (perm : List Int) (dims : List Nat) (output : TensorInfo) : Outcome Sources := do
  let strides ← Index.steps dims
  let axes ← perm.mapM fun p => Index.axis p dims.length
  let steps ← axes.mapM fun a => Outcome.promised strides[a]?
  sourcesOf output fun c => do return some (← Word.nat (Index.flat c steps))

/-- The part of a tensor within the given ranges. -/
def sliceSources (shape : Shape) (starts ends axes : List Int) (output : TensorInfo) : Outcome Sources := do
  let dims := shape.dims
  let strides ← Index.steps dims
  let ranges ← (shape.sliceRanges starts ends axes).asExecution
  let offsets := ranges.foldl (fun l r => l.set r.axis r.start) (List.replicate dims.length 0)
  sourcesOf output fun c =>
    if dims.length < c.length then .error .abort
    else do return some (← Word.nat (Index.flat (List.zipWith (· + ·) c offsets) strides))

/-- The source of one coordinate of a padded tensor. -/
def padSource : List Nat → List Int → List Nat → List Nat → Outcome (Option Nat)
  | [], _, _, _ => .ok (some 0)
  | _ :: _, [], _, _ => .error .abort
  | c :: coord, p :: pads, dims, strides => do
    let position ← Word.int ((c : Int) - p)
    if position < 0 then return none
    else
      match dims, strides with
      | d :: dims, s :: strides =>
        if position ≥ d then return none
        else
          let rest ← padSource coord pads dims strides
          return rest.map (position.toNat * s + ·)
      | _, _ => .error .abort

/-- A tensor with a border. -/
def padSources (pads : List Int) (dims : List Nat) (output : TensorInfo) : Outcome Sources :=
  if pads.length ≠ 2 * dims.length then .execution (.padCount (2 * dims.length) pads.length)
  else do
    let strides ← Index.steps dims
    sourcesOf output fun c => padSource c pads dims strides

/-- A part of a concatenation: its extents, its strides and the number of elements it holds. -/
structure Part where
  dims : List Nat
  strides : List Nat
  size : Nat

/-- The source of one coordinate in parts that stand one behind the other: the part that the position `along`
falls into, counted from the start of the flat elements of all parts. -/
def concatSource (axis : Nat) (coord : List Nat) : List Part → Nat → Nat → Outcome (Option Nat)
  | [], _, _ => .ok none
  | part :: parts, base, along => do
    let extent ← Outcome.promised part.dims[axis]?
    if along < extent then
      if part.dims.length < coord.length then .error .abort
      else return some (← Word.nat (base + Index.flat (coord.set axis along) part.strides))
    else concatSource axis coord parts (base + part.size) (along - extent)

/-- Several tensors one behind the other along an axis. -/
def concatSources (axis : Nat) (operands : List (Operand R)) (output : TensorInfo) : Outcome Sources := do
  let parts ← operands.mapM fun x => do
    return ⟨x.dims, ← Index.steps x.dims, x.values.length⟩
  let sources ← sourcesOf output fun coord => do
    let along ← Outcome.promised coord[axis]?
    concatSource axis coord parts 0 along
  if sources.any Option.isNone then .execution (.concatCoverage output) else return sources

/-- The elements at the positions that `indices` names along an axis. -/
def gatherSources (axis : Int) (data indices : Operand R) : Outcome Sources := do
  let axis ← Index.axis axis data.dims.length
  let l ← Index.Lanes.ofAxis data.dims axis
  let picked ← indices.positions l.extent
  Word.room sourceBytes (← Word.product [l.outer, picked.length, l.inner])
  ((List.range l.outer).flatMap fun o =>
    picked.flatMap fun k =>
      (List.range l.inner).map fun i => l.index o k i).mapM fun i => do return some (← Word.nat i)

/-- The flat index of the position that a coordinate of the indices names, with `k` in place of its entry on
`axis`; `here` is the axis that the next entry belongs to. -/
def scatterTarget (axis k : Nat) : Nat → List Nat → List Nat → List Nat → Outcome Nat
  | here, c :: coord, d :: dims, s :: strides => do
    let position := if here = axis then k else c
    if position ≥ d then .execution (.scatterPosition position here)
    else
      let rest ← scatterTarget axis k (here + 1) coord dims strides
      return position * s + rest
  | _, _, _, _ => .ok 0

/-- The flat indices in a tensor with extents `dims` that `indices` names along an axis. -/
def scatterTargets (axis : Int) (dims : List Nat) (indices : Operand R) : Outcome (List Nat) := do
  let axis ← Index.axis axis dims.length
  if indices.dims.length ≠ dims.length then .execution (.scatterRank indices.info dims.length)
  else
    let extent ← Outcome.promised dims[axis]?
    let picked ← indices.positions extent
    let strides ← Index.steps dims
    ((Index.firstCoords indices.dims picked.length).zip picked).mapM fun (c, k) =>
      scatterTarget axis k 0 c dims strides

/-- A tensor of `n` elements with updates written over the targets; the updates stand behind its elements, and
the last of several for one target stays. -/
def scatterSources (n : Nat) (targets : List Nat) : Outcome Sources := do
  Operand.requireIndices n targets
  return targets.zipIdx.foldl (fun l t => l.set t.1 (some (n + t.2))) ((List.range n).map some)

/-- The extents with ones put at the marked axes, up to the given rank; `i` is the axis that comes next. -/
def insertUnits (unit : Nat → Bool) : Nat → Nat → List Nat → List Nat
  | 0, _, _ => []
  | n + 1, i, dims =>
    if unit i then 1 :: insertUnits unit n (i + 1) dims
    else dims.headD 1 :: insertUnits unit n (i + 1) dims.tail

/-- The extents of a gradient with the summed axes put back, where they were dropped. -/
def expandedDims (axes : List Int) (dims target : List Nat) : Outcome (List Nat) :=
  if dims.length = target.length ∨ axes.isEmpty then .ok dims
  else do
    let resolved ← axes.mapM fun a => Index.axis a target.length
    return insertUnits (fun i => resolved.contains i) target.length 0 dims

/-- The gradient of a sum, spread over the axes that were summed. -/
def spreadSources (axes : List Int) (dims : List Nat) (output : TensorInfo) : Outcome Sources := do
  let expanded ← expandedDims axes dims output.dims
  return (← Index.broadcastSources expanded output.dims).map some

/-! ## Gradients of moves -/

/-- The gradient of a gather: each element of the incoming gradient is added where it was taken from. -/
def gatherGrad (axis : Int) (gradient indices : Operand R) (output : TensorInfo) : Outcome (List R) := do
  let dims := output.dims
  let axis ← Index.axis axis dims.length
  let l ← Index.Lanes.ofAxis dims axis
  let picked ← indices.positions l.extent
  if gradient.values.length ≠ (← Word.product [l.outer, picked.length, l.inner]) then
    .execution (.gatherGradient gradient.info indices.info)
  else
    let n ← output.counted
    Operand.room n
    let targets := (List.range l.outer).flatMap fun o =>
      picked.flatMap fun k => (List.range l.inner).map fun i => l.index o k i
    return accumulate n (targets.zip gradient.values)

/-- The gradient of a scatter for its data: nothing comes back from what was overwritten. -/
def scatterDataGrad (axis : Int) (gradient indices : Operand R) : Outcome (List R) := do
  let targets ← scatterTargets axis gradient.dims indices
  Operand.requireIndices gradient.values.length targets
  return gradient.values.zipIdx.map fun (g, i) => if targets.contains i then 0 else g

/-- The gradient of a scatter for its updates. -/
def scatterUpdatesGrad (axis : Int) (gradient indices : Operand R) : Outcome (List R) := do
  let targets ← scatterTargets axis gradient.dims indices
  let g := gradient.values.toArray
  targets.mapM fun t => Operand.fetch g t

end Kernel

end TensorGraph
