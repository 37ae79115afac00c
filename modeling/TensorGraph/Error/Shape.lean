import TensorGraph.Number.Decimal
import TensorGraph.Tensor.Info

/-!
What can be wrong with shapes, element types and attributes, and how each cause is worded.
-/
namespace TensorGraph

/-- A fault of shapes, element types or attributes. -/
inductive ShapeError where
  | axisOutOfRange (axis : Int) (rank : Nat)
  | notAligned (a b : Shape)
  | elementCount (info : TensorInfo) (got : Nat)
  | storageKind (dtype : DType)
  | cannotView (count : Nat) (info : TensorInfo)
  | sliceLengths (starts ends axes : Nat)
  | sliceAxis (axis : Int) (rank : Nat)
  | arity (op : String) (expected got : Nat)
  | notInteger (op what : String) (dtype : DType)
  | cannotReduce (op : String) (source target : Shape)
  | differentTypes (op : String) (a b : DType)
  | noInputs (op : String)
  | matMulRanks (a b : Shape)
  | matMulInner (a b : Shape)
  | cannotReshape (source target : Shape)
  | permLength (perm : List Int) (rank : Nat)
  | permRepeats (perm : List Int) (axis : Nat)
  | padCount (rank : Nat) (pads : List Int)
  | concatMismatch (first other : TensorInfo) (axis : Nat)
  | scatterShapes (indices updates data : Shape)
  | lossShapes (probs labels : Shape)
  | updateShapes (weight gradient : Shape)
  | constantInfo (id : String) (value tensor : TensorInfo)
  | clipBounds (min max : Single)
  | reshapeCopies (position : Nat) (source : Shape)
  | reshapeTarget (target : List Int)
  | reshapeInfers (target : List Int) (source : Shape)
  | valueNeeded (op input id : String)
  | resetInfo (id : String) (session model : TensorInfo)
deriving DecidableEq, Repr

namespace ShapeError

/-- The wording. -/
def message : ShapeError → String
  | axisOutOfRange axis rank => s!"axis {axis} is out of range for tensor of rank {rank}"
  | notAligned a b =>
    s!"np broadcasting failed, frames {Text.ints a} and {Text.ints b} are not aligned"
  | elementCount info got => s!"tensor of {info.text} needs {info.count} elements, got {got}"
  | storageKind dtype => s!"host storage does not match dtype {dtype.name}"
  | cannotView count info => s!"cannot view {count} elements as {info.text}"
  | sliceLengths starts ends axes =>
    s!"slice starts ({starts}), ends ({ends}) and axes ({axes}) must have the same length"
  | sliceAxis axis rank => s!"slice axis {axis} out of range for rank {rank}"
  | arity op expected got => s!"{op} expects {expected} inputs, got {got}"
  | notInteger op what dtype => s!"{op} {what} must be an integer tensor, got {dtype.name}"
  | cannotReduce op source target => s!"{op} cannot reduce {Text.ints source} to {Text.ints target}"
  | differentTypes op a b => s!"{op} inputs have different types {a.name} and {b.name}"
  | noInputs op => s!"{op} expects at least one input"
  | matMulRanks a b => s!"MatMul supports rank 2 operands, got {Text.ints a} and {Text.ints b}"
  | matMulInner a b => s!"MatMul inner dimensions differ: {Text.ints a} x {Text.ints b}"
  | cannotReshape source target => s!"cannot reshape {Text.ints source} to {Text.ints target}"
  | permLength perm rank => s!"Transpose perm {Text.ints perm} does not match rank {rank}"
  | permRepeats perm axis => s!"Transpose perm {Text.ints perm} repeats axis {axis}"
  | padCount rank pads =>
    s!"Pad expects {2 * rank} non-negative pads for rank {rank}, got {Text.ints pads}"
  | concatMismatch first other axis =>
    s!"Concat inputs {first.text} and {other.text} are incompatible along axis {axis}"
  | scatterShapes indices updates data =>
    s!"Scatter indices {Text.ints indices} and updates {Text.ints updates} must match and have the rank " ++
      s!"of data {Text.ints data}"
  | lossShapes probs labels =>
    s!"NllLoss expects probs [N, C] and labels [N], got {Text.ints probs} and {Text.ints labels}"
  | updateShapes weight gradient =>
    s!"weight {Text.ints weight} and gradient {Text.ints gradient} differ"
  | constantInfo id value tensor =>
    s!"constant for '{id}' has info {value.text} but the tensor is {tensor.text}"
  | clipBounds min max => s!"Clip min {min.text} is greater than max {max.text}"
  | reshapeCopies position source =>
    s!"Reshape dimension {position} copies a dimension the input {Text.ints source} does not have"
  | reshapeTarget target => s!"invalid Reshape target {Text.ints target}"
  | reshapeInfers target source => s!"cannot infer Reshape {Text.ints target} from {Text.ints source}"
  | valueNeeded op input id =>
    s!"Need the value of the ai.onnx.{op} input '{input}' to determine the output shape, but was unable " ++
      s!"because the tensor '{id}' does not have data"
  | resetInfo id session model =>
    s!"resetHostWeights: '{id}' is {session.text} in the session but {model.text} in the model"

end ShapeError

end TensorGraph
