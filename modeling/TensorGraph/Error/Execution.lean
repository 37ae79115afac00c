import TensorGraph.Error.Shape

/-!
What can go wrong while a kernel runs, and how each cause is worded.
-/
namespace TensorGraph

/-- A fault of a kernel or of the values it was given. -/
inductive ExecutionError where
  | shape (cause : ShapeError)
  | sourceIndex (index count : Nat)
  | storageKinds
  | cannotView (count : Nat) (info : TensorInfo)
  | outputCount (op : String) (got : Nat)
  | producedElements (op : String) (got : Nat) (output : TensorInfo)
  | extraOperands (got : Nat)
  | producedValues (got : Nat) (output : TensorInfo)
  | noOperands
  | cannotBroadcast (source target : List Nat)
  | axisOutOfRange (axis : Int) (rank : Nat)
  | matMulOperands (a b : TensorInfo)
  | padCount (expected got : Nat)
  | concatEmpty
  | concatCoverage (output : TensorInfo)
  | floatIndices (info : TensorInfo)
  | indexOutOfRange (index : Int) (extent : Nat)
  | gatherGradient (gradient indices : TensorInfo)
  | scatterRank (indices : TensorInfo) (rank : Nat)
  | scatterPosition (position axis : Nat)
  | lossOperands (probs labels : TensorInfo)
  | labelOutOfRange (label : Int) (classes : Nat)
  | noScalar (info : TensorInfo)
  | updateOperands (weight gradient : TensorInfo)
  | notSingle
  | arity (expected got : Nat)
deriving DecidableEq, Repr

namespace ExecutionError

/-- The wording of the cause. -/
def cause : ExecutionError → String
  | shape e => e.message
  | sourceIndex index count => s!"source index {index} out of bounds for {count} elements"
  | storageKinds => "concatenated buffers differ in element type"
  | cannotView count info => s!"cannot view {count} elements as {info.text}"
  | outputCount op got => s!"{op} expects a single output, got {got}"
  | producedElements op got output => s!"{op} produced {got} elements for {output.text}"
  | extraOperands got => s!"in-place kernel got {got} extra operands"
  | producedValues got output => s!"kernel produced {got} values for {output.text}"
  | noOperands => "elementwise op without operands"
  | cannotBroadcast source target => s!"cannot broadcast {Text.nats source} to {Text.nats target}"
  | axisOutOfRange axis rank => s!"axis {axis} out of range for rank {rank}"
  | matMulOperands a b => s!"MatMul operands {a.text} and {b.text} are incompatible"
  | padCount expected got => s!"Pad expects {expected} pads, got {got}"
  | concatEmpty => "Concat expects at least one input"
  | concatCoverage output => s!"Concat inputs do not cover {output.text}"
  | floatIndices info => s!"indices must be integers, got {info.text}"
  | indexOutOfRange index extent => s!"index {index} out of range for extent {extent}"
  | gatherGradient gradient indices =>
    s!"GatherGrad gradient {gradient.text} does not match indices {indices.text}"
  | scatterRank indices rank => s!"scatter indices {indices.text} must have rank {rank}"
  | scatterPosition position axis => s!"scatter position {position} out of range on axis {axis}"
  | lossOperands probs labels =>
    s!"Nll expects probs [N, C] and labels [N], got {probs.text} and {labels.text}"
  | labelOutOfRange label classes => s!"label {label} out of range for {classes} classes"
  | noScalar info => s!"expected a scalar value, got {info.text}"
  | updateOperands weight gradient => s!"weight {weight.text} and gradient {gradient.text} differ"
  | notSingle => "operation expects single input"
  | arity expected got => s!"operation expects {expected} inputs, got {got}"

/-- The full wording. -/
def message (e : ExecutionError) : String := "backend execution failure: " ++ e.cause

end ExecutionError

end TensorGraph
