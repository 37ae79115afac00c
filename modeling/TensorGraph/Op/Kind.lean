import TensorGraph.Number.Single
import TensorGraph.Tensor.Info

/-!
The ops: what a node of a graph computes. Ops that work element by element are grouped by the number of their
operands, gradient ops by how they combine the incoming gradient with saved values.
-/
namespace TensorGraph

/-- Functions of one element. -/
inductive Unary where
  | neg
  | reciprocal
  | sqrt
  | square
  | exp
  | log
  | abs
  | sign
  | ceil
  | floor
  | relu
  | sigmoid
  | tanh
  | scale (factor : Single)
  | clip (min max : Single)
deriving DecidableEq, Repr

/-- Functions of two elements. -/
inductive Binary where
  | add
  | sub
  | mul
  | div
deriving DecidableEq, Repr

/-- Gradients of functions of one element, from the incoming gradient and one saved value: the operand for
`reciprocal` and `clip`, the result for the others. -/
inductive UnaryGrad where
  | sqrt
  | reciprocal
  | exp
  | relu
  | sigmoid
  | tanh
  | clip (min max : Single)
deriving DecidableEq, Repr

/-- Gradients for one operand of a function of two elements, summed over the axes that were stretched. -/
inductive OperandGrad where
  | divLeft
  | divRight
  | mul
  | subRight
deriving DecidableEq, Repr

/-- How a loss combines its rows. -/
inductive Reduction where
  | sum
  | mean
deriving DecidableEq, Inhabited, Repr

/-- What an op computes. -/
inductive OpKind where
  | identity
  | unary (f : Unary)
  | softmax (axis : Int)
  | binary (f : Binary)
  | matMul
  | sum
  | reduceSum (axes : Option (List Int)) (keepDims : Bool)
  | reshape (shape : Shape)
  | transpose (perm : List Int)
  | slice (starts ends axes : List Int)
  | pad (pads : List Int) (value : Single)
  | concat (axis : Int)
  | gather (axis : Int)
  | scatter (axis : Int)
  | reduceToShape (shape : Shape)
  | unaryGrad (f : UnaryGrad)
  | softmaxGrad (axis : Int)
  | operandGrad (f : OperandGrad) (shape : Shape)
  | reduceSumGrad (shape : Shape) (axes : List Int)
  | gatherGrad (axis : Int) (shape : Shape)
  | scatterDataGrad (axis : Int)
  | scatterUpdatesGrad (axis : Int)
  | nll (reduction : Reduction) (ignored : Option Int)
  | l1 (lambda : Single) (reduction : Reduction)
  | nllGrad (reduction : Reduction) (ignored : Option Int)
  | l1Grad (lambda : Single) (reduction : Reduction)
  | sgdVarUpdate
deriving DecidableEq, Repr

/-! ## Type names -/

/-- The type name. -/
def Unary.typeName : Unary → String
  | neg => "Neg"
  | reciprocal => "Reciprocal"
  | sqrt => "Sqrt"
  | square => "Square"
  | exp => "Exp"
  | log => "Log"
  | abs => "Abs"
  | sign => "Sign"
  | ceil => "Ceil"
  | floor => "Floor"
  | relu => "Relu"
  | sigmoid => "Sigmoid"
  | tanh => "Tanh"
  | scale _ => "Scale"
  | clip _ _ => "Clip"

/-- The type name. -/
def Binary.typeName : Binary → String
  | add => "Add"
  | sub => "Sub"
  | mul => "Mul"
  | div => "Div"

/-- The type name. -/
def UnaryGrad.typeName : UnaryGrad → String
  | sqrt => "SqrtGrad"
  | reciprocal => "ReciprocalGrad"
  | exp => "ExpGrad"
  | relu => "ReluGrad"
  | sigmoid => "SigmoidGrad"
  | tanh => "TanhGrad"
  | clip _ _ => "ClipGrad"

/-- The type name. -/
def OperandGrad.typeName : OperandGrad → String
  | divLeft => "DivArg0Grad"
  | divRight => "DivArg1Grad"
  | mul => "MulArgGrad"
  | subRight => "SubtractArg1Grad"

/-- The name in exported kinds. -/
def Reduction.label : Reduction → String
  | sum => "Sum"
  | mean => "Mean"

namespace OpKind

/-- The type name. -/
def typeName : OpKind → String
  | identity => "Identity"
  | unary f => f.typeName
  | softmax _ => "Softmax"
  | binary f => f.typeName
  | matMul => "MatMul"
  | sum => "Sum"
  | reduceSum _ _ => "ReduceSum"
  | reshape _ => "Reshape"
  | transpose _ => "Transpose"
  | slice _ _ _ => "Slice"
  | pad _ _ => "Pad"
  | concat _ => "Concat"
  | gather _ => "Gather"
  | scatter _ => "Scatter"
  | reduceToShape _ => "ReduceToShape"
  | unaryGrad f => f.typeName
  | softmaxGrad _ => "SoftmaxGrad"
  | operandGrad f _ => f.typeName
  | reduceSumGrad _ _ => "ReduceSumGrad"
  | gatherGrad _ _ => "GatherGrad"
  | scatterDataGrad _ => "ScatterDataGrad"
  | scatterUpdatesGrad _ => "ScatterUpdatesGrad"
  | nll _ _ => "Nll"
  | l1 _ _ => "L1"
  | nllGrad _ _ => "NllGrad"
  | l1Grad _ _ => "L1Grad"
  | sgdVarUpdate => "SGDVarUpdate"

/-- Whether the op may write its result over its first operand. -/
def supportsInPlace : OpKind → Bool
  | unary _ | binary _ => true
  | _ => false

/-- Whether the result is the only operand under another info. -/
def isView : OpKind → Bool
  | identity | reshape _ => true
  | _ => false

/-- Whether the op is a loss. -/
def isLoss : OpKind → Bool
  | nll _ _ | l1 _ _ => true
  | _ => false

end OpKind

end TensorGraph
