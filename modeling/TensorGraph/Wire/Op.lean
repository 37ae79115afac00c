import TensorGraph.Op.Kind
import TensorGraph.Tensor.Host
import TensorGraph.Wire.Basic

/-!
The byte format of tensors: element type, shape, and the elements behind the number of their width. The byte
format of op kinds: the number of the type, then its attributes.
-/
namespace TensorGraph

/-! ## Tensors -/

instance : Wire DType where
  put d := Wire.putTag (DType.all.idxOf d)
  get := Wire.getEnum DType.all

instance : Wire TensorInfo where
  put i := put i.dtype ++ put i.shape
  get := do return ⟨← Wire.get, ← Wire.get⟩

instance : Wire Storage where
  put
    | .f32 v => Wire.putTag 0 ++ put v
    | .i32 v => Wire.putTag 1 ++ put v
    | .i64 v => Wire.putTag 2 ++ put v
  get := do
    match ← Wire.getTag with
    | 0 => return .f32 (← Wire.get)
    | 1 => return .i32 (← Wire.get)
    | 2 => return .i64 (← Wire.get)
    | _ => failure

instance : Wire HostTensor where
  put t := put t.info ++ put t.data
  get := do return ⟨← Wire.get, ← Wire.get⟩

/-! ## Ops -/

instance : Wire Reduction where
  put
    | .sum => Wire.putTag 0
    | .mean => Wire.putTag 1
  get := Wire.getEnum [.sum, .mean]

namespace OpKind

/-- The type names in the numbering of the byte format. -/
def typeNames : List String :=
  ["Identity", "Neg", "Reciprocal", "Sqrt", "Square", "Exp", "Log", "Abs", "Sign", "Ceil", "Floor", "Relu",
    "Sigmoid", "Tanh", "Scale", "Clip", "Softmax", "Add", "Sub", "Mul", "Div", "MatMul", "Sum", "ReduceSum",
    "Reshape", "Transpose", "Slice", "Pad", "Concat", "Gather", "Scatter", "ReduceToShape", "SqrtGrad",
    "ReciprocalGrad", "ExpGrad", "ReluGrad", "SigmoidGrad", "TanhGrad", "SoftmaxGrad", "ClipGrad",
    "DivArg0Grad", "DivArg1Grad", "MulArgGrad", "SubtractArg1Grad", "ReduceSumGrad", "GatherGrad",
    "ScatterDataGrad", "ScatterUpdatesGrad", "Nll", "L1", "NllGrad", "L1Grad", "SGDVarUpdate"]

/-- The number of the type. -/
def tag (k : OpKind) : Nat := typeNames.idxOf k.typeName

/-- The attributes, one behind the other. -/
def putFields : OpKind → Bytes
  | unary (.scale factor) => put factor
  | unary (.clip min max) | unaryGrad (.clip min max) => put min ++ put max
  | softmax axis | concat axis | gather axis | scatter axis | softmaxGrad axis | scatterDataGrad axis
  | scatterUpdatesGrad axis => put axis
  | reduceSum axes keepDims => put axes ++ put keepDims
  | reshape shape | reduceToShape shape | operandGrad _ shape => put shape
  | transpose perm => put perm
  | slice starts ends axes => put starts ++ put ends ++ put axes
  | pad pads value => put pads ++ put value
  | reduceSumGrad shape axes => put shape ++ put axes
  | gatherGrad axis shape => put axis ++ put shape
  | nll reduction ignored | nllGrad reduction ignored => put reduction ++ put ignored
  | l1 lambda reduction | l1Grad lambda reduction => put lambda ++ put reduction
  | identity | unary _ | binary _ | matMul | sum | unaryGrad _ | sgdVarUpdate => []

/-- Takes the attributes of the type with the given number. -/
def getFields : Nat → Reader OpKind
  | 0 => return identity
  | 1 => return unary .neg
  | 2 => return unary .reciprocal
  | 3 => return unary .sqrt
  | 4 => return unary .square
  | 5 => return unary .exp
  | 6 => return unary .log
  | 7 => return unary .abs
  | 8 => return unary .sign
  | 9 => return unary .ceil
  | 10 => return unary .floor
  | 11 => return unary .relu
  | 12 => return unary .sigmoid
  | 13 => return unary .tanh
  | 14 => do return unary (.scale (← Wire.get))
  | 15 => do return unary (.clip (← Wire.get) (← Wire.get))
  | 16 => do return softmax (← Wire.get)
  | 17 => return binary .add
  | 18 => return binary .sub
  | 19 => return binary .mul
  | 20 => return binary .div
  | 21 => return matMul
  | 22 => return sum
  | 23 => do return reduceSum (← Wire.get) (← Wire.get)
  | 24 => do return reshape (← Wire.get)
  | 25 => do return transpose (← Wire.get)
  | 26 => do return slice (← Wire.get) (← Wire.get) (← Wire.get)
  | 27 => do return pad (← Wire.get) (← Wire.get)
  | 28 => do return concat (← Wire.get)
  | 29 => do return gather (← Wire.get)
  | 30 => do return scatter (← Wire.get)
  | 31 => do return reduceToShape (← Wire.get)
  | 32 => return unaryGrad .sqrt
  | 33 => return unaryGrad .reciprocal
  | 34 => return unaryGrad .exp
  | 35 => return unaryGrad .relu
  | 36 => return unaryGrad .sigmoid
  | 37 => return unaryGrad .tanh
  | 38 => do return softmaxGrad (← Wire.get)
  | 39 => do return unaryGrad (.clip (← Wire.get) (← Wire.get))
  | 40 => do return operandGrad .divLeft (← Wire.get)
  | 41 => do return operandGrad .divRight (← Wire.get)
  | 42 => do return operandGrad .mul (← Wire.get)
  | 43 => do return operandGrad .subRight (← Wire.get)
  | 44 => do return reduceSumGrad (← Wire.get) (← Wire.get)
  | 45 => do return gatherGrad (← Wire.get) (← Wire.get)
  | 46 => do return scatterDataGrad (← Wire.get)
  | 47 => do return scatterUpdatesGrad (← Wire.get)
  | 48 => do return nll (← Wire.get) (← Wire.get)
  | 49 => do return l1 (← Wire.get) (← Wire.get)
  | 50 => do return nllGrad (← Wire.get) (← Wire.get)
  | 51 => do return l1Grad (← Wire.get) (← Wire.get)
  | 52 => return sgdVarUpdate
  | _ => failure

end OpKind

instance : Wire OpKind where
  put k := Wire.putTag k.tag ++ k.putFields
  get := do OpKind.getFields (← Wire.getTag)

end TensorGraph
