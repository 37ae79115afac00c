import TensorGraph.Interchange.Tensor
import TensorGraph.Model.Kind

/-!
The JSON form of op kinds: an object with the type name and the attributes, or the bare type name of a kind that
has none.
-/
namespace TensorGraph

instance : ToJson Reduction := ⟨fun r => .str r.label⟩

instance : OfJson Reduction where
  ofJson
    | .str "Sum" => .ok .sum
    | .str "Mean" => .ok .mean
    | _ => .error .abort

namespace OpKind

/-- The attributes of a kind. -/
def fields : OpKind → List (String × Json)
  | unary (.scale factor) => [("factor", toJson factor)]
  | unary (.clip min max) | unaryGrad (.clip min max) => [("min", toJson min), ("max", toJson max)]
  | softmax axis | concat axis | gather axis | scatter axis | softmaxGrad axis | scatterDataGrad axis
  | scatterUpdatesGrad axis => [("axis", toJson axis)]
  | reduceSum axes keepDims => [("axes", toJson axes), ("keepdims", toJson keepDims)]
  | reshape shape | reduceToShape shape | operandGrad _ shape => [("shape", toJson shape)]
  | transpose perm => [("perm", toJson perm)]
  | slice starts ends axes => [("starts", toJson starts), ("ends", toJson ends), ("axes", toJson axes)]
  | pad pads value => [("pads", toJson pads), ("value", toJson value)]
  | reduceSumGrad shape axes => [("shape", toJson shape), ("axes", toJson axes)]
  | gatherGrad axis shape => [("axis", toJson axis), ("shape", toJson shape)]
  | nll reduction ignored | nllGrad reduction ignored =>
    [("reduction", toJson reduction), ("ignore_index", toJson ignored)]
  | l1 lambda reduction | l1Grad lambda reduction =>
    [("lambda", toJson lambda), ("reduction", toJson reduction)]
  | identity | unary _ | binary _ | matMul | sum | unaryGrad _ | sgdVarUpdate => []

/-- The kinds without attributes. -/
def plainKinds : List OpKind :=
  [identity, unary .neg, unary .reciprocal, unary .sqrt, unary .square, unary .exp, unary .log, unary .abs,
    unary .sign, unary .ceil, unary .floor, unary .relu, unary .sigmoid, unary .tanh, binary .add, binary .sub,
    binary .mul, binary .div, matMul, sum, unaryGrad .sqrt, unaryGrad .reciprocal, unaryGrad .exp,
    unaryGrad .relu, unaryGrad .sigmoid, unaryGrad .tanh, sgdVarUpdate]

/-- Reads a kind from its type name and the object that holds its attributes. -/
def ofFields (type : String) (j : Json) : Outcome OpKind :=
  match type with
  | "Scale" => do return unary (.scale (← j.get "factor"))
  | "Clip" => do return unary (.clip (← j.get "min") (← j.get "max"))
  | "Softmax" => do return softmax (← j.get "axis")
  | "ReduceSum" => do return reduceSum (← j.get? "axes") (← j.get "keepdims")
  | "Reshape" => do return reshape (← j.get "shape")
  | "Transpose" => do return transpose (← j.get "perm")
  | "Slice" => do return slice (← j.get "starts") (← j.get "ends") (← j.get "axes")
  | "Pad" => do return pad (← j.get "pads") (← j.get "value")
  | "Concat" => do return concat (← j.get "axis")
  | "Gather" => do return gather (← j.get "axis")
  | "Scatter" => do return scatter (← j.get "axis")
  | "ReduceToShape" => do return reduceToShape (← j.get "shape")
  | "SoftmaxGrad" => do return softmaxGrad (← j.get "axis")
  | "ClipGrad" => do return unaryGrad (.clip (← j.get "min") (← j.get "max"))
  | "DivArg0Grad" => do return operandGrad .divLeft (← j.get "shape")
  | "DivArg1Grad" => do return operandGrad .divRight (← j.get "shape")
  | "MulArgGrad" => do return operandGrad .mul (← j.get "shape")
  | "SubtractArg1Grad" => do return operandGrad .subRight (← j.get "shape")
  | "ReduceSumGrad" => do return reduceSumGrad (← j.get "shape") (← j.get "axes")
  | "GatherGrad" => do return gatherGrad (← j.get "axis") (← j.get "shape")
  | "ScatterDataGrad" => do return scatterDataGrad (← j.get "axis")
  | "ScatterUpdatesGrad" => do return scatterUpdatesGrad (← j.get "axis")
  | "Nll" => do return nll (← j.getD "reduction" .sum) (← j.get? "ignore_index")
  | "NllGrad" => do return nllGrad (← j.getD "reduction" .sum) (← j.get? "ignore_index")
  | "L1" => do return l1 (← j.get "lambda") (← j.getD "reduction" .sum)
  | "L1Grad" => do return l1Grad (← j.get "lambda") (← j.getD "reduction" .sum)
  | _ => Outcome.promised (plainKinds.find? fun k => k.typeName == type)

end OpKind

instance : ToJson OpKind := ⟨fun k => .obj (("type", .str k.typeName) :: k.fields)⟩

instance : OfJson OpKind where
  ofJson
    | .str type => OpKind.ofFields type .null
    | j => do OpKind.ofFields (← j.get "type") j

end TensorGraph
