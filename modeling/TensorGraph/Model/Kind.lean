import TensorGraph.Model.Basic
import TensorGraph.Op.Kind

/-!
Op kinds in models: what a node's type name and attributes stand for, and the attributes that a kind is written
with. Only forward ops stand in models.
-/
namespace TensorGraph

namespace OpKind

/-- The attribute `name` of a node, which must be there. -/
def requiredInts (n : Node) (name : String) : Outcome (List Int) :=
  .orFail (n.ints? name) (.graph (.missingAttribute n.opType n.name name))

/-- The kind that a node stands for. -/
def ofNode (n : Node) : Outcome OpKind :=
  match n.opType with
  | "Identity" => .ok identity
  | "Neg" => .ok (unary .neg)
  | "Reciprocal" => .ok (unary .reciprocal)
  | "Sqrt" => .ok (unary .sqrt)
  | "Square" => .ok (unary .square)
  | "Exp" => .ok (unary .exp)
  | "Log" => .ok (unary .log)
  | "Abs" => .ok (unary .abs)
  | "Sign" => .ok (unary .sign)
  | "Ceil" => .ok (unary .ceil)
  | "Floor" => .ok (unary .floor)
  | "Relu" => .ok (unary .relu)
  | "Sigmoid" => .ok (unary .sigmoid)
  | "Tanh" => .ok (unary .tanh)
  | "Scale" => .ok (unary (.scale ((n.float? "scale").getD .one)))
  | "Clip" => .ok (unary (.clip ((n.float? "min").getD .smallest) ((n.float? "max").getD .largest)))
  | "Softmax" => .ok (softmax ((n.int? "axis").getD 1))
  | "Add" => .ok (binary .add)
  | "Sub" => .ok (binary .sub)
  | "Mul" => .ok (binary .mul)
  | "Div" => .ok (binary .div)
  | "MatMul" => .ok matMul
  | "Sum" => .ok sum
  | "ReduceSum" => .ok (reduceSum (n.ints? "axes") ((n.int? "keepdims").getD 1 != 0))
  | "Reshape" => do return reshape (← requiredInts n "shape")
  | "Transpose" => do return transpose (← requiredInts n "perm")
  | "Slice" => do
    return slice (← requiredInts n "starts") (← requiredInts n "ends") (← requiredInts n "axes")
  | "Pad" => do return pad (← requiredInts n "pads") ((n.float? "value").getD .zero)
  | "Concat" => .ok (concat ((n.int? "axis").getD 0))
  | "Gather" => .ok (gather ((n.int? "axis").getD 0))
  | "Scatter" => .ok (scatter ((n.int? "axis").getD 0))
  | _ => .graph (.unsupportedOp n.opType n.name)

/-- The attributes that a kind is written with. -/
def attributes : OpKind → Dict String Attribute
  | unary (.scale factor) => .ofList [("scale", .float factor)]
  | unary (.clip min max) => .ofList [("min", .float min), ("max", .float max)]
  | softmax axis | concat axis | gather axis | scatter axis => .ofList [("axis", .int axis)]
  | reduceSum axes keepDims =>
    .ofList ((axes.map fun l => ("axes", Attribute.ints l)).toList ++
      [("keepdims", .int (if keepDims then 1 else 0))])
  | reshape shape => .ofList [("shape", .ints shape)]
  | transpose perm => .ofList [("perm", .ints perm)]
  | slice starts ends axes => .ofList [("starts", .ints starts), ("ends", .ints ends), ("axes", .ints axes)]
  | pad pads value => .ofList [("pads", .ints pads), ("value", .float value)]
  | _ => .empty

end OpKind

end TensorGraph
