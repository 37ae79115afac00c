import TensorGraph.Graph.Edit

/-!
Gradient rules: for every kind of op, the ops that compute the gradients for its operands from the gradient for
its result. A rule adds ops only for operands that need a gradient. Kinds without a rule cannot stand between a
weight and a loss.
-/
namespace TensorGraph

/-- The name of the gradient for a tensor. -/
def gradId (id : TensorId) : TensorId := "d__" ++ id

/-- The name of the updated value of a weight. -/
def updatedId (id : TensorId) : TensorId := "updatedVar__" ++ id

/-- A gradient for one operand of an op, still to be added to those from other ops. -/
structure Partial where
  op : OpId
  operand : Nat
  tensor : TensorId
deriving DecidableEq, Repr

/-- A graph to which gradients are added: the gradients that wait for their sum, and the number of added ops. -/
structure Synthesis where
  graph : Graph
  partials : Dict TensorId (List Partial) := .empty
  added : Nat := 0

/-- A call that adds gradients. -/
abbrev GradM := Stateful Synthesis

namespace GradM

/-- Runs a change of the graph. -/
def onGraph {α : Type} (x : GraphM α) : GradM α := x.focus Synthesis.graph fun g s => { s with graph := g }

/-- Adds an op of the backward pass under a name, next to the op whose gradient it computes. -/
def addOp (owner : Op) (kind : OpKind) (inputs : List TensorId) (output : TensorId) : GradM Unit := do
  let id ← onGraph (Stateful.change fun g => g.addOp kind inputs [output] .backward)
  modify fun s =>
    { s with
      graph := s.graph.modifyOp id fun op =>
        { op with forwardOp := some owner.id, virtualGraph := owner.virtualGraph }
      added := s.added + 1 }

/-- Adds an op of the backward pass under a fresh name. -/
def addFresh (owner : Op) (kind : OpKind) (inputs : List TensorId) (base : TensorId) : GradM TensorId := do
  let output ← onGraph (Stateful.change fun g => .ok (g.tempId (gradId base)))
  addOp owner kind inputs output
  return output

end GradM

/-- An op whose gradient is wanted: the op, which operands need a gradient, and the gradient for its result. -/
structure GradCall where
  op : Op
  needs : List Bool
  incoming : TensorId

/-- Adds the ops of a gradient; for each operand the gradient, if it needs one. -/
abbrev GradRule := GradCall → GradM (List (Option TensorId))

namespace GradCall

/-- Whether an operand needs a gradient. -/
def isNeeded (c : GradCall) (i : Nat) : Bool := c.needs.getD i false

/-- Adds an op of the gradient. -/
def emit (c : GradCall) (kind : OpKind) (inputs : List TensorId) : GradM TensorId := do
  GradM.addFresh c.op kind inputs (← c.op.output)

/-- The shape of an operand. -/
def shape (c : GradCall) (i : Nat) : GradM Shape := do
  let info ← (← get).graph.info (← c.op.input i)
  return info.shape

/-- The gradient for an operand, if it needs one. -/
def operand (c : GradCall) (i : Nat) (x : GradM TensorId) : GradM (Option TensorId) :=
  if c.isNeeded i then some <$> x else return none

/-- The gradient for the only operand by one op. -/
def only (c : GradCall) (kind : OpKind) (inputs : List TensorId) : GradM (List (Option TensorId)) := do
  return [← c.operand 0 (c.emit kind inputs)]

/-- The gradient for an operand that was stretched: the incoming one, summed over the axes of the stretch. -/
def summed (c : GradCall) (i : Nat) : GradM (Option TensorId) :=
  c.operand i do c.emit (.reduceToShape (← c.shape i)) [c.incoming]

end GradCall

namespace GradRule

/-! ## Rules for functions of elements -/

/-- The rule for a function of one element. The sign, and rounding to whole numbers, have none. -/
def unary? : Unary → Option GradRule
  | .neg => some fun c => c.only (.unary .neg) [c.incoming]
  | .reciprocal => some fun c => do c.only (.unaryGrad .reciprocal) [c.incoming, ← c.op.input 0]
  | .sqrt => some fun c => do c.only (.unaryGrad .sqrt) [c.incoming, ← c.op.output]
  | .square => some fun c => do
    let x ← c.op.input 0
    return [← c.operand 0 do
      let product ← c.emit (.binary .mul) [c.incoming, x]
      c.emit (.unary (.scale .two)) [product]]
  | .exp => some fun c => do c.only (.unaryGrad .exp) [c.incoming, ← c.op.output]
  | .log => some fun c => do c.only (.binary .div) [c.incoming, ← c.op.input 0]
  | .abs => some fun c => do
    let x ← c.op.input 0
    return [← c.operand 0 do
      let sign ← c.emit (.unary .sign) [x]
      c.emit (.binary .mul) [c.incoming, sign]]
  | .relu => some fun c => do c.only (.unaryGrad .relu) [c.incoming, ← c.op.output]
  | .sigmoid => some fun c => do c.only (.unaryGrad .sigmoid) [c.incoming, ← c.op.output]
  | .tanh => some fun c => do c.only (.unaryGrad .tanh) [c.incoming, ← c.op.output]
  | .scale factor => some fun c => c.only (.unary (.scale factor)) [c.incoming]
  | .clip min max => some fun c => do c.only (.unaryGrad (.clip min max)) [c.incoming, ← c.op.input 0]
  | .sign | .ceil | .floor => none

/-- The rule for a function of two elements. -/
def binary : Binary → GradRule
  | .add => fun c => do return [← c.summed 0, ← c.summed 1]
  | .sub => fun c => do
    let left ← c.summed 0
    let right ← c.operand 1 do c.emit (.operandGrad .subRight (← c.shape 1)) [c.incoming]
    return [left, right]
  | .mul => fun c => do
    let left ← c.operand 0 do c.emit (.operandGrad .mul (← c.shape 0)) [c.incoming, ← c.op.input 1]
    let right ← c.operand 1 do c.emit (.operandGrad .mul (← c.shape 1)) [c.incoming, ← c.op.input 0]
    return [left, right]
  | .div => fun c => do
    let a ← c.op.input 0
    let b ← c.op.input 1
    let left ← c.operand 0 do c.emit (.operandGrad .divLeft (← c.shape 0)) [c.incoming, b]
    let right ← c.operand 1 do c.emit (.operandGrad .divRight (← c.shape 1)) [c.incoming, a, b]
    return [left, right]

/-! ## Rules for sums and movement -/

/-- Products of matrices: each gradient is the incoming one times the other factor, transposed. -/
def matMul : GradRule := fun c => do
  let a ← c.op.input 0
  let b ← c.op.input 1
  let left ← c.operand 0 do c.emit .matMul [c.incoming, ← c.emit (.transpose [1, 0]) [b]]
  let right ← c.operand 1 do c.emit .matMul [← c.emit (.transpose [1, 0]) [a], c.incoming]
  return [left, right]

/-- Sums: each operand gets the incoming gradient. -/
def sum : GradRule := fun c => (List.range c.op.inputs.length).mapM c.summed

/-- Sums over axes: the incoming gradient is spread along them. -/
def reduceSum (axes : Option (List Int)) (keepDims : Bool) : GradRule := fun c => do
  let shape ← c.shape 0
  let dropped ← if keepDims then pure [] else Stateful.lift (shape.reductionAxes axes)
  c.only (.reduceSumGrad shape (dropped.map Int.ofNat)) [c.incoming]

/-- Another shape: the incoming gradient takes the shape of the operand. -/
def reshape : GradRule := fun c => do c.only (.reshape (← c.shape 0)) [c.incoming]

/-- The order of axes that undoes `perm`. -/
def inverse (perm : List Int) : List Int :=
  let fromFront := perm.map (Shape.fromFront · perm.length)
  (List.range perm.length).map fun j => Int.ofNat (fromFront.idxOf (Int.ofNat j))

/-- Another order of axes: it is undone. -/
def transpose (perm : List Int) : GradRule := fun c => c.only (.transpose (inverse perm)) [c.incoming]

/-- The pads that put a slice back into its place. -/
def slicePads (shape : Shape) (ranges : List Shape.Range) : List Int :=
  let n := shape.length
  ranges.foldl
    (fun pads r => (pads.set r.axis r.start).set (r.axis + n) (shape.getD r.axis 0 - r.stop))
    (List.replicate (2 * n) 0)

/-- Parts: what was left out gets zeros. -/
def slice (starts ends axes : List Int) : GradRule := fun c => do
  let shape ← c.shape 0
  let ranges ← shape.sliceRanges starts ends axes
  c.only (.pad (slicePads shape ranges) .zero) [c.incoming]

/-- Padding: it is cut off. -/
def pad (pads : List Int) : GradRule := fun c => do
  let shape ← c.shape 0
  if pads.length < shape.length then Stateful.lift (.error .abort)
  let starts := pads.take shape.length
  let ends ← Stateful.lift ((List.zipWith (· + ·) starts shape).mapM Word.int)
  c.only (.slice starts ends ((List.range shape.length).map Int.ofNat)) [c.incoming]

/-- The gradients for the operands of a concatenation from number `i` on, the first of which starts at
`offset`. -/
def concatFrom (c : GradCall) (axis : Nat) : Nat → Nat → Int → GradM (List (Option TensorId))
  | 0, _, _ => return []
  | count + 1, i, offset => do
    let extent ← Outcome.promised (← c.shape i)[axis]?
    let stop ← Word.int (offset + extent)
    let first ← c.operand i (c.emit (.slice [offset] [stop] [Int.ofNat axis]) [c.incoming])
    let rest ← concatFrom c axis count (i + 1) stop
    return first :: rest

/-- Concatenation: each operand gets its part. -/
def concat (axis : Int) : GradRule := fun c => do
  let resolved ← (← c.shape 0).axis axis
  concatFrom c resolved c.op.inputs.length 0 0

/-- Gathering: the gradients go back to where the elements came from. -/
def gather (axis : Int) : GradRule := fun c => do
  let shape ← c.shape 0
  let indices ← c.op.input 1
  return [← c.operand 0 (c.emit (.gatherGrad axis shape) [c.incoming, indices]), none]

/-- Scattering: overwritten elements get nothing, and the updates get what stands in their place. -/
def scatter (axis : Int) : GradRule := fun c => do
  let indices ← c.op.input 1
  let data ← c.operand 0 (c.emit (.scatterDataGrad axis) [c.incoming, indices])
  let updates ← c.operand 2 (c.emit (.scatterUpdatesGrad axis) [c.incoming, indices])
  return [data, none, updates]

/-- The rule for a kind. -/
def ofKind? : OpKind → Option GradRule
  | .identity => some fun c => c.only .identity [c.incoming]
  | .unary f => unary? f
  | .softmax axis => some fun c => do c.only (.softmaxGrad axis) [c.incoming, ← c.op.output]
  | .binary f => some (binary f)
  | .matMul => some matMul
  | .sum => some sum
  | .reduceSum axes keepDims => some (reduceSum axes keepDims)
  | .reshape _ => some reshape
  | .transpose perm => some (transpose perm)
  | .slice starts ends axes => some (slice starts ends axes)
  | .pad pads _ => some (pad pads)
  | .concat axis => some (concat axis)
  | .gather axis => some (gather axis)
  | .scatter axis => some (scatter axis)
  | _ => none

/-- The types of ops that have a rule. -/
def types : List String :=
  ["Identity", "Neg", "Reciprocal", "Sqrt", "Square", "Exp", "Log", "Abs", "Relu", "Sigmoid", "Tanh", "Scale",
    "Clip", "Softmax", "Add", "Sub", "Mul", "Div", "MatMul", "Sum", "ReduceSum", "Reshape", "Transpose", "Slice",
    "Pad", "Concat", "Gather", "Scatter"]

end GradRule

/-- Rules registered for types of ops by name; they come before the rules for kinds. -/
abbrev GradRegistry := Dict String GradRule

/-- The rule for a kind, if there is one. -/
def GradRegistry.rule? (r : GradRegistry) (kind : OpKind) : Option GradRule :=
  (r.get? kind.typeName).or (GradRule.ofKind? kind)

/-- Whether ops of a type have a rule. -/
def GradRegistry.covers (r : GradRegistry) (type : String) : Bool :=
  r.contains type || GradRule.types.contains type

end TensorGraph
