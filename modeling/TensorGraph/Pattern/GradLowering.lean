import TensorGraph.Pattern.Basic

/-!
Patterns that spell gradient ops out in plain ops. The result keeps its name, the steps on the way get fresh
ones.
-/
namespace TensorGraph

namespace Pattern

/-- A pattern that replaces ops of some kinds: `steps` inserts the ops in their place. -/
def lowering (name : String) (applies : OpKind → Bool) (steps : Op → EditM Unit) : Pattern where
  name := name
  benefit := 2
  applies op := applies op.kind
  attempt op := do
    Editor.detach op
    steps op
    return true

/-- Ends a lowering with an op that produces the result. -/
def conclude (op : Op) (kind : OpKind) (inputs : List TensorId) : EditM Unit := do
  Editor.insertAs op kind inputs (← op.output)

/-- The gradient of a square root is the incoming one over twice the result. -/
def lowerSqrtGrad : Pattern :=
  lowering "SqrtGradOp" (· == .unaryGrad .sqrt) fun op => do
    let doubled ← Editor.insertBeside op (.unary (.scale .two)) [← op.input 1]
    conclude op (.binary .div) [← op.input 0, doubled]

/-- The gradient of a reciprocal is the incoming one over the squared operand, negated. -/
def lowerReciprocalGrad : Pattern :=
  lowering "ReciprocalGradOp" (· == .unaryGrad .reciprocal) fun op => do
    let squared ← Editor.insertBeside op (.unary .square) [← op.input 1]
    let ratio ← Editor.insertBeside op (.binary .div) [← op.input 0, squared]
    conclude op (.unary .neg) [ratio]

/-- The gradient of an exponential is the incoming one times the result. -/
def lowerExpGrad : Pattern :=
  lowering "ExpGradOp" (· == .unaryGrad .exp) fun op => conclude op (.binary .mul) op.inputs

/-- Whether a kind is the gradient for an operand in the given way. -/
def isOperandGrad (f : OperandGrad) : OpKind → Bool
  | .operandGrad g _ => g == f
  | _ => false

/-- A pattern that replaces gradients for an operand: `steps` inserts the ops for the gradient of the stretched
operand, which is then summed over the axes of the stretch. -/
def operandLowering (name : String) (f : OperandGrad) (steps : Op → EditM TensorId) : Pattern where
  name := name
  benefit := 2
  applies op := isOperandGrad f op.kind
  attempt op :=
    match op.kind with
    | .operandGrad _ shape => do
      Editor.detach op
      conclude op (.reduceToShape shape) [← steps op]
      return true
    | _ => return false

/-- The gradient of a dividend is the incoming one over the divisor. -/
def lowerDivLeftGrad : Pattern :=
  operandLowering "DivArg0GradOp" .divLeft fun op => do
    Editor.insertBeside op (.binary .div) [← op.input 0, ← op.input 1]

/-- The gradient of a divisor is the incoming one times the dividend over the squared divisor, negated. -/
def lowerDivRightGrad : Pattern :=
  operandLowering "DivArg1GradOp" .divRight fun op => do
    let scaled ← Editor.insertBeside op (.binary .mul) [← op.input 0, ← op.input 1]
    let squared ← Editor.insertBeside op (.unary .square) [← op.input 2]
    let ratio ← Editor.insertBeside op (.binary .div) [scaled, squared]
    Editor.insertBeside op (.unary .neg) [ratio]

/-- The gradient of a factor is the incoming one times the other factor. -/
def lowerMulGrad : Pattern :=
  operandLowering "MulArgGradOp" .mul fun op => Editor.insertBeside op (.binary .mul) op.inputs

/-- The gradient of a subtrahend is the incoming one, negated. -/
def lowerSubRightGrad : Pattern :=
  operandLowering "SubtractArg1GradOp" .subRight fun op => do
    Editor.insertBeside op (.unary .neg) [← op.input 0]

end Pattern

end TensorGraph
