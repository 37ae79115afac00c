import TensorGraph.Kernel.Backend
import TensorGraph.Pattern.Basic

/-!
Patterns that simplify the structure of a graph: ops on constants become constants, ops that pass their operand
on become identities, and identities disappear.
-/
namespace TensorGraph

namespace Pattern

/-! ## Constants -/

/-- The value of a constant. -/
def constantValue? (g : Graph) (id : TensorId) : Option HostTensor :=
  (g.tensor? id).bind fun t => if t.type = .const then t.data else none

/-- Runs an op whose operands are all constants and makes its results constants. -/
def foldConstants (backend : Backend) : Pattern where
  name := "ConstExprFold"
  benefit := 3
  applies op := !op.inputs.isEmpty && op.kind != .sgdVarUpdate
  attempt op := do
    let g := (← get).graph
    match op.inputs.mapM (constantValue? g) with
    | none => return false
    | some values =>
      let infos ← Stateful.lift (op.outputs.mapM g.info)
      let folded ← backend.evaluate op.kind values infos
      Editor.detach op
      (op.outputs.zip folded).forM fun (output, value) =>
        Editor.onGraph (Stateful.change fun g => do return ((), ← g.makeConst output value))
      return true

/-! ## Identities -/

/-- Lets the consumers of an identity read its operand and removes it, unless its result must be kept. -/
def dropIdentity : Pattern where
  name := "PostNRepl"
  applies op := op.kind == .identity
  attempt op := do
    let input ← op.input 0
    let output ← op.output
    if (← get).graph.isKept output then return false
    else
      Editor.replaceAllUses output input
      Editor.erase op
      return true

/-- Whether an op of this kind may pass its operand on. -/
def mayPassOn : OpKind → Bool
  | .reduceSum _ _ | .sum | .concat _ | .pad _ _ | .reshape _ | .transpose _ | .slice _ _ _
  | .unary (.scale _) | .reduceToShape _ => true
  | _ => false

/-- Whether an op whose first operand and result have equal infos passes that operand on. -/
def passesOn (op : Op) : Bool :=
  match op.kind with
  | .sum | .concat _ => op.inputs.length == 1
  | .pad pads _ => pads.all (· == 0)
  | .unary (.scale factor) => factor.numEq .one
  | .transpose perm => perm == (List.range perm.length).map Int.ofNat
  | .reduceSum _ _ | .reshape _ | .slice _ _ _ | .reduceToShape _ => true
  | _ => false

/-- Replaces an op that passes its operand on by an identity. -/
def toIdentity : Pattern where
  name := "OpToIdentity"
  applies op := mayPassOn op.kind && !op.inputs.isEmpty
  attempt op := do
    let input ← op.input 0
    let output ← op.output
    let g := (← get).graph
    if (g.info? input).isSome && g.info? input == g.info? output && passesOn op then
      Editor.detach op
      Editor.insertAs op .identity [input] output
      return true
    else return false

end Pattern

end TensorGraph
