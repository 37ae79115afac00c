import TensorGraph.Graph.Edit
import TensorGraph.Graph.Order

/-!
Marks ops that may write their result over their first operand: nothing else reads that operand, and it need not
be kept.
-/
namespace TensorGraph

namespace Graph

/-- The name under which an op can be excluded from running in place. -/
def inPlaceName : String := "InPlace"

/-- Whether nothing is lost when `op` writes over its first operand. -/
def mayOverwrite (g : Graph) (op : Op) : Bool :=
  match op.inputs with
  | [] => false
  | first :: others =>
    match g.tensor? first with
    | none => false
    | some t =>
      t.type == .actGrad && t.producer.isSome && t.consumers.size == 1 && !others.contains first &&
        !g.isKept first && (op.outputs.head?.bind g.info?) == some t.info

/-- Whether an op is to be marked. -/
def inPlaceCandidate (g : Graph) (op : Op) : Bool :=
  !op.inPlace && op.kind.supportsInPlace && !op.excluded.contains inPlaceName && g.mayOverwrite op

/-- Marks the ops that may run in place; the number of marked ops. -/
def markInPlace : GraphM Nat := do
  let g ← get
  let order ← Stateful.lift g.orderedOps
  let chosen := order.filter g.inPlaceCandidate
  set (chosen.foldl (fun g op => g.modifyOp op.id fun o => { o with inPlace := true }) g)
  return chosen.length

end Graph

end TensorGraph
