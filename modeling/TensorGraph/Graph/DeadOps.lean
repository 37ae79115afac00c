import TensorGraph.Graph.Edit
import TensorGraph.Graph.Order
import TensorGraph.Graph.Reach

/-!
Removal of what nothing needs: an op is live if a tensor that must be kept, or an update of a weight, depends on
it. Dead ops go with their results, and constants and results that nothing is connected to go too.
-/
namespace TensorGraph

namespace Graph

/-- The tensors that are needed in themselves: those to be kept, and the updated weights. -/
def roots (g : Graph) : SortedSet TensorId :=
  g.kept.insertMany ((g.ops.values.filter (·.kind = .sgdVarUpdate)).flatMap (·.outputs))

/-- The ops that something needed depends on. -/
def liveOps (g : Graph) : SortedSet OpId := g.opsTo g.roots.toList

/-- Constants and results that no op produces or consumes and that need not be kept. -/
def orphans (g : Graph) : List TensorId :=
  (g.tensors.values.filter fun t =>
    (t.type == .const || t.type == .actGrad) && t.producer.isNone && t.consumers.isEmpty &&
      !g.isKept t.id).map (·.id)

/-- Removes dead ops and orphans; the number of removed ops. -/
def removeDead : GraphM Nat := do
  let g ← get
  let live := g.liveOps
  let order ← Stateful.lift g.order
  -- consumers go before the producers of what they read
  let dead := order.reverse.filter fun id => !live.contains id
  dead.forM fun id => do let _ ← Stateful.change fun g => g.eraseOp id
  (← get).orphans.forM fun id => do let _ ← Stateful.change fun g => g.removeTensor id
  return dead.length

end Graph

end TensorGraph
