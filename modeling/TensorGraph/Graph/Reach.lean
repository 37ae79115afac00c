import TensorGraph.Graph.Basic

/-!
The ops that can be reached from others, layer by layer.
-/
namespace TensorGraph

namespace Graph

/-- All ops that are reached from `frontier` by `next` and are not in `seen`, at most `depth` layers deep, together
with those of `seen`. -/
def reachFrom (next : OpId → List OpId) : Nat → List OpId → SortedSet OpId → SortedSet OpId
  | 0, _, seen => seen
  | depth + 1, frontier, seen =>
    let fresh := frontier.filter fun id => !seen.contains id
    if fresh.isEmpty then seen
    else reachFrom next depth ((SortedSet.ofList fresh).toList.flatMap next) (seen.insertMany fresh)

/-- All ops that are reached from `start` by `next`. Every layer adds an op, so there are no more layers than
ops. -/
def reach (g : Graph) (next : OpId → List OpId) (start : List OpId) : SortedSet OpId :=
  reachFrom next (g.ops.size + 1) start .empty

/-- The forward ops that consume a tensor. -/
def forwardReaders (g : Graph) (id : TensorId) : List OpId :=
  (g.consumers id).filter fun op => (g.op? op).any (·.phase = .forward)

/-- The forward ops that depend on a weight. -/
def opsFromWeights (g : Graph) : SortedSet OpId :=
  g.reach (fun id => ((g.op? id).map (·.outputs)).getD [] |>.flatMap g.forwardReaders)
    (g.weights.flatMap g.forwardReaders)

/-- The ops that the given tensors depend on. -/
def opsTo (g : Graph) (ids : List TensorId) : SortedSet OpId :=
  g.reach (fun id => ((g.op? id).map (·.inputs)).getD [] |>.filterMap g.producer?) (ids.filterMap g.producer?)

end Graph

end TensorGraph
