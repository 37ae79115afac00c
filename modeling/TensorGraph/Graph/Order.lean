import TensorGraph.Graph.Basic

/-!
The order in which ops can run: every op after the producers of its operands, and of the ops that can come next
the one with the least number first. Ops on a cycle have no such order.
-/
namespace TensorGraph

namespace Graph

/-- How many producers each op still waits for, and the ops that wait for none. -/
structure Pending where
  waiting : Dict OpId Nat
  ready : SortedSet OpId

namespace Pending

/-- Every op waits for its dependencies. -/
def start (g : Graph) : Pending :=
  let waiting := g.ops.map fun _ op => (g.dependencies op).size
  { waiting, ready := .ofList ((waiting.entries.filter (·.2 = 0)).map (·.1)) }

/-- One producer of an op has run. An op that already waits for none cannot wait for one less: it reads its own
result, or it is listed as a consumer of something that it does not read. -/
def settle (p : Pending) (id : OpId) : Outcome Pending :=
  match p.waiting.get? id with
  | some (n + 1) =>
    .ok { waiting := p.waiting.insert id n, ready := if n = 0 then p.ready.insert id else p.ready }
  | some 0 => .error .abort
  | none => .ok p

end Pending

/-- The ops that consume a result of `op`. -/
def successors (g : Graph) (op : Op) : SortedSet OpId := .ofList (op.outputs.flatMap g.consumers)

/-- Takes the least ready op, at most `fuel` times. -/
def orderFrom (g : Graph) : Nat → Pending → Outcome (List OpId)
  | 0, _ => .ok []
  | fuel + 1, p =>
    match p.ready.toList with
    | [] => .ok []
    | id :: _ => do
      -- the set is sorted, so its first op is the least
      let taken := { p with ready := p.ready.erase id }
      let next := ((g.op? id).map fun op => (g.successors op).toList).getD []
      return id :: (← g.orderFrom fuel (← next.foldlM Pending.settle taken))

/-- The ops in the order in which they run. -/
def order (g : Graph) : Outcome (List OpId) := do
  let ids ← g.orderFrom g.ops.size (.start g)
  if ids.length ≠ g.ops.size then .graph .cycle else return ids

/-- The ops in the order in which they run, with their contents. -/
def orderedOps (g : Graph) : Outcome (List Op) := do return (← g.order).filterMap g.op?

end Graph

end TensorGraph
