import TensorGraph.Graph.Build
import TensorGraph.Graph.Edit
import TensorGraph.Placement.Stage

/-!
Placement of ops on virtual graphs. Forward ops are placed by cost or as the model says; losses, gradients and
updates follow the forward ops that they belong to.
-/
namespace TensorGraph

namespace Placement

/-- How forward ops are placed. -/
inductive Mode where
  /-- By cost. -/
  | automatic
  /-- As the ops themselves say. -/
  | manual
deriving DecidableEq, Repr

/-- What a placement came to. -/
structure Summary where
  stages : Nat
  virtualGraphs : Nat
  costs : List Nat
deriving DecidableEq, Repr

/-! ## Validity -/

/-- The virtual graph of a forward op, which must be one of `n` and not before those of its producers. -/
def checkOp (g : Graph) (n : Nat) (op : Op) : Outcome Int := do
  let v ← Outcome.orFail op.virtualGraph (.placement (.unassigned op.name))
  if v < 0 ∨ n ≤ v then .fail (.placement (.outOfRange op.name v n))
  else
    match ((g.dependencies op).toList.filterMap g.op?).find? fun p => v < p.virtualGraph.getD 0 with
    | some p => .fail (.placement (.backwardEdge op.name v p.name))
    | none => return v

/-- Checks that every forward op is placed on one of `n` virtual graphs, that none of these is empty, and that no
op reads from a later one. -/
def validate (g : Graph) (n : Nat) : Outcome Unit := do
  let used ← (g.ops.values.filter (·.phase = .forward)).mapM (checkOp g n)
  -- one of the first `used.length + 1` is free, if there are so many
  match (List.range (min n (used.length + 1))).find? fun v => !used.contains (Int.ofNat v) with
  | some v => .fail (.placement (.emptyGraph v))
  | none => return

/-! ## Placing forward ops -/

/-- The forward ops of a list with their positions. -/
def forwardOps (order : List Op) : List (Op × Nat) := order.zipIdx.filter (·.1.phase = .forward)

/-- The forward ops in stages. -/
def group (g : Graph) (order : List Op) (training : Bool) : Outcome Grouping :=
  (forwardOps order).foldlM (fun s (op, i) => s.add g training op i) {}

/-- Places forward ops by cost; the number of stages. -/
def automatic (balance : Balance) (g : Graph) (order : List Op) (n : Nat) (training : Bool) :
    Outcome (List (OpId × Int) × Nat) := do
  let grouping ← group g order training
  let position := fun id => (order.map (·.id)).idxOf id
  let stages ← split balance position n (n - grouping.stages.length) grouping.stages
  let sorted := stages.mergeSort fun a b => a.position ≤ b.position
  let total ← Word.sum (sorted.map (·.cost))
  return ((deal balance n total sorted 0 0).map fun (id, v) => (id, Int.ofNat v), sorted.length)

/-- The virtual graph that a forward op names. -/
def named (n : Nat) (op : Op) : Outcome (OpId × Int) := do
  let v ← Outcome.orFail op.virtualGraph (.config (.notPlaced op.name))
  if v < 0 ∨ n ≤ v then .fail (.config (.placedOutOfRange op.name v n)) else return (op.id, v)

/-- Leaves forward ops where they say; the number of virtual graphs in use. -/
def manual (order : List Op) (n : Nat) : Outcome (List (OpId × Int) × Nat) := do
  let placed ← (forwardOps order).mapM fun (op, _) => named n op
  return (placed, (SortedSet.ofList (placed.map (·.2))).size)

/-- Places an op. -/
def place (g : Graph) (id : OpId) (v : Int) : Graph := g.modifyOp id fun op => { op with virtualGraph := some v }

/-! ## Placing the rest -/

/-- The virtual graph of the first forward op that reads the weight of an update. -/
def weightUser? (g : Graph) (op : Op) : Option Int :=
  if op.kind = .sgdVarUpdate then
    let users := ((op.inputs.head?.map g.consumers).getD []).filterMap g.op?
    (users.find? (·.phase = .forward)).bind (·.virtualGraph)
  else none

/-- The latest virtual graph of the producers of an op. -/
def latestProducer? (g : Graph) (op : Op) : Option Int :=
  ((op.inputs.filterMap g.producer?).filterMap g.op?).filterMap (·.virtualGraph) |>.max?

/-- Where an op that is not a forward op goes: to its forward op, to the reader of its weight, to its latest
producer, or to the first virtual graph. -/
def following (g : Graph) (op : Op) : Int :=
  let own := (op.forwardOp.bind g.op?).bind (·.virtualGraph)
  ((own.or (weightUser? g op)).or (latestProducer? g op)).getD 0

/-- Places the ops that are not forward ops, in the order in which they run. -/
def placeFollowers (g : Graph) (order : List OpId) : Graph :=
  order.foldl
    (fun g id =>
      match g.op? id with
      | some op => if op.phase = .forward then g else place g id (following g op)
      | none => g)
    g

/-- The cost of each virtual graph. -/
def costs (g : Graph) (n : Nat) (training : Bool) : Outcome (List Nat) := do
  (List.range n).mapM fun v => do
    let ops := g.ops.values.filter (·.virtualGraph = some (Int.ofNat v))
    Word.sum (← ops.mapM fun op => g.cost op training)

/-- Where forward ops go, and the number of stages. -/
def forwardPlaces (balance : Balance) (mode : Mode) (g : Graph) (order : List Op) (n : Nat) (training : Bool) :
    Outcome (List (OpId × Int) × Nat) :=
  match mode with
  | .automatic => automatic balance g order n training
  | .manual => manual order n

/-- Places forward ops where they go, and the others after them. -/
def placeAll (g : Graph) (order : List Op) (placed : List (OpId × Int)) : Graph :=
  placeFollowers (placed.foldl (fun g (id, v) => place g id v) g) (order.map (·.id))

/-- What is checked of a placement: that it is valid if nobody asked for it, and that there is room for the costs,
which there is where each virtual graph has an op. -/
def check (mode : Mode) (g : Graph) (n : Nat) : Outcome Unit :=
  match mode with
  | .automatic => validate g n
  | .manual => Word.room 8 n

/-- Places all ops on `n` virtual graphs, by the given balance. -/
def runBy (balance : Balance) (mode : Mode) (n : Nat) (training : Bool) : BuildM Summary := do
  let g := (← get).graph
  let order ← Stateful.lift g.orderedOps
  let (placed, stages) ← Stateful.lift (forwardPlaces balance mode g order n training)
  let followed := placeAll g order placed
  -- the placement stays even if it then turns out not to be valid
  modify fun b => { b with graph := followed }
  Stateful.lift (check mode followed n)
  let costs ← Stateful.lift (costs followed n training)
  BuildM.report (.placed stages n)
  return { stages, virtualGraphs := n, costs }

/-- Places all ops on `n` virtual graphs. -/
def run (mode : Mode) (n : Nat) (training : Bool) : BuildM Summary := runBy .double mode n training

end Placement

end TensorGraph
