import TensorGraph.Graph.Order
import TensorGraph.Tensor.Count

/-!
Stages of a forward pass: runs of ops that feed each other. Stages are found by following single producers,
split near half of their cost until there are enough of them, and dealt out to virtual graphs by cost. Costs are
held in words and are compared exactly with each other; how they stand to a part of a total is a matter of the
balance that is used, which is that of double precision.
-/
namespace TensorGraph

namespace Graph

/-- The cost of an op: the size of its result, for a product of matrices with the length of the inner axis;
training runs the op two times, a product three times. -/
def cost (g : Graph) (op : Op) (training : Bool) : Outcome Nat := do
  let size ← match op.outputs.head?.bind g.info? with
    | some info => info.counted
    | none => pure 0
  match op.kind with
  | .matMul =>
    let inner := (((op.inputs.head?.bind g.info?).bind (·.shape.getLast?)).getD 1).toNat
    let once := 2 * size * max inner 1
    Word.nat (if training then 3 * once else once)
  | _ => Word.nat (if training then 2 * size else size)

end Graph

namespace Placement

/-- How costs stand to parts of a total. -/
structure Balance where
  /-- Whether the first cost of a front part is nearer to half of a total than the second. -/
  nearer : (total first second : Nat) → Bool
  /-- Whether what is spent reaches the share of the first `graphs` of `count` virtual graphs in a total. -/
  reaches : (spent total graphs count : Nat) → Bool

namespace Balance

/-- How far the cost of a front part is from half of the total. -/
def imbalance (total front : Nat) : Float := (Float.ofNat front - Float.ofNat total * 0.5).abs

/-- The balance of double precision. -/
def double : Balance where
  nearer total first second := imbalance total first < imbalance total second
  reaches spent total graphs count := Float.ofNat total * Float.ofNat graphs / Float.ofNat count ≤ Float.ofNat spent

end Balance

/-- Consecutive ops with their costs; `position` is that of the first in the order in which ops run. -/
structure Stage where
  position : Nat
  ops : List (OpId × Nat)
deriving DecidableEq, Repr

namespace Stage

/-- The cost of a stage. -/
def cost (s : Stage) : Nat := sumOf (s.ops.map (·.2))

/-- The numbers of ops that a front part may have, with the cost of that part. -/
def cuts : List (OpId × Nat) → Nat → Nat → List (Nat × Nat)
  | [], _, _ => []
  | [_], _, _ => []
  | (_, c) :: rest, taken, front => (taken + 1, front + c) :: cuts rest (taken + 1) (front + c)

/-- A cut in place of the best so far, if it is nearer to half of the total. -/
def nearerCut (balance : Balance) (total : Nat) : Option (Nat × Nat) → Nat × Nat → Option (Nat × Nat)
  | none, cut => some cut
  | some best, cut => if balance.nearer total cut.2 best.2 then some cut else some best

/-- The cut that divides the costs most evenly, the first of several. -/
def bestCut? (balance : Balance) (s : Stage) : Option Nat :=
  ((cuts s.ops 0 0).foldl (nearerCut balance s.cost) none).map (·.1)

end Stage

/-- The stages of the forward ops, and the stage of each op. -/
structure Grouping where
  stages : List Stage := []
  stageOf : Dict OpId Nat := .empty

namespace Grouping

/-- Puts an op into the stage of its producers if that is a single one, and into a new one otherwise. -/
def add (g : Graph) (training : Bool) (s : Grouping) (op : Op) (position : Nat) : Outcome Grouping := do
  let entry := (op.id, ← g.cost op training)
  let owners := SortedSet.ofList ((g.dependencies op).toList.filterMap s.stageOf.get?)
  match owners.toList with
  | [owner] =>
    return { stages := s.stages.modify owner fun t => { t with ops := t.ops ++ [entry] }
             stageOf := s.stageOf.insert op.id owner }
  | _ =>
    return { stages := s.stages ++ [⟨position, [entry]⟩]
             stageOf := s.stageOf.insert op.id s.stages.length }

end Grouping

/-- A stage, with its number and cut, in place of the costliest so far, if it can be cut and costs more. -/
def costlier (balance : Balance) (best : Option (Nat × Stage × Nat)) (entry : Stage × Nat) :
    Option (Nat × Stage × Nat) :=
  match entry.1.bestCut? balance, best with
  | none, _ => best
  | some cut, some b => if entry.1.cost ≤ b.2.1.cost then some b else some (entry.2, entry.1, cut)
  | some cut, none => some (entry.2, entry.1, cut)

/-- The costliest stage that can be cut, the first of several, with its number and cut. -/
def costliest? (balance : Balance) (stages : List Stage) : Option (Nat × Stage × Nat) :=
  stages.zipIdx.foldl (costlier balance) none

/-- Splits stages until there are `missing` more of them, `wanted` in all; `position` is that of an op. -/
def split (balance : Balance) (position : OpId → Nat) (wanted : Nat) : Nat → List Stage → Outcome (List Stage)
  | 0, stages => .ok stages
  | missing + 1, stages => do
    -- the costs of stages that can be cut are added up to be compared
    (stages.filter (1 < ·.ops.length)).forM fun s => do let _ ← Word.nat s.cost
    match costliest? balance stages with
    | none => .fail (.placement (.tooFewSplits stages.length wanted))
    | some (i, stage, n) =>
      let tail := stage.ops.drop n
      let start := (tail.head?.map fun e => position e.1).getD 0
      split balance position wanted missing
        (stages.set i { stage with ops := stage.ops.take n } ++ [⟨start, tail⟩])

/-- The virtual graph of each op: a virtual graph is full when its share of the cost is reached, or when each of
those left needs a stage of its own. -/
def deal (balance : Balance) (count total : Nat) : List Stage → Nat → Nat → List (OpId × Nat)
  | [], _, _ => []
  | stage :: rest, current, spent =>
    let spent := spent + stage.cost
    let left := count - (current + 1)
    let full := 0 < left ∧ (rest.length ≤ left ∨ balance.reaches spent total (current + 1) count)
    stage.ops.map (fun e => (e.1, current)) ++
      deal balance count total rest (if full then current + 1 else current) spent

end Placement

end TensorGraph
