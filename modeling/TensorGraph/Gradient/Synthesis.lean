import TensorGraph.Gradient.Rule
import TensorGraph.Graph.Build
import TensorGraph.Graph.Order
import TensorGraph.Graph.Reach
import TensorGraph.Train.Loss
import TensorGraph.Train.Optimizer

/-!
Gradients of losses for weights. The ops between weights and losses are visited in reverse order; the gradient for
a tensor is the sum of those from its consumers, and at the end every weight with a gradient gets an update.
-/
namespace TensorGraph

namespace Synthesis

/-- Whether a tensor needs a gradient: weights do, and results of relevant ops. -/
def needsGrad (g : Graph) (relevant : SortedSet OpId) (id : TensorId) : Bool :=
  (g.tensor? id).any fun t => t.type == .weight || t.producer.any relevant.contains

/-- The ops between the weights and the losses. -/
def relevantOps (g : Graph) (losses : List Loss) : SortedSet OpId :=
  let before := g.opsTo (losses.flatMap (·.inputs))
  g.opsFromWeights.filter before.contains

/-- Notes a gradient for an operand. -/
def note (s : Synthesis) (id : TensorId) (p : Partial) : Synthesis :=
  { s with partials := s.partials.insert id (((s.partials.get? id).getD []) ++ [p]) }

/-- The order in which gradients for one tensor are summed: by op, then by operand. -/
def inOrder (a b : Partial) : Bool := a.op < b.op || (a.op == b.op && a.operand ≤ b.operand)

/-- Sums the gradients for a tensor under the name of its gradient; a single one only takes that name. -/
def settle (id : TensorId) (owner : Op) : GradM (Option TensorId) := do
  let s ← get
  let name := gradId id
  let partials := ((s.partials.get? id).getD []).mergeSort inOrder
  set { s with partials := s.partials.erase id }
  match partials with
  | [] => return none
  | [one] =>
    GradM.onGraph (Stateful.change fun g => do return ((), ← g.renameTensor one.tensor name))
    return some name
  | many =>
    GradM.addOp owner .sum (many.map (·.tensor)) name
    return some name

/-- Starts from a loss: the gradient for its first operand, unless no weight is behind it. -/
def startFrom (relevant : SortedSet OpId) (loss : Loss) : GradM Unit := do
  let g := (← get).graph
  let id ← Outcome.orFail (g.producer? loss.output) (.graph (.lossWithoutProducer loss.output))
  let op ← Outcome.orFail (g.op? id) (.graph (.noOp id))
  let target ← op.input 0
  if needsGrad g relevant target then
    let output ← GradM.addFresh op loss.gradKind (op.inputs ++ [Sgd.lossScalingId]) target
    modify fun s => s.note target ⟨id, 0, output⟩

/-- Takes the gradient for the result of an op back to its operands. -/
def stepBack (rules : GradRegistry) (relevant : SortedSet OpId) (op : Op) : GradM Unit := do
  match ← settle (← op.output) op with
  | none => return
  | some incoming =>
    -- an op without a rule is at fault only if a gradient has reached it
    let rule ← Outcome.orFail (rules.rule? op.kind) (.gradientUnavailable op.kind.typeName op.name)
    let g := (← get).graph
    let gradients ← rule { op, needs := op.inputs.map (needsGrad g relevant), incoming }
    modify fun s => ((op.inputs.zip gradients).zipIdx).foldl
      (fun s ((id, gradient), i) => gradient.elim s fun t => s.note id ⟨op.id, i, t⟩) s

/-- Adds the update of a weight, if there is a gradient for it. -/
def update (weight : TensorId) : GradM (Option TensorId) := do
  let s ← get
  match (s.partials.get? weight).bind (·.head?) with
  | none => return none
  | some first =>
    let template ← Outcome.orFail (s.graph.op? first.op) (.graph (.noOp first.op))
    match ← settle weight template with
    | none => return none
    | some gradient =>
      GradM.onGraph do
        let id ← Stateful.change fun g =>
          g.addOp .sgdVarUpdate
            [weight, gradient, Sgd.learningRateId, Sgd.weightDecayId, Sgd.lossScalingId]
            [updatedId weight] .weightUpdate
        modify fun g => g.modifyOp id fun op => { op with virtualGraph := template.virtualGraph }
      return some weight

/-- Adds all gradients; the weights that get an update, ascending. -/
def run (rules : GradRegistry) (losses : List Loss) : GradM (List TensorId) := do
  let relevant := relevantOps (← get).graph losses
  losses.forM (startFrom relevant)
  -- the order is taken with the gradients of the losses in place; only ops from before are visited
  let order ← Stateful.lift (← get).graph.order
  (order.reverse.filter relevant.contains).forM fun id => do
    match (← get).graph.op? id with
    | none => return
    | some op => stepBack rules relevant op
  let updated ← (← get).graph.weights.mapM update
  return updated.filterMap id

end Synthesis

/-- What a synthesis of gradients added. -/
structure GradSummary where
  gradOps : Nat
  updated : List TensorId
deriving DecidableEq, Repr

/-- Adds the gradients of losses for all weights, and the updates of the weights. Losses and optimizer must have
been added before. -/
def synthesizeGradients (rules : GradRegistry) (losses : List Loss) : BuildM GradSummary := do
  if losses.isEmpty then Stateful.fail (.config .noLoss)
  let g := (← get).graph
  match Sgd.ids.find? fun id => !g.hasTensor id with
  | some id => Stateful.fail (.graph (.optimizerMissing id))
  | none =>
    let (updated, gradOps) ← BuildM.onGraph (Stateful.focus (fun g => { graph := g : Synthesis })
      (fun s _ => s.graph) do
        let updated ← Synthesis.run rules losses
        return (updated, (← get).added))
    BuildM.report (.gradientsAdded gradOps updated.length)
    return { gradOps, updated }

end TensorGraph
