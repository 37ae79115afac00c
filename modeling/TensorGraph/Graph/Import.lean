import TensorGraph.Graph.Edit
import TensorGraph.Model.Kind

/-!
Graphs from models: initializers become weights, inputs become streams, constants become constants and all other
nodes become forward ops.
-/
namespace TensorGraph

namespace Graph

/-- The attribute that holds the virtual graph of a node. -/
def virtualGraphAttribute : String := "__virtualGraph"

/-- The attribute that lists the patterns that are not tried on a node. -/
def excludedAttribute : String := "__excludePatterns"

/-- Adds a weight. -/
def importInitializer (g : Graph) (init : NamedTensor) : Outcome Graph := do
  let data ← HostTensor.ofStorage init.info init.data
  g.addTensor init.name init.info .weight (some data)

/-- Adds a stream, unless the name is a weight's; `infos` may override what the model says of it. -/
def importInput (infos : Dict TensorId TensorInfo) (g : Graph) (input : NamedInfo) : Outcome Graph :=
  if g.hasTensor input.name then .ok g
  else g.addTensor input.name ((infos.get? input.name).getD input.info) .stream none

/-- Adds a constant. -/
def importConstant (g : Graph) (n : Node) : Outcome Graph := do
  let value ← Outcome.orFail (n.tensor? "value") (.graph (.constantWithoutValue n.name))
  let output ← Outcome.orFail n.outputs.head? (.graph (.constantWithoutOutput n.name))
  let data ← HostTensor.ofStorage value.info value.data
  g.addTensor output value.info .const (some data)

/-- Adds a forward op. -/
def importOp (g : Graph) (n : Node) : Outcome Graph := do
  let kind ← OpKind.ofNode n
  match n.inputs.find? fun i => !g.hasTensor i with
  | some input => .graph (.unknownInput n.name input)
  | none =>
    let (id, added) ← g.addOp kind n.inputs n.outputs .forward
    return added.modifyOp id fun op =>
      { op with
        name := if n.name.isEmpty then op.name else n.name
        virtualGraph := n.int? virtualGraphAttribute
        excluded := ((n.strings? excludedAttribute).map SortedSet.ofList).getD op.excluded }

/-- Adds a node. -/
def importNode (g : Graph) (n : Node) : Outcome Graph :=
  if n.opType = "Constant" then g.importConstant n else g.importOp n

/-- Makes a tensor an output. -/
def importOutput (g : Graph) (output : NamedInfo) : Outcome Graph :=
  if g.hasTensor output.name then
    .ok (({ g with outputs := g.outputs ++ [output.name] }).keep output.name)
  else .graph (.unproducedOutput output.name)

/-- The graph of a model. -/
def ofModel (m : Model) (infos : Dict TensorId TensorInfo) : Outcome Graph := do
  let weights ← m.initializers.foldlM importInitializer Graph.empty
  let streams ← m.inputs.foldlM (importInput infos) weights
  let nodes ← m.nodes.foldlM importNode streams
  m.outputs.foldlM importOutput nodes

end Graph

end TensorGraph
