import TensorGraph.Engine.Executable
import TensorGraph.Interchange.Op
import TensorGraph.Placement.Basic
import TensorGraph.Train.Loss
import TensorGraph.Train.Optimizer

/-!
The JSON forms of graphs and programs, and of what training adds to them.
-/
namespace TensorGraph

instance : ToJson Phase := ⟨fun p => .str p.label⟩

instance : OfJson Phase where
  ofJson j := do
    let s : String ← ofJson j
    Outcome.promised (Phase.all.find? fun p => p.label == s)

instance : ToJson TensorType := ⟨fun t => .str t.label⟩

instance : OfJson TensorType where
  ofJson j := do
    let s : String ← ofJson j
    Outcome.promised (TensorType.all.find? fun t => t.label == s)

/-- A member that is left out if there is no value. -/
def optionalMember {α : Type} [ToJson α] (name : String) (a : Option α) : List (String × Json) :=
  (a.map fun a => (name, toJson a)).toList

/-! ## Graphs -/

instance : ToJson Op where
  toJson op :=
    .obj ([("id", toJson op.id), ("kind", toJson op.kind), ("name", toJson op.name),
        ("display", toJson op.displayType), ("inputs", toJson op.inputs), ("outputs", toJson op.outputs),
        ("phase", toJson op.phase)] ++
      optionalMember "vg" op.virtualGraph ++
      (if op.excluded.isEmpty then [] else [("excluded", toJson op.excluded.toList)]) ++
      optionalMember "fwd" op.forwardOp)

instance : ToJson Tensor where
  toJson t :=
    .obj ([("id", toJson t.id), ("info", toJson t.info), ("type", toJson t.type),
        ("producer", toJson t.producer), ("consumers", toJson t.consumers.toList)] ++
      optionalMember "data" (t.data.map (·.data)))

instance : ToJson Graph where
  toJson g :=
    .obj [("ops", toJson g.ops.values), ("tensors", toJson g.tensors.values), ("streams", toJson g.streams),
      ("outputs", toJson g.outputs), ("protected", toJson g.kept.toList)]

/-! ## Programs -/

instance : ToJson CompiledOp where
  toJson op :=
    .obj [("name", toJson op.name), ("kind", toJson op.kind), ("display", toJson op.displayType),
      ("inputs", toJson op.inputs), ("outputs", toJson op.outputs), ("infos", toJson op.infos),
      ("phase", toJson op.phase), ("vg", toJson op.virtualGraph)]

instance : ToJson Executable where
  toJson e :=
    .obj [("graph_hash", toJson e.graphHash), ("virtual_graphs", toJson e.virtualGraphs),
      ("ops", toJson e.ops), ("num_ops", toJson e.ops.length), ("streams", toJson e.streams),
      ("variables", toJson e.weights), ("optimizer_streams", toJson e.optimizerStreams),
      ("constants", toJson e.constants), ("weight_updates", toJson e.updates),
      ("placement", .arr (e.infos.entries.map fun (id, info) =>
        .arr [toJson id, toJson info, toJson (e.virtualGraphOf id)]))]

instance : ToJson Placement.Summary where
  toJson s :=
    .obj [("stages", toJson s.stages), ("virtual_graphs", toJson s.virtualGraphs), ("costs", toJson s.costs)]

/-! ## Training -/

instance : OfJson Loss where
  ofJson j := do
    let reduction : Reduction ← j.getD "reduction" .sum
    match ← j.get "type" with
    | "L1" => return .l1 (← j.get "input") (← j.get "output") (← j.getD "lambda" Single.one) reduction
    | "Nll" =>
      return .nll (← j.get "probs") (← j.get "labels") (← j.get "output") reduction (← j.get? "ignore_index")
    | _ => .error .abort

instance : OfJson OptimizerValue where
  ofJson j := do
    let (value, kind) : Single × String ← ofJson j
    return ⟨value, kind == "const"⟩

/-- A constant rate, a streamed rate and decay, or the three settings, which have defaults. -/
instance : OfJson Sgd where
  ofJson j := do
    match j.optional? "constant", j.optional? "streamed" with
    | some rate, _ => return .constant (← ofJson rate)
    | none, some pair =>
      let (rate, decay) ← ofJson pair
      return .streamed rate decay
    | none, none =>
      return ⟨← j.getD "lr" (.fixed ⟨0x3dcccccd⟩), ← j.getD "wd" (.fixed .zero), ← j.getD "ls" (.fixed .one)⟩

end TensorGraph
