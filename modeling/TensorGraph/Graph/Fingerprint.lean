import TensorGraph.Graph.Order
import TensorGraph.Wire.Hash
import TensorGraph.Wire.Op

/-!
The fingerprint of a graph: a hash of the bytes of all that compilation reads, ops in the order in which they run
and tensors by name.
-/
namespace TensorGraph

instance : Wire Phase where
  put p := Wire.putTag p.rank
  get := Wire.getEnum Phase.all

instance : Wire TensorType where
  put t := Wire.putTag (TensorType.all.idxOf t)
  get := Wire.getEnum TensorType.all

namespace Graph

/-- The bytes of an op: kind, operands, results and phase, placement and in-place mark. -/
def opSignature (op : Op) : Bytes :=
  Hash.frameValue op.kind ++ Hash.frameValue (op.inputs, op.outputs, op.phase) ++
    Hash.frameValue (op.virtualGraph, op.inPlace)

/-- The bytes of a tensor: name, info and type, and the value of a constant. -/
def tensorSignature (t : Tensor) : Bytes :=
  Hash.frameText t.id ++ Hash.frameValue (t.info, t.type) ++
    if t.type = .const then Hash.frameValue t.data else []

/-- The bytes that the fingerprint is taken of. -/
def signature (g : Graph) : Outcome Bytes := do
  return (← g.orderedOps).flatMap opSignature ++ g.tensors.values.flatMap tensorSignature

/-- The fingerprint. -/
def fingerprint (g : Graph) : Outcome UInt64 := do return Hash.ofBytes (← g.signature)

end Graph

end TensorGraph
