import TensorGraph.Kernel.Plan
import TensorGraph.Tensor.Host

/-!
Backends run ops on stored tensors. The reference backend reads elements as doubles, computes, and rounds once
when it stores the result; what it only moves, it moves unread. An op may also write over its first operand,
with the same result.
-/
namespace TensorGraph

/-- What runs ops on stored tensors. -/
structure Backend where
  name : String
  /-- Runs an op; the infos are those of its results. -/
  execute : OpKind → List HostTensor → List TensorInfo → Outcome (List HostTensor)
  /-- Runs an op over its first operand; the truth value says whether another tensor shares the storage of that
  operand, which must then stay as it is. -/
  executeInPlace : OpKind → HostTensor → Bool → List HostTensor → TensorInfo → Outcome HostTensor

namespace Backend

/-- A tensor as an operand of doubles. -/
def operand (t : HostTensor) : Operand Double := ⟨t.info, t.data.toDoubles⟩

/-- The storages of the operands in `pool`, one behind the other. -/
def pooled (inputs : List HostTensor) : List Nat → Outcome Storage
  | [] => .error .abort
  | i :: pool => do
    let first ← Outcome.promised inputs[i]?
    pool.foldlM (fun s j => do s.append (← Outcome.promised inputs[j]?).data) first.data

/-- Runs a plan on stored tensors. -/
def runPlan (inputs : List HostTensor) (output : TensorInfo) : Kernel.Plan Double → Outcome HostTensor
  | .relabel => do
    let x ← Outcome.promised inputs.head?
    return ⟨output, x.data⟩
  | .move pool fill sources => do
    let data ← pooled inputs pool
    return ⟨output, ← data.take (.ofSingle fill) (← sources)⟩
  | .values result => do
    return ⟨output, .ofDoubles output.dtype.storage (← Kernel.finish output result)⟩

/-- Runs an op on stored tensors. -/
def run (kind : OpKind) (inputs : List HostTensor) (output : TensorInfo) : Outcome HostTensor := do
  let result ← runPlan inputs output (← Kernel.plan kind (inputs.map operand) output)
  if result.data.length ≠ (← output.counted) then
    .execution (.producedElements kind.typeName result.data.length output)
  else return result

/-- Runs an op that has one result. -/
def runAll (kind : OpKind) (inputs : List HostTensor) (outputs : List TensorInfo) :
    Outcome (List HostTensor) :=
  match outputs with
  | [output] => do return [← run kind inputs output]
  | _ => .execution (.outputCount kind.typeName outputs.length)

/-- The elements of `other` that stand for those of `target`. -/
def stretched (other target : HostTensor) : Outcome (List Double) := do
  let sources ← Index.broadcastSources other.info.dims target.info.dims
  Storage.pick other.data.toDoubles 0 (sources.map some)

/-- What to write over the values of `target`, if the op works element by element. -/
def overwriting (kind : OpKind) (target : HostTensor) (rest : List HostTensor) :
    Outcome (Option (List Double → Outcome (List Double))) :=
  match kind, rest with
  | .unary f, [] => .ok (some fun values => .ok (values.map f.apply))
  | .binary f, [other] => do
    let partners ← stretched other target
    return some fun values =>
      if partners.length < values.length then .error .abort
      else .ok (List.zipWith f.apply values partners)
  | .unary _, _ | .binary _, _ => .execution (.extraOperands rest.length)
  | _, _ => .ok none

/-- Runs an op over its first operand, or beside it where the two infos differ, where the op does not work
element by element, or where the storage is shared. -/
def runInPlace (kind : OpKind) (target : HostTensor) (shared : Bool) (rest : List HostTensor)
    (output : TensorInfo) : Outcome HostTensor := do
  let fresh := run kind (target :: rest) output
  if target.info ≠ output then fresh
  else
    match ← overwriting kind target rest with
    | some write =>
      if shared then fresh
      else return ⟨target.info, .ofDoubles target.data.kind (← write target.data.toDoubles)⟩
    | none => fresh

/-- The names of the available backends, ascending. -/
def names : List String := ["cpu", "ipu", "ipu-model", "sim"]

/-- The reference backend under a name. -/
def reference (name : String) : Backend where
  name := name
  execute := runAll
  executeInPlace := runInPlace

/-- The backend of the given name. -/
def named? (name : String) : Option Backend :=
  if names.contains name then some (reference name) else none

/-- A result as a host tensor, with the check of number and width of its elements. -/
def download (t : HostTensor) : Outcome HostTensor := (HostTensor.ofStorage t.info t.data).asExecution

/-- Runs an op and checks its results. -/
def evaluate (b : Backend) (kind : OpKind) (inputs : List HostTensor) (outputs : List TensorInfo) :
    Outcome (List HostTensor) := do
  (← b.execute kind inputs outputs).mapM download

end Backend

end TensorGraph
