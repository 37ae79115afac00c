import TensorGraph.Engine.Executable
import TensorGraph.Graph.Basic
import TensorGraph.Kernel.Backend
import TensorGraph.Tensor.Host

/-!
The memory of a device: the values that tensors have there. Two tensors may hold one value together, as a weight
and its updated value do after a batch of training, and two values may lie in the same storage, as a tensor and its
reshaped form do. A value may be written over only if no other tensor holds it and no other value lies in its
storage. A program loaded on a device has such a memory, and counts of what has run; a run that fails keeps what it
computed before.
-/
namespace TensorGraph

/-! ## Memory -/

/-- A value on a device. -/
structure DeviceValue where
  tensor : HostTensor
  /-- The number of the value, which is the same for all tensors that hold it. -/
  number : Nat
  /-- The number of its storage, which is the same for all values that lie in it. -/
  storage : Nat
deriving DecidableEq

/-- The values of tensors on a device. -/
structure DeviceMemory where
  values : Dict TensorId DeviceValue := .empty
  /-- A number that no value and no storage has yet, nor any above it. -/
  unused : Nat := 0

namespace DeviceMemory

/-- The value of a tensor. -/
def get? (m : DeviceMemory) (id : TensorId) : Option DeviceValue := m.values.get? id

/-- Whether a tensor has a value. -/
def contains (m : DeviceMemory) (id : TensorId) : Bool := m.values.contains id

/-- Gives a tensor a new value that lies in the given storage. -/
def storeIn (m : DeviceMemory) (id : TensorId) (tensor : HostTensor) (storage : Nat) : DeviceMemory where
  values := m.values.insert id ⟨tensor, m.unused, storage⟩
  unused := m.unused + 1

/-- Gives a tensor a new value in storage of its own. -/
def store (m : DeviceMemory) (id : TensorId) (tensor : HostTensor) : DeviceMemory := m.storeIn id tensor m.unused

/-- Gives a tensor a value that others may hold too. -/
def share (m : DeviceMemory) (id : TensorId) (value : DeviceValue) : DeviceMemory :=
  { m with values := m.values.insert id value }

/-- Takes the value of a tensor away. -/
def erase (m : DeviceMemory) (id : TensorId) : DeviceMemory := { m with values := m.values.erase id }

/-- Whether some tensor holds a value. -/
def holds (m : DeviceMemory) (value : DeviceValue) : Bool := m.values.values.any (·.number = value.number)

/-- Whether the value of some tensor lies in the storage of a value. -/
def occupies (m : DeviceMemory) (value : DeviceValue) : Bool := m.values.values.any (·.storage = value.storage)

end DeviceMemory

/-! ## Programs -/

/-- Counts of what has run. -/
structure Counters where
  steps : Nat := 0
  batches : Nat := 0
  ops : Nat := 0
  inPlaceOps : Nat := 0
  /-- How often each phase has run to its end. -/
  phases : Dict Phase Nat := .empty
deriving DecidableEq

/-- A program with the values that its tensors have on the device. -/
structure Runtime where
  backend : Backend
  executable : Executable
  memory : DeviceMemory := {}
  counters : Counters := {}

/-- A call on a loaded program. -/
abbrev RuntimeM := Stateful Runtime

namespace Runtime

/-- Loads a program; its constants have their values from the start. -/
def load (backend : Backend) (executable : Executable) : Runtime where
  backend := backend
  executable := executable
  memory := executable.constants.foldl (fun m (id, value) => m.store id value) {}

/-- Gives a tensor a value. -/
def upload (r : Runtime) (id : TensorId) (value : HostTensor) : Runtime :=
  { r with memory := r.memory.store id value }

/-- The value of a tensor. -/
def download (r : Runtime) (id : TensorId) : Outcome HostTensor := do
  let value ← Outcome.orFail (r.memory.get? id) (.state (.noDeviceValue id))
  Backend.download value.tensor

/-- Whether a tensor has a value. -/
def hasValue (r : Runtime) (id : TensorId) : Bool := r.memory.contains id

/-- The value of an operand. -/
def operand (r : Runtime) (op : CompiledOp) (id : TensorId) : Outcome DeviceValue :=
  .orFail (r.memory.get? id) (.state (.readsNothing op.name id))

/-- Gives a tensor the result of an op. The result of a view lies in the storage of its operand. -/
def keep (r : Runtime) (kind : OpKind) (first : Option DeviceValue) (id : TensorId) (result : HostTensor) :
    Runtime :=
  match first with
  | some x => if kind.isView then { r with memory := r.memory.storeIn id result x.storage } else r.upload id result
  | none => r.upload id result

/-- Changes the counts. -/
def count (f : Counters → Counters) : RuntimeM Unit := modify fun r => { r with counters := f r.counters }

/-- Runs a step beside its operands. -/
def executeFresh (op : CompiledOp) : RuntimeM Unit := do
  let r ← get
  let inputs ← Stateful.lift (op.inputs.mapM (r.operand op))
  let results ← r.backend.execute op.kind (inputs.map (·.tensor)) op.infos
  if results.length ≠ op.outputs.length then
    Stateful.fail (.state (.resultCount r.backend.name op.name results.length op.outputs.length))
  modify fun r => (op.outputs.zip results).foldl (fun r (id, value) => r.keep op.kind inputs.head? id value) r

/-- Runs an op over a value that was taken from its first operand. A value that another tensor holds too stays as
it is, and the op runs beside it. -/
def overwrite (op : CompiledOp) (target : DeviceValue) (rest : List HostTensor) (info : TensorInfo) :
    RuntimeM HostTensor := do
  let r ← get
  if r.memory.holds target then
    let results ← r.backend.execute op.kind (target.tensor :: rest) [info]
    Outcome.orFail results.getLast? (.state (.noResult op.name))
  else
    count fun c => { c with inPlaceOps := c.inPlaceOps + 1 }
    r.backend.executeInPlace op.kind target.tensor (r.memory.occupies target) rest info

/-- Runs a step over its first operand, whose value is used up. -/
def executeInPlace (op : CompiledOp) : RuntimeM Unit := do
  match op.inputs, op.outputs, op.infos with
  | first :: others, [output], [info] =>
    let target ← (← get).operand op first
    -- the value is gone also when a later operand has none
    modify fun r => { r with memory := r.memory.erase first }
    let r ← get
    let rest ← Stateful.lift (others.mapM (r.operand op))
    let result ← overwrite op target (rest.map (·.tensor)) info
    modify (·.keep op.kind (some target) output result)
  | _, _, _ => Stateful.fail (.graph (.inPlaceOperands op.name))

/-- Runs a step. -/
def execute (op : CompiledOp) : RuntimeM Unit := do
  if op.inPlace then executeInPlace op else executeFresh op
  count fun c => { c with ops := c.ops + 1 }

/-- Runs the steps of a phase. -/
def runPhase (p : Phase) : RuntimeM Unit := do
  ((← get).executable.fragment p).forM execute
  count fun c => { c with phases := c.phases.insert p ((c.phases.get? p).getD 0 + 1) }

/-- Gives a weight its updated value, which both tensors then hold. -/
def applyUpdate (updated weight : TensorId) : RuntimeM Unit := do
  let value ← Outcome.orFail ((← get).memory.get? updated) (.state (.updateMissing updated))
  modify fun r => { r with memory := r.memory.share weight value }

/-- Runs one batch; training ends with the updates of the weights. -/
def runBatch (mode : RunMode) : RuntimeM Unit := do
  mode.phases.forM runPhase
  if mode = .train then
    (← get).executable.updates.forM fun (updated, weight) => applyUpdate updated weight
  count fun c => { c with batches := c.batches + 1 }

end Runtime

end TensorGraph
