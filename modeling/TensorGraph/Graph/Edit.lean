import TensorGraph.Graph.Basic
import TensorGraph.Op.Infer

/-!
Changes of graphs. Each keeps the producers and consumers of tensors in step with the operands and results of
ops, and a change that fails leaves the graph as it was; only replacing all uses of a tensor may stop half-way.
-/
namespace TensorGraph

namespace Graph

/-- Changes a tensor, if it is there. -/
def modifyTensor (g : Graph) (id : TensorId) (f : Tensor → Tensor) : Graph :=
  { g with tensors := g.tensors.modify id f }

/-- Changes an op, if it is there. -/
def modifyOp (g : Graph) (id : OpId) (f : Op → Op) : Graph := { g with ops := g.ops.modify id f }

/-! ## Adding -/

/-- Adds a tensor under a new name. -/
def addTensor (g : Graph) (id : TensorId) (info : TensorInfo) (type : TensorType) (data : Option HostTensor) :
    Outcome Graph :=
  if g.hasTensor id then .graph (.duplicateTensor id)
  else .ok
    { g with
      streams := if type = .stream then g.streams ++ [id] else g.streams
      tensors := g.tensors.insert id { id, info, type, data } }

/-- Adds a tensor with a known value. -/
def addConst (g : Graph) (id : TensorId) (value : HostTensor) : Outcome Graph :=
  g.addTensor id value.info .const (some value)

/-- Whether an op may produce a tensor of this name: a computed one without a producer, or a new one. -/
def isFree (g : Graph) (id : TensorId) : Bool :=
  match g.tensor? id with
  | none => true
  | some t => t.producer.isNone && t.type == .actGrad

/-- Makes `op` the producer of a tensor with the given info, which is added if it is not there. -/
def produce (g : Graph) (op : OpId) (id : TensorId) (info : TensorInfo) : Graph :=
  match g.tensor? id with
  | none => { g with tensors := g.tensors.insert id { id, info, type := .actGrad, producer := some op } }
  | some _ => g.modifyTensor id fun t => { t with info, producer := some op }

/-- Adds an op with inferred infos of its results. -/
def addOp (g : Graph) (kind : OpKind) (inputs outputs : List TensorId) (phase : Phase) :
    Outcome (OpId × Graph) := do
  let infos ← inputs.mapM g.info
  let info ← kind.infer infos
  match outputs with
  | [output] =>
    if g.isFree output = false then .graph (.alreadyProduced output)
    else
      let id := g.nextOp
      let consumed := inputs.foldl
        (fun g i => g.modifyTensor i fun t => { t with consumers := t.consumers.insert id }) g
      let produced := consumed.produce id output info
      return (id,
        { produced with
          nextOp := id + 1
          ops := produced.ops.insert id { id, kind, name := output, inputs, outputs, phase } })
  | _ => .graph (.outputsNamed kind.typeName 1 outputs.length)

/-- Keeps a tensor from being simplified away. -/
def keep (g : Graph) (id : TensorId) : Graph := { g with kept := g.kept.insert id }

/-- The first name `t<n>__<base>` from `n` on that no tensor has, and its number. One of the first names is free,
because there are more of them than tensors. -/
def tempName (g : Graph) (base : String) : Nat × TensorId :=
  let candidate := fun i => (g.nextTemp + i, s!"t{g.nextTemp + i}__{base}")
  ((List.range (g.tensors.size + 1)).map candidate |>.find? fun c => !g.hasTensor c.2).getD (candidate 0)

/-- A fresh name. -/
def tempId (g : Graph) (base : String) : TensorId × Graph :=
  let (n, id) := g.tempName base
  (id, { g with nextTemp := n + 1 })

/-! ## Removing -/

/-- Takes an op out of the consumers and producers of its tensors. -/
def disconnect (g : Graph) (op : Op) : Graph :=
  let unread := op.inputs.foldl
    (fun g i => g.modifyTensor i fun t => { t with consumers := t.consumers.erase op.id }) g
  op.outputs.foldl (fun g o => g.modifyTensor o fun t => { t with producer := none }) unread

/-- Removes an op and leaves its results behind without a producer. -/
def detachOp (g : Graph) (id : OpId) : Outcome (Op × Graph) := do
  let op ← Outcome.orFail (g.op? id) (.graph (.opNotInGraph id))
  return (op, ({ g with ops := g.ops.erase id }).disconnect op)

/-- The first result of an op that another op consumes. -/
def consumedOutput? (g : Graph) (op : Op) : Option TensorId :=
  op.outputs.find? fun o => (g.consumers o).any (· ≠ op.id)

/-- Removes an op and its results, which no other op may consume. -/
def eraseOp (g : Graph) (id : OpId) : Outcome (Op × Graph) := do
  match (g.op? id).bind g.consumedOutput? with
  | some output => .graph (.stillConsumed id output)
  | none =>
    let (op, detached) ← g.detachOp id
    return (op, op.outputs.foldl (fun g o => { g with tensors := g.tensors.erase o }) detached)

/-- Removes a tensor that no op produces or consumes. -/
def removeTensor (g : Graph) (id : TensorId) : Outcome (Tensor × Graph) :=
  match g.tensor? id with
  | none => .graph (.noTensor id)
  | some t =>
    if t.producer.isSome ∨ t.consumers.isEmpty = false then .graph (.stillConnected id)
    else .ok (t, { g with streams := g.streams.filter (· ≠ id), tensors := g.tensors.erase id })

/-! ## Changing names and uses -/

/-- One name in place of another. -/
def substitute (old new : TensorId) (l : List TensorId) : List TensorId :=
  l.map fun i => if i = old then new else i

/-- Lets an op read `new` where it reads `old`. -/
def replaceInput (g : Graph) (op : OpId) (old new : TensorId) : Outcome Graph :=
  match g.op? op with
  | none => .graph (.noOp op)
  | some _ =>
    .ok (((g.modifyOp op fun o => { o with inputs := substitute old new o.inputs }).modifyTensor old
        fun t => { t with consumers := t.consumers.erase op }).modifyTensor new
        fun t => { t with consumers := t.consumers.insert op })

/-- Lets every consumer of `old` read `new`. -/
def replaceAllUses (old new : TensorId) : GraphM Unit := do
  let g ← get
  if g.hasTensor new then
    (g.consumers old).forM fun op => Stateful.change fun g => do return ((), ← g.replaceInput op old new)
  else Stateful.fail (.graph (.noTensor new))

/-- Gives a tensor another name. -/
def renameTensor (g : Graph) (old new : TensorId) : Outcome Graph :=
  if g.hasTensor new then .graph (.renameClash old new)
  else
    match g.tensor? old with
    | none => .graph (.noTensor old)
    | some t =>
      let renamedOutput := fun (o : Op) =>
        { o with outputs := substitute old new o.outputs, name := if o.name = old then new else o.name }
      let produced :=
        match t.producer with
        | none => g
        | some p => g.modifyOp p renamedOutput
      let read := t.consumers.toList.foldl
        (fun g c => g.modifyOp c fun o => { o with inputs := substitute old new o.inputs }) produced
      .ok
        { read with
          streams := substitute old new g.streams
          outputs := substitute old new g.outputs
          kept := if g.isKept old then (g.kept.erase old).insert new else g.kept
          tensors := (g.tensors.erase old).insert new { t with id := new } }

/-- Gives a tensor without a producer a known value. -/
def makeConst (g : Graph) (id : TensorId) (value : HostTensor) : Outcome Graph :=
  match g.tensor? id with
  | none => .graph (.noTensor id)
  | some t =>
    if t.producer.isSome then .graph (.stillProduced id)
    else if t.info ≠ value.info then .shape (.constantInfo id value.info t.info)
    else .ok (g.modifyTensor id fun t => { t with type := .const, data := some value })

end Graph

end TensorGraph
