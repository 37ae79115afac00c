import TensorGraph.Graph.Fingerprint

/-!
Executables: what is left of a graph when only running it matters. The ops stand in the order in which they run,
phase by phase, with the infos of their results.
-/
namespace TensorGraph

/-- A step of a program. -/
structure CompiledOp where
  name : String
  kind : OpKind
  inputs : List TensorId
  outputs : List TensorId
  infos : List TensorInfo
  phase : Phase
  virtualGraph : Int
  inPlace : Bool
deriving DecidableEq

namespace CompiledOp

/-- The type name, marked if the op runs in place. -/
def displayType (op : CompiledOp) : String :=
  if op.inPlace then op.kind.typeName ++ "Inplace" else op.kind.typeName

end CompiledOp

/-- How much of a program runs. -/
inductive RunMode where
  | infer
  | evaluate
  | train
deriving DecidableEq, Repr

namespace RunMode

/-- The word for the mode. -/
def label : RunMode → String
  | infer => "infer"
  | evaluate => "evaluate"
  | train => "train"

/-- The phases that run, in their order. -/
def phases : RunMode → List Phase
  | infer => [.forward]
  | evaluate => [.forward, .loss]
  | train => [.forward, .loss, .backward, .weightUpdate]

end RunMode

/-- A program for a device. -/
structure Executable where
  graphHash : UInt64
  virtualGraphs : Nat
  fragments : Dict Phase (List CompiledOp)
  streams : List (TensorId × TensorInfo)
  weights : List (TensorId × TensorInfo)
  optimizerStreams : List (TensorId × TensorInfo)
  constants : List (TensorId × HostTensor)
  /-- Updated values with the weights that take them. -/
  updates : List (TensorId × TensorId)
  infos : Dict TensorId TensorInfo
deriving DecidableEq

namespace Executable

/-- A program without ops that takes the given streams. -/
def withoutOps (graphHash : UInt64) (streams : List (TensorId × TensorInfo)) : Executable where
  graphHash
  virtualGraphs := 1
  fragments := .empty
  streams
  weights := []
  optimizerStreams := []
  constants := []
  updates := []
  infos := .empty

/-! ## Compilation -/

/-- The updated value and the weight of an update. -/
def updateOf (op : Op) : Outcome (Option (TensorId × TensorId)) :=
  if op.kind = .sgdVarUpdate then do
    let weight ← Outcome.orFail op.inputs.head? (.graph (.updateWithoutWeight op.name))
    return some (← op.output, weight)
  else .ok none

/-- The step of an op, and its update if it is one. -/
def compileOp (g : Graph) (op : Op) : Outcome (CompiledOp × Option (TensorId × TensorId)) := do
  let infos ← op.outputs.mapM g.info
  let update ← updateOf op
  return ({ name := op.name, kind := op.kind, inputs := op.inputs, outputs := op.outputs, infos,
            phase := op.phase, virtualGraph := op.virtualGraph.getD 0, inPlace := op.inPlace }, update)

/-- A constant with its value. -/
def constantOf (t : Tensor) : Outcome (TensorId × HostTensor) := do
  return (t.id, ← Outcome.orFail t.data (.graph (.constantWithoutData t.id)))

/-- The tensors of one type with their infos, by name. -/
def typed (g : Graph) (t : TensorType) : List (TensorId × TensorInfo) :=
  (g.tensors.values.filter (·.type = t)).map fun t => (t.id, t.info)

/-- Puts a step behind those of its phase. -/
def addStep (fragments : Dict Phase (List CompiledOp)) (op : CompiledOp) : Dict Phase (List CompiledOp) :=
  fragments.insert op.phase ((fragments.get? op.phase).getD [] ++ [op])

/-- The program of a graph. -/
def compile (g : Graph) (virtualGraphs : Nat) (graphHash : UInt64) : Outcome Executable := do
  let steps ← (← g.orderedOps).mapM (compileOp g)
  let constants ← (g.tensors.values.filter (·.type = .const)).mapM constantOf
  return {
    graphHash, virtualGraphs, constants
    fragments := (steps.map (·.1)).foldl addStep .empty
    streams := g.streams.filterMap fun id => (g.info? id).map fun info => (id, info)
    weights := typed g .weight
    optimizerStreams := typed g .optimizerStream
    updates := steps.filterMap (·.2)
    infos := g.tensors.map fun _ t => t.info }

/-! ## Queries -/

/-- The steps of a phase. -/
def fragment (e : Executable) (p : Phase) : List CompiledOp := (e.fragments.get? p).getD []

/-- All steps, phase by phase. -/
def ops (e : Executable) : List CompiledOp := e.fragments.values.flatten

/-- The names of the streams. -/
def streamNames (e : Executable) : List TensorId := e.streams.map (·.1)

/-- The tensors that have a value after a run. -/
def availableAfter (e : Executable) (mode : RunMode) : List TensorId :=
  (e.streams ++ e.weights ++ e.optimizerStreams).map (·.1) ++ e.constants.map (·.1) ++
    mode.phases.flatMap fun p => (e.fragment p).flatMap (·.outputs)

/-- The streams that a run reads. -/
def streamsFor (e : Executable) (mode : RunMode) : List (TensorId × TensorInfo) :=
  e.streams.filter fun (id, _) => mode.phases.any fun p => (e.fragment p).any fun op => op.inputs.contains id

/-- The virtual graph of a tensor: that of its producer, else that of its first reader, else the first. -/
def virtualGraphOf (e : Executable) (id : TensorId) : Int :=
  let produced := e.ops.find? fun op => op.outputs.contains id
  let read := e.ops.find? fun op => op.inputs.contains id
  ((produced.or read).map (·.virtualGraph)).getD 0

end Executable

/-! ## Byte format -/

instance : Wire CompiledOp where
  put op :=
    put op.name ++ put op.kind ++ put op.inputs ++ put op.outputs ++ put op.infos ++ put op.phase ++
      put op.virtualGraph ++ put op.inPlace
  get := do
    return { name := ← Wire.get, kind := ← Wire.get, inputs := ← Wire.get, outputs := ← Wire.get,
             infos := ← Wire.get, phase := ← Wire.get, virtualGraph := ← Wire.get, inPlace := ← Wire.get }

instance : Wire Executable where
  put e :=
    put e.graphHash ++ put e.virtualGraphs ++ put e.fragments ++ put e.streams ++ put e.weights ++
      put e.optimizerStreams ++ put e.constants ++ put e.updates ++ put e.infos
  get := do
    return { graphHash := ← Wire.get, virtualGraphs := ← Wire.get, fragments := ← Wire.get,
             streams := ← Wire.get, weights := ← Wire.get, optimizerStreams := ← Wire.get,
             constants := ← Wire.get, updates := ← Wire.get, infos := ← Wire.get }

end TensorGraph
