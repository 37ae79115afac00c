import TensorGraph.Session.Basic
import TensorGraph.Text.Json

/-!
Reports on a prepared session: the program with its memory, counts of what has run, and how the elements of
tensors are spread over tiles. Only devices that can be profiled have them.
-/
namespace TensorGraph

/-- What a program was compiled for. -/
structure TargetReport where
  deviceType : String
  ipus : UInt32
  tiles : UInt32
  virtualGraphs : Nat
deriving DecidableEq, Repr

/-- A result of an op. -/
structure TensorReport where
  id : TensorId
  dtype : String
  shape : Shape
  bytes : Nat
deriving DecidableEq, Repr

/-- An op of the program. -/
structure OpReport where
  name : String
  opType : String
  phase : Phase
  virtualGraph : Int
  outputs : List TensorReport
deriving DecidableEq, Repr

/-- The program with the memory of its results. -/
structure GraphReport where
  target : TargetReport
  ops : List OpReport
  memory : List Nat
deriving DecidableEq, Repr

/-- Counts of what has run. -/
structure ExecutionReport where
  target : TargetReport
  steps : Nat
  batches : Nat
  ops : Nat
  inPlaceOps : Nat
  phases : Dict String Nat
deriving DecidableEq

/-! ## Making reports -/

namespace Executable

/-- What the program was compiled for. -/
def targetReport (e : Executable) (d : Device) : TargetReport :=
  ⟨d.type.word, UInt32.ofNat d.ipus, UInt32.ofNat d.tiles, e.virtualGraphs⟩

/-- The program in lines of text. -/
def summary (e : Executable) (d : Device) : String :=
  let target := ["Target:", s!"  Device type: {d.type.word}", s!"  Number of IPUs: {d.ipus}",
    s!"  Tiles per IPU: {d.tiles}", s!"  Virtual graphs: {e.virtualGraphs}", "Program:"]
  let ops := e.ops.zipIdx.map fun (op, n) => s!"  OnTileExecute {n}: {op.displayType}/{op.name}"
  String.join ((target ++ ops).map (· ++ "\n"))

/-- The report on an op. -/
def opReport (op : CompiledOp) : Outcome OpReport := do
  let outputs ← (op.outputs.zip op.infos).mapM fun (id, info) => do
    return ⟨id, info.dtype.name, info.shape, ← info.sized⟩
  return { name := op.name, opType := op.displayType, phase := op.phase, virtualGraph := op.virtualGraph, outputs }

/-- The memory of the results of an op. -/
def memoryOf (op : OpReport) : Nat := sumOf (op.outputs.map (·.bytes))

/-- The memory of the results on each virtual graph. -/
def memory (ops : List OpReport) (virtualGraphs : Nat) : Outcome (List Nat) := do
  let n := max virtualGraphs 1
  Word.room 8 n
  (List.range n).mapM fun v => Word.sum ((ops.filter fun op => op.virtualGraph.toNat = v).map memoryOf)

/-- The report on the program. -/
def graphReport (e : Executable) (d : Device) : Outcome GraphReport := do
  let ops ← e.ops.mapM opReport
  return ⟨e.targetReport d, ops, ← memory ops e.virtualGraphs⟩

/-- The report on what has run. -/
def executionReport (e : Executable) (d : Device) (c : Counters) : ExecutionReport where
  target := e.targetReport d
  steps := c.steps
  batches := c.batches
  ops := c.ops
  inPlaceOps := c.inPlaceOps
  phases := .ofList (c.phases.entries.map fun (p, n) => (p.label, n))

end Executable

/-! ## Tiles -/

/-- The elements `start ≤ i < stop` of a tensor on a tile. -/
structure TileRegion where
  tile : Nat
  start : Nat
  stop : Nat
deriving DecidableEq, Repr

/-- How the elements of a tensor are spread over a number of tiles. -/
structure TileMapping where
  tensor : TensorId
  tiles : Nat
  regions : List TileRegion
deriving DecidableEq, Repr

namespace TileMapping

/-- The regions of `count` elements on tiles from `first` on, `grain` elements each; tiles beyond the last are
left out. -/
def spread (count grain first tiles : Nat) : Outcome (List TileRegion) := do
  let regions ← (List.range ((count + grain - 1) / grain)).mapM fun k => do
    let tile ← Word.nat (first + k)
    if tile < tiles then return some ⟨tile, k * grain, min (← Word.nat ((k + 1) * grain)) count⟩
    else return none
  return regions.filterMap id

/-- The bytes that the list of regions of one tile takes. -/
def tileBytes : Nat := 24

/-- The mapping of a tensor: a scalar is on the first tile, and the elements of all others are spread evenly over
the tiles of a chip. -/
def ofTensor (d : Device) (virtualGraph : Int) (id : TensorId) (info : TensorInfo) : Outcome TileMapping := do
  let perChip := max d.tiles 1
  let tiles := perChip * max d.ipus 1
  Word.room tileBytes tiles
  let count ← info.counted
  if info.rank = 0 then return ⟨id, tiles, [⟨0, 0, 1⟩]⟩
  else
    let first ← Word.nat (virtualGraph.toNat * perChip)
    let grain := max ((count + perChip - 1) / perChip) 1
    return ⟨id, tiles, ← spread count grain first tiles⟩

end TileMapping

/-- The mappings of all tensors of a program. -/
def Executable.tileMap (e : Executable) (d : Device) : Outcome (List TileMapping) :=
  e.infos.entries.mapM fun (id, info) => TileMapping.ofTensor d (e.virtualGraphOf id) id info

/-! ## Byte format -/

instance : Wire TargetReport where
  put r := put r.deviceType ++ put r.ipus ++ put r.tiles ++ put r.virtualGraphs
  get := do return ⟨← Wire.get, ← Wire.get, ← Wire.get, ← Wire.get⟩

instance : Wire TensorReport where
  put r := put r.id ++ put r.dtype ++ put r.shape ++ put r.bytes
  get := do return ⟨← Wire.get, ← Wire.get, ← Wire.get, ← Wire.get⟩

instance : Wire OpReport where
  put r := put r.name ++ put r.opType ++ put r.phase ++ put r.virtualGraph ++ put r.outputs
  get := do return ⟨← Wire.get, ← Wire.get, ← Wire.get, ← Wire.get, ← Wire.get⟩

instance : Wire GraphReport where
  put r := put r.target ++ put r.ops ++ put r.memory
  get := do return ⟨← Wire.get, ← Wire.get, ← Wire.get⟩

instance : Wire ExecutionReport where
  put r := put r.target ++ put r.steps ++ put r.batches ++ put r.ops ++ put r.inPlaceOps ++ put r.phases
  get := do return ⟨← Wire.get, ← Wire.get, ← Wire.get, ← Wire.get, ← Wire.get, ← Wire.get⟩

/-! ## Text -/

/-- The report with named members. -/
def TargetReport.exported (r : TargetReport) : Json :=
  .obj [("device_type", .str r.deviceType), ("num_ipus", .nat r.ipus.toNat),
    ("tiles_per_ipu", .nat r.tiles.toNat), ("num_virtual_graphs", .nat r.virtualGraphs)]

/-- The report with named members. -/
def TensorReport.exported (r : TensorReport) : Json :=
  .obj [("id", .str r.id), ("dtype", .str r.dtype), ("shape", .ints r.shape), ("bytes", .nat r.bytes)]

/-- The report with named members. -/
def OpReport.exported (r : OpReport) : Json :=
  .obj [("name", .str r.name), ("op_type", .str r.opType), ("phase", .str r.phase.label),
    ("virtual_graph", .int r.virtualGraph), ("outputs", .arr (r.outputs.map TensorReport.exported))]

/-- The report with named members. -/
def GraphReport.exported (r : GraphReport) : Json :=
  .obj [("target", r.target.exported), ("ops", .arr (r.ops.map OpReport.exported)),
    ("memory_per_virtual_graph", .arr (r.memory.map .nat))]

/-- The report with named members. -/
def ExecutionReport.exported (r : ExecutionReport) : Json :=
  .obj [("target", r.target.exported), ("steps", .nat r.steps), ("micro_batches", .nat r.batches),
    ("op_executions", .nat r.ops), ("inplace_executions", .nat r.inPlaceOps),
    ("fragment_runs", .obj (r.phases.entries.map fun (p, n) => (p, .nat n)))]

/-! ## Reports of sessions -/

namespace Session

/-- The loaded program, if its device can be profiled. -/
def profiled (s : Session) : Outcome Runtime := do
  let engine ← Outcome.orFail s.engine (.state .noReport)
  if s.device.device.supportsProfiling then return engine else .fail .profilingUnavailable

/-- The program in lines of text. -/
def summary (s : Session) : Outcome String := do return (← s.profiled).executable.summary s.device.device

/-- The report on the program. -/
def graphReport (s : Session) : Outcome GraphReport := do
  (← s.profiled).executable.graphReport s.device.device

/-- The report on what has run. -/
def executionReport (s : Session) : Outcome ExecutionReport := do
  let engine ← s.profiled
  return engine.executable.executionReport s.device.device engine.counters

/-- How the elements of all tensors are spread over tiles. -/
def tileMap (s : Session) : Outcome (List TileMapping) := do
  (← s.profiled).executable.tileMap s.device.device

end Session

end TensorGraph
