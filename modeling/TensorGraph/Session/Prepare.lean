import TensorGraph.Placement.Basic
import TensorGraph.Session.Basic

/-!
Preparing a session: its ops are placed, its program is compiled or taken from the cache, and loaded on the
device. A drawing of the program can be written on the way.
-/
namespace TensorGraph

/-- A session on its platform. -/
structure Hosted where
  platform : Platform
  session : Session

/-- A call on a session and its platform. -/
abbrev HostedM := Stateful Hosted

namespace Hosted

/-- Runs a call on the session. -/
def onSession {α : Type} (x : SessionM α) : HostedM α := x.focus Hosted.session fun s h => { h with session := s }

/-- Runs a call on the platform. -/
def onPlatform {α : Type} (x : PlatformM α) : HostedM α :=
  x.focus Hosted.platform fun p h => { h with platform := p }

/-- Runs a call on files and compiled programs. -/
def onStore {α : Type} (x : EngineStoreM α) : HostedM α := onPlatform (Platform.onStore x)

end Hosted

namespace Executable

/-- The ops that produce each tensor, by name. -/
def producers (e : Executable) : Dict TensorId String :=
  .ofList (e.ops.flatMap fun op => op.outputs.map fun o => (o, op.name))

/-- The lines of a drawing for one op: a box, and an arrow from each op that it reads from. -/
def drawOp (producers : Dict TensorId String) (op : CompiledOp) : List String :=
  s!"  \"{op.name}\" [shape=box, label=\"{op.displayType}\\n{op.name}\\nvg {op.virtualGraph}\"];" ::
    op.inputs.filterMap fun i => (producers.get? i).map fun p => s!"  \"{p}\" -> \"{op.name}\" [label=\"{i}\"];"

/-- A drawing of the program as a directed graph. -/
def drawing (e : Executable) : String :=
  let lines := ["digraph ferrograph \x7b"] ++ e.ops.flatMap (drawOp e.producers) ++ ["\x7d"]
  String.join (lines.map (· ++ "\n"))

end Executable

namespace Session

/-- How ops are placed and on how many virtual graphs, if they are placed at all. -/
def placement (s : Session) : Outcome (Option (Placement.Mode × Nat)) :=
  let available := s.device.device.ipus
  if s.options.enableVirtualGraphs = false then .ok none
  else if s.options.autoVirtualGraph = false then .ok (some (.manual, available))
  else
    let wanted := max s.options.minimumVirtualGraphs 1
    if available < wanted then .fail (.config (.tooFewDevices wanted available))
    else .ok (some (.automatic, wanted))

/-- Places the ops; the number of virtual graphs. -/
def place : SessionM Nat := do
  let s ← get
  match ← s.placement with
  | none => return 1
  | some (mode, n) =>
    let summary ← onBuild (Placement.run mode n s.isTraining)
    return summary.virtualGraphs

/-- Places the ops and compiles them. -/
def compile : SessionM Executable := do
  let n ← place
  let s ← get
  Executable.compile s.graph n s.graphHash

/-- Whether programs of the session are kept. -/
def usesCache (s : Session) : Bool := s.options.enableCaching && s.device.device.supportsCaching

/-- Looks for the program of the session in the cache. -/
def findEngine : HostedM (Option Executable) := do
  let s := (← get).session
  if s.usesCache then
    let found ← Hosted.onStore
      (EngineStore.lookup s.options.cachePath s.cacheKey s.graphHash s.graph.streams)
    Hosted.onSession (report (EngineStore.lookupReport s.cacheKey found))
    return found
  else return none

/-- Compiles the program of the session and keeps it in the cache. -/
def makeEngine : HostedM Executable := do
  let e ← Hosted.onSession compile
  let s := (← get).session
  if s.usesCache then
    let path ← Hosted.onStore (EngineStore.store s.options.cachePath s.cacheKey e)
    Hosted.onSession (report (.cacheStored s.cacheKey path))
  return e

/-- Writes a drawing of the program. -/
def exportDrawing (e : Executable) : HostedM Unit := do
  let dir := (← get).session.options.logDir
  Hosted.onStore do
    EngineStore.onFiles (Files.makeDirectory dir)
    EngineStore.onFiles (Stateful.change fun f => do
      return ((), ← f.write (Path.join dir "ferrograph.dot") e.drawing.toByteArray.data.toList))

/-- Compiles and loads the program. -/
def loadEngine : HostedM Unit := do
  let found ← findEngine
  Hosted.onSession (modify fun s => { s with cacheHit := found.isSome })
  let e ←
    match found with
    | some e => pure e
    | none => makeEngine
  let s := (← get).session
  if s.options.exportDot then exportDrawing e
  Hosted.onSession (modify fun s =>
    { s with engine := some (Runtime.load (.reference s.device.device.type.word) e) })

/-- Prepares the device. Without an engine only the ops are placed. -/
def prepare : HostedM Unit := do
  let s := (← get).session
  if s.isPrepared then Stateful.fail (.state .alreadyPrepared)
  Stateful.lift s.options.validate
  if s.options.compileEngine then loadEngine
  else
    let _ ← Hosted.onSession place
  Hosted.onSession (enter .prepared)

end Session

end TensorGraph
