import TensorGraph.Interchange.Model
import TensorGraph.Interchange.Pattern
import TensorGraph.Session.Open
import TensorGraph.Session.Report
import TensorGraph.Session.StepIo

/-!
The JSON forms of sessions and of what they are made of: data flows, options and devices, and the mappings of
tensors to tiles.
-/
namespace TensorGraph

/-! ## Data flows -/

/-- A name, or the period as a number. -/
instance : OfJson ReturnType where
  ofJson
    | .str "ALL" => .ok .all
    | .str "FINAL" => .ok .final
    | .str "SUM" => .ok .sum
    | j => do return .everyN (← ofJson j)

instance : OfJson DataFlow where
  ofJson j := do DataFlow.ofAnchors (← j.get "bps") (← j.get "anchors")

/-- The anchors of a flow, with the batches and the buffer of each for values of the given info. -/
def DataFlow.anchorsJson (f : DataFlow) (info : TensorInfo) : Json :=
  .arr (f.anchors.entries.map fun (id, r) =>
    .obj [("id", toJson id), ("art", toJson r.text), ("name", toJson r.name),
      ("returns", toJson (r.returns f.batches)),
      ("writes", toJson ((List.range f.batches).filter fun i => r.writes i f.batches)),
      ("buffer", toJson (r.bufferInfo f.batches info))])

/-! ## Options -/

/-- All options by name, with the made-up data in effect. -/
instance : ToJson Options where
  toJson o :=
    .obj [("logDir", toJson o.logDir), ("exportDot", toJson o.exportDot), ("ignoreData", toJson o.ignoreData),
      ("syntheticDataMode", toJson o.syntheticData.label), ("effective", toJson o.effectiveSynthetic.label),
      ("randomSeed", toJson o.randomSeed), ("enableVirtualGraphs", toJson o.enableVirtualGraphs),
      ("autoVirtualGraph", toJson o.autoVirtualGraph),
      ("minimumVirtualGraphCount", toJson o.minimumVirtualGraphs),
      ("enableEngineCaching", toJson o.enableCaching), ("cachePath", toJson o.cachePath),
      ("compileEngine", toJson o.compileEngine), ("patternMaxIterations", toJson o.patternLimit),
      ("engine", toJson o.engine), ("convolution", toJson o.convolution), ("report", toJson o.report)]

/-- Sets one option, or one group of further settings. -/
def Options.setJson (o : Options) (key : String) (j : Json) : Outcome Options :=
  match key with
  | "engine" => do return { o with engine := ← ofJson j }
  | "convolution" => do return { o with convolution := ← ofJson j }
  | "report" => do return { o with report := ← ofJson j }
  | _ => do o.set key (← ofJson j)

/-- The defaults of a session with the options of a document, which are set in the order of their names. -/
instance : OfJson Options where
  ofJson j := do
    let settings : Dict String Json ← ofJson j
    settings.entries.foldlM (fun o (key, v) => o.setJson key v) { logDir := "log" }

/-! ## Devices -/

instance : OfJson DeviceType where
  ofJson j := do
    let s : String ← ofJson j
    Outcome.promised ([DeviceType.cpu, .ipuModel, .sim, .ipu].find? fun t => t.word == s)

instance : OfJson SyncPattern where
  ofJson
    | .str "Full" => .ok .full
    | .str "PingPong" => .ok .pingPong
    | _ => .error .abort

instance : OfJson Rack.Request where
  ofJson j := do
    return { ipus := ← j.get "ipus", replication := ← j.getD "replication" 1
             pattern := ← j.getD "pattern" SyncPattern.full, type := ← j.getD "type" DeviceType.ipu }

/-- A device with its standing in its rack. -/
def PlacedDevice.toJson (p : Platform) (d : PlacedDevice) : Json :=
  let rack := p.rack d.rack
  let d := d.device
  .obj [("text", .str d.text), ("type", .str d.type.word), ("id", .nat d.id), ("ipus", .nat d.ipus),
    ("tiles", .nat d.tiles), ("version", .str d.version), ("drivers", .arr (d.drivers.map .nat)),
    ("compile", .bool d.compilesCode), ("profiling", .bool d.supportsProfiling),
    ("caching", .bool d.supportsCaching), ("capability", .str d.capability), ("exclusive", .bool d.isExclusive),
    ("attached", .bool (rack.isAttached d)), ("leased", .bool (rack.isLeased d))]

/-! ## Sessions -/

instance : OfJson RunMode where
  ofJson j := do
    let s : String ← ofJson j
    Outcome.promised ([RunMode.infer, .evaluate, .train].find? fun m => m.label == s)

/-- What a program needs for a run, and which tensors have a value after it. -/
def Executable.runJson (e : Executable) (mode : RunMode) : Json :=
  .obj [("mode", toJson mode.label), ("after", toJson (e.availableAfter mode)),
    ("streams", toJson ((e.streamsFor mode).map (·.1))), ("names", toJson e.streamNames)]

/-- What a session was opened with. -/
def Session.statusJson (s : Session) : Json :=
  .obj [("device", toJson s.device.device.text), ("bps", toJson s.dataFlow.batches), ("key", toJson s.cacheKey),
    ("cache_hit", toJson s.cacheHit), ("seed", toJson s.options.randomSeed), ("training", toJson s.isTraining)]

/-- The result of a call on a session, with where the session stands then and what it reported. -/
def Session.answerJson (s : Session) (result : Json) (log : List Diagnostic) : Json :=
  .obj ([("result", result), ("state", toJson s.state.label), ("steps_run", toJson s.stepsRun)] ++
    if log.isEmpty then [] else [("events", toJson log)])

instance : ToJson TileMapping where
  toJson m := .arr [toJson m.tensor, toJson m.tiles, toJson (m.regions.map fun r => [r.tile, r.start, r.stop])]

end TensorGraph
