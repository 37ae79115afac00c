import TensorGraph.Collection.Dict
import TensorGraph.Error.Basic
import TensorGraph.Pattern.Pipeline
import TensorGraph.Text.Setting
import TensorGraph.Wire.Hash

/-!
Options of a session. Most are read from text by name; three groups of further settings are only checked for
known names.
-/
namespace TensorGraph

/-- Whether made-up data takes the place of the data of the host. -/
inductive SyntheticData where
  | off
  | zeros
  | randomNormal
deriving DecidableEq, Repr

namespace SyntheticData

/-- The name. -/
def label : SyntheticData → String
  | off => "Off"
  | zeros => "Zeros"
  | randomNormal => "RandomNormal"

/-- Reads a name. -/
def ofName? : String → Option SyntheticData
  | "Off" | "off" => some off
  | "Zeros" | "zeros" => some zeros
  | "RandomNormal" | "randomnormal" | "random_normal" => some randomNormal
  | _ => none

end SyntheticData

/-- Options of a session. -/
structure Options where
  logDir : String := "."
  exportDot : Bool := false
  ignoreData : Bool := false
  syntheticData : SyntheticData := .off
  randomSeed : UInt64 := 0
  enableVirtualGraphs : Bool := false
  autoVirtualGraph : Bool := false
  minimumVirtualGraphs : Nat := 1
  enableCaching : Bool := false
  cachePath : String := "session_cache"
  compileEngine : Bool := true
  patternLimit : Nat := Stage.defaultLimit
  engine : Dict String String := .empty
  convolution : Dict String String := .empty
  report : Dict String String := .empty

namespace Options

/-- The known settings of the engine. -/
def engineKeys : List String :=
  ["debug.instrument", "debug.allowOutOfMemory", "debug.outputAllSymbols", "target.workerStackSizeInBytes",
    "opt.maxCopyMergeSize"]

/-- The known settings of convolutions. -/
def convolutionKeys : List String := ["partialsType", "availableMemoryProportion", "startTileMultiplier"]

/-- The known settings of reports. -/
def reportKeys : List String := ["showVarStorage", "showExecutionSteps", "doLayerWiseBreakdown"]

/-- Reads the value of an option. -/
def value {α : Type} (key text : String) (read : String → Option α) : Outcome α :=
  .orFail (read text) (.config (.optionValue key text))

/-- Sets an option by name. -/
def set (o : Options) (key text : String) : Outcome Options :=
  match key with
  | "logDir" => .ok { o with logDir := text }
  | "exportDot" => do return { o with exportDot := ← value key text Text.bool? }
  | "ignoreData" => do return { o with ignoreData := ← value key text Text.bool? }
  | "syntheticDataMode" => do return { o with syntheticData := ← value key text SyntheticData.ofName? }
  | "randomSeed" => do return { o with randomSeed := UInt64.ofNat (← value key text (Text.count? 64)) }
  | "enableVirtualGraphs" => do return { o with enableVirtualGraphs := ← value key text Text.bool? }
  | "autoVirtualGraph" => do return { o with autoVirtualGraph := ← value key text Text.bool? }
  | "minimumVirtualGraphCount" => do
    return { o with minimumVirtualGraphs := ← value key text (Text.count? 64) }
  | "enableEngineCaching" => do return { o with enableCaching := ← value key text Text.bool? }
  | "cachePath" => .ok { o with cachePath := text }
  | "compileEngine" => do return { o with compileEngine := ← value key text Text.bool? }
  | "patternMaxIterations" => do return { o with patternLimit := ← value key text (Text.count? 64) }
  | _ => .fail (.config (.unknownOption key))

/-- The first setting of a group that is not known. -/
def unknownKey? (group : Dict String String) (known : List String) : Option String :=
  group.keys.find? fun k => !known.contains k

/-- Checks the names of the further settings. -/
def validate (o : Options) : Outcome Unit :=
  match ((unknownKey? o.engine engineKeys).or (unknownKey? o.convolution convolutionKeys)).or
      (unknownKey? o.report reportKeys) with
  | some key => .fail (.config (.unknownOption key))
  | none => .ok ()

/-- The made-up data in effect: ignored data are zeros. -/
def effectiveSynthetic (o : Options) : SyntheticData :=
  if o.syntheticData = .off ∧ o.ignoreData then .zeros else o.syntheticData

/-- The bytes of what compilation depends on. -/
def signature (o : Options) : Bytes :=
  Hash.frameValue (o.enableVirtualGraphs, o.autoVirtualGraph, o.minimumVirtualGraphs, o.patternLimit) ++
    Hash.frameValue o.engine ++ Hash.frameValue o.convolution

end Options

end TensorGraph
