import TensorGraph.Tensor.Info

/-!
What can go wrong around sessions, devices, step data and cached engines, and how each cause is worded.
-/
namespace TensorGraph

/-- A setting that cannot be honoured. -/
inductive ConfigError where
  | lossInput (loss input : String)
  | noLoss
  | trainingWithoutLoss
  | anchorMissing (id : String)
  | anchorNotComputed (id mode : String)
  | tooFewDevices (wanted available : Nat)
  | optimizerReplacement
  | noWeight (id : String)
  | resetUnknown (id : String)
  | placedOutOfRange (op : String) (assigned : Int) (available : Nat)
  | notPlaced (op : String)
  | noDevice (id : Nat)
  | unknownOption (key : String)
  | deviceOption (key value : String)
  | optionValue (key value : String)
  | noBatches
  | periodZero (id : String)
  | periodDivides (id : String) (period batches : Nat)
  | builtInPattern (name : String)
  | unknownPattern (name : String)
deriving DecidableEq, Repr

namespace ConfigError

/-- The wording. -/
def message : ConfigError → String
  | lossInput loss input => s!"loss '{loss}' reads '{input}', which is not in the graph"
  | noLoss => "training requires at least one loss"
  | trainingWithoutLoss => "A training session requires at least one loss"
  | anchorMissing id => s!"Anchor tensor '{id}' is not in the graph"
  | anchorNotComputed id mode => s!"Anchor '{id}' is not computed when running {mode}"
  | tooFewDevices wanted available =>
    s!"{wanted} virtual graphs were requested but the device has {available} IPUs"
  | optimizerReplacement =>
    "This Optimizer is not a valid replacement: const values must be unchanged and the set of streamed " ++
      "values must match"
  | noWeight id => s!"No weight '{id}' in the session"
  | resetUnknown id => s!"resetHostWeights: no weight '{id}' in the session"
  | placedOutOfRange op assigned available =>
    s!"op '{op}' has virtual graph {assigned}, but only {available} are available"
  | notPlaced op => s!"op '{op}' has no virtual graph id although virtual graphs are enabled"
  | noDevice id => s!"No device with id {id}"
  | unknownOption key => s!"Unrecognised option '{key}'"
  | deviceOption key value => s!"Invalid value '{value}' for device option '{key}'"
  | optionValue key value => s!"Invalid value '{value}' for option '{key}'"
  | noBatches => "batchesPerStep must be greater than 0"
  | periodZero id => s!"EVERYN return period for '{id}' must be greater than 0"
  | periodDivides id period batches =>
    s!"EVERYN return period {period} for '{id}' must divide batchesPerStep ({batches})"
  | builtInPattern name => s!"Pattern name '{name}' is already used by a built-in pattern"
  | unknownPattern name => s!"Unknown pattern name '{name}'"

end ConfigError

/-- A call that the state of a session or of its engine does not allow. -/
inductive StateError where
  | alreadyPrepared
  | notPrepared (call : String)
  | noEngine (call : String)
  | optimizerUpload
  | optimizerUpdate
  | notTraining
  | noLoss
  | weightsMissing (mode : String)
  | optimizerMissing
  | noDeviceValue (id : String)
  | updateMissing (id : String)
  | readsNothing (op id : String)
  | resultCount (backend op : String) (got expected : Nat)
  | noResult (op : String)
  | noReport
deriving DecidableEq, Repr

namespace StateError

/-- The wording. -/
def message : StateError → String
  | alreadyPrepared => "prepareDevice has already been called"
  | notPrepared call => s!"Must call prepareDevice before {call}"
  | noEngine call => s!"Cannot call {call}: no engine was compiled (compileEngine is false)"
  | optimizerUpload => "optimizerFromHost is only valid for training sessions"
  | optimizerUpdate => "updateOptimizer is only valid for training sessions"
  | notTraining => "Trying to train when not in training mode"
  | noLoss => "Trying to evaluate without a loss"
  | weightsMissing mode => s!"Must call weightsFromHost before {mode} as the model has initializers"
  | optimizerMissing => "Must call optimizerFromHost before train as the optimizer has streamed values"
  | noDeviceValue id => s!"tensor '{id}' has no device value"
  | updateMissing id => s!"update '{id}' was not computed"
  | readsNothing op id => s!"op '{op}' reads '{id}', which has no value"
  | noResult op => s!"op '{op}' produced no value"
  | resultCount backend op got expected =>
    s!"backend {backend} returned {got} values for op '{op}' with {expected} outputs"
  | noReport => "Session must have been prepared before a report can be fetched"

end StateError

/-- A fault of the data that goes in and out of a step. -/
inductive StepError where
  | missing (id table : String)
  | tooFew (id : String) (held : Nat) (batch : TensorInfo) (offset : Nat)
  | completedEarly (id : String)
  | bufferFull (id : String) (held more offset : Nat)
  | inputCount (id : String) (expected got : Nat)
  | outputCount (id : String) (expected got : Nat)
  | callbackResult (id : String) (got : Nat) (info : TensorInfo)
  | weightInfo (id : String) (buffer weight : TensorInfo)
deriving DecidableEq, Repr

namespace StepError

/-- The wording. -/
def message : StepError → String
  | missing id table => s!"No tensor {id} provided in StepIO's {table}"
  | tooFew id held batch offset =>
    s!"Input {id} holds {held} elements, too few for a batch of {batch.text} at offset {offset}"
  | completedEarly id => s!"inComplete called for {id} before in"
  | bufferFull id held more offset =>
    s!"Output buffer for {id} holds {held} elements and cannot take {more} more at offset {offset}"
  | inputCount id expected got =>
    s!"Unexpected number of input elements for {id}. Expected {expected}, but received {got}."
  | outputCount id expected got =>
    s!"Unexpected number of output elements for {id}. Expected {expected}, but received {got}."
  | callbackResult id got info =>
    s!"Callback for {id} returned {got} elements that do not fit {info.text}"
  | weightInfo id buffer weight =>
    s!"WeightsIO buffer for {id} is {buffer.text} but the weight is {weight.text}"

end StepError

/-- A device that is taken. -/
inductive DeviceError where
  | inUse (id : Nat)
  | attachedElsewhere (id : Nat)
  | alreadyAttached (id : Nat)
deriving DecidableEq, Repr

namespace DeviceError

/-- The wording. -/
def message : DeviceError → String
  | inUse id => s!"Device {id} is in use by another session"
  | attachedElsewhere id => s!"Device {id} is attached to another device"
  | alreadyAttached id => s!"Failed to acquire device with id '{id}': it is already attached"

end DeviceError

/-- A cached engine that is not what its place promises. -/
inductive CacheError where
  | badMagic
  | version (found : Nat)
  | undecodable
  | mismatch (path : String) (key graph wantedKey wantedGraph : UInt64)
deriving DecidableEq, Repr

namespace CacheError

/-- The wording of the cause. -/
def cause : CacheError → String
  | badMagic => "artifact does not start with the executable magic"
  | version found => s!"artifact format version {found} is not 1"
  | undecodable => "artifact body does not decode"
  | mismatch path key graph wantedKey wantedGraph =>
    s!"{path} was compiled for key {Text.hex64 key} (graph {Text.hex64 graph}) but key " ++
      s!"{Text.hex64 wantedKey} (graph {Text.hex64 wantedGraph}) was requested"

/-- The full wording. -/
def message (e : CacheError) : String := "engine cache integrity check failed: " ++ e.cause

end CacheError

end TensorGraph
