import TensorGraph.Collection.Dict
import TensorGraph.Error.Basic
import TensorGraph.Text.Setting

/-!
Devices that programs run on: the host's own processor, models and simulators of accelerators, and accelerators
themselves, which have one or more chips in a rack.
-/
namespace TensorGraph

/-- The types of devices. -/
inductive DeviceType where
  | cpu
  | ipuModel
  | sim
  | ipu
deriving DecidableEq, Repr

namespace DeviceType

/-- The word for the type, which is also the name of its backend. -/
def word : DeviceType → String
  | cpu => "cpu"
  | ipuModel => "ipu-model"
  | sim => "sim"
  | ipu => "ipu"

/-- The name of the type. -/
def label : DeviceType → String
  | cpu => "Cpu"
  | ipuModel => "IpuModel"
  | sim => "Sim"
  | ipu => "Ipu"

/-- The version of devices of the type. -/
def version : DeviceType → String
  | cpu => "cpu"
  | ipuModel => "ipu1-model"
  | sim => "ipu1-sim"
  | ipu => "ipu1"

end DeviceType

/-- How the chips of a device keep in step. -/
inductive SyncPattern where
  | full
  | pingPong
deriving DecidableEq, Repr

/-- Whether a device with so many chips can keep in step like this: in turns only an even number can. -/
def SyncPattern.accepts (p : SyncPattern) (ipus : Nat) : Bool := p == .full || ipus % 2 == 0

/-- A device. Its number and the numbers of its chips are meant for 32 bits, which is not asked here: there would have to
be a rack of more devices than that. -/
structure Device where
  type : DeviceType
  id : Nat
  ipus : Nat
  tiles : Nat
  drivers : List Nat := []
  compilesCode : Bool := type ≠ .cpu
  /-- The slots of its rack that it needs. -/
  members : List Nat := [0]
deriving DecidableEq, Repr

namespace Device

/-- The version. -/
def version (d : Device) : String := d.type.version

/-- Whether running programs can be profiled. -/
def supportsProfiling (d : Device) : Bool := d.type != .cpu

/-- Whether compiled programs can be kept. -/
def supportsCaching (d : Device) : Bool := d.type != .cpu

/-- Whether only one session at a time may use the device. -/
def isExclusive (d : Device) : Bool := d.type == .ipu

/-- What a compiled program depends on. -/
def capability (d : Device) : String := s!"{d.type.word}:{d.version}:{d.ipus}x{d.tiles}"

/-- The device in one line. -/
def text (d : Device) : String :=
  s!"Device Type:{d.type.word} Id:{d.id} Version:{d.version} NumIPUs:{d.ipus} NumTilesPerIPU:{d.tiles}"

/-- The number of tiles of a chip unless told otherwise. -/
def defaultTiles : Nat := 1216

/-- The host's own processor. -/
def cpu : Device := { type := .cpu, id := 0, ipus := 1, tiles := 1 }

/-- A setting of a device. -/
def setting {α : Type} (key value : String) (read : String → Option α) : Outcome α :=
  .orFail (read value) (.config (.deviceOption key value))

/-- Changes the number of chips or of tiles. -/
def setSize (d : Device) (key value : String) : Outcome Device :=
  match key with
  | "numIPUs" => do return { d with ipus := ← setting key value (Text.count? 32) }
  | "tilesPerIPU" => do return { d with tiles := ← setting key value (Text.count? 32) }
  | _ => .fail (.config (.unknownOption key))

/-- Changes a setting of a model of an accelerator. -/
def setModel (d : Device) (key value : String) : Outcome Device :=
  match key with
  | "compileIPUCode" => do return { d with compilesCode := ← setting key value Text.bool? }
  | _ => d.setSize key value

/-- A model of an accelerator, with settings by name. -/
def ipuModel (options : Dict String String) : Outcome Device :=
  options.entries.foldlM (fun d (key, value) => d.setModel key value)
    { type := .ipuModel, id := 0, ipus := 1, tiles := defaultTiles }

/-- A simulator of an accelerator, with settings by name. -/
def simulator (options : Dict String String) : Outcome Device :=
  options.entries.foldlM (fun d (key, value) => d.setSize key value)
    { type := .sim, id := 0, ipus := 1, tiles := defaultTiles }

end Device

end TensorGraph
