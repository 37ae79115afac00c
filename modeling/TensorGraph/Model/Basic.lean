import TensorGraph.Wire.Hash
import TensorGraph.Wire.Op

/-!
Models as they are exchanged: nodes with their attributes, the infos of inputs and outputs, and the tensors with
initial values. The byte format is a magic and a version before the fields in order; bytes behind them are
ignored.
-/
namespace TensorGraph

/-- A tensor with its name, as a model holds it; nothing is promised of the data. -/
structure NamedTensor where
  name : String
  info : TensorInfo
  data : Storage
deriving DecidableEq, Repr

/-- The info of a named tensor. -/
structure NamedInfo where
  name : String
  info : TensorInfo
deriving DecidableEq, Repr

/-- The value of a node's attribute. -/
inductive Attribute where
  | int (value : Int)
  | ints (values : List Int)
  | float (value : Single)
  | floats (values : List Single)
  | string (value : String)
  | strings (values : List String)
  | tensor (value : NamedTensor)
deriving DecidableEq, Repr

/-- A node of a model. -/
structure Node where
  name : String
  opType : String
  domain : String
  inputs : List String
  outputs : List String
  attributes : Dict String Attribute
deriving DecidableEq

namespace Node

/-- An integer attribute. -/
def int? (n : Node) (name : String) : Option Int :=
  match n.attributes.get? name with
  | some (.int v) => some v
  | _ => none

/-- An attribute that lists integers. -/
def ints? (n : Node) (name : String) : Option (List Int) :=
  match n.attributes.get? name with
  | some (.ints v) => some v
  | _ => none

/-- A floating-point attribute. -/
def float? (n : Node) (name : String) : Option Single :=
  match n.attributes.get? name with
  | some (.float v) => some v
  | _ => none

/-- An attribute that lists texts. -/
def strings? (n : Node) (name : String) : Option (List String) :=
  match n.attributes.get? name with
  | some (.strings v) => some v
  | _ => none

/-- A tensor attribute. -/
def tensor? (n : Node) (name : String) : Option NamedTensor :=
  match n.attributes.get? name with
  | some (.tensor v) => some v
  | _ => none

end Node

/-- A model. -/
structure Model where
  irVersion : UInt32 := 6
  producer : String := "ferrograph"
  opsetVersion : UInt32 := 11
  name : String
  nodes : List Node
  inputs : List NamedInfo
  outputs : List NamedInfo
  initializers : List NamedTensor
  valueInfo : List NamedInfo
deriving DecidableEq

/-! ## Byte format -/

instance : Wire NamedTensor where
  put t := put t.name ++ put t.info ++ put t.data
  get := do return ⟨← Wire.get, ← Wire.get, ← Wire.get⟩

instance : Wire NamedInfo where
  put i := put i.name ++ put i.info
  get := do return ⟨← Wire.get, ← Wire.get⟩

instance : Wire Attribute where
  put
    | .int v => Wire.putTag 0 ++ put v
    | .ints v => Wire.putTag 1 ++ put v
    | .float v => Wire.putTag 2 ++ put v
    | .floats v => Wire.putTag 3 ++ put v
    | .string v => Wire.putTag 4 ++ put v
    | .strings v => Wire.putTag 5 ++ put v
    | .tensor v => Wire.putTag 6 ++ put v
  get := do
    match ← Wire.getTag with
    | 0 => return .int (← Wire.get)
    | 1 => return .ints (← Wire.get)
    | 2 => return .float (← Wire.get)
    | 3 => return .floats (← Wire.get)
    | 4 => return .string (← Wire.get)
    | 5 => return .strings (← Wire.get)
    | 6 => return .tensor (← Wire.get)
    | _ => failure

instance : Wire Node where
  put n := put n.name ++ put n.opType ++ put n.domain ++ put n.inputs ++ put n.outputs ++ put n.attributes
  get := do return ⟨← Wire.get, ← Wire.get, ← Wire.get, ← Wire.get, ← Wire.get, ← Wire.get⟩

instance : Wire Model where
  put m :=
    put m.irVersion ++ put m.producer ++ put m.opsetVersion ++ put m.name ++ put m.nodes ++ put m.inputs ++
      put m.outputs ++ put m.initializers ++ put m.valueInfo
  get := do
    return ⟨← Wire.get, ← Wire.get, ← Wire.get, ← Wire.get, ← Wire.get, ← Wire.get, ← Wire.get, ← Wire.get,
      ← Wire.get⟩

namespace Model

/-- The first bytes of every written model: `FGMODEL` and a zero byte. -/
def magic : Bytes := [0x46, 0x47, 0x4d, 0x4f, 0x44, 0x45, 0x4c, 0x00]

/-- The version of the byte format. -/
def formatVersion : UInt32 := 1

/-- The bytes of a model. -/
def toBytes (m : Model) : Bytes := magic ++ put formatVersion ++ put m

/-- Reads a model from bytes. -/
def ofBytes (bytes : Bytes) : Outcome Model :=
  if bytes.length < magic.length + 4 then .fail (.model .truncated)
  else if bytes.take magic.length ≠ magic then .fail (.model .badMagic)
  else
    let version := Wire.ofLittle ((bytes.drop magic.length).take 4)
    if version ≠ formatVersion.toNat then .fail (.model (.unsupportedVersion version))
    else .orFail (Wire.decode? (bytes.drop (magic.length + 4))) (.model .undecodable)

/-- The hash of the written model. -/
def fingerprint (m : Model) : UInt64 := Hash.ofBytes m.toBytes

/-- The model with the data of the first initializer of the given name replaced. -/
def setInitializer (m : Model) (name : String) (data : Storage) : Model :=
  let replaceFirst : List NamedTensor → List NamedTensor := fun l =>
    let before := l.takeWhile fun t => t.name != name
    match l.drop before.length with
    | [] => l
    | t :: rest => before ++ { t with data } :: rest
  { m with initializers := replaceFirst m.initializers }

end Model

end TensorGraph
