import TensorGraph.Interchange.Op

/-!
The JSON forms of models: the compact one that is exchanged, and the exported one, which spells every field out.
-/
namespace TensorGraph

instance : ToJson NamedInfo := ⟨fun i => toJson (i.name, i.info)⟩

instance : OfJson NamedInfo where
  ofJson j := do
    let (name, info) ← ofJson j
    return ⟨name, info⟩

instance : ToJson NamedTensor where
  toJson t := .obj [("name", toJson t.name), ("info", toJson t.info), ("data", toJson t.data)]

instance : OfJson NamedTensor where
  ofJson j := do
    let info : TensorInfo ← j.get "info"
    return ⟨← j.get "name", info, ← storageOfJson info.dtype (← j.get "data")⟩

instance : ToJson Attribute where
  toJson
    | .int v => .obj [("int", toJson v)]
    | .ints v => .obj [("ints", toJson v)]
    | .float v => .obj [("float", toJson v)]
    | .floats v => .obj [("floats", toJson v)]
    | .string v => .obj [("string", toJson v)]
    | .strings v => .obj [("strings", toJson v)]
    | .tensor v => .obj [("tensor", toJson v)]

instance : OfJson Attribute where
  ofJson
    | .obj [("int", v)] => do return .int (← ofJson v)
    | .obj [("ints", v)] => do return .ints (← ofJson v)
    | .obj [("float", v)] => do return .float (← ofJson v)
    | .obj [("floats", v)] => do return .floats (← ofJson v)
    | .obj [("string", v)] => do return .string (← ofJson v)
    | .obj [("strings", v)] => do return .strings (← ofJson v)
    | .obj [("tensor", v)] => do return .tensor (← ofJson v)
    | _ => .error .abort

instance : ToJson Node where
  toJson n :=
    .obj [("name", toJson n.name), ("op_type", toJson n.opType), ("domain", toJson n.domain),
      ("inputs", toJson n.inputs), ("outputs", toJson n.outputs), ("attrs", toJson n.attributes)]

instance : OfJson Node where
  ofJson j := do
    return { name := ← j.getD "name" "", opType := ← j.get "op_type", domain := ← j.getD "domain" "",
             inputs := ← j.get "inputs", outputs := ← j.get "outputs",
             attributes := ← j.getD "attrs" .empty }

instance : ToJson UInt32 := ⟨fun w => .nat w.toNat⟩

instance : OfJson UInt32 where
  ofJson j := do
    let n : Nat ← ofJson j
    return UInt32.ofNat n

instance : ToJson Model where
  toJson m :=
    .obj [("name", toJson m.name), ("nodes", toJson m.nodes), ("inputs", toJson m.inputs),
      ("outputs", toJson m.outputs), ("initializers", toJson m.initializers),
      ("value_info", toJson m.valueInfo), ("ir_version", toJson m.irVersion),
      ("producer_name", toJson m.producer), ("opset_version", toJson m.opsetVersion)]

instance : OfJson Model where
  ofJson j := do
    return { irVersion := ← j.getD "ir_version" 6, producer := ← j.getD "producer_name" "ferrograph",
             opsetVersion := ← j.getD "opset_version" 11, name := ← j.getD "name" "",
             nodes := ← j.getD "nodes" [], inputs := ← j.getD "inputs" [],
             outputs := ← j.getD "outputs" [], initializers := ← j.getD "initializers" [],
             valueInfo := ← j.getD "value_info" [] }

/-! ## Export -/

namespace TensorInfo

/-- Element type and shape as named members. -/
def exported (i : TensorInfo) : Json := .obj [("dtype", .str i.dtype.label), ("shape", .ints i.shape)]

end TensorInfo

namespace Storage

/-- The elements behind the name of their width. -/
def exported : Storage → Json
  | .f32 v => .obj [("F32", .arr (v.map .single))]
  | .i32 v => .obj [("I32", .arr (v.map fun i => .int i.toInt))]
  | .i64 v => .obj [("I64", .arr (v.map fun i => .int i.toInt))]

end Storage

/-- A named tensor with its elements. -/
def NamedTensor.exported (t : NamedTensor) : Json :=
  .obj [("name", .str t.name), ("info", t.info.exported), ("data", t.data.exported)]

/-- A named info. -/
def NamedInfo.exported (i : NamedInfo) : Json := .obj [("name", .str i.name), ("info", i.info.exported)]

/-- An attribute behind the name of its type. -/
def Attribute.exported : Attribute → Json
  | .int v => .obj [("Int", .int v)]
  | .ints v => .obj [("Ints", .ints v)]
  | .float v => .obj [("Float", .single v)]
  | .floats v => .obj [("Floats", .arr (v.map .single))]
  | .string v => .obj [("String", .str v)]
  | .strings v => .obj [("Strings", .strs v)]
  | .tensor v => .obj [("Tensor", v.exported)]

/-- A node with all its fields. -/
def Node.exported (n : Node) : Json :=
  .obj [("name", .str n.name), ("op_type", .str n.opType), ("domain", .str n.domain),
    ("inputs", .strs n.inputs), ("outputs", .strs n.outputs),
    ("attributes", .obj (n.attributes.entries.map fun e => (e.1, e.2.exported)))]

/-- A model with all its fields; single-precision numbers are written in decimal. -/
def Model.exported (m : Model) : Json :=
  .obj [("ir_version", .nat m.irVersion.toNat), ("producer_name", .str m.producer),
    ("opset_version", .nat m.opsetVersion.toNat),
    ("graph", .obj [("name", .str m.name), ("nodes", .arr (m.nodes.map Node.exported)),
      ("inputs", .arr (m.inputs.map NamedInfo.exported)), ("outputs", .arr (m.outputs.map NamedInfo.exported)),
      ("initializers", .arr (m.initializers.map NamedTensor.exported)),
      ("value_info", .arr (m.valueInfo.map NamedInfo.exported))])]

end TensorGraph
