import TensorGraph.Interchange.Basic
import TensorGraph.Tensor.Host

/-!
The JSON forms of element types, infos and tensors.
-/
namespace TensorGraph

instance : ToJson DType := ⟨fun d => .str d.name⟩

instance : OfJson DType where
  ofJson j := do
    let s : String ← ofJson j
    Outcome.promised (DType.ofName? s)

instance : ToJson TensorInfo := ⟨fun i => toJson (i.dtype, i.shape)⟩

instance : OfJson TensorInfo where
  ofJson j := do
    let (d, s) ← ofJson j
    return ⟨d, s⟩

instance : ToJson Int32 := ⟨fun i => .int i.toInt⟩

instance : OfJson Int32 where
  ofJson j := do
    let i : Int ← ofJson j
    return Int32.ofInt i

instance : ToJson Int64 := ⟨fun i => .int i.toInt⟩

instance : OfJson Int64 where
  ofJson j := do
    let i : Int ← ofJson j
    return Int64.ofInt i

instance : ToJson Storage where
  toJson
    | .f32 v => .obj [("f32", toJson v)]
    | .i32 v => .obj [("i32", toJson v)]
    | .i64 v => .obj [("i64", toJson v)]

/-- Reads stored elements; a plain list takes the width of the given type. -/
def storageOfJson (d : DType) (j : Json) : Outcome Storage :=
  match j with
  | .obj [("f32", v)] => do return .f32 (← ofJson v)
  | .obj [("i32", v)] => do return .i32 (← ofJson v)
  | .obj [("i64", v)] => do return .i64 (← ofJson v)
  | v =>
    match d.storage with
    | .f32 => do return .f32 (← ofJson v)
    | .i32 => do return .i32 (← ofJson v)
    | .i64 => do return .i64 (← ofJson v)

instance : ToJson HostTensor := ⟨fun t => .obj [("info", toJson t.info), ("data", toJson t.data)]⟩

/-- Tensors are checked when they are read. -/
instance : OfJson HostTensor where
  ofJson j := do
    let info : TensorInfo ← j.get "info"
    HostTensor.ofStorage info (← storageOfJson info.dtype (← j.get "data"))

/-! ## Failures -/

/-- The kind, the wording and whether trying again may help; an abort has neither wording nor hope. -/
instance : ToJson Failure where
  toJson
    | .abort => .obj [("error", .str "Panic")]
    | .error e =>
      .obj ([("error", Json.str e.kind)] ++ (e.message?.map fun m => ("message", Json.str m)).toList ++
        if e.isRecoverable then [("recoverable", .bool true)] else [])

instance {α : Type} [ToJson α] : ToJson (Outcome α) where
  toJson
    | .ok a => toJson a
    | .error e => toJson e

end TensorGraph
