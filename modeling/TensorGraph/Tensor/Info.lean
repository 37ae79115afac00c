import TensorGraph.Text.Listing

/-!
What is known of a tensor before its values: the element type and the shape. Shapes are lists of integers;
a negative extent counts as no element.
-/
namespace TensorGraph

/-- Element types. -/
inductive DType where
  | float
  | float16
  | double
  | int8
  | int16
  | int32
  | int64
  | uint8
  | uint32
  | bool
deriving DecidableEq, Inhabited, Repr

namespace DType

/-- All element types, in their numbering. -/
def all : List DType :=
  [.float, .float16, .double, .int8, .int16, .int32, .int64, .uint8, .uint32, .bool]

/-- The name in upper case. -/
def name : DType → String
  | .float => "FLOAT"
  | .float16 => "FLOAT16"
  | .double => "DOUBLE"
  | .int8 => "INT8"
  | .int16 => "INT16"
  | .int32 => "INT32"
  | .int64 => "INT64"
  | .uint8 => "UINT8"
  | .uint32 => "UINT32"
  | .bool => "BOOL"

/-- The name in reports and exported models. -/
def label : DType → String
  | .float => "Float"
  | .float16 => "Float16"
  | .double => "Double"
  | .int8 => "Int8"
  | .int16 => "Int16"
  | .int32 => "Int32"
  | .int64 => "Int64"
  | .uint8 => "Uint8"
  | .uint32 => "Uint32"
  | .bool => "Bool"

/-- Reads a name, in any case; the widths `FLOAT32`, `FLOAT64` and the word `HALF` are names too. -/
def ofName? (s : String) : Option DType :=
  let upper := s.toUpper
  if upper == "FLOAT32" then some .float
  else if upper == "HALF" then some .float16
  else if upper == "FLOAT64" then some .double
  else all.find? fun d => d.name == upper

/-- The size of one element in bytes. -/
def bytes : DType → Nat
  | .int8 | .uint8 | .bool => 1
  | .float16 | .int16 => 2
  | .float | .int32 | .uint32 => 4
  | .double | .int64 => 8

/-- Whether the elements are floating-point numbers. -/
def isFloat : DType → Bool
  | .float | .float16 | .double => true
  | _ => false

end DType

/-- The number of positions that the extents span. -/
def volume (dims : List Nat) : Nat := dims.foldr (· * ·) 1

/-- The extents of a tensor, outermost first. -/
abbrev Shape := List Int

namespace Shape

/-- The extents as counts: a negative one is none. -/
def dims (s : Shape) : List Nat := s.map Int.toNat

/-- The number of elements. -/
def count (s : Shape) : Nat := volume s.dims

end Shape

/-- Element type and shape of a tensor. -/
structure TensorInfo where
  dtype : DType
  shape : Shape
deriving DecidableEq, Inhabited, Repr

namespace TensorInfo

/-- A scalar. -/
def scalar (d : DType) : TensorInfo := ⟨d, []⟩

/-- The number of axes. -/
def rank (i : TensorInfo) : Nat := i.shape.length

/-- The extents as counts. -/
def dims (i : TensorInfo) : List Nat := i.shape.dims

/-- The number of elements. -/
def count (i : TensorInfo) : Nat := i.shape.count

/-- The size in bytes. -/
def bytes (i : TensorInfo) : Nat := i.count * i.dtype.bytes

/-- The same element type with another shape. -/
def withShape (i : TensorInfo) (s : Shape) : TensorInfo := ⟨i.dtype, s⟩

/-- Element type and shape, such as `FLOAT [2, 3]`. -/
def text (i : TensorInfo) : String := i.dtype.name ++ " " ++ Text.ints i.shape

end TensorInfo

end TensorGraph
