import TensorGraph.Number.Double
import TensorGraph.Number.Word

/-!
Stored elements. Every floating-point element type is held in single precision, 64-bit integers in 64 bits and
all other types in 32 bits. Kernels read elements as doubles and round once when they write.
-/
namespace TensorGraph

/-- The elements of a tensor in the width they are held in. -/
inductive Storage where
  | f32 (values : List Single)
  | i32 (values : List Int32)
  | i64 (values : List Int64)
deriving DecidableEq, Inhabited, Repr

/-- The widths that elements are held in. -/
inductive StorageKind where
  | f32
  | i32
  | i64
deriving DecidableEq, Repr

/-- The bytes of one element. -/
def StorageKind.bytes : StorageKind → Nat
  | f32 | i32 => 4
  | i64 => 8

/-- The width that holds the elements of a type. -/
def DType.storage (d : DType) : StorageKind :=
  if d.isFloat then .f32 else if d = .int64 then .i64 else .i32

namespace Storage

/-- The width of stored elements. -/
def kind : Storage → StorageKind
  | f32 _ => .f32
  | i32 _ => .i32
  | i64 _ => .i64

/-- The number of elements. -/
def length : Storage → Nat
  | f32 v => v.length
  | i32 v => v.length
  | i64 v => v.length

/-- Whether the elements have the width of the given type. -/
def fits (s : Storage) (d : DType) : Bool := s.kind == d.storage

/-- Zeros, if there is room for them. -/
def zeros (d : DType) (n : Nat) : Outcome Storage := do
  Word.room d.storage.bytes n
  match d.storage with
  | .f32 => return .f32 (List.replicate n .zero)
  | .i32 => return .i32 (List.replicate n 0)
  | .i64 => return .i64 (List.replicate n 0)

/-- Stores singles as elements of the given type, cut towards zero for integers. -/
def ofSingles (d : DType) (v : List Single) : Storage :=
  match d.storage with
  | .f32 => .f32 v
  | .i32 => .i32 (v.map fun x => x.toFloat32.toInt32)
  | .i64 => .i64 (v.map fun x => x.toFloat32.toInt64)

/-- The elements rounded to single precision. -/
def toSingles : Storage → List Single
  | f32 v => v
  | i32 v => v.map fun x => .ofFloat32 x.toFloat32
  | i64 v => v.map fun x => .ofFloat32 x.toFloat32

/-- The elements as 64-bit integers, cut towards zero. -/
def toInts : Storage → List Int64
  | f32 v => v.map fun x => x.toFloat32.toInt64
  | i32 v => v.map Int32.toInt64
  | i64 v => v

/-- The elements as doubles. -/
def toDoubles : Storage → List Double
  | f32 v => v.map Double.ofSingle
  | i32 v => v.map fun x => .ofFloat x.toFloat
  | i64 v => v.map fun x => .ofFloat x.toFloat

/-- Rounds doubles to elements of the given width. -/
def ofDoubles (k : StorageKind) (v : List Double) : Storage :=
  match k with
  | .f32 => .f32 (v.map Double.toSingle)
  | .i32 => .i32 (v.map fun x => x.toFloat.toInt32)
  | .i64 => .i64 (v.map fun x => x.toFloat.toInt64)

/-! ## Parts -/

/-- The `n` elements from `offset` on, if there are so many. -/
def slice? (s : Storage) (offset n : Nat) : Option Storage :=
  if s.length < offset + n then none
  else some <|
    match s with
    | f32 v => .f32 ((v.drop offset).take n)
    | i32 v => .i32 ((v.drop offset).take n)
    | i64 v => .i64 ((v.drop offset).take n)

/-- A list with the elements from `offset` on overwritten. -/
def overlay {α : Type} (target source : List α) (offset : Nat) : List α :=
  target.take offset ++ source ++ target.drop (offset + source.length)

/-- Overwrites the elements from `offset` on, if they fit and have the same width. -/
def write? (target : Storage) (offset : Nat) (source : Storage) : Option Storage :=
  if target.length < offset + source.length then none
  else
    match target, source with
    | f32 t, f32 s => some (.f32 (overlay t s offset))
    | i32 t, i32 s => some (.i32 (overlay t s offset))
    | i64 t, i64 s => some (.i64 (overlay t s offset))
    | _, _ => none

/-- Adds element by element, if length and width agree. A sum of integers must fit their width. -/
def accumulate (total value : Storage) : Outcome (Option Storage) :=
  if total.length ≠ value.length then .ok none
  else
    match total, value with
    | f32 t, f32 s => .ok (some (.f32 (List.zipWith Single.add t s)))
    | i32 t, i32 s => do return some (.i32 (← (t.zip s).mapM fun (a, b) => Word.add32 a b))
    | i64 t, i64 s => do return some (.i64 (← (t.zip s).mapM fun (a, b) => Word.add64 a b))
    | _, _ => .ok none

/-! ## Moving elements -/

/-- The elements at the given positions, and `fill` where there is no position. -/
def pick {α : Type} (data : List α) (fill : α) (sources : List (Option Nat)) : Outcome (List α) :=
  let cells := data.toArray
  sources.mapM fun source =>
    match source with
    | none => .ok fill
    | some i => .orFail cells[i]? (.execution (.sourceIndex i cells.size))

/-- The stored elements at the given positions, unchanged; `fill` is rounded to their width. -/
def take (s : Storage) (fill : Double) (sources : List (Option Nat)) : Outcome Storage :=
  match s with
  | f32 v => do return .f32 (← pick v fill.toSingle sources)
  | i32 v => do return .i32 (← pick v fill.toFloat.toInt32 sources)
  | i64 v => do return .i64 (← pick v fill.toFloat.toInt64 sources)

/-- One storage behind the other, if their width agrees. -/
def append (a b : Storage) : Outcome Storage :=
  match a, b with
  | f32 v, f32 w => .ok (.f32 (v ++ w))
  | i32 v, i32 w => .ok (.i32 (v ++ w))
  | i64 v, i64 w => .ok (.i64 (v ++ w))
  | _, _ => .execution .storageKinds

end Storage

end TensorGraph
