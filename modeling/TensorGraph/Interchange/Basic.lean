import TensorGraph.Collection.Dict
import TensorGraph.Error.Basic
import TensorGraph.Text.Listing
import TensorGraph.Text.Json
import TensorGraph.Wire.Hash

/-!
Interchange documents: every value that the library takes in or shows has a JSON form. Single-precision numbers
are written as their words, so that nothing is lost; they may be read from plain numbers too. A document of
another form breaks the promise of whoever wrote it, and reading it aborts.
-/
namespace TensorGraph

/-- Values with a written form. -/
class ToJson (α : Type) where
  toJson : α → Json

/-- Values that can be read from a document. -/
class OfJson (α : Type) where
  ofJson : Json → Outcome α

export ToJson (toJson)

export OfJson (ofJson)

namespace Json

/-- The member of an object with the given name. -/
def member? (j : Json) (name : String) : Option Json :=
  match j with
  | .obj members => members.lookup name
  | _ => none

/-- The member of an object, where `null` is as good as none. -/
def optional? (j : Json) (name : String) : Option Json :=
  match j.member? name with
  | some .null => none
  | m => m

/-- Reads a member that must be there. -/
def get {α : Type} [OfJson α] (j : Json) (name : String) : Outcome α := do
  ofJson (← Outcome.promised (j.member? name))

/-- Reads a member if it is there. -/
def get? {α : Type} [OfJson α] (j : Json) (name : String) : Outcome (Option α) :=
  match j.optional? name with
  | none => .ok none
  | some m => do return some (← ofJson m)

/-- Reads a member, or takes a default. -/
def getD {α : Type} [OfJson α] (j : Json) (name : String) (default : α) : Outcome α := do
  return (← j.get? name).getD default

/-- The items of a list. -/
def items : Json → Outcome (List Json)
  | .arr l => .ok l
  | _ => .error .abort

/-- The members of an object. -/
def members : Json → Outcome (List (String × Json))
  | .obj l => .ok l
  | _ => .error .abort

end Json

instance : ToJson Json := ⟨id⟩

instance : OfJson Json := ⟨.ok⟩

instance : ToJson Int := ⟨.int⟩

instance : OfJson Int where
  ofJson
    | .int i => .ok i
    | _ => .error .abort

instance : ToJson Nat := ⟨.nat⟩

instance : OfJson Nat where
  ofJson
    | .int i => if i < 0 then .error .abort else .ok i.toNat
    | _ => .error .abort

instance : ToJson Bool := ⟨.bool⟩

instance : OfJson Bool where
  ofJson
    | .bool b => .ok b
    | _ => .error .abort

instance : ToJson String := ⟨.str⟩

instance : OfJson String where
  ofJson
    | .str s => .ok s
    | _ => .error .abort

instance {α : Type} [ToJson α] : ToJson (Option α) where
  toJson
    | none => .null
    | some a => toJson a

instance {α : Type} [OfJson α] : OfJson (Option α) where
  ofJson
    | .null => .ok none
    | j => do return some (← ofJson j)

instance {α : Type} [ToJson α] : ToJson (List α) := ⟨fun l => .arr (l.map toJson)⟩

instance {α : Type} [OfJson α] : OfJson (List α) where
  ofJson j := do (← j.items).mapM ofJson

instance {α β : Type} [ToJson α] [ToJson β] : ToJson (α × β) := ⟨fun p => .arr [toJson p.1, toJson p.2]⟩

instance {α β : Type} [OfJson α] [OfJson β] : OfJson (α × β) where
  ofJson
    | .arr [a, b] => do return (← ofJson a, ← ofJson b)
    | _ => .error .abort

instance {α : Type} [ToJson α] : ToJson (Dict String α) where
  toJson d := .obj (d.entries.map fun e => (e.1, toJson e.2))

instance {α : Type} [OfJson α] : OfJson (Dict String α) where
  ofJson j := do
    let entries ← (← j.members).mapM fun (k, v) => do return (k, ← ofJson v)
    return Dict.ofList entries

/-! ## Words and bytes -/

namespace Hex

/-- The bytes that pairs of hexadecimal digits stand for. -/
def bytes? : List Char → Option Bytes
  | a :: b :: rest => do
    let n ← number? [a, b]
    return UInt8.ofNat n :: (← bytes? rest)
  | [] => some []
  | [_] => none

/-- Two hexadecimal digits for each byte. -/
def ofBytes (b : Bytes) : String := String.join (b.map fun x => Text.hex 2 x.toNat)

end Hex

instance : ToJson UInt64 := ⟨fun w => .str (Text.hex64 w)⟩

instance : OfJson UInt64 where
  ofJson j := do
    let s : String ← ofJson j
    return UInt64.ofNat (← Outcome.promised (Hex.number? s.toList))

/-- Bytes that are not too many, as pairs of hexadecimal digits. -/
def bytesOfJson (j : Json) : Outcome Bytes := do
  let s : String ← ofJson j
  Outcome.promised (Hex.bytes? s.toList)

/-- Bytes with their number and hash, written out up to 1024 of them. -/
def bytesToJson (b : Bytes) : Json :=
  .obj ([("len", .nat b.length), ("fnv", toJson (Hash.ofBytes b))] ++
    if b.length ≤ 1024 then [("hex", .str (Hex.ofBytes b))] else [])

/-! ## Single-precision numbers -/

instance : ToJson Single where
  toJson s := .str (if s.isNaN then "nan" else "x" ++ Text.hex 8 s.bits.toNat)

instance : OfJson Single where
  ofJson
    | .int i => .ok (.ofFloat (Float.ofInt i))
    | .decimal negative d => .ok (.ofFloat (if negative then -d.toFloat else d.toFloat))
    | .str "nan" => .ok ⟨0x7fc00000⟩
    | .str "inf" => .ok ⟨0x7f800000⟩
    | .str "-inf" => .ok ⟨0xff800000⟩
    | .str "-0" => .ok ⟨0x80000000⟩
    | .str s => do
      match s.toList with
      | 'x' :: digits => return ⟨UInt32.ofNat (← Outcome.promised (Hex.number? digits))⟩
      | _ => .error .abort
    | _ => .error .abort

end TensorGraph
