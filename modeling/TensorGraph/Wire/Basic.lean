import TensorGraph.Collection.Dict
import TensorGraph.Number.Single

/-!
The byte format of models, cached engines and binary reports: integers of fixed width with the lowest byte
first, lengths in eight bytes, a tag byte before an optional value, a four-byte number before a variant, and
the entries of a dictionary in the order of their keys. A reader takes what it needs from the front of the
bytes and leaves the rest.
-/
namespace TensorGraph

/-- Bytes. -/
abbrev Bytes := List UInt8

/-- Takes a value from the front of the bytes, or finds none there. -/
abbrev Reader := StateT Bytes Option

/-- Values with a byte format. -/
class Wire (α : Type) where
  put : α → Bytes
  get : Reader α

export Wire (put)

namespace Wire

/-! ## Numbers -/

/-- The lowest `width` bytes of `n`, the lowest first. -/
def little : Nat → Nat → Bytes
  | 0, _ => []
  | width + 1, n => UInt8.ofNat n :: little width (n / 256)

/-- The number with the given bytes, the lowest first. -/
def ofLittle : Bytes → Nat
  | [] => 0
  | b :: rest => b.toNat + 256 * ofLittle rest

/-- Takes the first `n` bytes. -/
def takeBytes (n : Nat) : Reader Bytes := fun bytes =>
  let front := bytes.take n
  if front.length < n then none else some (front, bytes.drop n)

/-- Takes a number of the given width. -/
def getLittle (width : Nat) : Reader Nat := do return ofLittle (← takeBytes width)

instance : Wire UInt32 where
  put w := little 4 w.toNat
  get := do return UInt32.ofNat (← getLittle 4)

instance : Wire UInt64 where
  put w := little 8 w.toNat
  get := do return UInt64.ofNat (← getLittle 8)

/-- Counts take eight bytes. -/
instance : Wire Nat where
  put n := little 8 n
  get := getLittle 8

/-- Integers take eight bytes in two's complement. -/
instance : Wire Int where
  put i := little 8 (i % UInt64.size).toNat
  get := do return Int.bmod (← getLittle 8) UInt64.size

instance : Wire Int32 where
  put i := put i.toUInt32
  get := do return UInt32.toInt32 (← Wire.get)

instance : Wire Int64 where
  put i := put i.toUInt64
  get := do return UInt64.toInt64 (← Wire.get)

instance : Wire Single where
  put s := put s.bits
  get := do return ⟨← Wire.get⟩

/-- A truth value is one byte, zero or one. -/
instance : Wire Bool where
  put b := [if b then 1 else 0]
  get := fun
    | 0 :: rest => some (false, rest)
    | 1 :: rest => some (true, rest)
    | _ => none

/-! ## Variants -/

/-- The number of a variant. -/
def putTag (n : Nat) : Bytes := little 4 n

/-- Takes the number of a variant. -/
def getTag : Reader Nat := getLittle 4

/-- Takes a variant that has no fields, from the list of all in their numbering. -/
def getEnum {α : Type} (all : List α) : Reader α := do
  let n ← getTag
  StateT.lift all[n]?

/-! ## Composite values -/

/-- The length in bytes, then the bytes of the text. -/
instance : Wire String where
  put s := put s.toByteArray.size ++ s.toByteArray.data.toList
  get := do
    let n : Nat ← Wire.get
    let bytes ← takeBytes n
    StateT.lift (String.fromUTF8? ⟨bytes.toArray⟩)

instance {α : Type} [Wire α] : Wire (Option α) where
  put
    | none => [0]
    | some a => 1 :: put a
  get := fun
    | 0 :: rest => some (none, rest)
    | 1 :: rest => do
      let (a, rest) ← Wire.get rest
      return (some a, rest)
    | _ => none

instance {α β : Type} [Wire α] [Wire β] : Wire (α × β) where
  put p := put p.1 ++ put p.2
  get := do return (← Wire.get, ← Wire.get)

/-- Takes `n` values. -/
def getMany {α : Type} [Wire α] : Nat → Reader (List α)
  | 0 => return []
  | n + 1 => do
    let a ← Wire.get
    let rest ← getMany n
    return a :: rest

/-- The length, then the items. -/
instance {α : Type} [Wire α] : Wire (List α) where
  put l := put l.length ++ l.flatMap put
  get := do
    let n : Nat ← Wire.get
    getMany n

/-- The number of entries, then the entries; of two entries with one key the last stays. -/
instance {κ α : Type} [Ord κ] [Std.TransOrd κ] [Wire κ] [Wire α] : Wire (Dict κ α) where
  put d := put d.entries
  get := do
    let entries ← Wire.get
    return Dict.ofList entries

/-- Reads a value from the front of the bytes and ignores what follows it. -/
def decode? {α : Type} [Wire α] (bytes : Bytes) : Option α := (Wire.get.run bytes).map (·.1)

end Wire

end TensorGraph
