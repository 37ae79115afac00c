import TensorGraph.Wire.Basic

/-!
The 64-bit hash of byte strings. What goes into a fingerprint besides plain words is framed: its length stands
before it, so that no two sequences of values share their bytes by a shift of the border between them.
-/
namespace TensorGraph

namespace Hash

/-- The hash of no bytes. -/
def start : UInt64 := 0xcbf29ce484222325

/-- Takes one byte into the hash. -/
def step (h : UInt64) (b : UInt8) : UInt64 := (h ^^^ b.toUInt64) * 0x100000001b3

/-- Takes bytes into the hash, the first first. -/
def extend (h : UInt64) (bytes : Bytes) : UInt64 := bytes.foldl step h

/-- The hash of a byte string. -/
def ofBytes (bytes : Bytes) : UInt64 := extend start bytes

/-- Bytes behind their length. -/
def frame (bytes : Bytes) : Bytes := put bytes.length ++ bytes

/-- A text behind its length. -/
def frameText (s : String) : Bytes := frame s.toByteArray.data.toList

/-- The bytes of a value behind their length. -/
def frameValue {α : Type} [Wire α] (a : α) : Bytes := frame (put a)

theorem extend_append (h : UInt64) (a b : Bytes) : extend h (a ++ b) = extend (extend h a) b :=
  List.foldl_append

end Hash

end TensorGraph
