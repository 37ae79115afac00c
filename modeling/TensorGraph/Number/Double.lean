import TensorGraph.Number.Single

/-!
Double-precision numbers as 64-bit words. Arithmetic on numbers is the machine's own. What is no number keeps its
word through arithmetic, so that the words of a result are known too: the first operand that is no number is the
result, made quiet, and an operation on numbers that has no numeric result gives `Double.invalid`.
-/
namespace TensorGraph

/-- A double-precision number as its word. -/
structure Double where
  bits : UInt64
deriving DecidableEq, Inhabited, Repr

namespace Double

/-- The sign bit. -/
def signBit : UInt64 := 0x8000000000000000

/-- The bit that tells a quiet not-a-number from a signalling one. -/
def quietBit : UInt64 := 0x0008000000000000

/-- The bits of an infinity. -/
def exponentBits : UInt64 := 0x7ff0000000000000

/-- The bits of the fraction. -/
def fractionBits : UInt64 := 0x000fffffffffffff

/-- Whether the word stands for no number. -/
def isNaN (x : Double) : Bool :=
  x.bits &&& exponentBits == exponentBits && x.bits &&& fractionBits != 0

/-- Whether the sign bit is set. -/
def isNegative (x : Double) : Bool := x.bits &&& signBit != 0

/-- The word of an operation on numbers that has no numeric result. -/
def invalid : Double := ⟨signBit ||| exponentBits ||| quietBit⟩

/-- The word of a machine number. -/
def ofFloat (x : Float) : Double := if x.isNaN then invalid else ⟨x.toBits⟩

/-- The machine number of a word. -/
def toFloat (x : Double) : Float := Float.ofBits x.bits

/-- What is no number, made quiet. -/
def quiet (x : Double) : Double := ⟨x.bits ||| quietBit⟩

/-! ## Arithmetic -/

/-- Applies a machine operation to a number. -/
def lift (f : Float → Float) (x : Double) : Double :=
  if x.isNaN then x.quiet else ofFloat (f x.toFloat)

/-- Applies a machine operation to two numbers. -/
def lift₂ (f : Float → Float → Float) (a b : Double) : Double :=
  if a.isNaN then a.quiet else if b.isNaN then b.quiet else ofFloat (f a.toFloat b.toFloat)

/-- The opposite, which has the other sign whatever the word stands for. -/
def neg (x : Double) : Double := ⟨x.bits ^^^ signBit⟩

/-- The magnitude, which has no sign whatever the word stands for. -/
def abs (x : Double) : Double := ⟨x.bits &&& (exponentBits ||| fractionBits)⟩

/-- Numeric order: the zeros are equal and not-a-number is below nothing. -/
def lt (a b : Double) : Bool := a.toFloat < b.toFloat

/-- Numeric order or equality. -/
def le (a b : Double) : Bool := a.toFloat ≤ b.toFloat

/-- The greater of two: not-a-number gives way to the other, and `-0` is below `+0`. -/
def maximum (a b : Double) : Double :=
  if a.isNaN then b else if b.isNaN then a
  else if a.lt b then b else if b.lt a then a
  else if a.isNegative then b else a

/-- The lesser of two: not-a-number gives way to the other, and `-0` is below `+0`. -/
def minimum (a b : Double) : Double :=
  if a.isNaN then b else if b.isNaN then a
  else if a.lt b then a else if b.lt a then b
  else if a.isNegative then a else b

/-! ## Other widths -/

/-- The double with the value of a single; what is no number keeps its sign and its fraction. -/
def ofSingle (s : Single) : Double :=
  if s.isNaN then
    let word := s.bits.toUInt64
    ⟨(word >>> 31) <<< 63 ||| exponentBits ||| quietBit ||| (word &&& 0x007fffff) <<< 29⟩
  else ⟨s.toFloat.toBits⟩

/-- Rounds to the nearest single; what is no number keeps its sign and the front of its fraction. -/
def toSingle (x : Double) : Single :=
  if x.isNaN then
    let sign := (x.bits >>> 63).toUInt32
    let front := ((x.bits &&& fractionBits) >>> 29).toUInt32
    ⟨sign <<< 31 ||| (0x7fc00000 : UInt32) ||| front⟩
  else .ofFloat x.toFloat

end Double

end TensorGraph
