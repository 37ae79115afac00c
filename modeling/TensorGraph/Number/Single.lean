/-
Single-precision numbers as 32-bit words. Keeping the word, and not the number it stands for, makes equality
decidable and tells the two zeros and the many not-a-number patterns apart, which stored tensors and written
models must do. Arithmetic goes through the machine's own operations.
-/
namespace TensorGraph

/-- A single-precision number as its word. -/
structure Single where
  bits : UInt32
deriving DecidableEq, Inhabited, Repr

namespace Single

/-- The word of a machine number. -/
def ofFloat32 (x : Float32) : Single := ⟨x.toBits⟩

/-- The machine number of a word. -/
def toFloat32 (s : Single) : Float32 := Float32.ofBits s.bits

/-- Rounds a double to the nearest single. -/
def ofFloat (x : Float) : Single := ofFloat32 x.toFloat32

/-- The double with the same value. -/
def toFloat (s : Single) : Float := s.toFloat32.toFloat

/-- Positive zero. -/
def zero : Single := ⟨0⟩

/-- One. -/
def one : Single := ⟨0x3f800000⟩

/-- Two. -/
def two : Single := ⟨0x40000000⟩

/-- The largest finite number. -/
def largest : Single := ⟨0x7f7fffff⟩

/-- The smallest finite number. -/
def smallest : Single := ⟨0xff7fffff⟩

/-- Whether the word stands for no number. -/
def isNaN (s : Single) : Bool :=
  s.bits &&& 0x7f800000 == 0x7f800000 && s.bits &&& 0x007fffff != 0

/-- Whether the word stands for one of the two zeros. -/
def isZero (s : Single) : Bool := s.bits &&& 0x7fffffff == 0

/-- Rounded addition. -/
def add (a b : Single) : Single := ofFloat32 (a.toFloat32 + b.toFloat32)

/-- Numeric order: the zeros are equal and not-a-number is below nothing. -/
def lt (a b : Single) : Bool := a.toFloat32 < b.toFloat32

/-- Numeric equality: the zeros are equal and not-a-number equals nothing. -/
def numEq (a b : Single) : Bool := !a.isNaN && !b.isNaN && (a == b || a.isZero && b.isZero)

theorem numEq_trans {a b c : Single} (hab : a.numEq b = true) (hbc : b.numEq c = true) : a.numEq c = true := by
  simp only [numEq, Bool.and_eq_true, Bool.or_eq_true, beq_iff_eq] at hab hbc ⊢
  obtain ⟨⟨ha, -⟩, hab⟩ := hab
  obtain ⟨⟨-, hc⟩, hbc⟩ := hbc
  refine ⟨⟨ha, hc⟩, ?_⟩
  rcases hab with rfl | ⟨haz, hbz⟩
  · exact hbc
  · rcases hbc with rfl | ⟨-, hcz⟩
    · exact .inr ⟨haz, hbz⟩
    · exact .inr ⟨haz, hcz⟩

end Single

end TensorGraph
