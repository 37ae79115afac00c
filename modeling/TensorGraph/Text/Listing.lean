/-
Text of lists and words: bracketed lists with a comma and a space between the items, and hexadecimal words of
fixed width; and the numbers that hexadecimal digits stand for.
-/
namespace TensorGraph.Text

/-- The items between brackets, divided by a comma and a space. -/
def bracketed (items : List String) : String := "[" ++ ", ".intercalate items ++ "]"

/-- A bracketed list of integers. -/
def ints (l : List Int) : String := bracketed (l.map toString)

/-- A bracketed list of natural numbers. -/
def nats (l : List Nat) : String := bracketed (l.map toString)

/-- The last `width` hexadecimal digits of `n`, padded with zeros. -/
def hex (width n : Nat) : String :=
  String.ofList ((List.range width).reverse.map fun i => Nat.digitChar (n / Nat.pow 16 i % 16))

/-- Sixteen hexadecimal digits. -/
def hex64 (w : UInt64) : String := hex 16 w.toNat

end TensorGraph.Text

namespace TensorGraph.Hex

/-- The value of a hexadecimal digit. -/
def digit? (c : Char) : Option Nat :=
  if c.isDigit then some (c.toNat - '0'.toNat)
  else if 'a' ≤ c ∧ c ≤ 'f' then some (c.toNat - 'a'.toNat + 10)
  else if 'A' ≤ c ∧ c ≤ 'F' then some (c.toNat - 'A'.toNat + 10)
  else none

/-- The number that hexadecimal digits stand for. -/
def number? (digits : List Char) : Option Nat :=
  digits.foldlM (fun n c => do return n * 16 + (← digit? c)) 0

end TensorGraph.Hex
