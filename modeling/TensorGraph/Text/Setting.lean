/-
White space, and the values of settings as text. Blanks around a value do not matter; a truth value is one of two words, and a count
is made of decimal digits, with a plus sign before them or not.
-/
namespace TensorGraph.Text

/-! ## White space -/

/-- The code points that count as blank, as ranges of first and last. -/
def blankRanges : List (Nat × Nat) :=
  [(0x09, 0x0d), (0x20, 0x20), (0x85, 0x85), (0xa0, 0xa0), (0x1680, 0x1680), (0x2000, 0x200a),
    (0x2028, 0x2029), (0x202f, 0x202f), (0x205f, 0x205f), (0x3000, 0x3000)]

/-- Whether a character is blank. -/
def isBlank (c : Char) : Bool := blankRanges.any fun (first, last) => first ≤ c.toNat && c.toNat ≤ last

/-- The text without the blanks at both ends. -/
def trim (s : String) : String :=
  String.ofList ((s.toList.dropWhile isBlank).reverse.dropWhile isBlank).reverse

/-- The text with the letters `A` to `Z` as small ones and all else unchanged. -/
def lower (s : String) : String := String.ofList (s.toList.map Char.toLower)

/-! ## Values -/

/-- Reads a truth value. -/
def bool? (s : String) : Option Bool :=
  match trim s with
  | "true" => some true
  | "false" => some false
  | _ => none

/-- The number that decimal digits stand for; there must be one. -/
def digits? : List Char → Option Nat
  | [] => none
  | l => if l.all Char.isDigit then some (l.foldl (fun n c => 10 * n + (c.toNat - '0'.toNat)) 0) else none

/-- Reads a count of at most `bits` bits. -/
def count? (bits : Nat) (s : String) : Option Nat :=
  let digits :=
    match (trim s).toList with
    | '+' :: rest => rest
    | l => l
  (digits? digits).filter (· < Nat.pow 2 bits)

end TensorGraph.Text
