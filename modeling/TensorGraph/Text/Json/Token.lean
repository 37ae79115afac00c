import TensorGraph.Text.Listing
import TensorGraph.Text.Json

/-!
Tokens of JSON texts: marks, and values without parts. The scanner takes one character after the other; a word is
a number or one of three names, and a quoted text may have escaped characters in it.
-/
namespace TensorGraph.Json

/-- A part of a JSON text. -/
inductive Token where
  | mark (c : Char)
  | value (j : Json)

namespace Token

/-! ## Numbers -/

/-- The number that digits stand for. -/
def ofDigits (s : List Char) : Nat := s.foldl (fun n c => 10 * n + (c.toNat - '0'.toNat)) 0

/-- The digits in front, at least one, and what follows them. -/
def digits? (s : List Char) : Option (List Char × List Char) :=
  match s.span Char.isDigit with
  | ([], _) => none
  | r => some r

/-- The digits behind a point, if there is one, and what follows. -/
def fraction? : List Char → Option (List Char × List Char)
  | '.' :: rest => digits? rest
  | s => some ([], s)

/-- The exponent that stands at the end, if there is one. -/
def exponent? : List Char → Option (Option Int)
  | [] => some none
  | letter :: rest => do
    guard (letter = 'e' ∨ letter = 'E')
    let (negative, rest) := match rest with
      | '-' :: rest => (true, rest)
      | '+' :: rest => (false, rest)
      | rest => (false, rest)
    let (digits, rest) ← digits? rest
    guard rest.isEmpty
    return some (if negative then -(ofDigits digits : Int) else ofDigits digits)

/-- Whether a whole number has a place among the signed or the unsigned words of 64 bits. A zero with a minus
sign has none. -/
def isWordSized (negative : Bool) (n : Nat) : Bool :=
  if negative then 0 < n ∧ n ≤ Nat.pow 2 63 else n < Nat.pow 2 64

/-- The number that a word stands for: a whole number if it is written and sized as one, and otherwise a decimal,
which keeps its sign also in front of zero. -/
def number? (s : List Char) : Option Json := do
  let (negative, s) := match s with
    | '-' :: rest => (true, rest)
    | s => (false, s)
  let (whole, s) ← digits? s
  guard (whole.length = 1 ∨ whole.head? ≠ some '0')
  let (fraction, s) ← fraction? s
  let exponent ← exponent? s
  let n := ofDigits whole
  if fraction.isEmpty ∧ exponent.isNone ∧ isWordSized negative n then
    return .int (if negative then -(n : Int) else n)
  return .decimal negative ⟨ofDigits (whole ++ fraction), exponent.getD 0 - fraction.length⟩

/-- The value that a word stands for. -/
def word? (s : List Char) : Option Json :=
  match String.ofList s with
  | "null" => some .null
  | "true" => some (.bool true)
  | "false" => some (.bool false)
  | _ => number? s

/-! ## Quoted texts -/

/-- The character that an escaped one stands for. -/
def unescape? : Char → Option Char
  | '"' => some '"'
  | '\\' => some '\\'
  | '/' => some '/'
  | 'b' => some '\x08'
  | 'f' => some '\x0c'
  | 'n' => some '\n'
  | 'r' => some '\r'
  | 't' => some '\t'
  | _ => none

/-- Whether a unit is the first of the two that a character beyond the first plane is written as. -/
def isHighHalf (unit : Nat) : Bool := 0xd800 ≤ unit && unit < 0xdc00

/-- Whether a unit is the second of two. -/
def isLowHalf (unit : Nat) : Bool := 0xdc00 ≤ unit && unit < 0xe000

/-- The character that two units stand for. -/
def joinHalves (high low : Nat) : Char := Char.ofNat (0x10000 + (high - 0xd800) * 0x400 + (low - 0xdc00))

end Token

/-! ## The scanner -/

/-- What the scanner is in the middle of. Characters that it has taken stand with the last one first; a first half
of a character waits for the second. -/
inductive Scan where
  | blank
  | word (taken : List Char)
  | text (taken : List Char)
  | escape (taken : List Char) (high : Option Nat)
  | unit (taken : List Char) (high : Option Nat) (digits : List Char)
  | half (taken : List Char) (high : Nat)

/-- The tokens before the present one, the last first. -/
structure Scanner where
  tokens : List Token := []
  scan : Scan := .blank

namespace Scanner

/-- Ends a word. -/
def endWord? (s : Scanner) : Option Scanner :=
  match s.scan with
  | .word taken => do return ⟨.value (← Token.word? taken.reverse) :: s.tokens, .blank⟩
  | .blank => some s
  | _ => none

/-- Takes a character outside quoted texts. -/
def outside? (s : Scanner) (c : Char) : Option Scanner :=
  if c = ' ' ∨ c = '\n' ∨ c = '\r' ∨ c = '\t' then s.endWord?
  else if "[]\x7b\x7d,:".toList.contains c then do
    let s ← s.endWord?
    return { s with tokens := .mark c :: s.tokens }
  else
    match s.scan with
    | .word taken => some { s with scan := .word (c :: taken) }
    | _ => some { s with scan := if c = '"' then .text [] else .word [c] }

/-- Takes a character of a quoted text. -/
def inside? (s : Scanner) (taken : List Char) (c : Char) : Option Scanner :=
  if c = '"' then some ⟨.value (.str (String.ofList taken.reverse)) :: s.tokens, .blank⟩
  else if c = '\\' then some { s with scan := .escape taken none }
  else if c.toNat < 32 then none
  else some { s with scan := .text (c :: taken) }

/-- Ends an escaped unit. -/
def endUnit? (taken : List Char) (high : Option Nat) (unit : Nat) : Option Scan :=
  match high with
  | some high => if Token.isLowHalf unit then some (.text (Token.joinHalves high unit :: taken)) else none
  | none =>
    if Token.isHighHalf unit then some (.half taken unit)
    else if Token.isLowHalf unit then none
    else some (.text (Char.ofNat unit :: taken))

/-- Takes a character. -/
def step? (s : Scanner) (c : Char) : Option Scanner :=
  match s.scan with
  | .blank | .word _ => s.outside? c
  | .text taken => s.inside? taken c
  | .half taken high => if c = '\\' then some { s with scan := .escape taken (some high) } else none
  | .escape taken high =>
    if c = 'u' then some { s with scan := .unit taken high [] }
    else if high.isSome then none
    else (Token.unescape? c).map fun c => { s with scan := .text (c :: taken) }
  | .unit taken high digits =>
    if digits.length < 3 then some { s with scan := .unit taken high (c :: digits) }
    else do return { s with scan := ← endUnit? taken high (← Hex.number? (c :: digits).reverse) }

end Scanner

/-- The tokens of a text. -/
def tokens? (text : String) : Option (List Token) := do
  let s ← text.toList.foldlM Scanner.step? {}
  let s ← s.endWord?
  return s.tokens.reverse

end TensorGraph.Json
