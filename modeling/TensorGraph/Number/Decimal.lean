import TensorGraph.Number.Single

/-!
Decimals, their values in double precision, and the decimal text of single-precision numbers. `Single.shortest`
finds the decimal with the fewest digits that rounds back to the number, by exact comparison on natural numbers;
two layouts write it out, one always positional and one with an exponent outside a fixed range. The layouts differ
too in where they send a number that is halfway between two decimals.
-/
namespace TensorGraph

/-- The decimal `digits · 10 ^ exponent`. -/
structure Decimal where
  digits : Nat
  exponent : Int
deriving DecidableEq, Repr

/-- Where a number goes that is halfway between two neighbouring decimals. -/
inductive Tie where
  | up
  | toEven
deriving DecidableEq, Repr

namespace Tie

/-- Whether a number halfway between `c` and `c + 1` goes to `c`. -/
def goesDown : Tie → Nat → Bool
  | .up, _ => false
  | .toEven, c => c % 2 == 0

end Tie

namespace Decimal

/-- The number `a · 10 ^ p · 2 ^ q`, in which powers with a negative exponent count as one. -/
def scaleUp (a : Nat) (p q : Int) : Nat := a * Nat.pow 10 p.toNat * Nat.pow 2 q.toNat

/-- Compares `a · 10 ^ p` with `b · 2 ^ q` exactly, by clearing the denominators. -/
def compareBinary (a : Nat) (p : Int) (b : Nat) (q : Int) : Ordering :=
  compare (scaleUp a p (-q)) (scaleUp b (-p) q)

/-- The integer part of `b · 2 ^ q / 10 ^ p`. -/
def floorAt (b : Nat) (q p : Int) : Nat := scaleUp b (-p) q / scaleUp 1 p (-q)

/-- Whether `b · 2 ^ q` goes to `c · 10 ^ p` rather than to `(c + 1) · 10 ^ p`: to the nearer one, and by the
rule for ties from halfway between them. -/
def goesDown (tie : Tie) (c : Nat) (p : Int) (b : Nat) (q : Int) : Bool :=
  match compareBinary (2 * c + 1) p (2 * b) q with
  | .gt => true
  | .eq => tie.goesDown c
  | .lt => false

/-- The double nearest to the decimal. -/
def toFloat (d : Decimal) : Float :=
  if 0 ≤ d.exponent then Float.ofScientific d.digits false d.exponent.toNat
  else Float.ofScientific d.digits true (-d.exponent).toNat

/-- The exponents of ten to try, from the coarsest grid to one finer than any single needs. -/
def grids : List Int := (List.range 90).map fun (i : Nat) => (39 : Int) - i

end Decimal

namespace Single

/-- The bit before the fraction of a number that is not too small. -/
def leadingBit : Nat := 0x00800000

/-- The magnitude as `m · 2 ^ q`, for a finite number. -/
def magnitude (s : Single) : Nat × Int :=
  let fraction := (s.bits &&& 0x007fffff).toNat
  let exponent := ((s.bits >>> 23) &&& 0xff).toNat
  if exponent == 0 then (fraction, -149) else (fraction + leadingBit, (exponent : Int) - 150)

/-- Whether the sign bit is set. -/
def isNegative (s : Single) : Bool := s.bits >>> 31 == 1

/-- Whether the word stands for a finite number. -/
def isFinite (s : Single) : Bool := s.bits &&& 0x7f800000 != 0x7f800000

/-- Whether `c · 10 ^ p` rounds to the magnitude of `s`. The ends of the rounding interval belong to it
exactly when the significand is even; below a power of two the interval is half as wide. -/
def roundsTo (s : Single) (c : Nat) (p : Int) : Bool :=
  let (m, q) := s.magnitude
  -- the ends of the interval, in quarters of the last place
  let low := if m == leadingBit && q != -149 then 4 * m - 1 else 4 * m - 2
  let high := 4 * m + 2
  let fromLow := Decimal.compareBinary c p low (q - 2)
  let fromHigh := Decimal.compareBinary c p high (q - 2)
  if m % 2 == 0 then fromLow != .lt && fromHigh != .gt else fromLow == .gt && fromHigh == .lt

/-- The best decimal for `s` on the grid of multiples of `10 ^ p`: of the two neighbours of the magnitude, one
that rounds back to it, and of both the nearer. -/
def onGrid? (tie : Tie) (s : Single) (p : Int) : Option Decimal :=
  let (m, q) := s.magnitude
  let c := Decimal.floorAt m q p
  let low := c != 0 && s.roundsTo c p
  let high := s.roundsTo (c + 1) p
  if low && (!high || Decimal.goesDown tie c p m q) then some ⟨c, p⟩
  else if high then some ⟨c + 1, p⟩
  else none

/-- The decimal with the fewest digits that rounds to the magnitude of a finite number, and of several the
nearest. -/
def shortest (tie : Tie) (s : Single) : Decimal :=
  if s.magnitude.1 == 0 then ⟨0, 0⟩
  else (Decimal.grids.findSome? (s.onGrid? tie)).getD ⟨0, 0⟩

/-- The sign, then `body`. -/
def signed (s : Single) (body : String) : String := if s.isNegative then "-" ++ body else body

/-- Zeros in a row. -/
def zeros (n : Nat) : String := String.ofList (List.replicate n '0')

/-- Digits with the point after the first `whole` of them. -/
def pointed (digits : List Char) (whole : Nat) : String :=
  String.ofList (digits.take whole) ++ "." ++ String.ofList (digits.drop whole)

/-- The exponent behind its mark, always with a sign. -/
def exponentText (e : Int) : String := if e < 0 then "e" ++ toString e else "e+" ++ toString e

/-- Positional text: no exponent, and no point when the number is whole; a tie goes up. -/
def text (s : Single) : String :=
  if s.isNaN then "NaN"
  else if !s.isFinite then s.signed "inf"
  else
    let d := s.shortest .up
    let digits := (toString d.digits).toList
    let point : Int := digits.length + d.exponent
    s.signed <|
      if 0 ≤ d.exponent then toString d.digits ++ zeros d.exponent.toNat
      else if 0 < point then pointed digits point.toNat
      else "0." ++ zeros (-point).toNat ++ toString d.digits

/-- JSON text: positional from `10 ^ -5` up to `10 ^ 13`, with a point in every positional number, and an
exponent with its sign outside that range; a tie goes to the even digit. What is no finite number is written
`null`. -/
def jsonText (s : Single) : String :=
  if !s.isFinite then "null"
  else
    let d := s.shortest .toEven
    let digits := (toString d.digits).toList
    let point : Int := digits.length + d.exponent
    s.signed <|
      if d.digits == 0 then "0.0"
      else if 0 ≤ d.exponent && point ≤ 13 then toString d.digits ++ zeros d.exponent.toNat ++ ".0"
      else if 0 < point && point ≤ 13 then pointed digits point.toNat
      else if -6 < point && point ≤ 0 then "0." ++ zeros (-point).toNat ++ toString d.digits
      else if digits.length == 1 then toString d.digits ++ exponentText (point - 1)
      else pointed digits 1 ++ exponentText (point - 1)

end Single

end TensorGraph
