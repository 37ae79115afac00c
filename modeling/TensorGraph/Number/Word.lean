import TensorGraph.Error.Basic

/-!
Whole numbers in 64-bit words. Counts and positions are unsigned, extents are signed. A sum or a product is taken
only if it fits its word, and the call that asks for another one aborts. Main statement: a product that is taken
is the product.
-/
namespace TensorGraph

/-! ## Sums -/

/-- The sum of the numbers in a list. -/
def sumOf (l : List Nat) : Nat := l.foldr (· + ·) 0

@[simp] theorem sumOf_nil : sumOf [] = 0 := rfl

@[simp] theorem sumOf_cons (n : Nat) (l : List Nat) : sumOf (n :: l) = n + sumOf l := rfl

/-! ## Words -/

namespace Word

/-- How many unsigned words there are. -/
def limit : Nat := Nat.pow 2 64

/-- How many signed words there are on either side of zero. -/
def half : Nat := Nat.pow 2 63

/-- A count or a position, if it fits. -/
def nat (n : Nat) : Outcome Nat := if n < limit then .ok n else .error .abort

/-- A signed number, if it fits. -/
def int (i : Int) : Outcome Int := if -(half : Int) ≤ i ∧ i < half then .ok i else .error .abort

/-- The product, taken from the left. Every step must fit, also one that a later zero would undo. -/
def product (l : List Nat) : Outcome Nat := l.foldlM (fun n d => nat (n * d)) 1

/-- The product of signed numbers, taken from the left. -/
def signedProduct (l : List Int) : Outcome Int := l.foldlM (fun n d => int (n * d)) 1

/-- The sum. No part of a sum of counts is greater than the whole, so it is enough that the whole fits. -/
def sum (l : List Nat) : Outcome Nat := nat (sumOf l)

/-- A count read as a signed word: from `half` on it is negative. -/
def toSigned (n : Nat) : Int := (n : Int).bmod limit

/-- Refuses a block of `n` items of `bytes` bytes each that no memory can span. -/
def room (bytes n : Nat) : Outcome Unit := if bytes * n < half then .ok () else .error .abort

/-- The sum of two 32-bit numbers, if it fits. -/
def add32 (a b : Int32) : Outcome Int32 :=
  let sum := a.toInt + b.toInt
  if sum = (a + b).toInt then .ok (a + b) else .error .abort

/-- The sum of two 64-bit numbers, if it fits. -/
def add64 (a b : Int64) : Outcome Int64 :=
  let sum := a.toInt + b.toInt
  if sum = (a + b).toInt then .ok (a + b) else .error .abort

/-! ## What is taken is exact -/

theorem nat_eq_ok_iff {n m : Nat} : nat n = .ok m ↔ n < limit ∧ m = n := by
  by_cases h : n < limit <;> simp [nat, h, eq_comm]

theorem int_eq_ok_iff {i j : Int} : int i = .ok j ↔ (-(half : Int) ≤ i ∧ i < half) ∧ j = i := by
  by_cases h : -(half : Int) ≤ i ∧ i < half <;> simp [int, h, eq_comm]

theorem foldlM_product_eq {l : List Nat} {a n : Nat}
    (h : l.foldlM (fun n d => nat (n * d)) a = .ok n) : n = a * l.foldr (· * ·) 1 := by
  induction l generalizing a with
  | nil =>
    have : a = n := Except.ok.inj h
    simp [this]
  | cons d l ih =>
    rw [List.foldlM_cons] at h
    cases hs : nat (a * d) with
    | error e => rw [hs] at h; exact nomatch h
    | ok m =>
      rw [hs] at h
      rw [ih h, (nat_eq_ok_iff.1 hs).2, List.foldr_cons, Nat.mul_assoc]

theorem product_eq {l : List Nat} {n : Nat} (h : product l = .ok n) : n = l.foldr (· * ·) 1 := by
  rw [foldlM_product_eq h, Nat.one_mul]

end Word

end TensorGraph
