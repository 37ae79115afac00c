import Mathlib.Algebra.BigOperators.Ring.Finset
import Mathlib.Algebra.Order.Field.Basic
import TensorGraph.Kernel.Plan
import TensorGraph.Proofs.Collection
import TensorGraph.Proofs.Stateful
import TensorGraph.Tensor.Storage

/-!
Kernels over a linearly ordered field, without rounding. The functions that are not algebraic are arbitrary. Main
statement: a sum of operands of one shape is paired with any tangent as its summands are together.
-/
namespace TensorGraph

/-! ## Numbers without rounding -/

/-- What a field does not say of the numbers that kernels compute with. -/
structure Functions (R : Type) where
  sqrt : R → R
  exp : R → R
  log : R → R
  tanh : R → R
  ceil : R → R
  floor : R → R
  ofSingle : Single → R
  truncate : R → Int

/-- A linearly ordered field as numbers for kernels. -/
@[reducible] def Functions.scalar {R : Type} [Field R] [LinearOrder R] (f : Functions R) : Scalar R where
  zero := 0
  one := 1
  neg x := -x
  add x y := x + y
  sub x y := x - y
  mul x y := x * y
  div x y := x / y
  sumStart := 0
  abs x := max x (-x)
  sqrt := f.sqrt
  exp := f.exp
  log := f.log
  tanh := f.tanh
  ceil := f.ceil
  floor := f.floor
  maximum := max
  minimum := min
  lt x y := decide (x < y)
  le x y := decide (x ≤ y)
  ofNat n := n
  ofSingle := f.ofSingle
  truncate := f.truncate

namespace Kernel

/-! ## Kernels on numbers -/

section Plans

variable {R : Type} [Scalar R]

/-- The values of a plan, over the numbers themselves. -/
def Plan.read (inputs : List (Operand R)) (output : TensorInfo) : Plan R → Outcome (List R)
  | .relabel => do return (← Outcome.promised inputs.head?).values
  | .move pool fill sources => do
    let data ← pool.mapM fun i => do return (← Outcome.promised inputs[i]?).values
    Storage.pick data.flatten (Scalar.ofSingle fill) (← sources)
  | .values result => finish output result

/-- Runs an op on numbers. -/
def exact (kind : OpKind) (inputs : List (Operand R)) (output : TensorInfo) : Outcome (Operand R) := do
  let values ← (← plan kind inputs output).read inputs output
  if values.length ≠ (← output.counted) then
    .execution (.producedElements kind.typeName values.length output)
  else return ⟨output, values⟩

/-- A result has the info that was asked for, and as many values as that says. -/
theorem exact_ok {kind : OpKind} {inputs : List (Operand R)} {output : TensorInfo} {y : Operand R}
    (h : exact kind inputs output = .ok y) : y.info = output ∧ output.counted = .ok y.values.length ∧
      ∃ p, plan kind inputs output = .ok p ∧ p.read inputs output = .ok y.values := by
  obtain ⟨p, hp, h⟩ := Outcome.bind_eq_ok.1 h
  obtain ⟨values, hvalues, h⟩ := Outcome.bind_eq_ok.1 h
  obtain ⟨n, hn, h⟩ := Outcome.bind_eq_ok.1 h
  split at h
  · cases h
  · rename_i hlen
    cases h
    rw [ne_eq, not_not] at hlen
    exact ⟨rfl, by rw [hlen]; exact hn, p, hp, hvalues⟩

/-- A function of one element is applied to all elements. -/
theorem exact_unary {u : Unary} {x : Operand R} {output : TensorInfo} {y : Operand R}
    (h : exact (.unary u) [x] output = .ok y) : y.values = x.values.map u.apply := by
  obtain ⟨-, -, p, hp, hread⟩ := exact_ok h
  cases hp
  obtain ⟨n, hn, hread⟩ := Outcome.bind_eq_ok.1 hread
  split at hread
  · cases hread
  · exact (Except.ok.inj hread).symm

end Plans

end Kernel

/-! ## Equal shapes -/

namespace Index

/-- The strides undo the coordinates. -/
theorem flat_coord : ∀ (dims : List Nat) {i : Nat}, i < volume dims → flat (coord dims i) (strides dims) = i
  | [], i, h => by
    change i < 1 at h
    change 0 = i
    omega
  | d :: rest, i, h => by
    change i < d * volume rest at h
    have hpos : 0 < volume rest := by
      rcases Nat.eq_zero_or_pos (volume rest) with hz | hpos
      · rw [hz, Nat.mul_zero] at h
        exact absurd h (Nat.not_lt_zero i)
      · exact hpos
    change i / volume rest * volume rest + flat (coord rest (i % volume rest)) (strides rest) = i
    rw [flat_coord rest (Nat.mod_lt i hpos), Nat.div_add_mod']

theorem stretchedStrides_self : ∀ (dims l : List Nat), l.length = dims.length →
    stretchedStrides dims l dims = some l
  | [], [], _ => rfl
  | d :: dims, s :: l, h => by
    rw [stretchedStrides, stretchedStrides_self dims l (by simpa using h)]
    simp

theorem length_strides : ∀ dims : List Nat, (strides dims).length = dims.length
  | [] => rfl
  | _ :: rest => by rw [strides, List.length_cons, List.length_cons, length_strides rest]

/-- An operand that has the shape of the result stands for it element by element. -/
theorem broadcastSources_self {dims l : List Nat} (h : broadcastSources dims dims = .ok l) :
    l = List.range (volume dims) := by
  unfold broadcastSources at h
  simp only [Nat.lt_irrefl, if_false, Nat.sub_self, List.drop_zero, List.replicate_zero, List.nil_append] at h
  obtain ⟨steps, hsteps, h⟩ := Outcome.bind_eq_ok.1 h
  have hstrides : steps = strides dims := by
    unfold Index.steps at hsteps
    split at hsteps
    · cases hsteps
      rfl
    · cases hsteps
  subst hstrides
  rw [stretchedStrides_self dims _ (length_strides dims)] at h
  cases h
  rw [coords_eq_map_coord, List.map_map]
  conv_rhs => rw [← List.map_id (List.range (volume dims))]
  exact List.map_congr_left fun i hi => flat_coord dims (List.mem_range.1 hi)

end Index

/-! ## Pairing -/

/-- The sum of the values, each times the tangent at its position. -/
def pairing {R : Type} [Field R] (x : List R) (τ : Nat → R) : R := ∑ i ∈ Finset.range x.length, x.getD i 0 * τ i

section Pairing

variable {R : Type} [Field R]

theorem pairing_neg (x : List R) (τ : Nat → R) : pairing (x.map fun v => -v) τ = pairing x (-τ) := by
  rw [pairing, pairing, List.length_map]
  refine Finset.sum_congr rfl fun i hi => ?_
  have hlt := Finset.mem_range.1 hi
  simp [List.getD_eq_getElem?_getD, hlt]

/-- What is a sum at every element is paired like its summands together. -/
theorem pairing_sum {xs : List (List R)} {y : List R} (hlen : ∀ x ∈ xs, x.length = y.length)
    (hsum : ∀ i < y.length, y.getD i 0 = (xs.map fun x => x.getD i 0).sum) (τ : Nat → R) :
    pairing y τ = (xs.map fun x => pairing x τ).sum := by
  have hswap : ∀ (xs : List (List R)) (n : Nat), (∀ x ∈ xs, x.length = n) →
      ∑ i ∈ Finset.range n, (xs.map fun x => x.getD i 0).sum * τ i = (xs.map fun x => pairing x τ).sum := by
    intro xs n
    induction xs with
    | nil => simp
    | cons x xs ih =>
      intro hlen
      simp only [List.map_cons, List.sum_cons, add_mul, Finset.sum_add_distrib]
      rw [ih fun x' hx' => hlen x' (List.mem_cons_of_mem _ hx'), pairing, hlen x (by simp)]
  rw [pairing, ← hswap xs y.length hlen]
  exact Finset.sum_congr rfl fun i hi => by rw [hsum i (Finset.mem_range.1 hi)]

end Pairing

namespace Kernel

variable {R : Type} [Field R] [LinearOrder R]

theorem sum_eq (f : Functions R) (l : List R) : @Scalar.sum R f.scalar l = l.sum := by
  have hfold : ∀ (l : List R) (a : R), l.foldl (fun x y => x + y) a = a + l.sum := by
    intro l
    induction l with
    | nil => simp
    | cons x l ih => exact fun a => by rw [List.foldl_cons, ih, List.sum_cons, add_assoc]
  exact (hfold l 0).trans (zero_add _)

/-- Values of operands that have the shape of the result are taken element by element. -/
theorem zipWith_self {R : Type} [Scalar R] {φ : List R → R} {xs : List (Operand R)} {dims : List Nat}
    {values : List R} (h : zipWith φ xs dims = .ok values) (hdims : ∀ x ∈ xs, x.dims = dims) :
    ∀ i < values.length, values.getD i 0 = φ (xs.map fun x => x.values.getD i 0) := by
  obtain ⟨sources, hsources, h⟩ := Outcome.bind_eq_ok.1 h
  obtain ⟨n, hn, h⟩ := Outcome.bind_eq_ok.1 h
  have hsources : sources = xs.map fun x => (x.values.toArray, (List.range (volume dims)).toArray) := by
    refine eq_map_of_forall₂ (((List.forall₂_and_left _ _).2 ⟨hdims, Outcome.mapM_eq_ok.1 hsources⟩).imp ?_)
    rintro x s ⟨hx, hs⟩
    obtain ⟨indices, hindices, hs⟩ := Outcome.bind_eq_ok.1 hs
    rw [hx] at hindices
    cases hs
    rw [Index.broadcastSources_self hindices]
  subst hsources
  rw [Outcome.mapM_eq_ok, List.forall₂_iff_get] at h
  intro i hi
  obtain ⟨args, hargs, hvalue⟩ := Outcome.bind_eq_ok.1 (h.2 i (h.1.symm ▸ hi) hi)
  rw [Outcome.mapM_eq_ok, List.forall₂_map_left_iff] at hargs
  have hargs : args = xs.map fun x => x.values.getD i 0 := by
    refine eq_map_of_forall₂ (hargs.imp fun x a ha => ?_)
    obtain ⟨index, hindex, ha⟩ := Outcome.bind_eq_ok.1 ha
    simp only [Outcome.promised_eq_ok, List.getElem?_toArray, List.get_eq_getElem, List.getElem_range] at hindex
    rw [Operand.fetch, Outcome.promised_eq_ok, List.getElem?_toArray] at ha
    obtain ⟨hlt, heq⟩ := List.getElem?_eq_some_iff.1 hindex
    rw [List.getElem_range] at heq
    subst heq
    rw [List.getD_eq_getElem?_getD, ha, Option.getD_some]
  rw [← hargs, List.getD_eq_getElem?_getD, List.getElem?_eq_getElem hi]
  exact (Except.ok.inj hvalue).symm

/-- A sum of operands of one shape. -/
theorem exact_sum (f : Functions R) {xs : List (Operand R)} {output : TensorInfo} {y : Operand R}
    (h : @exact R f.scalar .sum xs output = .ok y)
    (hxs : ∀ x ∈ xs, x.info.shape = output.shape ∧ output.counted = .ok x.values.length) (τ : Nat → R) :
    pairing y.values τ = (xs.map fun x => pairing x.values τ).sum := by
  let _ := f.scalar
  obtain ⟨-, hlen, p, hp, hread⟩ := exact_ok h
  obtain ⟨values, hvalues, hp⟩ := Outcome.bind_eq_ok.1 hp
  cases hp
  have hy : values = y.values := by
    obtain ⟨n, hn, hread⟩ := Outcome.bind_eq_ok.1 hread
    split at hread
    · cases hread
    · cases hread
      rfl
  subst hy
  have hzip : zipWith Scalar.sum xs output.dims = .ok y.values := by
    unfold elementwise at hvalues
    split at hvalues
    · cases hvalues
    · exact hvalues
  have helement := zipWith_self hzip fun x hx => congrArg Shape.dims (hxs x hx).1
  have hsame : ∀ v ∈ xs.map (·.values), v.length = y.values.length := by
    intro v hv
    obtain ⟨x, hx, rfl⟩ := List.mem_map.1 hv
    exact Except.ok.inj ((hxs x hx).2.symm.trans hlen)
  rw [pairing_sum hsame ?_ τ, List.map_map]
  · rfl
  · intro i hi
    rw [List.map_map]
    exact (helement i hi).trans (sum_eq f _)

end Kernel

end TensorGraph
