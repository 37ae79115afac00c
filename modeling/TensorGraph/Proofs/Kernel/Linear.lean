import Mathlib.Algebra.BigOperators.Group.Finset.Sigma
import Mathlib.Data.List.GetD
import Mathlib.Data.Rat.Floor
import Mathlib.Tactic.Ring
import TensorGraph.Proofs.Kernel.Coordinates

/-!
Kernels as linear maps over any field. A kernel that moves elements, or adds them up where they are moved to, is a
matrix of zeros and ones; kernels whose matrices are transposes of each other are adjoint. Main statement: results of
transposed matrices pair alike.
-/
namespace TensorGraph

/-! ## Fields without an order -/

/-- What the laws of a field leave open of the numbers that kernels compute with. Only zero is both at most and at least
zero, and the constants that are written by the library stand for themselves. -/
structure Numbers (R : Type) [Field R] extends Functions R where
  abs : R → R
  maximum : R → R → R
  minimum : R → R → R
  lt : R → R → Bool
  le : R → R → Bool
  isZero_iff : ∀ x, (le x 0 && le 0 x) = true ↔ x = 0
  ofSingle_zero : ofSingle .zero = 0
  ofSingle_one : ofSingle .one = 1
  ofSingle_two : ofSingle .two = 2

/-- A field as numbers for kernels. -/
@[reducible] def Numbers.scalar {R : Type} [Field R] (f : Numbers R) : Scalar R where
  zero := 0
  one := 1
  neg x := -x
  add x y := x + y
  sub x y := x - y
  mul x y := x * y
  div x y := x / y
  sumStart := 0
  abs := f.abs
  sqrt := f.sqrt
  exp := f.exp
  log := f.log
  tanh := f.tanh
  ceil := f.ceil
  floor := f.floor
  maximum := f.maximum
  minimum := f.minimum
  lt := f.lt
  le := f.le
  ofNat n := n
  ofSingle := f.ofSingle
  truncate := f.truncate

/-- An ordered field brings its own comparisons. -/
@[reducible] def Functions.numbers {R : Type} [Field R] [LinearOrder R] (f : Functions R)
    (hzero : f.ofSingle .zero = 0) (hone : f.ofSingle .one = 1) (htwo : f.ofSingle .two = 2) : Numbers R where
  toFunctions := f
  abs x := max x (-x)
  maximum := max
  minimum := min
  lt x y := decide (x < y)
  le x y := decide (x ≤ y)
  isZero_iff x := by
    rw [Bool.and_eq_true, decide_eq_true_eq, decide_eq_true_eq]
    exact le_antisymm_iff.symm
  ofSingle_zero := hzero
  ofSingle_one := hone
  ofSingle_two := htwo

/-- The number that a finite single stands for. -/
def Single.toRat (s : Single) : ℚ :=
  let exponent := (s.bits >>> 23 &&& 0xff).toNat
  let fraction := (s.bits &&& 0x7fffff).toNat
  let magnitude : ℚ := if exponent = 0 then fraction / 2 ^ 149 else (2 ^ 23 + fraction) * 2 ^ exponent / 2 ^ 150
  if s.bits >>> 31 = 0 then magnitude else -magnitude

/-- The rational numbers; functions that lead out of them leave their operand as it is. -/
@[reducible] def Numbers.rational : Numbers ℚ :=
  Functions.numbers
    { sqrt := id, exp := id, log := id, tanh := id, ceil := fun x => x.ceil, floor := fun x => x.floor,
      ofSingle := Single.toRat, truncate := fun x => x.num.tdiv x.den }
    (by decide +kernel) (by decide +kernel) (by decide +kernel)

/-! ## Matrices -/

section Matrices

variable {R : Type} [Field R]

/-- The sum of the products of elements at the same positions. -/
def dot (x y : List R) : R := pairing x fun i => y.getD i 0

theorem dot_eq_sum (x y : List R) : dot x y = ∑ i ∈ Finset.range x.length, x.getD i 0 * y.getD i 0 := rfl

/-- The elements of `y` are the sums of those of `x` times the entries of a matrix. -/
def Transforms (A : Nat → Nat → R) (x y : List R) : Prop :=
  ∀ i < y.length, y.getD i 0 = ∑ j ∈ Finset.range x.length, A i j * x.getD j 0

/-- Results of transposed matrices pair alike. -/
theorem Transforms.dot_eq {A : Nat → Nat → R} {x y g b : List R} (h : Transforms A x y)
    (h' : Transforms (fun j i => A i j) g b) (hg : g.length = y.length) (hb : b.length = x.length) :
    dot y g = dot x b := by
  rw [dot_eq_sum, dot_eq_sum]
  calc ∑ i ∈ Finset.range y.length, y.getD i 0 * g.getD i 0
      = ∑ i ∈ Finset.range y.length, ∑ j ∈ Finset.range x.length, A i j * x.getD j 0 * g.getD i 0 :=
        Finset.sum_congr rfl fun i hi => by rw [h i (Finset.mem_range.1 hi), Finset.sum_mul]
    _ = ∑ j ∈ Finset.range x.length, ∑ i ∈ Finset.range y.length, A i j * x.getD j 0 * g.getD i 0 := Finset.sum_comm
    _ = ∑ j ∈ Finset.range x.length, x.getD j 0 * b.getD j 0 := Finset.sum_congr rfl fun j hj => by
        rw [h' j (hb ▸ Finset.mem_range.1 hj), hg, Finset.mul_sum]
        exact Finset.sum_congr rfl fun i _ => by ring

theorem Transforms.congr {A B : Nat → Nat → R} {x y : List R} (h : Transforms A x y)
    (hAB : ∀ i < y.length, ∀ j < x.length, A i j = B i j) : Transforms B x y := fun i hi =>
  (h i hi).trans (Finset.sum_congr rfl fun j hj => by rw [hAB i hi j (Finset.mem_range.1 hj)])

/-- The matrix that puts element `σ i` times `c i` at position `i`, and zero where there is none. -/
def moving (σ : Nat → Option Nat) (c : Nat → R) (i j : Nat) : R := if σ i = some j then c i else 0

theorem transforms_moving {σ : Nat → Option Nat} {c : Nat → R} {x y : List R}
    (h : ∀ i < y.length, y.getD i 0 = (σ i).elim 0 fun j => c i * x.getD j 0) : Transforms (moving σ c) x y := by
  intro i hi
  rw [h i hi]
  cases hσ : σ i with
  | none => simp [moving, hσ]
  | some k =>
    by_cases hk : k < x.length
    · simp [moving, hσ, hk]
    · rw [Option.elim_some, List.getD_eq_default _ _ (Nat.not_lt.1 hk), mul_zero]
      refine (Finset.sum_eq_zero fun j hj => ?_).symm
      have hne : k ≠ j := by
        rintro rfl
        exact hk (Finset.mem_range.1 hj)
      simp [moving, hσ, hne]

/-- Moves there and back are adjoint if each undoes the other. -/
theorem dot_eq_of_undo {σ ρ : Nat → Option Nat} {x y g b : List R}
    (hy : ∀ i < y.length, y.getD i 0 = (σ i).elim 0 fun j => x.getD j 0)
    (hb : ∀ j < b.length, b.getD j 0 = (ρ j).elim 0 fun i => g.getD i 0) (hg : g.length = y.length)
    (hlen : b.length = x.length) (hundo : ∀ i < y.length, ∀ j < x.length, σ i = some j ↔ ρ j = some i) :
    dot y g = dot x b := by
  have hy : Transforms (moving σ 1) x y := transforms_moving (by simpa using hy)
  have hb : Transforms (moving ρ 1) g b := transforms_moving (by simpa using hb)
  refine hy.dot_eq (hb.congr fun j hj i hi => ?_) hg hlen
  simp only [moving, hundo i (hg ▸ hi) j (hlen ▸ hj), Pi.one_apply]

end Matrices

/-! ## Moves -/

section Moves

variable {R : Type} [Zero R]

theorem getD_of_getElem? {x : List R} {i : Nat} {v : R} (h : x[i]? = some v) : x.getD i 0 = v := by
  rw [List.getD_eq_getElem?_getD, h, Option.getD_some]

/-- Lists with the same entries at the same places. -/
theorem eq_of_getD {x y : List R} (hlen : x.length = y.length) (h : ∀ i < x.length, x.getD i 0 = y.getD i 0) : x = y := by
  refine List.ext_getElem hlen fun i hi hi' => ?_
  rw [← List.getD_eq_getElem x 0 hi, ← List.getD_eq_getElem y 0 hi', h i hi]

end Moves

namespace Storage

variable {α β : Type} {x y : List α} {fill : α} {sources : List (Option Nat)}

theorem pick_eq_ok : pick x fill sources = .ok y ↔
    List.Forall₂ (fun s v => s.elim (fill = v) fun j => x[j]? = some v) sources y := by
  rw [pick, Outcome.mapM_eq_ok, List.forall₂_iff_get, List.forall₂_iff_get]
  refine and_congr_right fun _ => forall₃_congr fun i hi hi' => ?_
  cases sources.get ⟨i, hi⟩ with
  | none => exact ⟨Except.ok.inj, congrArg _⟩
  | some j =>
    simp only [Outcome.orFail_eq_ok, List.getElem?_toArray]
    rfl

/-- Every source that there is can be picked. -/
theorem pick_total (h : ∀ j, some j ∈ sources → j < x.length) : ∃ y, pick x fill sources = .ok y := by
  refine ⟨_, Outcome.mapM_of_forall (w := fun s => s.elim fill fun j => x.getD j fill) fun s hs => ?_⟩
  cases s with
  | none => rfl
  | some j =>
    have hj := h j hs
    simp [hj, Outcome.orFail, List.getD_eq_getElem?_getD]

theorem length_pick (h : pick x fill sources = .ok y) : y.length = sources.length := (pick_eq_ok.1 h).length_eq.symm

/-- Picking does not depend on how elements are written down. -/
theorem pick_map {g : α → β} (hg : Function.Injective g) :
    pick (x.map g) (g fill) sources = .ok (y.map g) ↔ pick x fill sources = .ok y := by
  rw [pick_eq_ok, pick_eq_ok, List.forall₂_map_right_iff]
  refine iff_of_eq (congrArg (List.Forall₂ · sources y) (funext fun s => funext fun v => propext ?_))
  cases s with
  | none => exact hg.eq_iff
  | some j =>
    change (x.map g)[j]? = some (g v) ↔ x[j]? = some v
    rw [List.getElem?_map, Option.map_eq_some_iff]
    exact ⟨fun ⟨u, hu, heq⟩ => hg heq ▸ hu, fun h => ⟨v, h, rfl⟩⟩

end Storage

section Moves

variable {R : Type} [Zero R]

/-- What is picked. -/
theorem pick_ok {x y : List R} {fill : R} {sources : List (Option Nat)} (h : Storage.pick x fill sources = .ok y) :
    y.length = sources.length ∧ ∀ i < y.length, y.getD i 0 = (sources.getD i none).elim fill fun j => x.getD j 0 := by
  obtain ⟨hlen, hall⟩ := List.forall₂_iff_get.1 (Storage.pick_eq_ok.1 h)
  refine ⟨hlen.symm, fun i hi => ?_⟩
  have hi' : i < sources.length := hlen ▸ hi
  have hentry := hall i hi' hi
  rw [List.get_eq_getElem, List.get_eq_getElem] at hentry
  rw [List.getD_eq_getElem y _ hi, List.getD_eq_getElem sources _ hi']
  cases hs : sources[i] with
  | none =>
    rw [hs] at hentry
    exact hentry.symm
  | some k =>
    rw [hs] at hentry
    exact (getD_of_getElem? hentry).symm

end Moves

namespace Kernel

section Sums

variable {R : Type} [Field R]

/-- Sums of contributions are sums over the positions that contribute. -/
theorem accumulate_eq (f : Numbers R) (n : Nat) {targets : List Nat} {values : List R}
    (hlen : targets.length = values.length) {j : Nat} (hj : j < n) :
    (@accumulate R f.scalar n (targets.zip values)).getD j 0 =
      ∑ i ∈ Finset.range values.length, if targets.getD i 0 = j then values.getD i 0 else 0 := by
  have hfold : ∀ (targets : List Nat) (values : List R) (a : R), targets.length = values.length →
      (targets.zip values).foldl (fun total c => if c.1 = j then total + c.2 else total) a =
        a + ∑ i ∈ Finset.range values.length, if targets.getD i 0 = j then values.getD i 0 else 0 := by
    intro targets
    induction targets with
    | nil =>
      intro values a h
      cases List.length_eq_zero_iff.1 h.symm
      simp
    | cons t targets ih =>
      intro values a h
      match values, h with
      | v :: values, h =>
        rw [List.zip_cons_cons, List.foldl_cons, ih values _ (by simpa using h), List.length_cons,
          Finset.sum_range_succ']
        simp only [List.getD_cons_succ, List.getD_cons_zero]
        split <;> ring
  have hentry : (@accumulate R f.scalar n (targets.zip values)).getD j 0 =
      (targets.zip values).foldl (fun total c => if c.1 = j then total + c.2 else total) 0 := by
    rw [List.getD_eq_getElem?_getD]
    simp [accumulate, hj]
  rw [hentry, hfold targets values 0 hlen, zero_add]

theorem length_accumulate {R : Type} [Scalar R] (n : Nat) (l : List (Nat × R)) : (accumulate n l).length = n := by
  rw [accumulate, List.length_map, List.length_range]

/-- A sum of moved elements is the transpose of taking elements from where they are moved to. -/
theorem transforms_accumulate (f : Numbers R) (n : Nat) {targets : List Nat} {values : List R}
    (hlen : targets.length = values.length) :
    Transforms (fun j i => moving (fun i => targets[i]?) (1 : Nat → R) i j) values
      (@accumulate R f.scalar n (targets.zip values)) := by
  intro j hj
  rw [@length_accumulate R f.scalar] at hj
  rw [accumulate_eq f n hlen hj]
  refine Finset.sum_congr rfl fun i hi => ?_
  have hi : i < targets.length := hlen ▸ Finset.mem_range.1 hi
  simp [moving, hi, List.getD_eq_getElem?_getD]

end Sums

/-! ## Readings of plans -/

section Plans

variable {R : Type} [Scalar R] {kind : OpKind} {inputs : List (Operand R)} {output : TensorInfo} {y : Operand R}

omit [Scalar R] in
theorem finish_ok {values result : List R} (h : finish output values = .ok result) : result = values := by
  obtain ⟨n, -, h⟩ := Outcome.bind_eq_ok.1 h
  split at h
  · cases h
  · exact (Except.ok.inj h).symm

omit [Scalar R] in
theorem finish_eq {values : List R} (h : output.counted = .ok values.length) : finish output values = .ok values := by
  rw [finish, h]
  simp [bind, Except.bind, pure, Except.pure]

/-- A plan that gives as many values as the result has elements. -/
theorem exact_eq {p : Plan R} {values : List R} (hplan : plan kind inputs output = .ok p)
    (hread : p.read inputs output = .ok values) (hcount : output.counted = .ok values.length) :
    exact kind inputs output = .ok ⟨output, values⟩ := by
  rw [exact, hplan]
  change (p.read inputs output >>= _) = _
  rw [hread]
  change (output.counted >>= _) = _
  rw [hcount]
  exact if_neg (not_not.2 rfl)

/-- New values. -/
theorem exact_values {values : List R} (hplan : plan kind inputs output = .ok (.values values))
    (hcount : output.counted = .ok values.length) : exact kind inputs output = .ok ⟨output, values⟩ :=
  exact_eq hplan (finish_eq hcount) hcount

/-- Elements that are moved. -/
theorem exact_move {pool : List Nat} {fill : Single} {sources : Sources} {data : List (List R)} {values : List R}
    (hplan : plan kind inputs output = .ok (.move pool fill (.ok sources)))
    (hdata : pool.mapM (fun i => do return (← Outcome.promised inputs[i]?).values) = Except.ok data)
    (hpick : Storage.pick data.flatten (Scalar.ofSingle fill) sources = .ok values)
    (hcount : output.counted = .ok values.length) : exact kind inputs output = .ok ⟨output, values⟩ := by
  refine exact_eq hplan ?_ hcount
  rw [Plan.read, hdata]
  exact hpick

/-- The values of a result with new values are those of the plan. -/
theorem exact_values_ok {result : Outcome (List R)} (hplan : plan kind inputs output = do return .values (← result))
    (h : exact kind inputs output = .ok y) : result = .ok y.values := by
  obtain ⟨-, -, p, hp, hread⟩ := exact_ok h
  rw [hplan] at hp
  obtain ⟨values, hvalues, hp⟩ := Outcome.bind_eq_ok.1 hp
  cases hp
  rw [hvalues, ← finish_ok hread]

/-- The values of a result of a move of the first operand. -/
theorem exact_move_ok {fill : Single} {sources : Outcome Sources} {x : Operand R} {rest : List (Operand R)}
    (hplan : plan kind (x :: rest) output = do return .move [0] fill (.ok (← sources)))
    (h : exact kind (x :: rest) output = .ok y) :
    ∃ l, sources = .ok l ∧ Storage.pick x.values (Scalar.ofSingle fill) l = .ok y.values := by
  obtain ⟨-, -, p, hp, hread⟩ := exact_ok h
  rw [hplan] at hp
  obtain ⟨l, hl, hp⟩ := Outcome.bind_eq_ok.1 hp
  cases hp
  obtain ⟨data, hdata, hread⟩ := Outcome.bind_eq_ok.1 hread
  cases hdata
  obtain ⟨l', hl', hread⟩ := Outcome.bind_eq_ok.1 hread
  cases hl'
  refine ⟨l, hl, ?_⟩
  simpa using hread

end Plans

end Kernel

end TensorGraph
