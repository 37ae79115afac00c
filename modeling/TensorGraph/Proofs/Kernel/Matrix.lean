import TensorGraph.Proofs.Kernel.Moves

/-!
Products of matrices. An element of a product is a row times a column. The gradients are products again: of the incoming
gradient and of the other factor, which is turned first.
-/
namespace TensorGraph

/-! ## Rows and columns -/

namespace Index

variable {M : Type} [AddCommMonoid M] {m n r c : Nat}

/-- Positions are counted row by row. -/
theorem sum_rows (F : Nat → M) (m n : Nat) :
    ∑ p ∈ Finset.range (m * n), F p = ∑ r ∈ Finset.range m, ∑ c ∈ Finset.range n, F (r * n + c) := by
  induction m with
  | zero => simp
  | succ m ih => rw [Nat.succ_mul, Finset.sum_range_add, Finset.sum_range_succ, ih]

theorem div_row (hc : c < n) : (r * n + c) / n = r := by
  rw [Nat.add_comm, Nat.add_mul_div_right _ _ (Nat.zero_lt_of_lt hc), Nat.div_eq_of_lt hc, Nat.zero_add]

theorem mod_row (hc : c < n) : (r * n + c) % n = c := by
  rw [Nat.add_comm, Nat.add_mul_mod_self_right, Nat.mod_eq_of_lt hc]

theorem row_lt (hr : r < m) (hc : c < n) : r * n + c < m * n :=
  calc r * n + c < r * n + n := Nat.add_lt_add_left hc _
    _ = (r + 1) * n := (Nat.succ_mul r n).symm
    _ ≤ m * n := Nat.mul_le_mul_right n hr

theorem row_bounds {p : Nat} (hp : p < m * n) : p / n < m ∧ p % n < n := by
  have hn : 0 < n := Nat.pos_of_mul_pos_left (Nat.zero_lt_of_lt hp)
  exact ⟨(Nat.div_lt_iff_lt_mul hn).2 hp, Nat.mod_lt p hn⟩

theorem row_eq (n p : Nat) : p / n * n + p % n = p := by rw [Nat.mul_comm, Nat.div_add_mod]

/-- A sum over one row. -/
theorem sum_row (F : Nat → M) (hr : r < m) :
    (∑ p ∈ Finset.range (m * n), if p / n = r then F p else 0) = ∑ c ∈ Finset.range n, F (r * n + c) := by
  rw [sum_rows, Finset.sum_eq_single_of_mem r (Finset.mem_range.2 hr) fun r' _ hne => ?_]
  · refine Finset.sum_congr rfl fun c hc => ?_
    rw [div_row (Finset.mem_range.1 hc), if_pos rfl]
  · refine Finset.sum_eq_zero fun c hc => ?_
    rw [div_row (Finset.mem_range.1 hc), if_neg hne]

/-- A sum over one column. -/
theorem sum_column (F : Nat → M) (hc : c < n) :
    (∑ p ∈ Finset.range (m * n), if p % n = c then F p else 0) = ∑ r ∈ Finset.range m, F (r * n + c) := by
  rw [sum_rows]
  refine Finset.sum_congr rfl fun r _ => ?_
  rw [Finset.sum_eq_single_of_mem c (Finset.mem_range.2 hc) fun c' hc' hne => ?_]
  · rw [mod_row hc, if_pos rfl]
  · rw [mod_row (Finset.mem_range.1 hc'), if_neg hne]

/-- Counting to `a * b` is counting to `b` over and over, `a` times. -/
theorem range_mul (a b : Nat) :
    List.range (a * b) = (List.range a).flatMap fun i => (List.range b).map (i * b + ·) := by
  induction a with
  | zero => simp
  | succ a ih => rw [Nat.succ_mul, List.range_add, ih, List.range_succ, List.flatMap_append]; simp

/-- The positions of a matrix, listed row by row. -/
theorem flatMap_rows {α : Type} (F : Nat → Nat → α) (m n : Nat) :
    ((List.range m).flatMap fun r => (List.range n).map (F r)) =
      (List.range (m * n)).map fun p => F (p / n) (p % n) := by
  rw [range_mul, List.map_flatMap]
  refine List.flatMap_congr fun r _ => ?_
  rw [List.map_map]
  refine List.map_congr_left fun c hc => ?_
  rw [Function.comp, div_row (List.mem_range.1 hc), mod_row (List.mem_range.1 hc)]

end Index

namespace Kernel

open Index

variable {R : Type} [Field R] {f : Numbers R} {a b x g u y : Operand R} {out : TensorInfo} {m k n : Nat}

/-! ## Elements of a product -/

/-- A row times a column: leaving out zeros does not matter. -/
theorem fold_products (f : Numbers R) {left right : List R} {row column : Nat → Nat} : ∀ {l : List Nat} {total v : R},
    l.foldlM (fun total j => do
      let x ← Operand.fetch left.toArray (row j)
      if @Scalar.isZero R f.scalar x then return total
      else return total + x * (← Operand.fetch right.toArray (column j))) total = Except.ok (ε := Failure) v →
    v = total + (l.map fun j => left.getD (row j) 0 * right.getD (column j) 0).sum
  | [], total, v, h => by
    cases h
    simp
  | j :: l, total, v, h => by
    rw [List.foldlM_cons] at h
    obtain ⟨next, hnext, h⟩ := Outcome.bind_eq_ok.1 h
    obtain ⟨x, hx, hnext⟩ := Outcome.bind_eq_ok.1 hnext
    rw [Operand.fetch, Outcome.promised_eq_ok, List.getElem?_toArray] at hx
    have hterm : next = total + left.getD (row j) 0 * right.getD (column j) 0 := by
      rw [getD_of_getElem? hx]
      split at hnext
      · rename_i hzero
        cases hnext
        rw [(f.isZero_iff x).1 hzero, zero_mul, add_zero]
      · obtain ⟨z, hz, hnext⟩ := Outcome.bind_eq_ok.1 hnext
        cases hnext
        rw [Operand.fetch, Outcome.promised_eq_ok, List.getElem?_toArray] at hz
        rw [getD_of_getElem? hz]
    rw [fold_products f h, hterm, List.map_cons, List.sum_cons, add_assoc]

theorem fold_products_total {R : Type} [Scalar R] {left right : List R} {row column : Nat → Nat} : ∀ {l : List Nat} (total : R),
    (∀ j ∈ l, row j < left.length ∧ column j < right.length) → ∃ v,
    l.foldlM (fun total j => do
      let x ← Operand.fetch left.toArray (row j)
      if Scalar.isZero x then return total
      else return total + x * (← Operand.fetch right.toArray (column j))) total = Except.ok (ε := Failure) v
  | [], total, _ => ⟨total, rfl⟩
  | j :: l, total, h => by
    obtain ⟨hrow, hcolumn⟩ := h j List.mem_cons_self
    have hfetch : ∀ {values : List R} {i : Nat} (hi : i < values.length),
        Operand.fetch values.toArray i = .ok values[i] := fun hi => by
      simp [Operand.fetch, Outcome.promised, hi]
    obtain ⟨next, hnext⟩ : ∃ next, (do
        let x ← Operand.fetch left.toArray (row j)
        if Scalar.isZero x then return total
        else return total + x * (← Operand.fetch right.toArray (column j))) = Except.ok (ε := Failure) next := by
      rw [hfetch hrow, hfetch hcolumn]
      by_cases hzero : Scalar.isZero left[row j] = true
      · exact ⟨_, if_pos hzero⟩
      · exact ⟨_, if_neg hzero⟩
    rw [List.foldlM_cons, hnext]
    exact fold_products_total next fun j' hj' => h j' (List.mem_cons_of_mem j hj')

/-- Factors that go together. -/
structure Factors (a b : Operand R) (m k n : Nat) : Prop where
  left : a.dims = [m, k]
  right : b.dims = [k, n]

theorem volume_matrix (m n : Nat) : volume [m, n] = m * n := by simp [volume]

/-- The elements of `y` are the rows of `x` times the columns of `z`. -/
def Multiplied (m k n : Nat) (x z y : List R) : Prop :=
  y.length = m * n ∧ ∀ r < m, ∀ c < n, y.getD (r * n + c) 0 =
    ∑ j ∈ Finset.range k, x.getD (r * k + j) 0 * z.getD (j * n + c) 0

/-- The elements of a product. -/
theorem exact_matMul (hfactors : Factors a b m k n) (hout : out.dims = [m, n])
    (h : @exact R f.scalar .matMul [a, b] out = .ok y) : Multiplied m k n a.values b.values y.values := by
  let _ := f.scalar
  refine ⟨by rw [exact_length h, hout, volume_matrix], fun r hr c hc => ?_⟩
  have hvalues : matMul a b = .ok y.values := exact_values_ok rfl h
  unfold matMul at hvalues
  rw [hfactors.left, hfactors.right] at hvalues
  simp only [ne_eq, not_true_eq_false, if_false] at hvalues
  obtain ⟨_, -, hvalues⟩ := Outcome.bind_eq_ok.1 hvalues
  obtain ⟨_, -, hvalues⟩ := Outcome.bind_eq_ok.1 hvalues
  split at hvalues
  · cases hvalues
  · rw [flatMap_rows] at hvalues
    obtain ⟨hlen, hall⟩ := List.forall₂_iff_get.1 (List.forall₂_map_left_iff.1 (Outcome.mapM_eq_ok.1 hvalues))
    rw [List.length_range] at hlen
    have hp := row_lt hr hc
    have hentry := fold_products f (hall (r * n + c) (by rwa [List.length_range]) (hlen ▸ hp))
    rw [List.getD_eq_getElem _ _ (hlen ▸ hp)]
    simp only [List.get_eq_getElem, List.getElem_range, div_row hc, mod_row hc, zero_add] at hentry
    exact hentry

/-- Factors that have all their elements have a product, where it can be counted and held. -/
theorem matMul_total {R : Type} [Scalar R] {a b : Operand R} (hfactors : Factors a b m k n) (ha : a.values.length = m * k)
    (hb : b.values.length = k * n) (hcount : m * n < Word.limit) (hroom : Operand.room (m * n) = .ok ()) :
    ∃ values, matMul a b = .ok values ∧ values.length = m * n := by
  have hentry : ∀ p ∈ (List.range (m * n)).map fun p => (p / n, p % n), ∃ v,
      (List.range k).foldlM (fun total j => do
        let x ← Operand.fetch a.values.toArray (p.1 * k + j)
        if Scalar.isZero x then return total
        else return total + x * (← Operand.fetch b.values.toArray (j * n + p.2))) 0 = Except.ok (ε := Failure) v := by
    intro p hp
    obtain ⟨i, hi, rfl⟩ := List.mem_map.1 hp
    obtain ⟨hr, hc⟩ := row_bounds (List.mem_range.1 hi)
    refine fold_products_total 0 fun j hj => ⟨?_, ?_⟩
    · exact ha ▸ row_lt hr (List.mem_range.1 hj)
    · exact hb ▸ row_lt (List.mem_range.1 hj) hc
  choose! w hw using hentry
  refine ⟨((List.range (m * n)).map fun p => (p / n, p % n)).map w, ?_, by simp⟩
  unfold matMul
  rw [hfactors.left, hfactors.right]
  simp only [ne_eq, not_true_eq_false, if_false]
  rw [Word.nat_of_lt hcount]
  change (Operand.room (m * n) >>= _) = _
  rw [hroom]
  simp only [List.size_toArray, ha, lt_irrefl, if_false]
  rw [flatMap_rows]
  exact Outcome.mapM_of_forall hw

/-- A product gives a result where the sizes can be counted. -/
theorem exact_matMul_total (f : Numbers R) (hfactors : Factors a b m k n) (hout : out.dims = [m, n]) (ha : a.Complete)
    (hb : b.Complete) (hroom : Roomy out.dims) : ∃ y, @exact R f.scalar .matMul [a, b] out = .ok y := by
  let _ := f.scalar
  have hvolume : volume out.dims = m * n := by rw [hout, volume_matrix]
  obtain ⟨values, hproduct, hlen⟩ := matMul_total hfactors (by rw [ha.length_eq, hfactors.left, volume_matrix])
    (by rw [hb.length_eq, hfactors.right, volume_matrix]) (hvolume ▸ hroom.spans.volume_lt)
    (hroom.room (hvolume ▸ volume_le_capacity _))
  have hplan : plan .matMul [a, b] out = .ok (.values values) := by
    change (matMul a b >>= _) = _
    rw [hproduct]
    rfl
  exact values_total hplan hroom (hlen.trans hvolume.symm)

/-! ## Turned matrices -/

theorem dims_matrix {i : TensorInfo} {s t : Int} (h : i.shape = [s, t]) : i.dims = [s.toNat, t.toNat] := by
  rw [TensorInfo.dims, h]
  rfl

/-- Rows and columns of a matrix have changed places. -/
structure Turned (x u : Operand R) (s t : Int) : Prop where
  shape : x.info.shape = [s, t]
  turned : u.info.shape = [t, s]
  complete : u.Complete
  values : ∀ r < s.toNat, ∀ c < t.toNat, u.values.getD (c * s.toNat + r) 0 = x.values.getD (r * t.toNat + c) 0

theorem infer_turned {i info : TensorInfo} {s t : Int} (hi : i.shape = [s, t]) :
    (OpKind.transpose [1, 0]).infer [i] = .ok info ↔ info = i.withShape [t, s] := by
  have hturned : (OpKind.transpose [1, 0]).infer [i] = .ok (i.withShape [t, s]) := by
    have hs : OpKind.transposedShape i.shape [1, 0] = .ok [t, s] := by
      rw [hi]
      rfl
    simp [OpKind.infer, OpKind.operand1, bind, Except.bind, hs, pure, Except.pure]
  rw [hturned, Except.ok.injEq, eq_comm]

theorem order_turned : Order [1, 0] 2 := ⟨rfl, by decide, by decide⟩

/-- Putting axes into the other order turns a matrix. -/
theorem turned_of_exact (f : Numbers R) {s t : Int} (hx : x.info.shape = [s, t])
    (h : @exact R f.scalar (.transpose [1, 0]) [x] (x.info.withShape [t, s]) = .ok u) : Turned x u s t := by
  let _ := f.scalar
  have hxdims : x.dims = [s.toNat, t.toNat] := dims_matrix hx
  have hdims : (x.info.withShape [t, s]).dims = [t.toNat, s.toNat] := rfl
  obtain ⟨hinfo, hcount, -⟩ := exact_ok h
  have hcarried : Carried (putBack [1, 0]) x.dims (x.info.withShape [t, s]).dims x.values u.values :=
    exact_transpose f.ofSingle_zero (hxdims ▸ order_turned) (by rw [hxdims]; rfl) (by rw [hxdims]; rfl) h
  rw [hxdims, hdims] at hcarried
  refine ⟨hx, by rw [hinfo]; rfl, by rw [Operand.Complete, hinfo]; exact hcount, fun r hr c hc => ?_⟩
  have hposition : carry (putBack [1, 0]) [s.toNat, t.toNat] [t.toNat, s.toNat] (c * s.toNat + r) =
      some (r * t.toNat + c) := by
    have hcoord : coord [t.toNat, s.toNat] (c * s.toNat + r) = [c, r] := by
      simp [coord, volume, div_row hr, mod_row hr]
    rw [carry, hcoord]
    change some (flat [r, c] (strides [s.toNat, t.toNat])) = _
    simp [flat, strides, volume]
  have hlt : c * s.toNat + r < volume [t.toNat, s.toNat] := by
    rw [volume_matrix]
    exact row_lt hc hr
  rw [hcarried.values _ hlt, hposition, Option.elim_some]

theorem exact_turned_total (f : Numbers R) {s t : Int} (hx : x.info.shape = [s, t]) (hcomplete : x.Complete)
    (hroom : Roomy x.dims) : ∃ u, @exact R f.scalar (.transpose [1, 0]) [x] (x.info.withShape [t, s]) = .ok u := by
  let _ := f.scalar
  have hxdims : x.dims = [s.toNat, t.toNat] := dims_matrix hx
  have hroom' : Roomy (x.info.withShape [t, s]).dims := by
    refine hroom.of_le (le_of_eq ?_)
    rw [hxdims]
    exact (by simp [capacity, volume, Nat.mul_comm] : capacity [t.toNat, s.toNat] = capacity [s.toNat, t.toNat])
  exact exact_transpose_total (show Order [1, 0] x.dims.length by rw [hxdims]; exact order_turned)
    (by rw [hxdims]; rfl) (by rw [hxdims]; rfl) hcomplete hroom hroom'

/-! ## Gradients for factors -/

section Laws

variable {x z y g b u : List R}

/-- The matrix of a product as a function of the left factor, whose elements count for the row that they stand in. -/
def byLeft (k n : Nat) (z : List R) (i p : Nat) : R := if p / k = i / n then z.getD (p % k * n + i % n) 0 else 0

/-- The matrix of a product as a function of the right factor, whose elements count for the column that they stand in. -/
def byRight (k n : Nat) (x : List R) (i q : Nat) : R := if q % n = i % n then x.getD (i / n * k + q / n) 0 else 0

/-- The law for the left factor. -/
theorem Multiplied.dot_left (hy : Multiplied m k n x z y) (hb : Multiplied m n k g u b) (hx : x.length = m * k)
    (hg : g.length = m * n) (hu : ∀ r < k, ∀ c < n, u.getD (c * k + r) 0 = z.getD (r * n + c) 0) : dot y g = dot x b := by
  have hforward : Transforms (byLeft k n z) x y := by
    intro i hi
    obtain ⟨hr, hc⟩ := row_bounds (hy.1 ▸ hi)
    have hrow := sum_row (n := k) (fun p => z.getD (p % k * n + i % n) 0 * x.getD p 0) hr
    rw [← row_eq n i, hy.2 _ hr _ hc, hx]
    simp only [byLeft, row_eq, ite_mul, zero_mul, hrow]
    refine Finset.sum_congr rfl fun j hj => ?_
    rw [mod_row (Finset.mem_range.1 hj), mul_comm]
  have hback : Transforms (fun p i => byLeft k n z i p) g b := by
    intro p hp
    obtain ⟨hr, hj⟩ := row_bounds (hb.1 ▸ hp)
    have hrow := sum_row (n := n) (fun i => z.getD (p % k * n + i % n) 0 * g.getD i 0) hr
    rw [← row_eq k p, hb.2 _ hr _ hj, hg]
    simp only [byLeft, row_eq, ite_mul, zero_mul, eq_comm (a := p / k), hrow]
    refine Finset.sum_congr rfl fun c hc => ?_
    rw [mod_row (Finset.mem_range.1 hc), hu _ hj _ (Finset.mem_range.1 hc), mul_comm]
  exact hforward.dot_eq hback (hg.trans hy.1.symm) (hb.1.trans hx.symm)

/-- The law for the right factor. -/
theorem Multiplied.dot_right (hy : Multiplied m k n x z y) (hb : Multiplied k m n u g b) (hz : z.length = k * n)
    (hg : g.length = m * n) (hu : ∀ r < m, ∀ c < k, u.getD (c * m + r) 0 = x.getD (r * k + c) 0) : dot y g = dot z b := by
  have hforward : Transforms (byRight k n x) z y := by
    intro i hi
    obtain ⟨hr, hc⟩ := row_bounds (hy.1 ▸ hi)
    have hcolumn := sum_column (m := k) (fun q => x.getD (i / n * k + q / n) 0 * z.getD q 0) hc
    rw [← row_eq n i, hy.2 _ hr _ hc, hz]
    simp only [byRight, row_eq, ite_mul, zero_mul, hcolumn]
    refine Finset.sum_congr rfl fun j _ => ?_
    rw [div_row hc]
  have hback : Transforms (fun q i => byRight k n x i q) g b := by
    intro q hq
    obtain ⟨hj, hc⟩ := row_bounds (hb.1 ▸ hq)
    have hcolumn := sum_column (m := m) (fun i => x.getD (i / n * k + q / n) 0 * g.getD i 0) hc
    rw [← row_eq n q, hb.2 _ hj _ hc, hg]
    simp only [byRight, row_eq, ite_mul, zero_mul, eq_comm (a := q % n), hcolumn]
    refine Finset.sum_congr rfl fun r hr => ?_
    rw [div_row hc, hu _ (Finset.mem_range.1 hr) _ hj]
  exact hforward.dot_eq hback (hg.trans hy.1.symm) (hb.1.trans hz.symm)

end Laws

theorem infer_matMul_total {i j : TensorInfo} {m k n : Int} (hi : i.shape = [m, k]) (hj : j.shape = [k, n]) :
    OpKind.matMul.infer [i, j] = .ok (i.withShape [m, n]) := by
  have hmul : OpKind.matMulInfo i j = .ok (i.withShape [m, n]) := by
    rw [OpKind.matMulInfo, hi, hj]
    exact if_neg (not_not.2 rfl)
  simp [OpKind.infer, OpKind.operand2, bind, Except.bind, hmul]

omit [Field R] in
theorem Factors.of_shapes {s t v : Int} (ha : a.info.shape = [s, t]) (hb : b.info.shape = [t, v]) :
    Factors a b s.toNat t.toNat v.toNat := ⟨dims_matrix ha, dims_matrix hb⟩

variable {x₀ x₁ : Operand R} {s t : Int}

/-- The gradient for the left factor: the incoming one times the right factor, turned. -/
theorem backs_matMul_left (hf : Forward .matMul [x₀, x₁] out) (hg : Incoming out g) (hu : Turned x₁ u s t) :
    Backs f .matMul [x₀, x₁] out 0 g .matMul [g, u] := by
  let _ := f.scalar
  obtain ⟨i, j, m, k, n, hij, h₀, h₁, hout⟩ := OpKind.infer_matMul hf.infers
  cases hij
  obtain ⟨rfl, rfl⟩ : k = s ∧ n = t := by simpa using h₁.symm.trans hu.shape
  have hgshape : g.info.shape = [m, n] := by rw [hg.shape, hout]; rfl
  have hfactors := Factors.of_shapes h₀ h₁
  have hfactors' := Factors.of_shapes hgshape hu.turned
  have houtdims : out.dims = [m.toNat, n.toNat] := by rw [hout]; rfl
  have hinfer := infer_matMul_total hgshape hu.turned
  refine ⟨fun {x' y b info} hx hy hinfer' hb => ?_, fun hc => ?_⟩
  · cases hx
    cases hinfer.symm.trans hinfer'
    exact ⟨h₀.symm, (exact_matMul hfactors houtdims hy).dot_left (exact_matMul hfactors' rfl hb)
      ((hf.complete x₀ (by simp)).length_eq.trans (by rw [hfactors.left, volume_matrix]))
      (hg.length.trans (by rw [houtdims, volume_matrix])) hu.values⟩
  · have hroom : Roomy x₀.dims := hc.operands x₀ (by simp)
    rw [hfactors.left] at hroom
    obtain ⟨b, hb⟩ := exact_matMul_total f hfactors' (show (g.info.withShape [m, k]).dims = _ from rfl) hg.complete
      hu.complete hroom
    exact ⟨_, b, hinfer, hb⟩

/-- The gradient for the right factor: the left factor, turned, times the incoming one. -/
theorem backs_matMul_right (hf : Forward .matMul [x₀, x₁] out) (hg : Incoming out g) (hu : Turned x₀ u s t) :
    Backs f .matMul [x₀, x₁] out 1 g .matMul [u, g] := by
  let _ := f.scalar
  obtain ⟨i, j, m, k, n, hij, h₀, h₁, hout⟩ := OpKind.infer_matMul hf.infers
  cases hij
  obtain ⟨rfl, rfl⟩ : m = s ∧ k = t := by simpa using h₀.symm.trans hu.shape
  have hgshape : g.info.shape = [m, n] := by rw [hg.shape, hout]; rfl
  have hfactors := Factors.of_shapes h₀ h₁
  have hfactors' := Factors.of_shapes hu.turned hgshape
  have houtdims : out.dims = [m.toNat, n.toNat] := by rw [hout]; rfl
  have hinfer := infer_matMul_total hu.turned hgshape
  refine ⟨fun {x' y b info} hx hy hinfer' hb => ?_, fun hc => ?_⟩
  · cases hx
    cases hinfer.symm.trans hinfer'
    exact ⟨h₁.symm, (exact_matMul hfactors houtdims hy).dot_right (exact_matMul hfactors' rfl hb)
      ((hf.complete x₁ (by simp)).length_eq.trans (by rw [hfactors.right, volume_matrix]))
      (hg.length.trans (by rw [houtdims, volume_matrix])) hu.values⟩
  · have hroom : Roomy x₁.dims := hc.operands x₁ (by simp)
    rw [hfactors.right] at hroom
    obtain ⟨b, hb⟩ := exact_matMul_total f hfactors' (show (u.info.withShape [k, n]).dims = _ from rfl) hu.complete
      hg.complete hroom
    exact ⟨_, b, hinfer, hb⟩

end Kernel

end TensorGraph
