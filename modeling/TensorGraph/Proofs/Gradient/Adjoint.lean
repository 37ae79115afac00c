import TensorGraph.Proofs.Gradient.Backward
import TensorGraph.Proofs.Graph.Order
import TensorGraph.Proofs.Graph.WellFormed
import TensorGraph.Proofs.Kernel.Concat
import TensorGraph.Proofs.Kernel.Gather
import TensorGraph.Proofs.Kernel.Reduction

/-!
Backward kernels are adjoint to forward kernels. For every kind whose result is linear in an operand, the ops that its
gradient rule adds for the operand, computed on numbers without rounding, give what pairs with the operand as the gradient
for the result pairs with the result.
-/
namespace TensorGraph

open TensorGraph.Graph Kernel

variable {R : Type} [Field R]

namespace GradRule

open GradCall

/-- Where a rule is asked for the gradient for operand `k`, it adds ops that compute it. -/
def Answers (rule : GradRule) (f : Numbers R) (a : TensorId → Option (Operand R)) (kind : OpKind) (xs : List (Operand R))
    (out : TensorInfo) (grad : Operand R) (k : Nat) : Prop := ∀ c : GradCall, c.isNeeded k = true →
  c.Proceeds (exactly f a) xs out grad (fun _ => True) (rule c) (OffersFrom (IsGradient f a kind xs out grad k) k 0)

variable {f : Numbers R} {a : TensorId → Option (Operand R)} {kind : OpKind} {xs : List (Operand R)} {out : TensorInfo}
  {grad x x₀ x₁ : Operand R} {k : Nat}

/-! ### Functions of elements -/

theorem answers_identity (hf : Forward .identity [x] out) (hg : Incoming out grad) :
    Answers (fun c => c.only .identity [c.incoming]) f a .identity [x] out grad 0 :=
  fun _ hneeded => .only hneeded (backs_identity hf hg)

theorem answers_unary {u : Unary} {m : R} (hu : ∀ v, @Unary.apply R f.scalar u v = v * m)
    (hf : Forward (.unary u) [x] out) (hg : Incoming out grad) :
    Answers (fun c => c.only (.unary u) [c.incoming]) f a (.unary u) [x] out grad 0 :=
  fun _ hneeded => .only hneeded (backs_unary hu hf hg)

theorem answers_add (hf : Forward (.binary .add) [x₀, x₁] out) (hg : Incoming out grad) (hk : k ≤ 1)
    (hzero : ZeroApart k [x₀, x₁]) : Answers (binary .add) f a (.binary .add) [x₀, x₁] out grad k := by
  intro c hneeded
  have hstretch := stretches_binary hf
  refine .pair stays_isGradient hk (.summed hneeded (x := x₀) rfl hg (hstretch x₀ (by simp)) ?_)
    (.summed hneeded (x := x₁) rfl hg (hstretch x₁ (by simp)) ?_)
  · rintro rfl
    exact backs_add_left hf hg hzero
  · rintro rfl
    exact backs_add_right hf hg hzero

theorem answers_sub (hf : Forward (.binary .sub) [x₀, x₁] out) (hg : Incoming out grad) (hk : k ≤ 1)
    (hzero : ZeroApart k [x₀, x₁]) : Answers (binary .sub) f a (.binary .sub) [x₀, x₁] out grad k := by
  intro c hneeded
  have hstretch := stretches_binary hf
  refine .pair stays_isGradient hk (.summed hneeded (x := x₀) rfl hg (hstretch x₀ (by simp)) ?_)
    (.operand hneeded (.askShape (x := x₁) rfl (.emit_back [grad] (fun hmeets => .cons hmeets.incoming .nil)
      (fun _ => ⟨_, infer_subRight_total hg.shape (hstretch x₁ (by simp))⟩) ?_)))
  · rintro rfl
    exact backs_sub_left hf hg hzero
  · rintro rfl
    exact backs_sub_right hf hg hzero

theorem answers_mul (hf : Forward (.binary .mul) [x₀, x₁] out) (hg : Incoming out grad) (hk : k ≤ 1) :
    Answers (binary .mul) f a (.binary .mul) [x₀, x₁] out grad k := by
  intro c hneeded
  have hstretch := stretches_binary hf
  have hinfer₀ := infer_factor_total (.inl rfl) hg.shape (hstretch x₀ (by simp)) (hstretch x₁ (by simp))
  have hinfer₁ := infer_factor_total (.inl rfl) hg.shape (hstretch x₁ (by simp)) (hstretch x₀ (by simp))
  refine .pair stays_isGradient hk
    (.operand hneeded (.askShape (x := x₀) rfl (.askInput (x := x₁) rfl fun t ht =>
      .emit_back [grad, x₁] (fun hmeets => .cons hmeets.incoming (.cons (ht _ hmeets) .nil))
        (fun _ => ⟨_, hinfer₀⟩) ?_)))
    (.operand hneeded (.askShape (x := x₁) rfl (.askInput (x := x₀) rfl fun t ht =>
      .emit_back [grad, x₀] (fun hmeets => .cons hmeets.incoming (.cons (ht _ hmeets) .nil))
        (fun _ => ⟨_, hinfer₁⟩) ?_)))
  · rintro rfl
    exact backs_mul_left hf hg
  · rintro rfl
    exact backs_mul_right hf hg

theorem infer_divRight_total {x y g : TensorInfo} {out : Shape} (hg : g.shape = out) (hx : Stretches x.shape out)
    (hy : Stretches y.shape out) : (OpKind.operandGrad .divRight y.shape).infer [g, x, y] = .ok (g.withShape y.shape) := by
  have hx' := (Shape.broadcast_of_stretches hx).2
  have hy' := Shape.broadcast_of_stretches hy
  simp [OpKind.infer, OpKind.operand3, bind, Except.bind, OpKind.requireReducible, hg, hx', hy', pure, Except.pure]

theorem answers_div (hf : Forward (.binary .div) [x₀, x₁] out) (hg : Incoming out grad) :
    Answers (binary .div) f a (.binary .div) [x₀, x₁] out grad 0 := by
  intro c hneeded
  have hstretch := stretches_binary hf
  have hinfer₀ := infer_factor_total (.inr rfl) hg.shape (hstretch x₀ (by simp)) (hstretch x₁ (by simp))
  have hinfer₁ := infer_divRight_total hg.shape (hstretch x₀ (by simp)) (hstretch x₁ (by simp))
  refine .askInput (x := x₀) rfl fun t ht => .askInput (x := x₁) rfl fun u hu => .pair stays_isGradient (Nat.zero_le 1)
    (.operand hneeded (.askShape (x := x₀) rfl (.emit_back [grad, x₁]
      (fun hmeets => .cons hmeets.incoming (.cons (hu _ hmeets) .nil)) (fun _ => ⟨_, hinfer₀⟩) fun _ => ?_)))
    (.operand hneeded (.askShape (x := x₁) rfl (.emit_back [grad, x₀, x₁]
      (fun hmeets => .cons hmeets.incoming (.cons (ht _ hmeets) (.cons (hu _ hmeets) .nil))) (fun _ => ⟨_, hinfer₁⟩)
        nofun)))
  exact backs_div_left hf hg

/-! ### Sums and products of matrices -/

theorem answers_sum (hf : Forward .sum xs out) (hg : Incoming out grad) (hx : xs[k]? = some x) (hzero : ZeroApart k xs) :
    Answers sum f a .sum xs out grad k := by
  intro c hneeded
  have hk := (List.getElem?_eq_some_iff.1 hx).1
  -- by induction on the number of operands that are left
  have hfrom : ∀ count i, i + count = xs.length → c.Proceeds (exactly f a) xs out grad (fun _ => True)
      ((List.range' i count).mapM c.summed) (OffersFrom (IsGradient f a .sum xs out grad k) k i) := by
    intro count
    induction count with
    | zero => exact fun i hi => .pure fun _ _ => .nil (by omega)
    | succ count ih =>
      intro i hi
      have hxi : xs[i]? = some xs[i] := List.getElem?_eq_getElem (by omega)
      rw [List.range'_succ, List.mapM_cons]
      refine .both stays_isGradient (.summed hneeded hxi hg (stretches_sum hf _ (List.mem_of_getElem? hxi)) ?_)
        (ih (i + 1) (by omega))
      rintro rfl
      exact backs_sum hxi hf hg hzero
  refine .assume fun g hmeets => ?_
  unfold sum
  rw [List.range_eq_range', hmeets.operands.length_eq]
  exact hfrom _ 0 (Nat.zero_add _)

theorem answers_reduceSum {axes : Option (List Int)} {keepDims : Bool} (hf : Forward (.reduceSum axes keepDims) [x] out)
    (hg : Incoming out grad) : Answers (reduceSum axes keepDims) f a (.reduceSum axes keepDims) [x] out grad 0 := by
  intro c hneeded
  obtain ⟨resolved, hresolved, -⟩ := infer_reduceSum hf.infers
  have hback := backs_reduceSum (f := f) hf hg hresolved
  refine .askShape (x := x) rfl ?_
  cases keepDims with
  | true => exact .only hneeded hback
  | false => exact .know hresolved (.only hneeded hback)

theorem answers_matMul (hf : Forward .matMul [x₀, x₁] out) (hg : Incoming out grad) (hk : k ≤ 1) :
    Answers matMul f a .matMul [x₀, x₁] out grad k := by
  intro c hneeded
  obtain ⟨i, j, m, l, n, hij, h₀, h₁, hout⟩ := OpKind.infer_matMul hf.infers
  cases hij
  have hgshape : grad.info.shape = [m, n] := by rw [hg.shape, hout]; rfl
  refine .askInput (x := x₀) rfl fun t ht => .askInput (x := x₁) rfl fun u hu => .pair stays_isGradient hk
    (.operand hneeded (.emit_turned (fun v => [c.incoming, v]) (fun v => [grad, v]) (by simp) h₁
      (hf.complete x₁ (by simp)) (hu _) (fun hmeets hv => .cons hmeets.incoming (.cons hv .nil)) (by simp)
      (fun hv => ⟨_, infer_matMul_total hgshape hv⟩) ?_))
    (.operand hneeded (.emit_turned (fun v => [v, c.incoming]) (fun v => [v, grad]) (by simp) h₀
      (hf.complete x₀ (by simp)) (ht _) (fun hmeets hv => .cons hv (.cons hmeets.incoming .nil)) (by simp)
      (fun hv => ⟨_, infer_matMul_total hv hgshape⟩) ?_))
  · rintro v hv rfl
    exact backs_matMul_left hf hg hv
  · rintro v hv rfl
    exact backs_matMul_right hf hg hv

/-! ### Movement -/

theorem answers_reshape {shape : Shape} (hf : Forward (.reshape shape) [x] out) (hg : Incoming out grad) :
    Answers reshape f a (.reshape shape) [x] out grad 0 :=
  fun _ hneeded => .askShape (x := x) rfl (.only hneeded (backs_reshape hf hg))

theorem answers_transpose {perm : List Int} (hf : Forward (.transpose perm) [x] out) (hg : Incoming out grad) :
    Answers (transpose perm) f a (.transpose perm) [x] out grad 0 :=
  fun _ hneeded => .only hneeded (backs_transpose hf hg)

theorem answers_slice {starts ends axes : List Int} (hf : Forward (.slice starts ends axes) [x] out)
    (hg : Incoming out grad) : Answers (slice starts ends axes) f a (.slice starts ends axes) [x] out grad 0 := by
  intro c hneeded
  obtain ⟨x', ranges, hx', hranges, -⟩ := OpKind.infer_slice hf.infers
  cases hx'
  exact .askShape (x := x) rfl (.know hranges (.only hneeded (backs_slice hf hg hranges)))

theorem answers_pad {pads : List Int} {value : Single} (hf : Forward (.pad pads value) [x] out) (hg : Incoming out grad) :
    Answers (pad pads) f a (.pad pads value) [x] out grad 0 := by
  intro c hneeded
  obtain ⟨x', s, hx', hs, hout⟩ := OpKind.infer_pad hf.infers
  cases hx'
  have hcut : c.Proceeds (exactly f a) [x] out grad (fun _ => True) (do
      let starts := pads.take x.info.shape.length
      let ends ← Stateful.lift ((List.zipWith (· + ·) starts x.info.shape).mapM Word.int)
      c.only (.slice starts ends ((List.range x.info.shape.length).map Int.ofNat)) [c.incoming])
      (OffersFrom (IsGradient f a (.pad pads value) [x] out grad 0) 0 0) := by
    exact .ask (fun _ => OpKind.paddedEnds_total (hf.sized x (by simp)) hs) fun ends hends =>
      .only hneeded (backs_pad hf hg hends)
  have hlong : ¬ pads.length < x.info.shape.length := by
    have hcount : pads.length = 2 * x.info.shape.length := (OpKind.paddedShape_ok hs).1
    omega
  refine .askShape (x := x) rfl ?_
  simp only [hlong, if_false]
  exact hcut

theorem answers_concat {axis : Int} (hf : Forward (.concat axis) xs out) (hg : Incoming out grad) (hx : xs[k]? = some x)
    (hzero : ZeroApart k xs) (hrank : ∀ x ∈ xs, x.info.shape ≠ []) :
    Answers (concat axis) f a (.concat axis) xs out grad k := by
  intro c hneeded
  obtain ⟨p, hpiled, hlies, htotal⟩ := hf.piled hrank
  have hk := (List.getElem?_eq_some_iff.1 hx).1
  -- by induction on the number of operands that are left: the offset is where the next one starts
  have hfrom : ∀ count i, i + count = xs.length → c.Proceeds (exactly f a) xs out grad (fun _ => True)
      (concatFrom c p count i (startOf p i xs)) (OffersFrom (IsGradient f a (.concat axis) xs out grad k) k i) := by
    intro count
    induction count with
    | zero => exact fun i hi => .pure fun _ _ => .nil (by omega)
    | succ count ih =>
      intro i hi
      have hxi : xs[i]? = some xs[i] := List.getElem?_eq_getElem (by omega)
      obtain ⟨-, ha, hpart⟩ := hlies _ (List.mem_of_getElem? hxi)
      have hle := startOf_add_le (a := p) hxi
      have hranges := OpKind.sliceRanges_part htotal (Nat.le_add_right (startOf p i xs) (extent p xs[i])) (by omega)
      have hnext := ih (i + 1) (by omega)
      rw [startOf_succ hxi] at hnext
      refine .askShape hxi (.know (Outcome.promised_eq_ok.2 hpart.extent) ?_)
      rw [← Nat.cast_add]
      refine .ask (fun hc => ?_) fun stop hword => ?_
      · refine ⟨_, OpKind.int_of_le hc.result (Int.natCast_nonneg _) ?_⟩
        rw [Int.toNat_natCast]
        have hwhole := le_capacity_of_mem (List.getElem_mem hpiled.axis)
        rw [← List.getD_eq_getElem _ 0 hpiled.axis, hpiled.total] at hwhole
        exact hle.trans hwhole
      · obtain ⟨-, rfl⟩ := Word.int_eq_ok_iff.1 hword
        refine .both stays_isGradient (.operand hneeded (.emit_back [grad]
          (fun hmeets => .cons hmeets.incoming .nil) (fun _ => ?_) ?_)) hnext
        · exact ⟨_, OpKind.infer_slice_total (hg.shape ▸ hranges)⟩
        · rintro rfl
          exact backs_concat hxi hf hg hzero ha hrank
  refine .askShape (i := 0) (x := xs[0]) (List.getElem?_eq_getElem (by omega)) (.know (a := p) ?_ ?_)
  · exact (hlies _ (List.getElem_mem (by omega))).2.1
  · refine .assume fun g hmeets => ?_
    rw [hmeets.operands.length_eq]
    exact hfrom _ 0 (Nat.zero_add _)

theorem answers_gather {axis : Int} {indices : Operand R} (hf : Forward (.gather axis) [x, indices] out)
    (hg : Incoming out grad) (hnamed : AllNamed f axis x indices) :
    Answers (gather axis) f a (.gather axis) [x, indices] out grad 0 := by
  intro c hneeded
  have hback := backs_gather hf hg hnamed
  refine .askShape (x := x) rfl (.askInput (x := indices) rfl fun t ht => .bind (.operand hneeded
    (.emit_back [grad, indices] (fun hmeets => .cons hmeets.incoming (.cons (ht _ hmeets) .nil)) (fun hc => ?_)
      fun _ => hback)) fun gradient => .pure fun g hgradient => .cons hgradient fun n hn => ?_)
  · obtain ⟨info, -, hinfo, -⟩ := hback.total hc
    exact ⟨info, hinfo⟩
  · omega

/-! ### All kinds -/

/-- A result is linear in operand `k`: in the only one, in one of several summands or parts while the others are zero,
in a factor, in a dividend, or in what is gathered from by indices in range. -/
inductive LinearIn (f : Numbers R) (k : Nat) (xs : List (Operand R)) : OpKind → Prop
  | identity : LinearIn f k xs .identity
  | neg : LinearIn f k xs (.unary .neg)
  | scale (factor : Single) : LinearIn f k xs (.unary (.scale factor))
  | add (hzero : ZeroApart k xs) : LinearIn f k xs (.binary .add)
  | sub (hzero : ZeroApart k xs) : LinearIn f k xs (.binary .sub)
  | sum (hzero : ZeroApart k xs) : LinearIn f k xs .sum
  | reduceSum (axes : Option (List Int)) (keepDims : Bool) : LinearIn f k xs (.reduceSum axes keepDims)
  | reshape (shape : Shape) : LinearIn f k xs (.reshape shape)
  | transpose (perm : List Int) : LinearIn f k xs (.transpose perm)
  | slice (starts ends axes : List Int) : LinearIn f k xs (.slice starts ends axes)
  | pad (pads : List Int) (value : Single) : LinearIn f k xs (.pad pads value)
  | concat (axis : Int) (hzero : ZeroApart k xs) (hrank : ∀ x ∈ xs, x.info.shape ≠ []) :
      LinearIn f k xs (.concat axis)
  | gather (axis : Int) {x indices : Operand R} (hxs : xs = [x, indices]) (hk : k = 0)
      (hnamed : AllNamed f axis x indices) : LinearIn f k xs (.gather axis)
  | mul : LinearIn f k xs (.binary .mul)
  | div (hk : k = 0) : LinearIn f k xs (.binary .div)
  | matMul : LinearIn f k xs .matMul

namespace LinearIn

omit [Field R] in
theorem sole (h : ∃ i, xs.map (·.info) = [i]) (hx : xs[k]? = some x) : xs = [x] ∧ k = 0 := by
  obtain ⟨i, hi⟩ := h
  obtain ⟨x', rfl, -⟩ := List.map_eq_singleton_iff.1 hi
  obtain ⟨hk, rfl⟩ := List.getElem?_eq_some_iff.1 hx
  obtain rfl : k = 0 := by simpa using hk
  exact ⟨rfl, rfl⟩

omit [Field R] in
theorem two (h : ∃ i j, xs.map (·.info) = [i, j]) (hx : xs[k]? = some x) :
    ∃ x₀ x₁, xs = [x₀, x₁] ∧ k ≤ 1 := by
  obtain ⟨i, j, hij⟩ := h
  match xs, hij with
  | [x₀, x₁], _ => exact ⟨x₀, x₁, rfl, Nat.lt_succ_iff.1 (List.getElem?_eq_some_iff.1 hx).1⟩

omit [Field R] in
theorem two_of_binary {b : Binary} (hf : Forward (.binary b) xs out) (hx : xs[k]? = some x) :
    ∃ x₀ x₁, xs = [x₀, x₁] ∧ k ≤ 1 := by
  obtain ⟨i, j, -, hij, -⟩ := OpKind.infer_binary hf.infers
  exact two ⟨i, j, hij⟩ hx

/-- There is a rule for each kind, and it gives gradients. -/
theorem answers (h : LinearIn f k xs kind) (hf : Forward kind xs out) (hg : Incoming out grad) (hx : xs[k]? = some x) :
    ∃ rule, ofKind? kind = some rule ∧ rule.Answers f a kind xs out grad k := by
  cases h with
  | identity =>
    obtain ⟨rfl, rfl⟩ := sole ⟨_, OpKind.infer_identity hf.infers⟩ hx
    exact ⟨_, rfl, answers_identity hf hg⟩
  | neg =>
    obtain ⟨rfl, rfl⟩ := sole ⟨_, OpKind.infer_unary hf.infers⟩ hx
    exact ⟨_, rfl, answers_unary (fun v => (mul_neg_one v).symm) hf hg⟩
  | scale factor =>
    obtain ⟨rfl, rfl⟩ := sole ⟨_, OpKind.infer_unary hf.infers⟩ hx
    exact ⟨_, rfl, answers_unary (fun v => rfl) hf hg⟩
  | add hzero =>
    obtain ⟨x₀, x₁, rfl, hk⟩ := two_of_binary hf hx
    exact ⟨_, rfl, answers_add hf hg hk hzero⟩
  | sub hzero =>
    obtain ⟨x₀, x₁, rfl, hk⟩ := two_of_binary hf hx
    exact ⟨_, rfl, answers_sub hf hg hk hzero⟩
  | sum hzero => exact ⟨_, rfl, answers_sum hf hg hx hzero⟩
  | reduceSum axes keepDims =>
    obtain ⟨i, hi, -⟩ := Outcome.bind_eq_ok.1 hf.infers
    obtain ⟨rfl, rfl⟩ := sole ⟨_, OpKind.operand1_ok hi⟩ hx
    exact ⟨_, rfl, answers_reduceSum hf hg⟩
  | reshape shape =>
    obtain ⟨-, i, hi, -⟩ := OpKind.infer_reshape hf.infers
    obtain ⟨rfl, rfl⟩ := sole ⟨i, hi⟩ hx
    exact ⟨_, rfl, answers_reshape hf hg⟩
  | transpose perm =>
    obtain ⟨i, -, hi, -⟩ := OpKind.infer_transpose hf.infers
    obtain ⟨rfl, rfl⟩ := sole ⟨i, hi⟩ hx
    exact ⟨_, rfl, answers_transpose hf hg⟩
  | slice starts ends axes =>
    obtain ⟨i, -, hi, -⟩ := OpKind.infer_slice hf.infers
    obtain ⟨rfl, rfl⟩ := sole ⟨i, hi⟩ hx
    exact ⟨_, rfl, answers_slice hf hg⟩
  | pad pads value =>
    obtain ⟨i, -, hi, -⟩ := OpKind.infer_pad hf.infers
    obtain ⟨rfl, rfl⟩ := sole ⟨i, hi⟩ hx
    exact ⟨_, rfl, answers_pad hf hg⟩
  | concat axis hzero hrank => exact ⟨_, rfl, answers_concat hf hg hx hzero hrank⟩
  | gather axis hxs hk hnamed =>
    subst hxs hk
    exact ⟨_, rfl, answers_gather hf hg hnamed⟩
  | mul =>
    obtain ⟨x₀, x₁, rfl, hk⟩ := two_of_binary hf hx
    exact ⟨_, rfl, answers_mul hf hg hk⟩
  | div hk =>
    obtain ⟨x₀, x₁, rfl, -⟩ := two_of_binary hf hx
    subst hk
    exact ⟨_, rfl, answers_div hf hg⟩
  | matMul =>
    obtain ⟨i, j, -, -, -, hij, -⟩ := OpKind.infer_matMul hf.infers
    obtain ⟨x₀, x₁, rfl, hk⟩ := two ⟨i, j, hij⟩ hx
    exact ⟨_, rfl, answers_matMul hf hg hk⟩

theorem binary_total {b : Binary} (hf : Forward (.binary b) xs out) (hx : xs[k]? = some x) (hc : Countable xs out) :
    ∃ y, @exact R f.scalar (.binary b) xs out = .ok y := by
  let _ := f.scalar
  obtain ⟨x₀, x₁, rfl, -⟩ := two_of_binary hf hx
  exact exact_elementwise_total rfl (List.cons_ne_nil _ _)
    (fun z hz => ⟨Shape.stretches_dims (stretches_binary hf z hz), hf.complete z hz⟩) hc

/-- The op gives a result if all sizes can be counted. -/
theorem total (h : LinearIn f k xs kind) (hf : Forward kind xs out) (hx : xs[k]? = some x) (hc : Countable xs out) :
    ∃ y, @exact R f.scalar kind.linearPart xs out = .ok y := by
  let _ := f.scalar
  have hroom := hc.operands x (List.mem_of_getElem? hx)
  have hcomplete := hf.complete x (List.mem_of_getElem? hx)
  have hsized := hf.sized x (List.mem_of_getElem? hx)
  cases h with
  | identity =>
    obtain ⟨rfl, rfl⟩ := sole ⟨_, OpKind.infer_identity hf.infers⟩ hx
    cases OpKind.infer_identity hf.infers
    exact ⟨_, exact_relabel_total rfl hcomplete⟩
  | neg =>
    obtain ⟨rfl, rfl⟩ := sole ⟨_, OpKind.infer_unary hf.infers⟩ hx
    cases OpKind.infer_unary hf.infers
    exact ⟨_, exact_unary_total hcomplete⟩
  | scale factor =>
    obtain ⟨rfl, rfl⟩ := sole ⟨_, OpKind.infer_unary hf.infers⟩ hx
    cases OpKind.infer_unary hf.infers
    exact ⟨_, exact_unary_total hcomplete⟩
  | add hzero => exact binary_total hf hx hc
  | sub hzero => exact binary_total hf hx hc
  | mul => exact binary_total hf hx hc
  | div hk => exact binary_total hf hx hc
  | sum hzero =>
    exact exact_elementwise_total rfl (List.ne_nil_of_mem (List.mem_of_getElem? hx))
      (fun z hz => ⟨Shape.stretches_dims (stretches_sum hf z hz), hf.complete z hz⟩) hc
  | reduceSum axes keepDims =>
    obtain ⟨i, hi, -⟩ := Outcome.bind_eq_ok.1 hf.infers
    obtain ⟨rfl, rfl⟩ := sole ⟨_, OpKind.operand1_ok hi⟩ hx
    exact exact_reduceSum_total f hf hc
  | reshape shape =>
    obtain ⟨-, i, hi, -⟩ := OpKind.infer_reshape hf.infers
    obtain ⟨rfl, rfl⟩ := sole ⟨i, hi⟩ hx
    have hvolume := infer_reshape_volume hf.infers
    exact ⟨_, exact_relabel_total rfl (counted_of_roomy hc.result (hcomplete.length_eq.trans hvolume.symm))⟩
  | transpose perm =>
    obtain ⟨i, s, hi, hs, hout⟩ := OpKind.infer_transpose hf.infers
    obtain ⟨rfl, rfl⟩ := sole ⟨i, hi⟩ hx
    cases hi
    obtain ⟨axes, horder, hperm, hdims⟩ := OpKind.order_of_transposedShape hs
    rw [← Shape.length_dims] at horder hperm
    exact exact_transpose_total horder hperm (by rw [hout, dims_withShape, hdims]; rfl) hcomplete hroom hc.result
  | slice starts ends axes =>
    obtain ⟨i, ranges, hi, hranges, hout⟩ := OpKind.infer_slice hf.infers
    obtain ⟨rfl, rfl⟩ := sole ⟨i, hi⟩ hx
    cases hi
    exact exact_slice_total hranges rfl (hout ▸ OpKind.window_slicedShape hsized hranges) hcomplete hroom hc.result
  | pad pads value =>
    obtain ⟨i, s, hi, hs, hout⟩ := OpKind.infer_pad hf.infers
    obtain ⟨rfl, rfl⟩ := sole ⟨i, hi⟩ hx
    cases hi
    exact exact_pad_total hsized hs (by rw [hout, dims_withShape]) hcomplete hroom hc.result
  | concat axis hzero hrank =>
    obtain ⟨p, hpiled, hlies, -⟩ := hf.piled hrank
    exact exact_concat_total (List.ne_nil_of_mem (List.mem_of_getElem? hx)) (fun x hx => (hlies x hx).1) hpiled hc
  | gather axis hxs hk hnamed =>
    subst hxs
    exact exact_gather_total hf hnamed hc
  | matMul =>
    obtain ⟨i, j, m, l, n, hij, h₀, h₁, hout⟩ := OpKind.infer_matMul hf.infers
    obtain ⟨x₀, x₁, rfl, -⟩ := two ⟨i, j, hij⟩ hx
    cases hij
    exact exact_matMul_total f (Factors.of_shapes h₀ h₁) (by rw [hout]; rfl) (hf.complete x₀ (by simp))
      (hf.complete x₁ (by simp)) hc.result

end LinearIn

/-- Backward kernels are adjoint to forward kernels. The rule for an op whose result is linear in operand `k` is called for
that operand on a graph with values. Then it gives a tensor; the value that the kernels compute for it has the shape of
the operand, and pairs with the operand as the gradient for the result pairs with the result of the op. Where all sizes can
be counted, the rule and all kernels are successful. -/
theorem backward_adjoint {c : GradCall} {s : Synthesis} (hlinear : LinearIn f k xs c.op.kind)
    (hf : Forward c.op.kind xs out) (hg : Incoming out grad) (hx : xs[k]? = some x) (hneeded : c.isNeeded k = true)
    (hc : c.Meets (exactly f a) xs grad s.graph) : ∃ rule, ofKind? c.op.kind = some rule ∧
      (∀ {gradients s'}, (rule c).run s = (.ok gradients, s') → ∃ t, gradients[k]? = some (some t) ∧
        ∀ {y b}, @exact R f.scalar c.op.kind.linearPart xs out = .ok y → (exactly f a).value? s'.graph t = some b →
          b.info.shape = x.info.shape ∧ dot y.values grad.values = dot x.values b.values) ∧
      (Countable xs out → ∃ gradients s' t y b, (rule c).run s = (.ok gradients, s') ∧
        gradients[k]? = some (some t) ∧ @exact R f.scalar c.op.kind.linearPart xs out = .ok y ∧
        (exactly f a).value? s'.graph t = some b) := by
  obtain ⟨rule, hrule, hanswers⟩ := hlinear.answers (a := a) hf hg hx
  obtain ⟨hok, htotal⟩ := hanswers c hneeded s hc trivial
  refine ⟨rule, hrule, fun {gradients s'} hrun => ?_, fun hcount => ?_⟩
  · obtain ⟨-, -, hoffers⟩ := hok gradients s' hrun
    obtain ⟨t, ht, hgradient⟩ := hoffers k (Nat.zero_add k)
    exact ⟨t, ht, fun hy hb => hgradient.dot_eq hx hy hb⟩
  · obtain ⟨gradients, s', hrun⟩ := htotal hcount
    obtain ⟨-, -, hoffers⟩ := hok gradients s' hrun
    obtain ⟨t, ht, hgradient⟩ := hoffers k (Nat.zero_add k)
    obtain ⟨b, hb⟩ := hgradient.total hcount
    obtain ⟨y, hy⟩ := hlinear.total hf hx hcount
    exact ⟨gradients, s', t, y, b, hrun, ht, hy, hb⟩

/-! ## A product of two matrices -/

namespace Product

/-- A row times a column, and the gradient for the product. -/
def graph : Graph :=
  ([.addTensor "x" ⟨.float, [1, 2]⟩ .stream none, .addTensor "w" ⟨.float, [2, 1]⟩ .weight none,
    .addOp .matMul ["x", "w"] ["y"] .forward, .addTensor "dy" ⟨.float, [1, 1]⟩ .stream none] : List Graph.Edit).foldl
      (fun g e => (e.call.run g).2) .empty

theorem wellFormed : graph.WellFormed := by
  have h : Edited Graph.empty graph := .call _ (.call _ (.call _ (.call _ .start trivial) trivial) trivial) trivial
  exact (h.sound .empty).wellFormed

def row : Operand ℚ := ⟨⟨.float, [1, 2]⟩, [3, 5]⟩

def column : Operand ℚ := ⟨⟨.float, [2, 1]⟩, [7, -1]⟩

def gradient : Operand ℚ := ⟨⟨.float, [1, 1]⟩, [2]⟩

def fed (t : TensorId) : Option (Operand ℚ) :=
  if t = "x" then some row else if t = "w" then some column else if t = "dy" then some gradient else none

/-- The call of the rule for the row. -/
def call : GradCall where
  op := { id := 0, kind := .matMul, name := "y", inputs := ["x", "w"], outputs := ["y"], phase := .forward }
  needs := [true, false]
  incoming := "dy"

theorem meets : call.Meets (exactly .rational fed) [row, column] gradient graph where
  linked := wellFormed.linked
  numbered _ _ := wellFormed.opBound
  acyclic := (order_complete wellFormed.linked (by decide : graph.order = .ok [0])).acyclic
  output := ⟨"y", rfl⟩
  operands := .cons ⟨Reading.value?_source _ rfl, rfl⟩ (.cons ⟨Reading.value?_source _ rfl, rfl⟩ .nil)
  incoming := ⟨Reading.value?_source _ rfl, rfl⟩

theorem forward : Forward .matMul [row, column] ⟨.float, [1, 1]⟩ := by
  refine ⟨rfl, fun z hz => ?_, fun z hz => ?_⟩
  · rcases List.mem_pair.1 hz with rfl | rfl <;> rfl
  · rcases List.mem_pair.1 hz with rfl | rfl <;> simp [Shape.Sized, row, column]

theorem incoming : Incoming ⟨.float, [1, 1]⟩ gradient := ⟨rfl, rfl⟩

theorem countable : Countable [row, column] ⟨.float, [1, 1]⟩ := by
  refine ⟨fun z hz => ?_, by decide⟩
  rcases List.mem_pair.1 hz with rfl | rfl <;> decide

end Product

/-- The rule gives a gradient for the row, and it pairs with the row as the gradient for the product does. -/
theorem backward_adjoint_product : ∃ gradients s' t y b,
    (matMul Product.call).run { graph := Product.graph } = (.ok gradients, s') ∧ gradients[0]? = some (some t) ∧
      @exact ℚ Numbers.rational.scalar .matMul [Product.row, Product.column] ⟨.float, [1, 1]⟩ = .ok y ∧
      (exactly .rational Product.fed).value? s'.graph t = some b ∧ b.info.shape = [1, 2] ∧
      dot y.values Product.gradient.values = dot Product.row.values b.values := by
  obtain ⟨rule, hrule, hok, htotal⟩ := backward_adjoint (c := Product.call) (k := 0) (s := { graph := Product.graph })
    .matMul Product.forward Product.incoming rfl rfl Product.meets
  cases hrule
  obtain ⟨gradients, s', t, y, b, hrun, ht, hy, hb⟩ := htotal Product.countable
  obtain ⟨t', ht', hpairs⟩ := hok hrun
  cases ht.symm.trans ht'
  exact ⟨gradients, s', t, y, b, hrun, ht, hy, hb, hpairs hy hb⟩

end GradRule

end TensorGraph
