import TensorGraph.Proofs.Kernel.Adjoint

/-!
Sums over axes, and their gradients. The summed axes stay with extent one or are dropped; the gradient puts dropped ones
back before it is spread along them.
-/
namespace TensorGraph

open OpKind

/-- The extents with ones on the given axes, counted from the axis `i` on. -/
def flattened (axes : List Nat) (i : Nat) (dims : List Nat) : List Nat :=
  (dims.zipIdx i).map fun (d, i) => if axes.contains i then 1 else d

/-- The extents without the given axes, counted from the axis `i` on. -/
def remaining (axes : List Nat) (i : Nat) (dims : List Nat) : List Nat :=
  (dims.zipIdx i).filterMap fun (d, i) => if axes.contains i then none else some d

section Extents

variable {axes : List Nat} {i : Nat} {d : Nat} {dims : List Nat}

theorem flattened_cons : flattened axes i (d :: dims) = (if axes.contains i then 1 else d) :: flattened axes (i + 1) dims :=
  rfl

theorem remaining_cons : remaining axes i (d :: dims) =
    if axes.contains i then remaining axes (i + 1) dims else d :: remaining axes (i + 1) dims := by
  by_cases hi : i ∈ axes <;> simp [remaining, hi]

theorem reduced_dims (s : Shape) (keepDims : Bool) : (s.reduced axes keepDims).dims =
    if keepDims then flattened axes 0 s.dims else remaining axes 0 s.dims := by
  have hfrom : ∀ (s : Shape) (i : Nat),
      (((s.zipIdx i).filterMap fun e => if axes.contains e.2 then if keepDims then some 1 else none else some e.1).map
        Int.toNat) = if keepDims then flattened axes i s.dims else remaining axes i s.dims := by
    intro s
    induction s with
    | nil => intro i; cases keepDims <;> rfl
    | cons d s ih =>
      intro i
      have ih := ih (i + 1)
      rw [Shape.dims, List.map_cons, ← Shape.dims, flattened_cons, remaining_cons]
      by_cases hi : i ∈ axes <;> cases keepDims <;> simpa [hi, Shape.dims] using ih
  exact hfrom s 0

theorem length_flattened : (flattened axes i dims).length = dims.length := by
  rw [flattened, List.length_map, List.length_zipIdx]

theorem volume_remaining : ∀ {dims : List Nat} {i : Nat}, volume (remaining axes i dims) = volume (flattened axes i dims)
  | [], _ => rfl
  | d :: dims, i => by
    rw [flattened_cons, remaining_cons, Index.volume_cons, ← volume_remaining]
    split
    · rw [Nat.one_mul]
    · rfl

theorem capacity_flattened : ∀ {dims : List Nat} {i : Nat}, capacity (flattened axes i dims) ≤ capacity dims
  | [], _ => Nat.le_refl _
  | d :: dims, i => by
    rw [flattened_cons, capacity_cons, capacity_cons]
    refine Nat.mul_le_mul ?_ capacity_flattened
    split <;> omega

theorem stretches_flattened (axes : List Nat) (dims : List Nat) : Stretches (flattened axes 0 dims) dims := by
  refine ⟨length_flattened.le, ?_⟩
  rw [length_flattened, Nat.sub_self, List.drop_zero]
  have hfrom : ∀ (dims : List Nat) (i : Nat), List.Forall₂ (fun x t => x = t ∨ x = 1) (flattened axes i dims) dims := by
    intro dims
    induction dims with
    | nil => exact fun _ => .nil
    | cons d dims ih =>
      intro i
      rw [flattened_cons]
      refine .cons ?_ (ih (i + 1))
      split
      · exact .inr rfl
      · exact .inl rfl
  exact hfrom dims 0

/-- Nothing was summed if nothing is missing. -/
theorem flattened_of_length : ∀ {dims : List Nat} {i : Nat}, (remaining axes i dims).length = dims.length →
    flattened axes i dims = remaining axes i dims
  | [], _, _ => rfl
  | d :: dims, i, h => by
    have hle : ∀ {i : Nat}, (remaining axes i dims).length ≤ dims.length := by
      intro i
      refine (List.length_filterMap_le _ _).trans ?_
      rw [List.length_zipIdx]
    rw [remaining_cons] at h ⊢
    rw [flattened_cons]
    split at h
    · have := hle (i := i + 1)
      rw [List.length_cons] at h
      omega
    · rename_i hi
      rw [if_neg hi, if_neg hi, flattened_of_length (by simpa using h)]

/-- Axes that were dropped come back with extent one. -/
theorem insertUnits_remaining : ∀ {dims : List Nat} {i : Nat},
    Kernel.insertUnits (fun i => axes.contains i) dims.length i (remaining axes i dims) = flattened axes i dims
  | [], _ => rfl
  | d :: dims, i => by
    rw [List.length_cons, Kernel.insertUnits, flattened_cons, remaining_cons]
    by_cases hi : axes.contains i = true
    · rw [if_pos hi, if_pos hi, if_pos hi, insertUnits_remaining]
    · rw [if_neg hi, if_neg hi, if_neg hi]
      simp only [List.headD_cons, List.tail_cons]
      rw [insertUnits_remaining]

/-- The axes of a reduction are axes of the operand. -/
theorem reductionAxes_lt {s : Shape} {axes : Option (List Int)} {resolved : List Nat}
    (h : s.reductionAxes axes = .ok resolved) (hs : s ≠ []) : ∀ a ∈ resolved, a < s.length := by
  cases axes with
  | none =>
    cases h
    exact fun a ha => List.mem_range.1 ha
  | some axes =>
    obtain ⟨l, hl, h⟩ := Outcome.bind_eq_ok.1 h
    cases h
    intro a ha
    have ha : a ∈ l := SortedSet.mem_ofList.1 ha
    obtain ⟨p, -, hp⟩ := exists_of_forall₂ (Outcome.mapM_eq_ok.1 hl).flip a ha
    exact (axis_ok hp hs).2

/-- The gradient for a reduction gets back the extents of the summed operand, with ones on the summed axes. -/
theorem expandedDims_eq {s : Shape} {axes : Option (List Int)} {resolved : List Nat} {keepDims : Bool}
    (h : s.reductionAxes axes = .ok resolved) :
    Kernel.expandedDims ((if keepDims then [] else resolved).map Int.ofNat) (s.reduced resolved keepDims).dims s.dims =
      .ok (flattened resolved 0 s.dims) := by
  rw [reduced_dims, Kernel.expandedDims]
  cases keepDims with
  | true => exact if_pos (.inr rfl)
  | false =>
    simp only [Bool.false_eq_true, if_false]
    split
    · rename_i hcase
      rw [flattened_of_length]
      rcases hcase with hlen | hempty
      · exact hlen
      · have hempty : resolved = [] := by simpa using hempty
        subst hempty
        have hall : ∀ (dims : List Nat) (i : Nat), (remaining [] i dims).length = dims.length := by
          intro dims
          induction dims with
          | nil => exact fun _ => rfl
          | cons d dims ih => exact fun i => congrArg (· + 1) (ih (i + 1))
        exact hall _ 0
    · rename_i hcase
      rw [not_or] at hcase
      have hs : s ≠ [] := by
        rintro rfl
        exact hcase.1 rfl
      have hresolved : (resolved.map Int.ofNat).mapM (fun a => Index.axis a s.dims.length) = .ok resolved := by
        rw [Outcome.mapM_eq_ok, List.forall₂_map_left_iff, List.forall₂_same]
        intro a ha
        refine Index.axis_eq ?_ ?_
        · rw [Shape.length_dims]
          exact reductionAxes_lt h hs a ha
        · rw [Shape.fromFront, if_neg (by simp)]
          rfl
      rw [hresolved]
      exact congrArg Except.ok insertUnits_remaining

end Extents

namespace Kernel

variable {R : Type} [Field R] {f : Numbers R} {x g : Operand R} {out : TensorInfo} {axes : Option (List Int)}
  {keepDims : Bool}

theorem volume_reduced {x : TensorInfo} {resolved : List Nat} :
    volume (x.withShape (x.shape.reduced resolved keepDims)).dims = volume (flattened resolved 0 x.dims) := by
  rw [dims_withShape, reduced_dims]
  split
  · rfl
  · exact volume_remaining

theorem infer_reduceSum {x out : TensorInfo} (h : (OpKind.reduceSum axes keepDims).infer [x] = .ok out) :
    ∃ resolved, x.shape.reductionAxes axes = .ok resolved ∧ out = x.withShape (x.shape.reduced resolved keepDims) := by
  obtain ⟨x', hx', h⟩ := Outcome.bind_eq_ok.1 h
  cases operand1_ok hx'
  obtain ⟨resolved, hresolved, h⟩ := Outcome.bind_eq_ok.1 h
  cases h
  exact ⟨resolved, hresolved, rfl⟩

theorem reduceSum_eq {R : Type} [Scalar R] {x : Operand R} {resolved : List Nat}
    (h : x.info.shape.reductionAxes axes = .ok resolved) :
    reduceSum axes x = reduceTo x.values x.dims (flattened resolved 0 x.dims) := by
  rw [reduceSum, h]
  rfl

/-- A reduction gives a result where the sizes can be counted. -/
theorem exact_reduceSum_total (f : Numbers R) (hf : Forward (.reduceSum axes keepDims) [x] out) (hc : Countable [x] out) :
    ∃ y, @exact R f.scalar (.reduceSum axes keepDims) [x] out = .ok y := by
  let _ := f.scalar
  obtain ⟨resolved, hresolved, hout⟩ := infer_reduceSum hf.infers
  have hroom : Roomy (flattened resolved 0 x.dims) := (hc.operands x (by simp)).of_le capacity_flattened
  obtain ⟨values, hvalues⟩ : ∃ values, reduceTo x.values x.dims (flattened resolved 0 x.dims) = .ok values :=
    reduceTo_total (stretches_flattened resolved x.dims) hroom
  have hplan : plan (.reduceSum axes keepDims) [x] out = .ok (.values values) := by
    change (reduceSum axes x >>= _) = _
    rw [reduceSum_eq hresolved, hvalues]
    rfl
  refine values_total hplan hc.result ?_
  rw [(reduceTo_ok f hvalues (hf.complete x (by simp)).length_eq).2.1, hout, volume_reduced]
  rfl

omit [Field R] in
theorem dims_incoming (hf : Forward (.reduceSum axes keepDims) [x] out) (hg : Incoming out g) {resolved : List Nat}
    (hresolved : x.info.shape.reductionAxes axes = .ok resolved) : g.dims = (x.info.shape.reduced resolved keepDims).dims := by
  obtain ⟨resolved', hresolved', hout⟩ := infer_reduceSum hf.infers
  cases hresolved.symm.trans hresolved'
  rw [hg.dims, hout, dims_withShape]

omit [Field R] in
/-- The gradient reads, for each element of the operand, the element of the sum that it went into. -/
theorem spreadSources_eq (hf : Forward (.reduceSum axes keepDims) [x] out) (hg : Incoming out g) {resolved : List Nat}
    (hresolved : x.info.shape.reductionAxes axes = .ok resolved) :
    spreadSources ((if keepDims then [] else resolved).map Int.ofNat) g.dims (g.info.withShape x.info.shape) =
      (Index.broadcastSources (flattened resolved 0 x.dims) x.dims >>= fun l => pure (l.map some)) := by
  rw [dims_incoming hf hg hresolved]
  change (expandedDims _ _ x.dims >>= _) = _
  rw [Operand.dims, TensorInfo.dims, expandedDims_eq hresolved]
  rfl

/-- The gradient for a sum is there where the operand can be counted. -/
theorem reduceSumGrad_total (f : Numbers R) {resolved : List Nat} (hf : Forward (.reduceSum axes keepDims) [x] out)
    (hg : Incoming out g) (hresolved : x.info.shape.reductionAxes axes = .ok resolved) (hroom : Roomy x.dims) :
    ∃ b, @exact R f.scalar (.reduceSumGrad x.info.shape ((if keepDims then [] else resolved).map Int.ofNat)) [g]
      (g.info.withShape x.info.shape) = .ok b := by
  let _ := f.scalar
  have hstretch := stretches_flattened resolved x.dims
  have hflat : Roomy (flattened resolved 0 x.dims) := hroom.of_le capacity_flattened
  have hplan : plan (.reduceSumGrad x.info.shape ((if keepDims then [] else resolved).map Int.ofNat)) [g]
      (g.info.withShape x.info.shape) = .ok (.move [0] .zero
        (.ok (((List.range (volume x.dims)).map (Index.under (flattened resolved 0 x.dims) x.dims)).map some))) := by
    change (spreadSources _ g.dims _ >>= _) = _
    rw [spreadSources_eq hf hg hresolved, Index.broadcastSources_total hstretch hflat.steps]
    rfl
  have hbound : ∀ j, some j ∈ ((List.range (volume x.dims)).map (Index.under (flattened resolved 0 x.dims) x.dims)).map some →
      j < g.values.length := by
    intro j hj
    rw [List.map_map, List.mem_map] at hj
    obtain ⟨i, hi, heq⟩ := hj
    rw [← Option.some.inj heq, hg.length, ← hg.dims, dims_incoming hf hg hresolved, ← dims_withShape, volume_reduced]
    exact Index.under_lt hstretch (List.mem_range.1 hi)
  exact move_total hplan hbound hroom (by rw [List.length_map, List.length_map, List.length_range]; rfl)

/-- The gradient for what is summed over axes. -/
theorem backs_reduceSum {resolved : List Nat} (hf : Forward (.reduceSum axes keepDims) [x] out) (hg : Incoming out g)
    (hresolved : x.info.shape.reductionAxes axes = .ok resolved) :
    Backs f (.reduceSum axes keepDims) [x] out 0 g
      (.reduceSumGrad x.info.shape ((if keepDims then [] else resolved).map Int.ofNat)) [g] := by
  let _ := f.scalar
  refine ⟨fun {x' y b info} hx hy hinfer hb => ?_, fun hc => ?_⟩
  · cases hx
    cases hinfer
    refine ⟨rfl, ?_⟩
    have hsum : reduceSum axes x = .ok y.values := exact_values_ok rfl hy
    rw [reduceSum_eq hresolved] at hsum
    obtain ⟨-, -, hforward⟩ := reduceTo_ok f hsum (hf.complete x (by simp)).length_eq
    obtain ⟨l, hl, hpick⟩ := exact_move_ok rfl hb
    rw [spreadSources_eq hf hg hresolved] at hl
    obtain ⟨sources, hsources, hl⟩ := Outcome.bind_eq_ok.1 hl
    cases hl
    obtain ⟨-, rfl⟩ := Index.broadcastSources_ok hsources
    obtain ⟨hlen, hvalues⟩ := pick_ok hpick
    have hlen : b.values.length = volume x.dims := by simpa using hlen
    have hback : Transforms (moving (fun i => some (Index.under (flattened resolved 0 x.dims) x.dims i)) 1) g.values b.values := by
      refine transforms_moving fun i hi => ?_
      have hi' : i < volume x.dims := hlen ▸ hi
      rw [hvalues i hi]
      simp [hi', List.getD_eq_getElem?_getD]
    exact hforward.dot_eq hback (hg.length.trans (exact_length hy).symm) (hlen.trans (hf.complete x (by simp)).length_eq.symm)
  · obtain ⟨b, hb⟩ := reduceSumGrad_total f hf hg hresolved (hc.operands x (by simp))
    exact ⟨_, b, rfl, hb⟩

end Kernel

end TensorGraph
