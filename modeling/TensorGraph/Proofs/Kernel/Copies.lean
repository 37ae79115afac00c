import TensorGraph.Pattern.Structural
import TensorGraph.Proofs.Kernel.Concat
import TensorGraph.Proofs.Kernel.Lookup
import TensorGraph.Proofs.Kernel.Reduction

/-!
Kernels that copy. Some ops do nothing in degenerate forms: sums over axes of extent one, slices of everything, borders of
no width. Main statement: an op that counts as passing its operand on, and whose result has the info of that operand, gives
the operand.
-/
namespace TensorGraph

/-! ## Moves that keep every coordinate -/

namespace Index

variable {c dims offsets : List Nat}

/-- A window of the whole is not shifted. -/
theorem offsets_whole (h : Window offsets dims dims) : offsets = List.replicate dims.length 0 := by
  obtain ⟨hlen, -, hfit⟩ := window_iff.1 h
  refine List.eq_replicate_iff.2 ⟨hlen, fun p hp => ?_⟩
  obtain ⟨i, hi, rfl⟩ := List.getElem_of_mem hp
  have hle := hfit i (hlen ▸ hi)
  rw [List.getD_eq_getElem _ _ hi] at hle
  omega

theorem shift_whole (c : List Nat) : shift (List.replicate c.length 0) c = c := by
  refine List.ext_getElem (by simp [shift]) fun i hi hi' => ?_
  simp [shift]

theorem reorder_range (c : List Nat) : reorder (List.range c.length) c = c := by
  refine List.ext_getElem (by simp [reorder]) fun i hi hi' => ?_
  simp [reorder, hi']

theorem inverse_range (n : Nat) : inverse (List.range n) = List.range n := by
  refine List.ext_getElem (by simp [inverse]) fun i hi hi' => ?_
  rw [List.length_range] at hi'
  simp only [inverse, List.getElem_map, List.getElem_range]
  have hnodup := List.nodup_range.idxOf_getElem i (List.length_range ▸ hi' : i < (List.range n).length)
  rwa [List.getElem_range] at hnodup

end Index

namespace Kernel

open Index

section Moves

variable {R : Type} [Scalar R] {kind : OpKind} {x y : Operand R} {rest xs : List (Operand R)}

/-- A result with the info and the values of an operand is that operand. -/
theorem eq_of_values (h : exact kind xs x.info = .ok y) (hv : y.values = x.values) : y = x := by
  obtain ⟨info, values⟩ := y
  cases (exact_ok h).1
  cases hv
  rfl

/-- Elements that are moved from where they stand. -/
theorem eq_of_move {φ : List Nat → Option (List Nat)} {fill : Single} {sources : Outcome Sources}
    (hplan : plan kind (x :: rest) x.info = do return .move [0] fill (.ok (← sources)))
    (hs : ∀ l, sources = .ok l → l = (List.range (volume x.dims)).map (carry φ x.dims x.dims))
    (hφ : ∀ c, Within c x.dims → φ c = some c) (hx : x.Complete) (h : exact kind (x :: rest) x.info = .ok y) : y = x := by
  refine eq_of_values h ?_
  obtain ⟨l, hl, hpick⟩ := exact_move_ok hplan h
  have hstay : l = (List.range x.values.length).map some := by
    rw [hs l hl, hx.length_eq]
    refine List.map_congr_left fun i hi => ?_
    rw [carry, hφ _ (within_coord (List.mem_range.1 hi)), Option.map_some, flat_coord _ (List.mem_range.1 hi)]
  have hfront := pick_front x.values [] (Scalar.ofSingle fill)
  rw [List.append_nil] at hfront
  rw [hstay] at hpick
  exact (Except.ok.inj (hfront.symm.trans hpick)).symm

end Moves

/-! ## Degenerate forms -/

variable {R : Type} [Field R] {f : Numbers R} {x y : Operand R}

/-- A slice of everything. -/
theorem slice_copies {starts ends axes : List Int} (hx : x.Complete) (hsized : x.info.shape.Sized)
    (hinfer : (OpKind.slice starts ends axes).infer [x.info] = .ok x.info)
    (h : @exact R f.scalar (.slice starts ends axes) [x] x.info = .ok y) : y = x := by
  let _ := f.scalar
  obtain ⟨i, ranges, hi, hranges, hinfo⟩ := OpKind.infer_slice hinfer
  cases hi
  have hwhole : OpKind.slicedShape x.info.shape ranges = x.info.shape := (congrArg TensorInfo.shape hinfo).symm
  have hw := OpKind.window_slicedShape hsized hranges
  rw [hwhole] at hw
  refine eq_of_move rfl (fun l hl => sliceSources_ok hranges hw hl) (fun c hc => ?_) hx h
  have hzero := offsets_whole hw
  rw [show x.info.shape.dims.length = c.length from (List.Forall₂.length_eq hc).symm] at hzero
  rw [show x.dims.length = c.length from (List.Forall₂.length_eq hc).symm, hzero, shift_whole]

/-- A border of no width. -/
theorem pad_copies {pads : List Int} {value : Single} (hx : x.Complete) (hsized : x.info.shape.Sized)
    (hinfer : (OpKind.pad pads value).infer [x.info] = .ok x.info) (hpads : ∀ p ∈ pads, p = 0)
    (h : @exact R f.scalar (.pad pads value) [x] x.info = .ok y) : y = x := by
  let _ := f.scalar
  obtain ⟨i, s, hi, hs, hinfo⟩ := OpKind.infer_pad hinfer
  cases hi
  obtain rfl : x.info.shape = s := congrArg TensorInfo.shape hinfo
  obtain ⟨hcount, -, -⟩ := OpKind.paddedShape_ok hs
  have hlen : x.dims.length = x.info.shape.length := Shape.length_dims _
  have hzero : (pads.take x.dims.length).map Int.toNat = List.replicate x.dims.length 0 := by
    refine List.eq_replicate_iff.2 ⟨by rw [List.length_map, List.length_take]; omega, fun n hn => ?_⟩
    obtain ⟨p, hp, rfl⟩ := List.mem_map.1 hn
    rw [hpads p (List.mem_of_mem_take hp)]
    rfl
  refine eq_of_move rfl (fun l hl => padSources_ok hsized hs rfl hl) (fun c hc => ?_) hx h
  rw [hzero, unshift_whole hc]

/-- The axes in the order that they have. -/
theorem transpose_copies {perm : List Int} (hx : x.Complete)
    (hinfer : (OpKind.transpose perm).infer [x.info] = .ok x.info) (hperm : perm = (List.range perm.length).map Int.ofNat)
    (h : @exact R f.scalar (.transpose perm) [x] x.info = .ok y) : y = x := by
  let _ := f.scalar
  obtain ⟨i, s, hi, hs, hinfo⟩ := OpKind.infer_transpose hinfer
  cases hi
  obtain rfl : x.info.shape = s := congrArg TensorInfo.shape hinfo
  obtain ⟨axes, horder, hnames, hdims⟩ := OpKind.order_of_transposedShape hs
  have hlen : x.dims.length = x.info.shape.length := Shape.length_dims _
  have haxes : axes = List.range x.dims.length := by
    have hlength : perm.length = axes.length := by simpa using congrArg List.length hnames
    have hsame : perm.map (Shape.fromFront · x.info.shape.length) = (List.range perm.length).map Int.ofNat := by
      rw [hperm, List.map_map, List.length_map, List.length_range]
      refine List.map_congr_left fun a _ => ?_
      change Shape.fromFront (Int.ofNat a) _ = Int.ofNat a
      exact if_neg (by simp)
    rw [hnames, hlength, horder.length] at hsame
    rw [hlen]
    exact List.map_injective_iff.2 (fun a b => Int.ofNat.inj) hsame
  rw [← hlen] at horder hnames
  refine eq_of_move rfl (fun l hl => transposeSources_ok horder hnames hdims hl) (fun c hc => ?_) hx h
  rw [putBack, haxes, inverse_range, ← List.Forall₂.length_eq hc, reorder_range]

/-- Sums that add nothing up. -/
theorem reduceTo_self {values result : List R} {dims : List Nat} (hlen : values.length = volume dims)
    (h : @reduceTo R f.scalar values dims dims = .ok result) : result = values := by
  obtain ⟨-, hlen', hsum⟩ := reduceTo_ok f h hlen
  refine eq_of_getD (hlen'.trans hlen.symm) fun i hi => ?_
  rw [hsum i hi, Finset.sum_eq_single i]
  · simp [moving, under_self (hlen' ▸ hi)]
  · intro j hj hne
    have hlt : j < volume dims := hlen ▸ Finset.mem_range.1 hj
    simp [moving, under_self hlt, hne]
  · intro hmem
    exact absurd (Finset.mem_range.2 (hlen.symm ▸ hlen' ▸ hi)) hmem

/-- A sum over axes of extent one. -/
theorem reduceSum_copies {axes : Option (List Int)} {keepDims : Bool} (hx : x.Complete)
    (hinfer : (OpKind.reduceSum axes keepDims).infer [x.info] = .ok x.info)
    (h : @exact R f.scalar (.reduceSum axes keepDims) [x] x.info = .ok y) : y = x := by
  let _ := f.scalar
  obtain ⟨resolved, hresolved, hinfo⟩ := infer_reduceSum hinfer
  have hdims : x.dims = if keepDims then flattened resolved 0 x.dims else remaining resolved 0 x.dims :=
    (congrArg TensorInfo.dims hinfo).trans (reduced_dims x.info.shape keepDims)
  have hkept : flattened resolved 0 x.dims = x.dims := by
    split at hdims
    · exact hdims.symm
    · rw [flattened_of_length (congrArg List.length hdims).symm, ← hdims]
  have hsum : reduceSum axes x = .ok y.values := exact_values_ok rfl h
  rw [reduceSum_eq hresolved, hkept] at hsum
  exact eq_of_values h (reduceTo_self hx.length_eq hsum)

/-- A sum back to the shape that is there. -/
theorem reduceToShape_copies {shape : Shape} (hx : x.Complete)
    (h : @exact R f.scalar (.reduceToShape shape) [x] x.info = .ok y) : y = x :=
  @eq_of_values R f.scalar _ _ _ _ h (reduceTo_self hx.length_eq (@exact_reduceToShape R f.scalar _ _ _ _ h))

/-- A sum of one operand. -/
theorem sum_copies (hx : x.Complete) (h : @exact R f.scalar .sum [x] x.info = .ok y) : y = x := by
  let _ := f.scalar
  obtain ⟨-, hlen, hvalues⟩ := exact_elementwise rfl h
  refine eq_of_values h (eq_of_getD (hlen.trans hx.length_eq.symm) fun i hi => ?_)
  have hi : i < volume x.dims := hlen ▸ hi
  rw [hvalues i hi, scalar_sum_eq, List.map_singleton, List.sum_singleton]
  exact congrArg (x.values.getD · 0) (under_self hi)

/-- A concatenation of one operand. -/
theorem concat_copies {axis : Int} (hx : x.Complete) (h : @exact R f.scalar (.concat axis) [x] x.info = .ok y) :
    y = x := by
  let _ := f.scalar
  obtain ⟨-, -, p, hplan, -⟩ := exact_ok h
  obtain ⟨a, ha, -⟩ := Outcome.bind_eq_ok.1 hplan
  obtain ⟨hlt, -⟩ := axis_ok ha
  have hlt : a < x.dims.length := (Shape.length_dims x.info.shape).symm ▸ hlt
  have hpiled : Piled a x.dims [x] := by
    refine ⟨hlt, fun z hz => ?_, by simp [extent], fun z hz => List.mem_singleton.1 hz ▸ hx⟩
    rw [List.mem_singleton.1 hz, extent, List.getD_eq_getElem _ _ hlt, List.set_getElem_self]
  obtain ⟨hlen, hvalues⟩ := exact_concat f.ofSingle_zero (by simp) (fun z hz => List.mem_singleton.1 hz ▸ ha) hpiled h
  refine eq_of_values h (eq_of_getD (hlen.trans hx.length_eq.symm) fun i hi => ?_)
  have hi : i < volume x.dims := hlen ▸ hi
  have hw := within_coord hi
  have hrank : a < (coord x.dims i).length := List.Forall₂.length_eq hw ▸ hlt
  have hentry : entryAlong a (coord x.dims i) [x] ((coord x.dims i).getD a 0) = x.values.getD i 0 := by
    rw [entryAlong, extent, if_pos (hw.getD_lt hlt), List.getD_eq_getElem _ _ hrank, List.set_getElem_self, flat_coord _ hi]
  exact (hvalues i hi).trans hentry

theorem numEq_one {s : Single} (h : s.numEq .one = true) : s = .one := by
  simp only [Single.numEq, Bool.and_eq_true, Bool.or_eq_true, beq_iff_eq] at h
  exact h.2.resolve_right fun hz => absurd hz.2 (by decide)

/-- A factor of one. -/
theorem scale_copies {factor : Single} (hone : factor.numEq .one = true)
    (h : @exact R f.scalar (.unary (.scale factor)) [x] x.info = .ok y) : y = x := by
  let _ := f.scalar
  rw [numEq_one hone] at h
  refine eq_of_values h ((exact_unary h).trans ?_)
  conv_rhs => rw [← List.map_id x.values]
  refine List.map_congr_left fun v _ => ?_
  exact (congrArg (v * ·) f.ofSingle_one).trans (mul_one v)

/-- An op that passes its operand on gives the operand. -/
theorem passesOn_copies {op : Op} {xs : List (Operand R)} (hpass : Pattern.passesOn op = true)
    (hlen : xs.length = op.inputs.length) (hfirst : xs.head? = some x) (hx : x.Complete) (hsized : x.info.shape.Sized)
    (hinfer : op.kind.infer (xs.map (·.info)) = .ok x.info) (h : @exact R f.scalar op.kind xs x.info = .ok y) : y = x := by
  have hsingle : xs.length = 1 → xs = [x] := by
    intro hone
    obtain ⟨z, rfl⟩ := List.length_eq_one_iff.1 hone
    rw [List.head?_cons, Option.some.injEq] at hfirst
    rw [hfirst]
  have honly : ∀ {i : TensorInfo}, xs.map (·.info) = [i] → xs = [x] := fun hinfos =>
    hsingle (by simpa using congrArg List.length hinfos)
  unfold Pattern.passesOn at hpass
  split at hpass
  case h_1 hk =>
    rw [hk, hsingle (hlen.trans (by simpa using hpass))] at h
    exact sum_copies hx h
  case h_2 axis hk =>
    rw [hk, hsingle (hlen.trans (by simpa using hpass))] at h
    exact concat_copies hx h
  case h_3 pads value hk =>
    rw [hk] at h hinfer
    obtain ⟨i, s, hinfos, -, -⟩ := OpKind.infer_pad hinfer
    cases honly hinfos
    exact pad_copies hx hsized hinfer (by simpa using hpass) h
  case h_4 factor hk =>
    rw [hk] at h hinfer
    cases honly (OpKind.infer_unary hinfer)
    exact scale_copies hpass h
  case h_5 perm hk =>
    rw [hk] at h hinfer
    obtain ⟨i, s, hinfos, -, -⟩ := OpKind.infer_transpose hinfer
    cases honly hinfos
    exact transpose_copies hx hinfer (by simpa using hpass) h
  case h_6 axes keepDims hk =>
    rw [hk] at h hinfer
    obtain ⟨i, hinfos, -⟩ := Outcome.bind_eq_ok.1 hinfer
    cases honly (OpKind.operand1_ok hinfos)
    exact reduceSum_copies hx hinfer h
  case h_7 shape hk =>
    rw [hk] at h hinfer
    obtain ⟨-, i, hinfos, -⟩ := OpKind.infer_reshape hinfer
    cases honly hinfos
    exact @eq_of_values R f.scalar _ _ _ _ h (@exact_relabel R f.scalar (.reshape shape) rfl _ _ _ h)
  case h_8 starts ends axes hk =>
    rw [hk] at h hinfer
    obtain ⟨i, ranges, hinfos, -, -⟩ := OpKind.infer_slice hinfer
    cases honly hinfos
    exact slice_copies hx hsized hinfer h
  case h_9 shape hk =>
    rw [hk] at h hinfer
    obtain ⟨i, hinfos, -⟩ := OpKind.infer_reduceToShape hinfer
    cases honly hinfos
    exact reduceToShape_copies hx h
  case h_10 => cases hpass

end Kernel

end TensorGraph
