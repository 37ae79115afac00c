import TensorGraph.Proofs.Graph.Extension
import TensorGraph.Proofs.Graph.WellFormed
import TensorGraph.Proofs.Kernel.Delivery

/-!
What data movement does is undone by the op that its gradient rule adds. Sources lead back if they find again, one by one,
the elements that other sources took; then picking by them gives back what was picked from, whatever the elements are and
however wide. Main statement: for a reshape, an order of axes, pads and a concatenation, the rule is successful and gives for
each operand the result of one op on the incoming gradient, and the kernel of that op gives back the operand, bit for bit,
from the result of the op.
-/
namespace TensorGraph

open TensorGraph.Graph Kernel Index

/-! ## Sources that lead back -/

namespace Kernel

/-- The sources `back` find, one by one, the `n` elements from number `base` on where `there` has put them. -/
structure LeadBack (there back : Sources) (base n : Nat) : Prop where
  length : back.length = n
  finds : ∀ j < n, ∃ i, back[j]? = some (some i) ∧ there[i]? = some (some (base + j))

theorem LeadBack.pick {α : Type} {x y : List α} {v w : α} {there back : Sources} {base n : Nat}
    (h : LeadBack there back base n) (hy : Storage.pick x v there = .ok y) :
    Storage.pick y w back = .ok ((x.drop base).take n) := by
  obtain ⟨hlen, hall⟩ := List.forall₂_iff_get.1 (Storage.pick_eq_ok.1 hy)
  have hfinds : ∀ j < n, ∃ i, back[j]? = some (some i) ∧ ∃ v, y[i]? = some v ∧ x[base + j]? = some v := by
    intro j hj
    obtain ⟨i, hback, hthere⟩ := h.finds j hj
    obtain ⟨hi, hthere⟩ := List.getElem?_eq_some_iff.1 hthere
    have hi' : i < y.length := hlen ▸ hi
    have hvalue := hall i hi hi'
    rw [List.get_eq_getElem, hthere] at hvalue
    exact ⟨i, hback, y[i], List.getElem?_eq_getElem hi', hvalue⟩
  have hcount : ((x.drop base).take n).length = n := by
    rw [List.length_take, List.length_drop]
    cases n with
    | zero => exact Nat.zero_min _
    | succ n =>
      obtain ⟨_, _, _, _, hlast⟩ := hfinds n (Nat.lt_succ_self n)
      have := (List.getElem?_eq_some_iff.1 hlast).1
      omega
  refine Storage.pick_eq_ok.2 (List.forall₂_iff_get.2 ⟨h.length.trans hcount.symm, fun j hj hj' => ?_⟩)
  obtain ⟨i, hback, u, hy, hx⟩ := hfinds j (hcount ▸ hj')
  rw [List.get_eq_getElem, (List.getElem?_eq_some_iff.1 hback).2, List.get_eq_getElem, List.getElem_take, List.getElem_drop,
    (List.getElem?_eq_some_iff.1 hx).2]
  exact hy

/-- Moves that undo each other on coordinates, the second of which brings every element. -/
theorem leadBack_carry {φ ψ : List Nat → Option (List Nat)} {source target : List Nat} (hφ : Leads φ target source)
    (hψ : Leads ψ source target)
    (h : ∀ c c', Within c target → Within c' source → (φ c = some c' ↔ ψ c' = some c))
    (hsome : ∀ c', (ψ c').isSome) : LeadBack ((List.range (volume target)).map (carry φ source target))
      ((List.range (volume source)).map (carry ψ target source)) 0 (volume source) := by
  refine ⟨by rw [List.length_map, List.length_range], fun j hj => ?_⟩
  obtain ⟨c, hc⟩ := Option.isSome_iff_exists.1 (hsome (coord source j))
  have hback : carry ψ target source j = some (flat c (strides target)) := by rw [carry, hc]; rfl
  have hlt := carry_lt hψ hj hback
  refine ⟨flat c (strides target), ?_, ?_⟩
  · rw [List.getElem?_map, List.getElem?_range hj, Option.map_some, hback]
  · rw [List.getElem?_map, List.getElem?_range hlt, Option.map_some, (carry_undo hφ hψ h hlt hj).2 hback, Nat.zero_add]

end Kernel

/-! ## Ops that give back an operand -/

namespace Backend

variable {kind back : OpKind} {inputs : List HostTensor} {x y : HostTensor} {out : TensorInfo} {k : Nat}

/-- An op makes `x` of the result of another op. -/
structure GivesBack (kind : OpKind) (inputs : List HostTensor) (out : TensorInfo) (x : HostTensor) (back : OpKind) : Prop where
  infers : back.infer [out] = .ok x.info
  runs : ∀ y, run kind inputs out = .ok y → run back [y] x.info = .ok x

theorem drop_flatten_take {α : Type} {parts : List (List α)} {part : List α} (h : parts[k]? = some part) :
    (parts.flatten.drop ((parts.take k).map List.length).sum).take part.length = part := by
  obtain ⟨hk, rfl⟩ := List.getElem?_eq_some_iff.1 h
  rw [List.map_take, List.drop_sum_flatten, List.drop_eq_getElem_cons hk, List.flatten_cons, List.take_left]

/-- The result of a move of all operands. -/
theorem run_move_ok {fill : Single} {l : Sources} (hne : inputs ≠ [])
    (hwidth : ∀ t ∈ inputs, t.data.kind = out.dtype.storage)
    (hplan : plan kind (inputs.map operand) out = .ok (.move (List.range inputs.length) fill (.ok l)))
    (hrun : run kind inputs out = .ok y) : y.info = out ∧ y.data.kind = out.dtype.storage ∧
      ∃ v, Storage.pick (inputs.map (·.data.cells)).flatten v l = .ok y.data.cells := by
  obtain ⟨-, p, hp, hy⟩ := run_eq_ok.1 hrun
  cases hplan.symm.trans hp
  obtain ⟨s, hs, hskind, hscells⟩ := pooled_total mapM_range_getElem? hne hwidth
  obtain ⟨s', hs', hy⟩ := Outcome.bind_eq_ok.1 hy
  cases hs.symm.trans hs'
  obtain ⟨l', hl', hy⟩ := Outcome.bind_eq_ok.1 hy
  cases hl'
  obtain ⟨data, hdata, hy⟩ := Outcome.bind_eq_ok.1 hy
  cases hy
  obtain ⟨hkind, hpick⟩ := Storage.take_eq_ok.1 hdata
  exact ⟨rfl, hkind.trans hskind, _, hscells ▸ hpick⟩

/-- Where the sources of an op lead back to those of another one, it gives back the operand. -/
theorem givesBack_of_move {fill fill' : Single} {l l' : Sources} (hvalid : ∀ t ∈ inputs, t.Checked)
    (hwidth : ∀ t ∈ inputs, t.info.dtype = out.dtype) (hx : inputs[k]? = some x)
    (hplan : plan kind (inputs.map operand) out = .ok (.move (List.range inputs.length) fill (.ok l)))
    (hinfer : back.infer [out] = .ok x.info)
    (hback : ∀ y : Operand Double, y.info = out → plan back [y] x.info = .ok (.move [0] fill' (.ok l')))
    (hlead : LeadBack l l' ((inputs.take k).map (·.data.length)).sum x.data.length) :
    GivesBack kind inputs out x back := by
  refine ⟨hinfer, fun y hrun => ?_⟩
  have hmem := List.mem_of_getElem? hx
  have hkinds : ∀ t ∈ inputs, t.data.kind = out.dtype.storage := fun t ht => hwidth t ht ▸ (hvalid t ht).kind
  obtain ⟨hinfo, hkind, v, hpick⟩ := run_move_ok (List.ne_nil_of_mem hmem) hkinds hplan hrun
  have hbase : ((inputs.take k).map (·.data.length)).sum =
      (((inputs.map (·.data.cells)).take k).map List.length).sum := by
    rw [← List.map_take, List.map_map]
    exact congrArg List.sum (List.map_congr_left fun t _ => (Storage.length_cells _).symm)
  have hpart : (inputs.map (·.data.cells))[k]? = some x.data.cells := by rw [List.getElem?_map, hx]; rfl
  rw [hbase, ← Storage.length_cells] at hlead
  have hcells := hlead.pick (w := .ofDouble y.data.kind (.ofSingle fill')) hpick
  rw [drop_flatten_take hpart] at hcells
  have htake : y.data.take (.ofSingle fill') l' = .ok x.data := Storage.take_eq_ok.2 ⟨(hkinds x hmem).trans hkind.symm, hcells⟩
  refine run_eq_ok.2 ⟨(hvalid x hmem).counted, _, hback (operand y) hinfo, ?_⟩
  exact Outcome.bind_eq_ok.2 ⟨y.data, rfl, Outcome.bind_eq_ok.2 ⟨l', rfl, Outcome.bind_eq_ok.2 ⟨x.data, htake, rfl⟩⟩⟩

theorem length_data (hx : x.Checked) : x.data.length = volume x.info.dims := Word.product_eq hx.counted

/-- Where two moves of one operand undo each other. -/
theorem givesBack_of_carry (fill fill' : Single) {φ ψ : List Nat → Option (List Nat)} (hx : x.Checked)
    (hdtype : x.info.dtype = out.dtype)
    (hplan : plan kind [operand x] out = .ok (.move [0] fill (.ok ((List.range (volume out.dims)).map
      (carry φ x.info.dims out.dims)))))
    (hinfer : back.infer [out] = .ok x.info)
    (hback : ∀ y : Operand Double, y.info = out → plan back [y] x.info = .ok (.move [0] fill' (.ok
      ((List.range (volume x.info.dims)).map (carry ψ out.dims x.info.dims)))))
    (hφ : Leads φ out.dims x.info.dims) (hψ : Leads ψ x.info.dims out.dims)
    (hundo : ∀ c c', Within c out.dims → Within c' x.info.dims → (φ c = some c' ↔ ψ c' = some c))
    (hsome : ∀ c, (ψ c).isSome) : GivesBack kind [x] out x back := by
  have hone : ∀ t ∈ [x], t.Checked := fun t ht => List.mem_singleton.1 ht ▸ hx
  have hwidth : ∀ t ∈ [x], t.info.dtype = out.dtype := fun t ht => List.mem_singleton.1 ht ▸ hdtype
  refine givesBack_of_move (k := 0) hone hwidth rfl hplan hinfer hback ?_
  rw [length_data hx]
  exact leadBack_carry hφ hψ hundo hsome

/-! ### Kind by kind -/

theorem givesBack_reshape {shape : Shape} (hx : x.Checked) (hsized : x.info.shape.Sized)
    (hinfer : (OpKind.reshape shape).infer [x.info] = .ok out) :
    GivesBack (.reshape shape) [x] out x (.reshape x.info.shape) := by
  obtain ⟨hout, hcount⟩ := infer_reshape_counted hinfer
  have hsame : out.withShape x.info.shape = x.info := by rw [hout]; rfl
  refine ⟨?_, fun y hrun => ?_⟩
  · have hnonneg : ¬ x.info.shape.any (· < 0) = true := by simpa [Shape.Sized] using hsized
    change (if x.info.shape.any (· < 0) = true then _ else _) = _
    rw [if_neg hnonneg, hsame, hcount, hx.counted]
    change (if x.data.length ≠ x.data.length then _ else _) = _
    rw [if_neg (not_not.2 rfl)]
    rfl
  · obtain ⟨-, p, hp, hy⟩ := run_eq_ok.1 hrun
    have hrelabel : ∀ {shape} {t : HostTensor} {i : TensorInfo}, i.counted = .ok t.data.length →
        plan (.reshape shape) [operand t] i = .ok .relabel := by
      intro shape t i hi
      rw [plan_relabel rfl, hi, operand, Storage.length_toDoubles]
      exact if_neg (not_not.2 rfl)
    cases (hrelabel (hcount.trans hx.counted)).symm.trans hp
    cases hy
    exact run_eq_ok.2 ⟨hx.counted, _, hrelabel hx.counted, rfl⟩

theorem givesBack_transpose {perm : List Int} (hx : x.Checked) (hinfer : (OpKind.transpose perm).infer [x.info] = .ok out)
    (hspans : Spans x.info.dims) (hspans' : Spans out.dims) :
    GivesBack (.transpose perm) [x] out x (.transpose (GradRule.inverse perm)) := by
  obtain ⟨x', s, hx', hs, rfl⟩ := OpKind.infer_transpose hinfer
  cases hx'
  obtain ⟨axes, horder, hperm, hdims⟩ := OpKind.order_of_transposedShape hs
  have hrank : x.info.dims.length = x.info.shape.length := Shape.length_dims _
  rw [← hrank] at horder hperm
  rw [dims_withShape] at hspans'
  have hback : x.info.dims = reorder (inverse axes) s.dims := by
    rw [hdims]
    exact (horder.reorder_reorder rfl).2.symm
  have hlen : s.dims.length = x.info.dims.length := by rw [hdims, reorder, List.length_map, horder.length]
  have horder' : Order (inverse axes) s.dims.length := hlen ▸ horder.inverse
  have hinverse : (GradRule.inverse perm).map (Shape.fromFront · s.dims.length) = (inverse axes).map Int.ofNat := by
    rw [OpKind.inverse_eq horder hperm, List.map_map]
    exact List.map_congr_left fun a _ => show Shape.fromFront (Int.ofNat a) _ = _ from if_neg (by simp)
  refine givesBack_of_carry .zero .zero (φ := putBack axes) (ψ := putBack (inverse axes)) hx rfl ?_ ?_ (fun y hy => ?_) ?_ ?_ (fun c c' => ?_) fun _ => rfl
  · have hsources : transposeSources perm x.info.dims (x.info.withShape s) = _ :=
      transposeSources_total horder hperm hdims hspans
    change (transposeSources perm x.info.dims (x.info.withShape s) >>= _) = _
    rw [hsources]
    rfl
  · rw [OpKind.infer, OpKind.operand1]
    change (OpKind.transposedShape s (GradRule.inverse perm) >>= _) = _
    rw [OpKind.transposedShape_undo hs]
    rfl
  · have hydims : y.dims = s.dims := by rw [Operand.dims, hy]; rfl
    have hsources : transposeSources (GradRule.inverse perm) s.dims x.info = _ :=
      transposeSources_total horder' hinverse hback hspans'
    change (transposeSources (GradRule.inverse perm) y.dims x.info >>= _) = _
    rw [hydims, hsources]
    rfl
  · rw [dims_withShape, hdims]
    exact leads_putBack horder
  · have hleads := leads_putBack horder'
    rwa [← hback] at hleads
  · rw [dims_withShape, hdims]
    exact putBack_inverse horder

/-- The window that an operand is put into is read by a slice. -/
theorem plan_window {starts ends axes : List Int} {ranges : List Shape.Range} {offsets : List Nat}
    (hranges : out.shape.sliceRanges starts ends axes = .ok ranges)
    (hoffsets : OpKind.sliceOffsets out.shape.length ranges = offsets) (hw : Window offsets x.info.dims out.dims)
    (hspans : Spans out.dims) {y : Operand Double} (hy : y.info = out) : plan (.slice starts ends axes) [y] x.info =
      .ok (.move [0] .zero (.ok ((List.range (volume x.info.dims)).map
        (carry (fun c => some (shift offsets c)) out.dims x.info.dims)))) := by
  subst hoffsets hy
  have hrank : y.dims.length = y.info.shape.length := Shape.length_dims _
  rw [← hrank] at hw
  have hsources := sliceSources_total hranges hw hspans
  change (sliceSources y.info.shape starts ends axes x.info >>= _) = _
  rw [hsources, hrank]
  rfl

theorem givesBack_pad {pads ends : List Int} {value : Single} (hx : x.Checked) (hsized : x.info.shape.Sized)
    (hinfer : (OpKind.pad pads value).infer [x.info] = .ok out)
    (hends : (List.zipWith (· + ·) (pads.take x.info.shape.length) x.info.shape).mapM Word.int = .ok ends)
    (hspans : Spans x.info.dims) (hspans' : Spans out.dims) : GivesBack (.pad pads value) [x] out x
      (.slice (pads.take x.info.shape.length) ends ((List.range x.info.shape.length).map Int.ofNat)) := by
  obtain ⟨x', s, hx', hs, rfl⟩ := OpKind.infer_pad hinfer
  cases hx'
  obtain ⟨ranges, hranges⟩ := OpKind.sliceRanges_between hsized hs hends
  have hw : Window ((pads.take x.info.shape.length).map Int.toNat) x.info.dims s.dims := OpKind.window_paddedShape hsized hs
  have hplan : plan (.pad pads value) [operand x] (x.info.withShape s) = .ok (.move [0] value (.ok
      ((List.range (volume s.dims)).map (carry (unshift ((pads.take x.info.shape.length).map Int.toNat) x.info.dims)
        x.info.dims s.dims)))) := by
    have hrank : (operand x).dims.length = x.info.shape.length := Shape.length_dims _
    have hsources : padSources pads (operand x).dims (x.info.withShape s) = _ :=
      padSources_total (x := operand x) hsized hs rfl hspans
    rw [hrank] at hsources
    change (padSources pads (operand x).dims (x.info.withShape s) >>= _) = _
    rw [hsources]
    rfl
  have hback : (OpKind.slice (pads.take x.info.shape.length) ends ((List.range x.info.shape.length).map Int.ofNat)).infer
      [x.info.withShape s] = .ok x.info := by
    have hshape : OpKind.slicedShape (x.info.withShape s).shape ranges = x.info.shape :=
      OpKind.slicedShape_between hsized hs hends hranges
    rw [OpKind.infer_slice_total (x := x.info.withShape s) hranges, hshape]
    rfl
  have hundo : ∀ c c', Within c s.dims → Within c' x.info.dims →
      (unshift ((pads.take x.info.shape.length).map Int.toNat) x.info.dims c = some c' ↔
        some (shift ((pads.take x.info.shape.length).map Int.toNat) c') = some c) := fun c c' hc hc' => by
    rw [unshift_eq_some hw hc hc', Option.some.injEq]
  exact givesBack_of_carry value .zero hx rfl hplan hback (fun y hy => @plan_window x (x.info.withShape s) _ _ _ _ _ hranges
    (OpKind.sliceOffsets_between hsized hs hends hranges) hw hspans' y hy) (leads_unshift hw) (leads_shift hw) hundo
    fun _ => rfl

/-- Elements of a concatenation are found again where their operand starts. -/
theorem leadBack_concat {R : Type} [Scalar R] {xs : List (Operand R)} {x : Operand R} {a : Nat} {l : Sources}
    (hp : Piled a out.dims xs) (hl : concatSources a xs out = .ok l) (hx : xs[k]? = some x) :
    LeadBack l ((List.range (volume x.dims)).map
      (carry (fun c => some (shift (along out.dims.length a (startOf a k xs)) c)) out.dims x.dims))
      ((xs.take k).map (·.values.length)).sum (volume x.dims) := by
  have hmem := List.mem_of_getElem? hx
  have hdims := hp.shapes x hmem
  have hw := hp.window hx
  obtain ⟨hcount, hsource⟩ := concatSources_ok hl
  refine ⟨by rw [List.length_map, List.length_range], fun j hj => ?_⟩
  have hc' := within_coord hj
  have hc := within_shift hw hc'
  have hi := flat_lt hc
  -- the coordinate in the whole, and the one in the operand that it comes from
  have hunshift := @unshift_along (extent a x) (startOf a k xs) _ _ a hp.axis hc
  rw [← hdims, (unshift_eq_some hw hc hc').2 rfl] at hunshift
  split at hunshift
  · rename_i hin
    obtain ⟨hlow, hhigh⟩ := hin
    have hset := (Option.some.inj hunshift).symm
    have hentry := hsource _ hi
    rw [coord_flat hc, ← Nat.add_sub_of_le hlow] at hentry
    have hat := concatSource_at hp.axis hp.shapes hx hhigh hentry
    rw [hset, flat_coord x.dims hj, Nat.zero_add] at hat
    refine ⟨_, by rw [List.getElem?_map, List.getElem?_range hj]; rfl, ?_⟩
    have hi' := hcount.symm ▸ hi
    rw [List.getD_eq_getElem _ _ hi'] at hat
    rw [List.getElem?_eq_getElem hi', hat]
  · cases hunshift

theorem givesBack_concat {axis : Int} {a : Nat} (hvalid : ∀ t ∈ inputs, t.Checked)
    (hwidth : ∀ t ∈ inputs, t.info.dtype = out.dtype) (hp : Piled a out.dims (inputs.map operand))
    (haxis : ∀ t ∈ inputs, Index.axis axis t.info.rank = .ok a) (hlies : OpKind.Lies out a x.info (extent a (operand x)))
    (htotal : out.shape[a]? = some (((inputs.map operand).map (extent a)).sum : Int)) (hx : inputs[k]? = some x)
    (hspans : ∀ t ∈ inputs, Spans t.info.dims) (hspans' : Spans out.dims) : GivesBack (.concat axis) inputs out x
      (.slice [(startOf a k (inputs.map operand) : Int)]
        [(startOf a k (inputs.map operand) + extent a (operand x) : Nat)] [Int.ofNat a]) := by
  have hmem := List.mem_of_getElem? hx
  have hx' : (inputs.map operand)[k]? = some (operand x) := by rw [List.getElem?_map, hx]; rfl
  obtain ⟨l, hl, -, -⟩ := concatSources_total hp (fun t ht => by
    obtain ⟨u, hu, rfl⟩ := List.mem_map.1 ht
    exact hspans u hu) hspans'.volume_lt
  have hplan : plan (.concat axis) (inputs.map operand) out = .ok (.move (List.range inputs.length) .zero (.ok l)) := by
    obtain ⟨first, rest, rfl⟩ := List.exists_cons_of_ne_nil (List.ne_nil_of_mem hmem)
    change (Index.axis axis first.info.rank >>= _) = _
    rw [haxis first (by simp), ← hl, ← List.length_map (f := operand)]
    rfl
  have hle := startOf_add_le (a := a) hx'
  have hranges := OpKind.sliceRanges_part htotal (Nat.le_add_right (startOf a k (inputs.map operand)) (extent a (operand x)))
    (by omega)
  have hinfer : (OpKind.slice [(startOf a k (inputs.map operand) : Int)]
      [(startOf a k (inputs.map operand) + extent a (operand x) : Nat)] [Int.ofNat a]).infer [out] = .ok x.info := by
    rw [OpKind.infer_slice_total hranges, OpKind.slicedShape_part hlies, TensorInfo.withShape, ← hwidth x hmem]
  refine givesBack_of_move hvalid hwidth hx hplan hinfer (fun y hy => @plan_window x out _ _ _ _ _ hranges ?_ (hp.window hx')
    hspans' y hy) ?_
  · rw [← Shape.length_dims]
    rfl
  · have hlead := leadBack_concat hp hl hx'
    have hbase : (((inputs.map operand).take k).map (·.values.length)).sum = ((inputs.take k).map (·.data.length)).sum := by
      rw [← List.map_take, List.map_map]
      exact congrArg List.sum (List.map_congr_left fun t _ => Storage.length_toDoubles t.data)
    rw [hbase] at hlead
    rw [length_data (hvalid x hmem)]
    exact hlead

end Backend

/-! ## Calls of rules -/

namespace GradCall

/-- A rule is called on a graph in order, where the operands of the op have the infos `is` and the incoming gradient has the
info `out`. -/
structure Stands (c : GradCall) (is : List TensorInfo) (out : TensorInfo) (g : Graph) : Prop where
  linked : g.Linked
  numbered : g.Numbered
  output : ∃ t, c.op.output = .ok t
  inputs : List.Forall₂ (fun t i => g.info? t = some i) c.op.inputs is
  incoming : g.info? c.incoming = some out

/-- A call is successful. It only adds to the graph, and gives a result of which `Q` holds. -/
def Builds (c : GradCall) (is : List TensorInfo) (out : TensorInfo) {α : Type} (x : GradM α) (Q : α → Graph → Prop) : Prop :=
  ∀ s, c.Stands is out s.graph →
    ∃ a s', x.run s = (.ok a, s') ∧ c.Stands is out s'.graph ∧ s.graph.PartOf s'.graph ∧ Q a s'.graph

/-- The gradients for the operands from number `i` to `n`: where one is needed, it is what the op `back` makes of the
incoming one. -/
def GivenBy (c : GradCall) (back : Nat → OpKind) (n i : Nat) (gradients : List (Option TensorId)) (g : Graph) : Prop :=
  ∀ j, i + j < n → c.isNeeded (i + j) = true →
    ∃ t, gradients[j]? = some (some t) ∧ g.Made (back (i + j)) [c.incoming] t

variable {c : GradCall} {is : List TensorInfo} {i out info : TensorInfo} {g g' : Graph} {back : Nat → OpKind} {k n : Nat}

theorem Stands.partOf (h : c.Stands is out g) (hpart : g.PartOf g') (hl : g'.Linked) (hn : g'.Numbered) :
    c.Stands is out g' :=
  ⟨hl, hn, h.output, h.inputs.imp fun _ _ => hpart.info, hpart.info h.incoming⟩

theorem Stands.info_input (h : c.Stands is out g) (hi : is[k]? = some i) : ∃ t, c.op.input k = .ok t ∧ g.info t = .ok i := by
  obtain ⟨hk, rfl⟩ := List.getElem?_eq_some_iff.1 hi
  have hk' : k < c.op.inputs.length := h.inputs.length_eq ▸ hk
  exact ⟨_, Outcome.promised_eq_ok.2 (List.getElem?_eq_getElem hk'),
    Outcome.orFail_eq_ok.2 ((List.forall₂_iff_get.1 h.inputs).2 k hk' hk)⟩

theorem GivenBy.cons {gradient : Option TensorId} {gradients : List (Option TensorId)}
    (h : k < n → c.isNeeded k = true → ∃ t, gradient = some t ∧ g.Made (back k) [c.incoming] t)
    (hs : GivenBy c back n (k + 1) gradients g) : GivenBy c back n k (gradient :: gradients) g := by
  intro j hj hneeded
  cases j with
  | zero =>
    obtain ⟨t, rfl, ht⟩ := h hj hneeded
    exact ⟨t, rfl, ht⟩
  | succ j =>
    rw [← Nat.add_assoc, Nat.add_right_comm] at hj hneeded ⊢
    exact hs j hj hneeded

theorem GivenBy.nil (h : n ≤ k) : GivenBy c back n k [] g := fun j hj => by omega

namespace Builds

variable {α β : Type} {Q : α → Graph → Prop} {Q' : β → Graph → Prop}

protected theorem pure {a : α} (h : ∀ g, Q a g) : c.Builds is out (pure a) Q := fun s hs =>
  ⟨a, s, rfl, hs, .refl _, h s.graph⟩

/-- What does not touch the graph. -/
theorem know {o : Outcome α} {a : α} {f : α → GradM β} (ho : o = .ok a) (hf : c.Builds is out (f a) Q') :
    c.Builds is out (liftM o >>= f) Q' := by
  intro s hs
  obtain ⟨b, s', hrun, hb⟩ := hf s hs
  exact ⟨b, s', Stateful.run_bind_ok.2 ⟨a, s, by rw [Stateful.run_liftM, ho], hrun⟩, hb⟩

theorem askShape {f : Shape → GradM β} (hi : is[k]? = some i) (hf : c.Builds is out (f i.shape) Q') :
    c.Builds is out (c.shape k >>= f) Q' := by
  intro s hs
  obtain ⟨t, ht, hinfo⟩ := hs.info_input hi
  have hshape : (c.shape k).run s = (.ok i.shape, s) :=
    Stateful.run_bind_ok.2 ⟨s, s, rfl, Stateful.run_bind_ok.2 ⟨t, s, by rw [Stateful.run_liftM, ht],
      Stateful.run_bind_ok.2 ⟨i, s, by rw [Stateful.run_liftM, hinfo], rfl⟩⟩⟩
  obtain ⟨b, s', hrun, hb⟩ := hf s hs
  exact ⟨b, s', Stateful.run_bind_ok.2 ⟨_, s, hshape, hrun⟩, hb⟩

/-- A rule may rely on what is known of the graph it is called with. -/
theorem assume {x : GradM α} (h : ∀ g, c.Stands is out g → c.Builds is out x Q) : c.Builds is out x Q :=
  fun s hs => h s.graph hs s hs

/-- The gradient for an operand by an op on the incoming one. -/
theorem operand {kind : OpKind} (hinfer : kind.infer [out] = .ok info) :
    c.Builds is out (c.operand k (c.emit kind [c.incoming])) fun gradient g =>
      c.isNeeded k = true → ∃ t, gradient = some t ∧ g.Made kind [c.incoming] t := by
  intro s hs
  by_cases hneeded : c.isNeeded k = true
  · obtain ⟨base, hbase⟩ := hs.output
    have hknown : [c.incoming].mapM s.graph.info = .ok [out] :=
      Outcome.mapM_eq_ok.2 (.cons (Outcome.orFail_eq_ok.2 hs.incoming) .nil)
    obtain ⟨t, s', hrun⟩ := GradM.addFresh_total c.op base hknown hinfer
    obtain ⟨hfresh, -, info', ha⟩ := GradM.addFresh_ok hs.linked hs.numbered hrun
    have hpart := ha.partOf hs.numbered hfresh
    have hemit : (c.emit kind [c.incoming]).run s = (.ok t, s') :=
      Stateful.run_bind_ok.2 ⟨base, s, by rw [Stateful.run_liftM, hbase], hrun⟩
    refine ⟨some t, s', ?_, hs.partOf hpart ha.linked (ha.numbered hs.numbered), hpart, fun _ => ⟨t, rfl, .of_added ha hpart⟩⟩
    rw [GradCall.operand, if_pos hneeded]
    exact Stateful.run_bind_ok.2 ⟨t, s', hemit, rfl⟩
  · refine ⟨none, s, ?_, hs, .refl _, fun h => absurd h hneeded⟩
    rw [GradCall.operand, if_neg hneeded]
    rfl

/-- Gradients one after the other: what the first call adds stays. -/
theorem cons {kind : OpKind} {rest : GradM (List (Option TensorId))} (hinfer : kind.infer [out] = .ok info)
    (hkind : back k = kind) (hrest : c.Builds is out rest (GivenBy c back n (k + 1))) :
    c.Builds is out (c.operand k (c.emit kind [c.incoming]) >>= fun a => rest >>= fun l => pure (a :: l))
      (GivenBy c back n k) := by
  subst hkind
  intro s hs
  obtain ⟨a, s₁, hrun₁, hs₁, hpart₁, ha⟩ := operand (k := k) hinfer s hs
  obtain ⟨l, s₂, hrun₂, hs₂, hpart₂, hl⟩ := hrest s₁ hs₁
  refine ⟨a :: l, s₂, Stateful.run_bind_ok.2 ⟨a, s₁, hrun₁, Stateful.run_bind_ok.2 ⟨l, s₂, hrun₂, rfl⟩⟩, hs₂,
    hpart₁.trans hpart₂, .cons (fun _ hneeded => ?_) hl⟩
  obtain ⟨t, rfl, ht⟩ := ha hneeded
  exact ⟨t, rfl, ht.partOf hpart₂⟩

/-- The gradient for the only operand. -/
theorem only {kind : OpKind} (hinfer : kind.infer [out] = .ok info) :
    c.Builds is out (c.only kind [c.incoming]) (GivenBy c (fun _ => kind) 1 0) := by
  have h : c.Builds is out (c.operand 0 (c.emit kind [c.incoming]) >>= fun a => pure [] >>= fun l => pure (a :: l))
      (GivenBy c (fun _ => kind) 1 0) := cons hinfer rfl (.pure fun g => .nil (Nat.le_refl 1))
  simp only [pure_bind] at h
  exact h

end Builds

end GradCall

/-! ## Data movement -/

/-- The kinds that move elements as they are told, and leave none of them out. -/
def OpKind.moves : OpKind → Bool
  | reshape _ | transpose _ | pad _ _ | concat _ => true
  | _ => false

namespace GradRule

open Backend

/-- A rule is successful on graphs in order. Where the gradient for an operand is needed, it is what one op makes of the
incoming one, and that op makes the operand of the result of the op. -/
def Restores (rule : GradRule) (kind : OpKind) (inputs : List HostTensor) (out : TensorInfo) : Prop :=
  ∀ (c : GradCall) (s : Synthesis), c.Stands (inputs.map (·.info)) out s.graph →
    ∃ gradients s', (rule c).run s = (.ok gradients, s') ∧ s.graph.PartOf s'.graph ∧
      ∀ k x, inputs[k]? = some x → c.isNeeded k = true → ∃ t back, gradients[k]? = some (some t) ∧
        s'.graph.Made back [c.incoming] t ∧ GivesBack kind inputs out x back

variable {rule : GradRule} {kind : OpKind} {inputs : List HostTensor} {x : HostTensor} {out : TensorInfo}

theorem restores_of_builds {back : Nat → OpKind}
    (hbuilds : ∀ c : GradCall, c.Builds (inputs.map (·.info)) out (rule c) (c.GivenBy back inputs.length 0))
    (hback : ∀ k x, inputs[k]? = some x → GivesBack kind inputs out x (back k)) : rule.Restores kind inputs out := by
  intro c s hc
  obtain ⟨gradients, s', hrun, -, hpart, hgiven⟩ := hbuilds c s hc
  refine ⟨gradients, s', hrun, hpart, fun k x hx hneeded => ?_⟩
  rw [← Nat.zero_add k] at hneeded
  obtain ⟨t, ht, hmade⟩ := hgiven k (by rw [Nat.zero_add]; exact (List.getElem?_eq_some_iff.1 hx).1) hneeded
  rw [Nat.zero_add] at hmade
  exact ⟨t, back k, ht, hmade, hback k x hx⟩

/-- A rule that adds one op for the only operand. -/
theorem restores_only {back : OpKind}
    (hbuilds : ∀ c : GradCall, c.Builds [x.info] out (rule c) (c.GivenBy (fun _ => back) 1 0))
    (hback : GivesBack kind [x] out x back) : rule.Restores kind [x] out := by
  refine restores_of_builds hbuilds fun k x' hx' => ?_
  cases k with
  | zero =>
    cases hx'
    exact hback
  | succ k => cases hx'

theorem restores_reshape {shape : Shape} (hx : x.Checked) (hsized : x.info.shape.Sized)
    (hinfer : (OpKind.reshape shape).infer [x.info] = .ok out) : reshape.Restores (.reshape shape) [x] out := by
  have hback := givesBack_reshape hx hsized hinfer
  exact restores_only (fun c => .askShape (i := x.info) rfl (.only hback.infers)) hback

theorem restores_transpose {perm : List Int} (hx : x.Checked) (hinfer : (OpKind.transpose perm).infer [x.info] = .ok out)
    (hspans : Spans x.info.dims) (hspans' : Spans out.dims) : (transpose perm).Restores (.transpose perm) [x] out := by
  have hback := givesBack_transpose hx hinfer hspans hspans'
  exact restores_only (fun c => .only hback.infers) hback

theorem restores_pad {pads : List Int} {value : Single} (hx : x.Checked) (hsized : x.info.shape.Sized)
    (hinfer : (OpKind.pad pads value).infer [x.info] = .ok out) (hspans : Spans x.info.dims) (hspans' : Spans out.dims) :
    (pad pads).Restores (.pad pads value) [x] out := by
  obtain ⟨x', s, hx', hs, -⟩ := OpKind.infer_pad hinfer
  cases hx'
  obtain ⟨ends, hends⟩ := OpKind.paddedEnds_total hsized hs
  have hback := givesBack_pad hx hsized hinfer hends hspans hspans'
  refine restores_only (fun c => ?_) hback
  have hcut : c.Builds [x.info] out (do
      let starts := pads.take x.info.shape.length
      let ends ← Stateful.lift ((List.zipWith (· + ·) starts x.info.shape).mapM Word.int)
      c.only (.slice starts ends ((List.range x.info.shape.length).map Int.ofNat)) [c.incoming])
      (c.GivenBy (fun _ => .slice (pads.take x.info.shape.length) ends ((List.range x.info.shape.length).map Int.ofNat)) 1 0) :=
    .know hends (.only hback.infers)
  have hlong : ¬ pads.length < x.info.shape.length := by
    have hcount : pads.length = 2 * x.info.shape.length := (OpKind.paddedShape_ok hs).1
    omega
  refine .askShape (i := x.info) rfl ?_
  simp only [hlong, if_false]
  exact hcut

theorem restores_concat {axis : Int} (hvalid : ∀ t ∈ inputs, t.Checked) (hsized : ∀ t ∈ inputs, t.info.shape.Sized)
    (hinfer : (OpKind.concat axis).infer (inputs.map (·.info)) = .ok out)
    (hrank : ∀ i ∈ (inputs.map (·.info)).head?, i.shape ≠ []) (hspans : ∀ t ∈ inputs, Spans t.info.dims)
    (hspans' : Spans out.dims) (hword : ∀ d ∈ out.shape, d < Word.half) :
    (concat axis).Restores (.concat axis) inputs out := by
  have hf := forward_of_checked hvalid hsized hinfer
  obtain ⟨hne, hparts⟩ := infer_concat_parts hinfer hrank
  have hpart : ∀ t ∈ inputs, t.info.dtype = out.dtype ∧ t.info.shape ≠ [] := fun t ht => hparts _ (List.mem_map_of_mem ht)
  obtain ⟨a, hp, hlies, htotal⟩ := hf.piled fun x hx => by
    obtain ⟨t, ht, rfl⟩ := List.mem_map.1 hx
    exact (hpart t ht).2
  have hlies' : ∀ t ∈ inputs, Index.axis axis t.info.rank = .ok a ∧ t.info.shape.axis axis = .ok a ∧
      OpKind.Lies out a t.info (extent a (operand t)) := fun t ht => hlies (operand t) (List.mem_map_of_mem ht)
  have hback : ∀ k x, inputs[k]? = some x → GivesBack (.concat axis) inputs out x (.slice
      [(startOf a k (inputs.map operand) : Int)] [(startOf a (k + 1) (inputs.map operand) : Int)] [Int.ofNat a]) := by
    intro k x hx
    have hx' : (inputs.map operand)[k]? = some (operand x) := by rw [List.getElem?_map, hx]; rfl
    rw [startOf_succ hx']
    exact givesBack_concat hvalid (fun t ht => (hpart t ht).1) hp (fun t ht => (hlies' t ht).1)
      (hlies' x (List.mem_of_getElem? hx)).2.2 htotal hx hspans hspans'
  refine restores_of_builds (fun c => ?_) hback
  -- by induction on the number of operands that are left: the offset is where the next one starts
  have hfrom : ∀ count k, k + count = inputs.length → c.Builds (inputs.map (·.info)) out
      (concatFrom c a count k (startOf a k (inputs.map operand))) (c.GivenBy (fun k => .slice
        [(startOf a k (inputs.map operand) : Int)] [(startOf a (k + 1) (inputs.map operand) : Int)] [Int.ofNat a])
          inputs.length k) := by
    intro count
    induction count with
    | zero => exact fun k hk => .pure fun g => .nil (by omega)
    | succ count ih =>
      intro k hk
      have hx : inputs[k]? = some inputs[k] := List.getElem?_eq_getElem (by omega)
      have hx' : (inputs.map operand)[k]? = some (operand inputs[k]) := by rw [List.getElem?_map, hx]; rfl
      have hi : (inputs.map (·.info))[k]? = some inputs[k].info := by rw [List.getElem?_map, hx]; rfl
      have hextent := (hlies' _ (List.mem_of_getElem? hx)).2.2.extent
      have hstop : Word.int ((startOf a k (inputs.map operand) : Int) + (extent a (operand inputs[k]) : Nat)) =
          .ok (startOf a (k + 1) (inputs.map operand) : Int) := by
        have hle := startOf_add_le (a := a) hx'
        have hlt := hword _ (List.mem_of_getElem? htotal)
        rw [startOf_succ hx']
        exact Word.int_eq_ok_iff.2 ⟨by omega, by push_cast; rfl⟩
      exact .askShape hi (.know (Outcome.promised_eq_ok.2 hextent) (.know hstop
        (.cons (hback k _ hx).infers rfl (ih (k + 1) (by omega)))))
  obtain ⟨first, rest, rfl⟩ := List.exists_cons_of_ne_nil fun hnil : inputs = [] => hne (by rw [hnil]; rfl)
  refine .askShape (i := first.info) (k := 0) rfl (.know (hlies' first (by simp)).2.1 (.assume fun g hc => ?_))
  rw [hc.inputs.length_eq, List.length_map]
  exact hfrom _ 0 (Nat.zero_add _)

/-- The rules for kinds that move elements give back what was moved. -/
theorem restores_moves (hkind : kind.moves = true) (hvalid : ∀ t ∈ inputs, t.Checked)
    (hsized : ∀ t ∈ inputs, t.info.shape.Sized) (hinfer : kind.infer (inputs.map (·.info)) = .ok out)
    (haxis : kind.HasAxis (inputs.map (·.info))) (hm : kind.counts = true → kind.Measured (inputs.map (·.info)) out)
    (hword : ∀ d ∈ out.shape, d < Word.half) : ∃ rule, ofKind? kind = some rule ∧ rule.Restores kind inputs out := by
  have hspans : kind.counts = true → (∀ t ∈ inputs, Spans t.info.dims) ∧ Spans out.dims := fun h =>
    ⟨fun t ht => (hm h).operands _ (List.mem_map_of_mem ht), (hm h).result⟩
  -- all kinds but concatenation have one operand
  have hone : ∀ {i : TensorInfo}, inputs.map (·.info) = [i] → ∃ x, inputs = [x] ∧ x.info = i := fun h => by
    obtain ⟨x, rest, rfl, hi, hrest⟩ := List.map_eq_cons_iff.1 h
    exact ⟨x, by rw [List.map_eq_nil_iff.1 hrest], hi⟩
  cases kind with
  | reshape shape =>
    obtain ⟨-, i, hi, -⟩ := OpKind.infer_reshape hinfer
    obtain ⟨x, rfl, rfl⟩ := hone hi
    exact ⟨_, rfl, restores_reshape (hvalid x (by simp)) (hsized x (by simp)) hinfer⟩
  | transpose perm =>
    obtain ⟨i, -, hi, -, -⟩ := OpKind.infer_transpose hinfer
    obtain ⟨x, rfl, rfl⟩ := hone hi
    exact ⟨_, rfl, restores_transpose (hvalid x (by simp)) hinfer ((hspans rfl).1 x (by simp)) (hspans rfl).2⟩
  | pad pads value =>
    obtain ⟨i, -, hi, -, -⟩ := OpKind.infer_pad hinfer
    obtain ⟨x, rfl, rfl⟩ := hone hi
    exact ⟨_, rfl, restores_pad (hvalid x (by simp)) (hsized x (by simp)) hinfer ((hspans rfl).1 x (by simp))
      (hspans rfl).2⟩
  | concat axis =>
    exact ⟨_, rfl, restores_concat hvalid hsized hinfer haxis (hspans rfl).1 (hspans rfl).2 hword⟩
  | _ => cases hkind

/-- Data movement is undone, bit for bit, by the ops that the rule for it adds. A valid call of a reshape, an order of axes,
pads or a concatenation gives a result. On any graph in order where the op has operands like these, the rule is successful;
where the gradient for an operand is needed, it is the result of one op on the incoming gradient, and on the result of the
forward op the kernel of that op gives exactly the operand. -/
theorem movement_undone (name : String) {c : GradCall} {s : Synthesis} (hkind : c.op.kind.moves = true)
    (hvalid : ∀ t ∈ inputs, t.Checked) (hsized : ∀ t ∈ inputs, t.info.shape.Sized)
    (hinfer : c.op.kind.infer (inputs.map (·.info)) = .ok out) (haxis : c.op.kind.HasAxis (inputs.map (·.info)))
    (hm : c.op.kind.counts = true → c.op.kind.Measured (inputs.map (·.info)) out) (hword : ∀ d ∈ out.shape, d < Word.half)
    (hc : c.Stands (inputs.map (·.info)) out s.graph) : ∃ rule y gradients s', ofKind? c.op.kind = some rule ∧
      (reference name).execute c.op.kind inputs [out] = .ok [y] ∧ (rule c).run s = (.ok gradients, s') ∧
      ∀ k x, inputs[k]? = some x → c.isNeeded k = true → ∃ t back, gradients[k]? = some (some t) ∧
        s'.graph.Made back [c.incoming] t ∧ back.infer [out] = .ok x.info ∧
        (reference name).execute back [y] [x.info] = .ok [x] := by
  obtain ⟨rule, hrule, hrestores⟩ := restores_moves hkind hvalid hsized hinfer haxis hm hword
  obtain ⟨gradients, s', hrun, -, hgradients⟩ := hrestores c s hc
  have hexecute : ∀ kind xs info y, run kind xs info = .ok y → (reference name).execute kind xs [info] = .ok [y] := by
    intro kind xs info y hy
    change (do return [← run kind xs info] : Outcome (List HostTensor)) = _
    rw [hy]
    rfl
  have hmodels : c.op.kind.inModels = true := by
    generalize c.op.kind = kind at hkind
    cases kind <;> first | rfl | cases hkind
  rcases run_cases hmodels hvalid hsized hinfer haxis hm with ⟨y, hy, -⟩ | ⟨e, -, hrefuses⟩
  · refine ⟨rule, y, gradients, s', hrule, hexecute _ _ _ _ hy, hrun, fun k x hx hneeded => ?_⟩
    obtain ⟨t, back, ht, hmade, hback⟩ := hgradients k x hx hneeded
    exact ⟨t, back, ht, hmade, hback.infers, hexecute _ _ _ _ (hback.runs y hy)⟩
  · generalize c.op.kind = kind at hkind hrefuses
    cases hrefuses <;> cases hkind

/-! ## Two columns -/

namespace Columns

/-- Columns one beside the other, and the gradient for the whole. -/
def graph : Graph :=
  ([.addTensor "l" ⟨.int32, [2, 1]⟩ .stream none, .addTensor "r" ⟨.int32, [2, 1]⟩ .stream none,
    .addOp (.concat (-1)) ["l", "r"] ["y"] .forward, .addTensor "dy" ⟨.int32, [2, 2]⟩ .stream none] : List Graph.Edit).foldl
      (fun g e => (e.call.run g).2) .empty

theorem wellFormed : graph.WellFormed := by
  have h : Edited Graph.empty graph := .call _ (.call _ (.call _ (.call _ .start trivial) trivial) trivial) trivial
  exact (h.sound .empty).wellFormed

def left : HostTensor := ⟨⟨.int32, [2, 1]⟩, .i32 [7, 8]⟩

def right : HostTensor := ⟨⟨.int32, [2, 1]⟩, .i32 [-1, 5]⟩

/-- The call of the rule for both columns. -/
def call : GradCall where
  op := { id := 0, kind := .concat (-1), name := "y", inputs := ["l", "r"], outputs := ["y"], phase := .forward }
  needs := [true, true]
  incoming := "dy"

theorem stands : call.Stands [left.info, right.info] ⟨.int32, [2, 2]⟩ graph where
  linked := wellFormed.linked
  numbered _ _ := wellFormed.opBound
  output := ⟨"y", rfl⟩
  inputs := .cons rfl (.cons rfl .nil)
  incoming := rfl

end Columns

/-- Both columns are cut out of the whole again. -/
theorem movement_undone_columns : ∃ rule y gradients s', ofKind? (.concat (-1)) = some rule ∧
    (reference "cpu").execute (.concat (-1)) [Columns.left, Columns.right] [⟨.int32, [2, 2]⟩] = .ok [y] ∧
    (rule Columns.call).run { graph := Columns.graph } = (.ok gradients, s') ∧
    ∀ k x, [Columns.left, Columns.right][k]? = some x → Columns.call.isNeeded k = true →
      ∃ t back, gradients[k]? = some (some t) ∧ s'.graph.Made back ["dy"] t ∧
        back.infer [⟨.int32, [2, 2]⟩] = .ok x.info ∧ (reference "cpu").execute back [y] [x.info] = .ok [x] := by
  have hvalid : ∀ t ∈ [Columns.left, Columns.right], t.Checked := by
    intro t ht
    rcases List.mem_pair.1 ht with rfl | rfl <;> rfl
  have hsized : ∀ t ∈ [Columns.left, Columns.right], t.info.shape.Sized := by
    intro t ht
    rcases List.mem_pair.1 ht with rfl | rfl <;> simp [Shape.Sized, Columns.left, Columns.right]
  have hmeasured : (OpKind.concat (-1)).counts = true →
      (OpKind.concat (-1)).Measured [Columns.left.info, Columns.right.info] ⟨.int32, [2, 2]⟩ := fun _ => by
    refine ⟨fun i hi => ?_, Roomy.spans (by decide), by decide⟩
    rcases List.mem_pair.1 hi with rfl | rfl <;> exact Roomy.spans (by decide)
  have haxis : (OpKind.concat (-1)).HasAxis [Columns.left.info, Columns.right.info] := by
    intro i hi
    cases hi
    exact List.cons_ne_nil _ _
  have hword : ∀ d ∈ TensorInfo.shape ⟨.int32, [2, 2]⟩, d < Word.half := by decide
  exact movement_undone "cpu" (c := Columns.call) (s := { graph := Columns.graph }) rfl hvalid hsized rfl haxis hmeasured
    hword Columns.stands

/-- Another order of axes that is accepted can abort: the tensor has no element, but its strides cannot be counted. -/
theorem transpose_vast : vastTarget.Checked ∧ vastTarget.info.shape.Sized ∧
    (OpKind.transpose [0, 1, 2]).infer [vastTarget.info] = .ok vastTarget.info ∧
    (reference "cpu").execute (.transpose [0, 1, 2]) [vastTarget] [vastTarget.info] = .error .abort :=
  ⟨rfl, (by decide : ∀ d ∈ vastTarget.info.shape, (0 : Int) ≤ d), rfl, rfl⟩

end GradRule

end TensorGraph
