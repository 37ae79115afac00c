import TensorGraph.Proofs.Kernel.Adjoint
import TensorGraph.Proofs.Kernel.Lookup

/-!
Gathering, and its gradient. Both name the same positions: elements are taken from them on the way forward, and the
gradient is added up there on the way back. A position that is named several times gets as many contributions.
-/
namespace TensorGraph

namespace Index

/-! ## Positions in lanes -/

variable {dims : List Nat} {a : Nat} {l : Lanes}

theorem split_axis (ha : a < dims.length) : dims = dims.take a ++ dims.getD a 0 :: dims.drop (a + 1) := by
  rw [List.getD_eq_getElem _ _ ha, ← List.drop_eq_getElem_cons ha, List.take_append_drop]

namespace Lanes

/-- The lanes of an axis, by their numbers of positions. -/
theorem ofAxis_ok (h : ofAxis dims a = .ok l) :
    a < dims.length ∧ l = ⟨volume (dims.take a), dims.getD a 0, volume (dims.drop (a + 1))⟩ := by
  obtain ⟨outer, houter, h⟩ := Outcome.bind_eq_ok.1 h
  obtain ⟨inner, hinner, h⟩ := Outcome.bind_eq_ok.1 h
  obtain ⟨extent, hextent, h⟩ := Outcome.bind_eq_ok.1 h
  cases h
  rw [Outcome.promised_eq_ok] at hextent
  refine ⟨(List.getElem?_eq_some_iff.1 hextent).1, ?_⟩
  rw [Word.product_eq houter, Word.product_eq hinner, List.getD_eq_getElem?_getD, hextent]
  rfl

theorem ofAxis_total (ha : a < dims.length) (hspans : Spans dims) :
    ofAxis dims a = .ok ⟨volume (dims.take a), dims.getD a 0, volume (dims.drop (a + 1))⟩ := by
  have hbehind : Spans (dims.drop (a + 1)) := hspans.part (List.drop_suffix _ _).isInfix
  have hbefore : Spans (dims.take a) := hspans.part (List.take_prefix _ _).isInfix
  rw [ofAxis, hbefore.product, hbehind.product]
  change (Outcome.promised dims[a]? >>= _) = _
  rw [List.getElem?_eq_getElem ha, List.getD_eq_getElem _ _ ha]
  rfl

/-- The positions that are named on an axis, in all its lanes. -/
def targets (l : Lanes) (picked : List Nat) : List Nat :=
  (List.range l.outer).flatMap fun o => picked.flatMap fun k => (List.range l.inner).map fun i => l.index o k i

theorem length_targets (l : Lanes) (picked : List Nat) :
    (l.targets picked).length = l.outer * (picked.length * l.inner) := by
  simp [targets, List.length_flatMap]

theorem index_lt {o k i : Nat} (ho : o < l.outer) (hk : k < l.extent) (hi : i < l.inner) :
    l.index o k i < l.outer * l.extent * l.inner := by
  have hlane : o * l.extent + k < l.outer * l.extent :=
    calc o * l.extent + k < o * l.extent + l.extent := Nat.add_lt_add_left hk _
      _ = (o + 1) * l.extent := (Nat.succ_mul _ _).symm
      _ ≤ l.outer * l.extent := Nat.mul_le_mul_right _ ho
  calc l.index o k i < (o * l.extent + k) * l.inner + l.inner := Nat.add_lt_add_left hi _
    _ = (o * l.extent + k + 1) * l.inner := (Nat.succ_mul _ _).symm
    _ ≤ l.outer * l.extent * l.inner := Nat.mul_le_mul_right _ hlane

theorem targets_lt {picked : List Nat} (h : ∀ k ∈ picked, k < l.extent) :
    ∀ t ∈ l.targets picked, t < l.outer * l.extent * l.inner := by
  intro t ht
  obtain ⟨o, ho, ht⟩ := List.mem_flatMap.1 ht
  obtain ⟨k, hk, ht⟩ := List.mem_flatMap.1 ht
  obtain ⟨i, hi, rfl⟩ := List.mem_map.1 ht
  exact index_lt (List.mem_range.1 ho) (h k hk) (List.mem_range.1 hi)

end Lanes

end Index

namespace OpKind

theorem infer_gather {axis : Int} {x indices out : TensorInfo} (h : (OpKind.gather axis).infer [x, indices] = .ok out) :
    ∃ a, a < x.rank ∧ Index.axis axis x.rank = .ok a ∧ indices.dtype.isFloat = false ∧
      out.shape = x.shape.take a ++ indices.shape ++ x.shape.drop (a + 1) := by
  obtain ⟨⟨d, i⟩, hoperands, h⟩ := Outcome.bind_eq_ok.1 h
  cases hoperands
  obtain ⟨_, hint, h⟩ := Outcome.bind_eq_ok.1 h
  obtain ⟨a, ha, h⟩ := Outcome.bind_eq_ok.1 h
  obtain ⟨s, hs, h⟩ := Outcome.bind_eq_ok.1 h
  cases h
  unfold requireInteger at hint
  split at hint
  · cases hint
  · rename_i hfloat
    unfold gatheredShape at hs
    split at hs
    · cases hs
    · rename_i hrank
      cases hs
      have hne : x.shape ≠ [] := fun hnil => by
        rw [hnil] at hrank
        exact hrank (Nat.succ_pos a)
      obtain ⟨hfront, hlt⟩ := axis_ok ha hne
      exact ⟨a, hlt, Index.axis_eq hlt hfront, Bool.eq_false_iff.2 hfloat, rfl⟩

end OpKind

namespace Kernel

open Index

variable {R : Type} [Field R] {f : Numbers R} {x indices g : Operand R} {out : TensorInfo} {axis : Int} {a : Nat}

/-- Every index names a position on the axis. -/
def AllNamed (f : Numbers R) (axis : Int) (x indices : Operand R) : Prop :=
  ∀ a, Index.axis axis x.info.rank = .ok a → ∀ v ∈ indices.values, @Names R f.scalar (x.dims.getD a 0) v

/-- What is gathered stands at the named positions. -/
theorem exact_gather {y : Operand R} (h : @exact R f.scalar (.gather axis) [x, indices] out = .ok y) : ∃ a l picked,
    Index.axis axis x.dims.length = .ok a ∧ Lanes.ofAxis x.dims a = .ok l ∧
      @Operand.positions R f.scalar indices l.extent = .ok picked ∧ y.values.length = (l.targets picked).length ∧
        Transforms (moving (fun i => (l.targets picked)[i]?) 1) x.values y.values := by
  let _ := f.scalar
  obtain ⟨sources, hsources, hpick⟩ := exact_move_ok rfl h
  obtain ⟨a, ha, hsources⟩ := Outcome.bind_eq_ok.1 hsources
  obtain ⟨l, hl, hsources⟩ := Outcome.bind_eq_ok.1 hsources
  obtain ⟨picked, hpicked, hsources⟩ := Outcome.bind_eq_ok.1 hsources
  obtain ⟨n, -, hsources⟩ := Outcome.bind_eq_ok.1 hsources
  obtain ⟨_, -, hsources⟩ := Outcome.bind_eq_ok.1 hsources
  have hmap : sources = (l.targets picked).map some := by
    refine eq_map_of_forall₂ ((Outcome.mapM_eq_ok.1 hsources).imp fun t s hs => ?_)
    obtain ⟨t', ht, hresult⟩ := Outcome.bind_eq_ok.1 hs
    cases hresult
    exact congrArg some (Word.nat_eq_ok_iff.1 ht).2
  subst hmap
  obtain ⟨hlen, hvalues⟩ := pick_ok hpick
  rw [List.length_map] at hlen
  refine ⟨a, l, picked, ha, hl, hpicked, hlen, transforms_moving fun i hi => ?_⟩
  have hi' : i < (l.targets picked).length := hlen ▸ hi
  rw [hvalues i hi]
  simp [List.getD_eq_getElem?_getD, hi']

section Sources

variable {R : Type} [Scalar R] {x indices : Operand R} {l : Lanes} {picked : List Nat}

theorem volume_split {dims : List Nat} (ha : a < dims.length) :
    volume dims = volume (dims.take a) * dims.getD a 0 * volume (dims.drop (a + 1)) := by
  conv_lhs => rw [split_axis ha, volume_append, volume_cons, ← Nat.mul_assoc]

theorem dims_gathered {x indices out : TensorInfo} (h : out.shape = x.shape.take a ++ indices.shape ++ x.shape.drop (a + 1)) :
    out.dims = x.dims.take a ++ indices.dims ++ x.dims.drop (a + 1) := by
  simp [TensorInfo.dims, Shape.dims, h]

omit [Scalar R] in
/-- The positions of a gather are those of its result, and are counted on the way. -/
theorem product_gathered (hout : out.shape = x.info.shape.take a ++ indices.info.shape ++ x.info.shape.drop (a + 1))
    (hspans : Spans out.dims) (hlen : picked.length = volume indices.dims) :
    Word.product [volume (x.dims.take a), picked.length, volume (x.dims.drop (a + 1))] = .ok (volume out.dims) := by
  have hdims : out.dims = [x.dims.take a, indices.dims, x.dims.drop (a + 1)].flatten := by
    rw [dims_gathered hout]
    simp [Operand.dims]
  rw [hlen, hdims]
  exact (hdims ▸ hspans).product_blocks

/-- What is gathered stands among the elements, where the indices name positions and the result can be counted and held. -/
theorem gatherSources_total (ha : Index.axis axis x.dims.length = .ok a) (hl : Lanes.ofAxis x.dims a = .ok l)
    (hpicked : indices.positions l.extent = .ok picked) (hspans : Spans x.dims) (hlt : ∀ t ∈ l.targets picked, t < volume x.dims)
    (hcount : Word.product [l.outer, picked.length, l.inner] = .ok (volume out.dims))
    (hroom : sourceBytes * volume out.dims < Word.half) :
    gatherSources axis x indices = .ok ((l.targets picked).map some) := by
  unfold gatherSources
  simp only [ha, hl, hpicked, hcount, bind, Except.bind]
  rw [show Word.room sourceBytes (volume out.dims) = .ok () from if_pos hroom]
  refine Outcome.mapM_of_forall fun t ht => ?_
  rw [Word.nat_of_lt ((hlt t ht).trans hspans.volume_lt)]
  rfl

end Sources

/-- The positions that are named by indices in range, and how many they are. -/
theorem Forward.positions (hf : Forward (.gather axis) [x, indices] out) (hnamed : AllNamed f axis x indices)
    (hc : Countable [x, indices] out) : ∃ a l picked, Index.axis axis x.dims.length = .ok a ∧
      Lanes.ofAxis x.dims a = .ok l ∧ @Operand.positions R f.scalar indices l.extent = .ok picked ∧
        (∀ t ∈ l.targets picked, t < x.values.length) ∧ (l.targets picked).length = volume out.dims ∧
          Word.product [l.outer, picked.length, l.inner] = .ok (volume out.dims) := by
  let _ := f.scalar
  obtain ⟨a, hlt, haxis, hint, hout⟩ := OpKind.infer_gather hf.infers
  have hrank : x.dims.length = x.info.rank := Shape.length_dims _
  have hlt' : a < x.dims.length := hrank ▸ hlt
  obtain ⟨picked, hpicked, hlen, hbound⟩ := Operand.positions_of_names hint (hnamed a haxis)
  rw [(hf.complete indices (by simp)).length_eq] at hlen
  have hcount := product_gathered (x := x) hout hc.result.spans hlen
  refine ⟨a, _, picked, hrank ▸ haxis, Lanes.ofAxis_total hlt' (hc.operands x (by simp)).spans, hpicked, fun t ht => ?_, ?_,
    hcount⟩
  · rw [(hf.complete x (by simp)).length_eq, volume_split hlt']
    exact Lanes.targets_lt hbound t ht
  · rw [Lanes.length_targets, Word.product_eq hcount]
    simp

/-- A gather gives a result where the sizes can be counted. -/
theorem exact_gather_total (hf : Forward (.gather axis) [x, indices] out) (hnamed : AllNamed f axis x indices)
    (hc : Countable [x, indices] out) : ∃ y, @exact R f.scalar (.gather axis) [x, indices] out = .ok y := by
  let _ := f.scalar
  obtain ⟨a, l, picked, ha, hl, hpicked, hlt, hlen, hcount⟩ := hf.positions hnamed hc
  have hx := (hf.complete x (by simp)).length_eq
  have hsources : gatherSources axis x indices = .ok ((l.targets picked).map some) :=
    gatherSources_total ha hl hpicked (hc.operands x (by simp)).spans (fun t ht => hx ▸ hlt t ht) hcount
      ((Nat.mul_le_mul_left _ (volume_le_capacity _)).trans_lt hc.result)
  have hplan : plan (.gather axis) [x, indices] out = .ok (.move [0] .zero (.ok ((l.targets picked).map some))) := by
    change (gatherSources axis x indices >>= _) = _
    rw [hsources]
    rfl
  refine move_total hplan (fun j hj => ?_) hc.result (by rw [List.length_map, hlen])
  obtain ⟨t, ht, heq⟩ := List.mem_map.1 hj
  exact Option.some.inj heq ▸ hlt t ht

/-- The gradient is added up at the named positions. -/
theorem gatherGrad_ok {R : Type} [Scalar R] {g indices : Operand R} {info : TensorInfo} {axis : Int} {a : Nat} {l : Lanes}
    {picked : List Nat} {values : List R} (ha : Index.axis axis info.dims.length = .ok a)
    (hl : Lanes.ofAxis info.dims a = .ok l) (hpicked : indices.positions l.extent = .ok picked)
    (h : gatherGrad axis g indices info = .ok values) :
    (l.targets picked).length = g.values.length ∧ values = accumulate values.length ((l.targets picked).zip g.values) := by
  unfold gatherGrad at h
  simp only [ha, hl, hpicked, bind, Except.bind] at h
  obtain ⟨n, hn, h⟩ := Outcome.bind_eq_ok.1 h
  split at h
  · cases h
  · rename_i hcount
    rw [ne_eq, not_not] at hcount
    obtain ⟨m, -, h⟩ := Outcome.bind_eq_ok.1 h
    obtain ⟨_, -, h⟩ := Outcome.bind_eq_ok.1 h
    cases h
    refine ⟨?_, by rw [length_accumulate]; rfl⟩
    rw [Lanes.length_targets, hcount, Word.product_eq hn]
    simp

theorem gatherGrad_total {R : Type} [Scalar R] {g indices : Operand R} (info : TensorInfo) {axis : Int} {a : Nat} {l : Lanes}
    {picked : List Nat} (ha : Index.axis axis info.dims.length = .ok a) (hl : Lanes.ofAxis info.dims a = .ok l)
    (hpicked : indices.positions l.extent = .ok picked)
    (hcount : Word.product [l.outer, picked.length, l.inner] = .ok g.values.length) (hroom : Roomy info.dims) :
    gatherGrad axis g indices info = .ok (accumulate (volume info.dims) ((l.targets picked).zip g.values)) := by
  have hn : info.counted = .ok (volume info.dims) := hroom.product
  have hspace : Operand.room (volume info.dims) = .ok () := hroom.room (volume_le_capacity _)
  unfold gatherGrad
  simp only [ha, hl, hpicked, hcount, hn, hspace, bind, Except.bind]
  exact if_neg (not_not.2 rfl)

/-- The gradient for what is gathered from. -/
theorem backs_gather (hf : Forward (.gather axis) [x, indices] out) (hg : Incoming out g)
    (hnamed : AllNamed f axis x indices) :
    Backs f (.gather axis) [x, indices] out 0 g (.gatherGrad axis x.info.shape) [g, indices] := by
  let _ := f.scalar
  obtain ⟨a, hlt, haxis, hint, hout⟩ := OpKind.infer_gather hf.infers
  have hinfer : (OpKind.gatherGrad axis x.info.shape).infer [g.info, indices.info] = .ok (g.info.withShape x.info.shape) := by
    simp [OpKind.infer, OpKind.operand2, OpKind.requireInteger, bind, Except.bind, hint, pure, Except.pure]
  have hdims : (g.info.withShape x.info.shape).dims = x.dims := rfl
  refine ⟨fun {x' y b info} hx hy hinfer' hb => ?_, fun hc => ?_⟩
  · cases hx
    cases hinfer.symm.trans hinfer'
    refine ⟨rfl, ?_⟩
    obtain ⟨a', l, picked, ha, hl, hpicked, hlen, hforward⟩ := exact_gather hy
    have hsum : gatherGrad axis g indices (g.info.withShape x.info.shape) = .ok b.values := exact_values_ok rfl hb
    obtain ⟨hcount, hsum⟩ := gatherGrad_ok ha hl hpicked hsum
    have hback := transforms_accumulate f b.values.length hcount
    rw [← hsum] at hback
    exact hforward.dot_eq hback (hg.length.trans (exact_length hy).symm)
      ((exact_length hb).trans (hf.complete x (by simp)).length_eq.symm)
  · obtain ⟨a, l, picked, ha, hl, hpicked, -, -, hcount⟩ := hf.positions hnamed hc
    rw [← hg.length] at hcount
    have hplan : plan (.gatherGrad axis x.info.shape) [g, indices] (g.info.withShape x.info.shape) =
        .ok (.values (accumulate (volume x.dims) ((l.targets picked).zip g.values))) := by
      change (gatherGrad axis g indices _ >>= _) = _
      rw [gatherGrad_total (g.info.withShape x.info.shape) ha hl hpicked hcount (hc.operands x (by simp))]
      rfl
    obtain ⟨b, hb⟩ := values_total hplan (hc.operands x (by simp)) (length_accumulate _ _)
    exact ⟨_, b, hinfer, hb⟩

end Kernel

end TensorGraph
