import TensorGraph.Proofs.Kernel.Concat
import TensorGraph.Proofs.Kernel.Gather
import TensorGraph.Proofs.Kernel.Matrix
import TensorGraph.Proofs.Kernel.Reduction
import TensorGraph.Proofs.Kernel.Stored
import TensorGraph.Proofs.Model.Calls

/-!
Kernels deliver what shape inference promised. Every kernel finds axes, strides and extents by itself, and the info of its
result comes from elsewhere; here both are brought together. A plan delivers if it names as many elements as the info
says, all of them there. Main statement: on valid operands whose infos an op accepts, the kernel of the op gives a valid
tensor with the inferred info, wherever the sizes can be counted. Only gathering and scattering may refuse, for an index or
a position that is none, or for updates of another width.
-/
namespace TensorGraph

open Kernel

/-! ## Calls whose sizes are counted -/

namespace OpKind

/-- Whether the kernel of a kind counts positions; the others take the elements in their order. -/
def counts : OpKind → Bool
  | identity | unary _ | reshape _ => false
  | _ => true

/-- The bytes that the kernel of a kind sets aside for each element of its result before it computes any. -/
def reserves : OpKind → Nat
  | gather _ => sourceBytes
  | matMul | reduceSum _ _ => 8
  | _ => 0

/-- An op that works along one axis has a first operand with axes. -/
def HasAxis (kind : OpKind) (infos : List TensorInfo) : Prop :=
  match kind with
  | softmax _ | concat _ | gather _ | scatter _ => ∀ i ∈ infos.head?, i.shape ≠ []
  | _ => True

/-- The sizes of a call can be counted, and memory can span its result. -/
structure Measured (kind : OpKind) (infos : List TensorInfo) (out : TensorInfo) : Prop where
  operands : ∀ i ∈ infos, Spans i.dims
  result : Spans out.dims
  room : kind.reserves * volume out.dims < Word.half

end OpKind

namespace Kernel

variable {R : Type} [Scalar R]

/-! ## Plans that deliver -/

namespace Plan

/-- A plan that gives the result as many elements as its info says, and moves only elements that are there. -/
def Delivers (xs : List (Operand R)) (out : TensorInfo) : Plan R → Prop
  | .relabel => ∃ x, xs = [x] ∧ out.counted = .ok x.values.length
  | .move pool _ sources => ∃ parts l, pool.mapM (xs[·]?) = some parts ∧ parts ≠ [] ∧ sources = .ok l ∧
      out.counted = .ok l.length ∧ ∀ j, some j ∈ l → j < (parts.map (·.values.length)).sum
  | .values result => out.counted = .ok result.length

/-- The operands whose elements are kept have the width of the result. -/
def Fits (xs : List (Operand R)) (out : TensorInfo) : Plan R → Prop
  | .relabel => ∀ x ∈ xs, x.info.dtype.storage = out.dtype.storage
  | .move pool _ _ => ∀ i ∈ pool, ∀ x ∈ xs[i]?, x.info.dtype.storage = out.dtype.storage
  | .values _ => True

end Plan

/-- The kernel of an op has a plan that delivers. -/
def Delivered (kind : OpKind) (xs : List (Operand R)) (out : TensorInfo) : Prop :=
  ∃ p, plan kind xs out = .ok p ∧ p.Delivers xs out ∧ p.Fits xs out

variable {kind : OpKind} {xs : List (Operand R)} {x indices : Operand R} {out : TensorInfo}

theorem delivered_values (result : List R) (hplan : plan kind xs out = .ok (.values result))
    (hcount : out.counted = .ok result.length) : Delivered kind xs out := ⟨_, hplan, hcount, trivial⟩

/-- Elements of the only operand that are kept in their order. -/
theorem delivered_relabel (hk : kind.isView = true) (hdtype : x.info.dtype = out.dtype)
    (hcount : out.counted = .ok x.values.length) : Delivered kind [x] out := by
  refine ⟨.relabel, ?_, ⟨x, rfl, hcount⟩, fun z hz => ?_⟩
  · rw [plan_relabel hk, hcount]
    exact if_neg (not_not.2 rfl)
  · rw [List.mem_singleton.1 hz, hdtype]

/-- Elements of the first operand that are moved. -/
theorem delivered_move {rest : List (Operand R)} {fill : Single} {l : Sources}
    (hplan : plan kind (x :: rest) out = .ok (.move [0] fill (.ok l))) (hdtype : x.info.dtype = out.dtype)
    (hspans : Spans out.dims) (hlen : l.length = volume out.dims) (hlt : ∀ j, some j ∈ l → j < x.values.length) :
    Delivered kind (x :: rest) out := by
  refine ⟨_, hplan, ⟨[x], l, rfl, by simp, rfl, ?_, by simpa using hlt⟩, fun i hi z hz => ?_⟩
  · rw [hlen]
    exact hspans.product
  · rw [List.mem_singleton.1 hi] at hz
    rw [← Option.some.inj hz, hdtype]

/-- Elements that are moved as their coordinates are. -/
theorem delivered_carry {φ : List Nat → Option (List Nat)} {fill : Single} {sources : Outcome Sources}
    (hplan : plan kind [x] out = do return .move [0] fill (.ok (← sources)))
    (hs : sources = .ok ((List.range (volume out.dims)).map (Index.carry φ x.dims out.dims)))
    (hφ : Index.Leads φ out.dims x.dims) (hdtype : x.info.dtype = out.dtype) (hspans : Spans out.dims) (hx : x.Complete) :
    Delivered kind [x] out := by
  rw [hs] at hplan
  refine delivered_move hplan hdtype hspans (by rw [List.length_map, List.length_range]) fun j hj => ?_
  obtain ⟨i, hi, heq⟩ := List.mem_map.1 hj
  exact hx.length_eq ▸ Index.carry_lt hφ (List.mem_range.1 hi) heq

/-! ## Kind by kind -/

theorem infer_reshape_counted {shape : Shape} {x out : TensorInfo} (h : (OpKind.reshape shape).infer [x] = .ok out) :
    out = x.withShape shape ∧ out.counted = x.counted := by
  obtain ⟨x', hx', h⟩ := Outcome.bind_eq_ok.1 h
  cases OpKind.operand1_ok hx'
  simp only at h
  split at h
  · cases h
  · obtain ⟨n, hn, h⟩ := Outcome.bind_eq_ok.1 h
    obtain ⟨m, hm, h⟩ := Outcome.bind_eq_ok.1 h
    split at h
    · cases h
    · rename_i heq
      rw [ne_eq, not_not] at heq
      cases h
      exact ⟨rfl, hn.trans (heq ▸ hm.symm)⟩

theorem delivered_unary {u : Unary} (hf : Forward (.unary u) [x] out) : Delivered (.unary u) [x] out := by
  obtain rfl : x.info = out := by simpa using OpKind.infer_unary hf.infers
  refine delivered_values _ rfl ?_
  rw [List.length_map]
  exact hf.complete x (by simp)

/-- Operands that stretch to the result. -/
theorem delivered_elementwise {φ : List R → R} (hne : xs ≠ []) (hcomplete : ∀ x ∈ xs, x.Complete)
    (hplan : plan kind xs out = do return .values (← elementwise φ xs out)) (hm : kind.Measured (xs.map (·.info)) out)
    (hstretch : ∀ x ∈ xs, Stretches x.info.shape out.shape) : Delivered kind xs out := by
  have hxs : ∀ x ∈ xs, Stretches x.dims out.dims ∧ (∃ s, Index.steps x.dims = .ok s) ∧
      x.values.length = volume x.dims := fun x hx =>
    ⟨Shape.stretches_dims (hstretch x hx), ⟨_, (hm.operands _ (List.mem_map_of_mem hx)).steps⟩, (hcomplete x hx).length_eq⟩
  obtain ⟨values, hvalues⟩ := @zipWith_total R _ φ xs out.dims hxs hm.result.product
  obtain ⟨first, rest, rfl⟩ := List.exists_cons_of_ne_nil hne
  refine delivered_values values ?_ (zipWith_ok hvalues).2.2.1
  rw [hplan, elementwise_eq, hvalues]
  rfl

theorem length_fit (n : Nat) (values : List R) : (Operand.fit n values).length = n := by
  rw [Operand.fit, List.length_take, List.length_append, List.length_replicate]
  omega

/-- Softmax reads its lanes, and all their elements are there. -/
theorem softmax_total {axis : Int} {a : Nat} (ha : Index.axis axis x.dims.length = .ok a) (hspans : Spans x.dims)
    (hx : x.Complete) : ∃ values, softmax axis x = .ok values ∧ values.length = x.values.length := by
  obtain ⟨hlt, -⟩ := Index.axis_ok ha
  have hlanes : lanesOf x.dims axis =
      .ok ⟨volume (x.dims.take a), x.dims.getD a 0, volume (x.dims.drop (a + 1))⟩ := by
    rw [lanesOf, ha]
    exact Index.Lanes.ofAxis_total hlt hspans
  generalize hl : (⟨volume (x.dims.take a), x.dims.getD a 0, volume (x.dims.drop (a + 1))⟩ : Index.Lanes) = l at hlanes
  have hvolume : x.values.length = l.outer * l.extent * l.inner := by
    rw [hx.length_eq, volume_split hlt, ← hl]
  have hfetch : ∀ {o k i : Nat}, o < l.outer → k < l.extent → i < l.inner →
      ∃ v, Operand.fetch x.values.toArray (l.index o k i) = .ok v := by
    intro o k i ho hk hi
    have hindex : l.index o k i < x.values.length := hvolume ▸ Index.Lanes.index_lt ho hk hi
    exact ⟨x.values[l.index o k i], by simp [Operand.fetch, Outcome.promised, hindex]⟩
  have hlane : ∀ {o i : Nat}, o < l.outer → i < l.inner → ∃ row, lane x.values.toArray l o i = .ok row := by
    intro o i ho hi
    have hall : ∀ k ∈ List.range l.extent, ∃ v, Operand.fetch x.values.toArray (l.index o k i) = .ok v :=
      fun k hk => hfetch ho (List.mem_range.1 hk) hi
    have : Inhabited R := ⟨0⟩
    choose! w hw using hall
    exact ⟨_, Outcome.mapM_of_forall hw⟩
  have hover : ∃ result, overLanes l x.values.length (fun o k i => do
      let row ← lane x.values.toArray l o i
      let top := Scalar.greatest row
      let total := row.foldl (fun sum v => sum + Scalar.exp (v - top)) 0
      let v ← Operand.fetch x.values.toArray (l.index o k i)
      return Scalar.exp (v - top) / total) = .ok result := by
    unfold overLanes
    rw [if_neg (by rw [hvolume]; exact Nat.lt_irrefl _)]
    rcases Outcome.mapM_cases (fun p : Nat × Nat × Nat => do
        let row ← lane x.values.toArray l p.1 p.2.2
        let top := Scalar.greatest row
        let total := row.foldl (fun sum v => sum + Scalar.exp (v - top)) 0
        let v ← Operand.fetch x.values.toArray (l.index p.1 p.2.1 p.2.2)
        return Scalar.exp (v - top) / total) ((List.range l.outer).flatMap fun o =>
          (List.range l.extent).flatMap fun k => (List.range l.inner).map fun i => (o, k, i)) with h | ⟨p, hp, e, he, -⟩
    · exact h
    · obtain ⟨o, ho, hp⟩ := List.mem_flatMap.1 hp
      obtain ⟨k, hk, hp⟩ := List.mem_flatMap.1 hp
      obtain ⟨i, hi, rfl⟩ := List.mem_map.1 hp
      obtain ⟨row, hrow⟩ := hlane (List.mem_range.1 ho) (List.mem_range.1 hi)
      obtain ⟨v, hv⟩ := hfetch (List.mem_range.1 ho) (List.mem_range.1 hk) (List.mem_range.1 hi)
      simp only [hrow, hv, bind, Except.bind, pure, Except.pure] at he
      cases he
  obtain ⟨result, hresult⟩ := hover
  refine ⟨Operand.fit x.values.length result, ?_, length_fit _ _⟩
  rw [softmax, hlanes]
  change (overLanes l x.values.length _ >>= _) = _
  rw [hresult]
  rfl

theorem delivered_softmax {axis : Int} (hf : Forward (.softmax axis) [x] out) (hrank : x.info.shape ≠ [])
    (hm : (OpKind.softmax axis).Measured [x.info] out) : Delivered (.softmax axis) [x] out := by
  obtain rfl : x.info = out := by simpa using OpKind.infer_softmax hf.infers
  obtain ⟨_, hx', h⟩ := Outcome.bind_eq_ok.1 hf.infers
  cases OpKind.operand1_ok hx'
  obtain ⟨a, ha, -⟩ := Outcome.bind_eq_ok.1 h
  obtain ⟨hfront, hlt⟩ := OpKind.axis_ok ha hrank
  have hlen : x.dims.length = x.info.shape.length := Shape.length_dims _
  obtain ⟨values, hvalues, hcount⟩ := softmax_total (Index.axis_eq (hlen ▸ hlt) (hlen ▸ hfront))
    (hm.operands _ (by simp)) (hf.complete x (by simp))
  refine delivered_values values ?_ (hcount ▸ hf.complete x (by simp))
  change (softmax axis x >>= _) = _
  rw [hvalues]
  rfl

theorem delivered_matMul {a b : Operand R} (hf : Forward .matMul [a, b] out)
    (hm : OpKind.matMul.Measured [a.info, b.info] out) : Delivered .matMul [a, b] out := by
  obtain ⟨i, j, m, k, n, hij, ha, hb, hout⟩ := OpKind.infer_matMul hf.infers
  cases hij
  have hfactors := Factors.of_shapes ha hb
  have houtdims : out.dims = [m.toNat, n.toNat] := by rw [hout]; rfl
  have hvolume : volume out.dims = m.toNat * n.toNat := by rw [houtdims, volume_matrix]
  obtain ⟨values, hproduct, hlen⟩ := matMul_total hfactors
    ((hf.complete a (by simp)).length_eq.trans (by rw [hfactors.left, volume_matrix]))
    ((hf.complete b (by simp)).length_eq.trans (by rw [hfactors.right, volume_matrix]))
    (hvolume ▸ hm.result.volume_lt) (if_pos (hvolume ▸ hm.room))
  refine delivered_values values ?_ ?_
  · change (matMul a b >>= _) = _
    rw [hproduct]
    rfl
  · rw [hlen, ← hvolume]
    exact hm.result.product

/-- Ones on the marked axes do not count. -/
theorem volume_ones_at (axes : List Nat) (entries : List (Nat × Nat)) :
    volume (entries.map fun (d, i) => if axes.contains i then 1 else d) =
      volume (entries.filterMap fun (d, i) => if axes.contains i then none else some d) := by
  induction entries with
  | nil => rfl
  | cons e entries ih =>
    rw [List.map_cons, List.filterMap_cons, Index.volume_cons, ih]
    by_cases he : axes.contains e.2 = true
    · simp only [he, if_true, Nat.one_mul]
    · simp only [he]
      rfl

theorem spans_flattened {axes : List Nat} {i : Nat} {dims : List Nat} (h : Spans (remaining axes i dims)) :
    Spans (flattened axes i dims) := by
  intro part hpart
  obtain ⟨entries, hentries, rfl⟩ := List.infix_map_iff.1 hpart
  rw [volume_ones_at]
  exact h _ (hentries.filterMap _)

theorem delivered_reduceSum {axes : Option (List Int)} {keepDims : Bool} (hf : Forward (.reduceSum axes keepDims) [x] out)
    (hm : (OpKind.reduceSum axes keepDims).Measured [x.info] out) : Delivered (.reduceSum axes keepDims) [x] out := by
  obtain ⟨resolved, hresolved, hout⟩ := infer_reduceSum hf.infers
  have hvolume : volume out.dims = volume (flattened resolved 0 x.dims) := by rw [hout, volume_reduced]; rfl
  have hspans : Spans (flattened resolved 0 x.dims) := by
    have hresult := hm.result
    rw [hout, dims_withShape, reduced_dims] at hresult
    cases keepDims with
    | true => exact hresult
    | false => exact spans_flattened hresult
  have hroom : Operand.room (volume (flattened resolved 0 x.dims)) = .ok () := if_pos (hvolume ▸ hm.room)
  refine delivered_values (accumulate (volume (flattened resolved 0 x.dims)) (((List.range (volume x.dims)).map
    (Index.under (flattened resolved 0 x.dims) x.dims)).zip x.values)) ?_ ?_
  · change (reduceSum axes x >>= _) = _
    rw [reduceSum_eq hresolved, reduceTo_eq (stretches_flattened resolved x.dims) hspans hroom]
    rfl
  · rw [length_accumulate, ← hvolume]
    exact hm.result.product

theorem delivered_transpose {perm : List Int} (hf : Forward (.transpose perm) [x] out)
    (hm : (OpKind.transpose perm).Measured [x.info] out) : Delivered (.transpose perm) [x] out := by
  obtain ⟨x', s, hx', hs, hout⟩ := OpKind.infer_transpose hf.infers
  cases hx'
  obtain ⟨axes, horder, hperm, hdims⟩ := OpKind.order_of_transposedShape hs
  rw [← Shape.length_dims] at horder hperm
  have houtdims : out.dims = Index.reorder axes x.dims := by rw [hout, dims_withShape, hdims]; rfl
  exact delivered_carry rfl (transposeSources_total horder hperm houtdims (hm.operands _ (by simp)))
    (houtdims ▸ leads_putBack horder) (by rw [hout]; rfl) hm.result (hf.complete x (by simp))

theorem delivered_slice {starts ends axes : List Int} (hf : Forward (.slice starts ends axes) [x] out)
    (hm : (OpKind.slice starts ends axes).Measured [x.info] out) : Delivered (.slice starts ends axes) [x] out := by
  obtain ⟨x', ranges, hx', hranges, hout⟩ := OpKind.infer_slice hf.infers
  cases hx'
  have hw : Index.Window (OpKind.sliceOffsets x.dims.length ranges) out.dims x.dims :=
    hout ▸ OpKind.window_slicedShape (hf.sized x (by simp)) hranges
  exact delivered_carry rfl (sliceSources_total hranges hw (hm.operands _ (by simp))) (Index.leads_shift hw)
    (by rw [hout]; rfl) hm.result (hf.complete x (by simp))

theorem delivered_pad {pads : List Int} {value : Single} (hf : Forward (.pad pads value) [x] out)
    (hm : (OpKind.pad pads value).Measured [x.info] out) : Delivered (.pad pads value) [x] out := by
  obtain ⟨x', s, hx', hs, hout⟩ := OpKind.infer_pad hf.infers
  cases hx'
  have hlen : x.dims.length = x.info.shape.length := Shape.length_dims _
  have houtdims : out.dims = s.dims := by rw [hout]; rfl
  have hw : Index.Window ((pads.take x.dims.length).map Int.toNat) x.dims s.dims :=
    hlen ▸ OpKind.window_paddedShape (hf.sized x (by simp)) hs
  exact delivered_carry rfl (padSources_total (hf.sized x (by simp)) hs houtdims (hm.operands _ (by simp)))
    (houtdims ▸ Index.leads_unshift hw) (by rw [hout]; rfl) hm.result (hf.complete x (by simp))

/-! ### Parts one behind the other -/

theorem concatExtent_dtype {first : TensorInfo} {a : Nat} : ∀ {l : List TensorInfo} {total extent : Int},
    OpKind.concatExtent first a l total = .ok extent → ∀ i ∈ l, i.dtype = first.dtype
  | [], _, _, _ => nofun
  | other :: l, total, extent, h => by
    unfold OpKind.concatExtent at h
    split at h
    · cases h
    · rename_i hconc
      rw [Bool.not_eq_false] at hconc
      obtain ⟨_, -, h⟩ := Outcome.bind_eq_ok.1 h
      obtain ⟨_, -, h⟩ := Outcome.bind_eq_ok.1 h
      unfold OpKind.concatenable at hconc
      simp only [Bool.and_eq_true, beq_iff_eq] at hconc
      intro i hi
      rcases List.mem_cons.1 hi with rfl | hi
      · exact hconc.1.2
      · exact concatExtent_dtype h i hi

/-- Tensors that lie one behind the other have one type, and axes if the first one has. -/
theorem infer_concat_parts {axis : Int} {infos : List TensorInfo} {out : TensorInfo}
    (h : (OpKind.concat axis).infer infos = .ok out) (hrank : ∀ i ∈ infos.head?, i.shape ≠ []) :
    infos ≠ [] ∧ ∀ i ∈ infos, i.dtype = out.dtype ∧ i.shape ≠ [] := by
  obtain ⟨first, rest, a, rfl, ha, hall⟩ := OpKind.infer_concat h
  have hfirst : first.shape ≠ [] := hrank first rfl
  obtain ⟨-, hlt⟩ := OpKind.axis_ok ha hfirst
  obtain ⟨ds, hds, -⟩ := hall _ (List.getElem?_eq_getElem hlt)
  obtain ⟨a', -, h⟩ := Outcome.bind_eq_ok.1 h
  obtain ⟨extent, hextent, h⟩ := Outcome.bind_eq_ok.1 h
  cases h
  refine ⟨List.cons_ne_nil _ _, fun i hi => ?_⟩
  rcases List.mem_cons.1 hi with rfl | hi
  · exact ⟨rfl, hfirst⟩
  · obtain ⟨d, -, hd⟩ := exists_of_forall₂ hds i hi
    refine ⟨concatExtent_dtype hextent i hi, List.ne_nil_of_length_pos ?_⟩
    rw [hd.shape, List.length_set]
    exact List.length_pos_of_ne_nil hfirst

theorem mapM_range_getElem? {α : Type} {l : List α} : (List.range l.length).mapM (l[·]?) = some l := by
  refine mapM_eq_some_iff.2 (List.forall₂_iff_get.2 ⟨List.length_range, fun i hi hi' => ?_⟩)
  rw [List.get_eq_getElem, List.get_eq_getElem, List.getElem_range]
  exact List.getElem?_eq_getElem hi'

theorem delivered_concat {axis : Int} (hf : Forward (.concat axis) xs out)
    (hrank : ∀ i ∈ (xs.map (·.info)).head?, i.shape ≠ []) (hm : (OpKind.concat axis).Measured (xs.map (·.info)) out) :
    Delivered (.concat axis) xs out := by
  obtain ⟨hne, hparts⟩ := infer_concat_parts hf.infers hrank
  have hpart : ∀ x ∈ xs, x.info.dtype = out.dtype ∧ x.info.shape ≠ [] := fun x hx => hparts _ (List.mem_map_of_mem hx)
  obtain ⟨a, hp, hall, -⟩ := hf.piled fun x hx => (hpart x hx).2
  obtain ⟨l, hl, hlen, hlt⟩ := concatSources_total hp (fun x hx => hm.operands _ (List.mem_map_of_mem hx)) hm.result.volume_lt
  obtain ⟨first, rest, rfl⟩ := List.exists_cons_of_ne_nil fun hnil : xs = [] => hne (by rw [hnil]; rfl)
  refine ⟨.move (List.range (first :: rest).length) .zero (.ok l), ?_,
    ⟨_, l, mapM_range_getElem?, by simp, rfl, ?_, fun j hj => ?_⟩, fun i _ z hz => ?_⟩
  · change (Index.axis axis first.info.rank >>= _) = _
    rw [(hall first (by simp)).1, ← hl]
    rfl
  · rw [hlen]
    exact hm.result.product
  · have hj := hlt j hj
    rwa [List.length_flatten, List.map_map] at hj
  · rw [(hpart z (List.mem_of_getElem? hz)).1]

/-! ### Moves led by indices -/

/-- A gather delivers, unless one of its indices names no position. -/
theorem gather_cases {axis : Int} (hf : Forward (.gather axis) [x, indices] out)
    (hm : (OpKind.gather axis).Measured [x.info, indices.info] out) : Delivered (.gather axis) [x, indices] out ∨
      ∃ a, Index.axis axis x.dims.length = .ok a ∧ ∃ v ∈ indices.values, ¬ Names (x.dims.getD a 0) v ∧
        plan (.gather axis) [x, indices] out = .execution (.indexOutOfRange (Scalar.truncate v) (x.dims.getD a 0)) := by
  obtain ⟨a, hlt, haxis, hint, hout⟩ := OpKind.infer_gather hf.infers
  obtain ⟨hdtype, hspans⟩ : x.info.dtype = out.dtype ∧ Spans x.dims := by
    obtain ⟨⟨d, i⟩, hoperands, h⟩ := Outcome.bind_eq_ok.1 hf.infers
    cases hoperands
    obtain ⟨_, -, h⟩ := Outcome.bind_eq_ok.1 h
    obtain ⟨_, -, h⟩ := Outcome.bind_eq_ok.1 h
    obtain ⟨_, -, h⟩ := Outcome.bind_eq_ok.1 h
    cases h
    exact ⟨rfl, hm.operands _ (by simp)⟩
  have hrank : x.dims.length = x.info.rank := Shape.length_dims _
  have hlt' : a < x.dims.length := hrank ▸ hlt
  have ha : Index.axis axis x.dims.length = .ok a := hrank ▸ haxis
  have hl := Index.Lanes.ofAxis_total hlt' hspans
  have hx := (hf.complete x (by simp)).length_eq
  rcases Operand.positions_cases hint (x.dims.getD a 0) with ⟨picked, hpicked, hlen, hbound⟩ | ⟨v, hv, hfree, herror⟩
  · rw [(hf.complete indices (by simp)).length_eq] at hlen
    have hcount := product_gathered (x := x) hout hm.result hlen
    have htargets : ∀ t ∈ Index.Lanes.targets ⟨volume (x.dims.take a), x.dims.getD a 0, volume (x.dims.drop (a + 1))⟩ picked,
        t < volume x.dims := by
      rw [volume_split hlt']
      exact Index.Lanes.targets_lt hbound
    have hplan : plan (.gather axis) [x, indices] out = .ok (.move [0] .zero (.ok ((Index.Lanes.targets
        ⟨volume (x.dims.take a), x.dims.getD a 0, volume (x.dims.drop (a + 1))⟩ picked).map some))) := by
      change (gatherSources axis x indices >>= _) = _
      rw [gatherSources_total ha hl hpicked hspans htargets hcount hm.room]
      rfl
    refine .inl (delivered_move hplan hdtype hm.result ?_ fun j hj => ?_)
    · rw [List.length_map, Index.Lanes.length_targets, Word.product_eq hcount]
      simp
    · obtain ⟨t, ht, heq⟩ := List.mem_map.1 hj
      exact Option.some.inj heq ▸ hx ▸ htargets t ht
  · refine .inr ⟨a, ha, v, hv, hfree, ?_⟩
    change (gatherSources axis x indices >>= _) = _
    have hsources : gatherSources axis x indices = .execution (.indexOutOfRange (Scalar.truncate v) (x.dims.getD a 0)) := by
      unfold gatherSources
      simp only [ha, hl, herror, bind, Except.bind]
      rfl
    rw [hsources]
    rfl

/-- Updates stand behind the elements that they are written over. -/
theorem scatterSources_total {n : Nat} {targets : List Nat} (h : ∀ t ∈ targets, t < n) :
    ∃ l, scatterSources n targets = .ok l ∧ l.length = n ∧ ∀ j, some j ∈ l → j < n + targets.length := by
  have hset : ∀ (writes : List (Nat × Nat)) (l : Sources), (∀ w ∈ writes, w.2 < targets.length) →
      (∀ j, some j ∈ l → j < n + targets.length) →
        (writes.foldl (fun l t => l.set t.1 (some (n + t.2))) l).length = l.length ∧
          ∀ j, some j ∈ writes.foldl (fun l t => l.set t.1 (some (n + t.2))) l → j < n + targets.length := by
    intro writes
    induction writes with
    | nil => exact fun l _ hl => ⟨rfl, hl⟩
    | cons w writes ih =>
      intro l hwrites hl
      obtain ⟨hlen, hall⟩ := ih (l.set w.1 (some (n + w.2))) (fun w' hw' => hwrites w' (List.mem_cons_of_mem w hw'))
        fun j hj => by
          rcases List.mem_or_eq_of_mem_set hj with hj | hj
          · exact hl j hj
          · have := hwrites w List.mem_cons_self
            rw [Option.some.inj hj]
            omega
      exact ⟨hlen.trans List.length_set, hall⟩
  obtain ⟨hlen, hall⟩ := hset targets.zipIdx ((List.range n).map some) (fun w hw => by
    have := List.snd_lt_of_mem_zipIdx hw
    omega) fun j hj => by
      obtain ⟨i, hi, heq⟩ := List.mem_map.1 hj
      have := List.mem_range.1 hi
      rw [← Option.some.inj heq]
      omega
  refine ⟨_, ?_, hlen.trans (by rw [List.length_map, List.length_range]), hall⟩
  rw [scatterSources, Operand.requireIndices, if_pos (List.all_eq_true.2 fun t ht => decide_eq_true (h t ht))]
  rfl

/-- A scatter has a plan that delivers, unless one of its indices names no position on the axis, or one stands where the data
has no position off the axis. -/
theorem scatter_cases {axis : Int} {updates : Operand R} (hf : Forward (.scatter axis) [x, indices, updates] out)
    (hrank : x.info.shape ≠ []) (hm : (OpKind.scatter axis).Measured [x.info, indices.info, updates.info] out) :
    (∃ l, plan (.scatter axis) [x, indices, updates] out = .ok (.move [0, 2] .zero (.ok l)) ∧ out = x.info ∧
        l.length = volume x.dims ∧ ∀ j, some j ∈ l → j < x.values.length + updates.values.length) ∨
      ∃ a, Index.axis axis x.dims.length = .ok a ∧
        ((∃ v ∈ indices.values, ¬ Names (x.dims.getD a 0) v ∧ plan (.scatter axis) [x, indices, updates] out =
            .execution (.indexOutOfRange (Scalar.truncate v) (x.dims.getD a 0))) ∨
          ∃ c ∈ Index.coords indices.dims, ∃ b ≠ a, b < x.dims.length ∧ x.dims.getD b 0 ≤ c.getD b 0 ∧
            plan (.scatter axis) [x, indices, updates] out = .execution (.scatterPosition (c.getD b 0) b)) := by
  obtain ⟨hout, hint, hshapes, hranks⟩ := infer_scatter_infos hf.infers
  obtain ⟨a, ha⟩ : ∃ a, x.info.shape.axis axis = .ok a := by
    obtain ⟨⟨d, i, u⟩, hoperands, h⟩ := Outcome.bind_eq_ok.1 hf.infers
    cases OpKind.operand3_ok hoperands
    obtain ⟨_, -, h⟩ := Outcome.bind_eq_ok.1 h
    obtain ⟨a, ha, -⟩ := Outcome.bind_eq_ok.1 h
    exact ⟨a, ha⟩
  obtain ⟨hfront, hlt⟩ := OpKind.axis_ok ha hrank
  have hlen : x.dims.length = x.info.shape.length := Shape.length_dims _
  have hdims : indices.dims.length = x.dims.length :=
    (Shape.length_dims _).trans (hranks.trans hlen.symm)
  have haxis := Index.axis_eq (hlen ▸ hlt) (hlen ▸ hfront)
  have hupdates : updates.values.length = indices.values.length := by
    rw [(hf.complete updates (by simp)).length_eq, (hf.complete indices (by simp)).length_eq, Operand.dims, Operand.dims,
      TensorInfo.dims, TensorInfo.dims, hshapes]
  have hx := (hf.complete x (by simp)).length_eq
  have hplan : plan (.scatter axis) [x, indices, updates] out = (do
      let targets ← scatterTargets axis x.dims indices
      return .move [0, 2] .zero (.ok (← scatterSources x.values.length targets))) := rfl
  rw [hplan]
  rcases scatterTargets_cases haxis (hm.operands x.info (by simp)).steps hint hdims (hf.complete indices (by simp)) with
    ⟨targets, htargets, hcount, hbound⟩ | ⟨v, hv, hfree, herror⟩ | ⟨c, hc, b, hne, hb, hle, herror⟩
  · obtain ⟨l, hl, hlength, hsources⟩ := scatterSources_total fun t ht => hx ▸ hbound t ht
    refine .inl ⟨l, ?_, hout, hlength.trans hx, hupdates.trans hcount.symm ▸ hsources⟩
    rw [htargets]
    change (scatterSources x.values.length targets >>= _) = _
    rw [hl]
    rfl
  · exact .inr ⟨a, haxis, .inl ⟨v, hv, hfree, by rw [herror]; rfl⟩⟩
  · exact .inr ⟨a, haxis, .inr ⟨c, hc, b, hne, hb, hle, by rw [herror]; rfl⟩⟩

/-- All kinds that stand in models and are not led by indices deliver. -/
theorem delivered (hk : kind.inModels = true) (hgather : ∀ axis, kind ≠ .gather axis) (hscatter : ∀ axis, kind ≠ .scatter axis)
    (hf : Forward kind xs out) (haxis : kind.HasAxis (xs.map (·.info)))
    (hm : kind.counts = true → kind.Measured (xs.map (·.info)) out) : Delivered kind xs out := by
  have hone : ∀ {i : TensorInfo}, xs.map (·.info) = [i] → ∃ x, xs = [x] ∧ x.info = i := fun h => by
    obtain ⟨x, rest, rfl, hx, hrest⟩ := List.map_eq_cons_iff.1 h
    exact ⟨x, by rw [List.map_eq_nil_iff.1 hrest], hx⟩
  cases kind with
  | identity =>
    obtain ⟨x, rfl, rfl⟩ := hone (OpKind.infer_identity hf.infers)
    exact delivered_relabel rfl rfl (hf.complete x (by simp))
  | reshape shape =>
    obtain ⟨-, i, hi, -⟩ := OpKind.infer_reshape hf.infers
    obtain ⟨x, rfl, rfl⟩ := hone hi
    obtain ⟨hout, hcount⟩ := infer_reshape_counted hf.infers
    exact delivered_relabel rfl (by rw [hout]; rfl) (hcount.trans (hf.complete x (by simp)))
  | unary u =>
    obtain ⟨x, rfl, -⟩ := hone (OpKind.infer_unary hf.infers)
    exact delivered_unary hf
  | binary b =>
    obtain ⟨i, j, s, hij, -, -⟩ := OpKind.infer_binary hf.infers
    obtain ⟨x₀, rest, rfl, -, hrest⟩ := List.map_eq_cons_iff.1 hij
    obtain ⟨x₁, rest, rfl, -, hrest⟩ := List.map_eq_cons_iff.1 hrest
    obtain rfl := List.map_eq_nil_iff.1 hrest
    exact delivered_elementwise (by simp) hf.complete rfl (hm rfl) (stretches_binary hf)
  | sum =>
    have hne : xs ≠ [] := by
      rintro rfl
      cases hf.infers
    exact delivered_elementwise hne hf.complete rfl (hm rfl) (stretches_sum hf)
  | softmax axis =>
    obtain ⟨x, rfl, -⟩ := hone (OpKind.infer_softmax hf.infers)
    exact delivered_softmax hf (haxis x.info rfl) (hm rfl)
  | matMul =>
    obtain ⟨i, j, m, k, n, hij, -, -, -⟩ := OpKind.infer_matMul hf.infers
    obtain ⟨a, rest, rfl, -, hrest⟩ := List.map_eq_cons_iff.1 hij
    obtain ⟨b, rest, rfl, -, hrest⟩ := List.map_eq_cons_iff.1 hrest
    obtain rfl := List.map_eq_nil_iff.1 hrest
    exact delivered_matMul hf (hm rfl)
  | reduceSum axes keepDims =>
    obtain ⟨i, hi, -⟩ := Outcome.bind_eq_ok.1 hf.infers
    obtain ⟨x, rfl, -⟩ := hone (OpKind.operand1_ok hi)
    exact delivered_reduceSum hf (hm rfl)
  | transpose perm =>
    obtain ⟨i, s, hi, -, -⟩ := OpKind.infer_transpose hf.infers
    obtain ⟨x, rfl, -⟩ := hone hi
    exact delivered_transpose hf (hm rfl)
  | slice starts ends axes =>
    obtain ⟨i, ranges, hi, -, -⟩ := OpKind.infer_slice hf.infers
    obtain ⟨x, rfl, -⟩ := hone hi
    exact delivered_slice hf (hm rfl)
  | pad pads value =>
    obtain ⟨i, s, hi, -, -⟩ := OpKind.infer_pad hf.infers
    obtain ⟨x, rfl, -⟩ := hone hi
    exact delivered_pad hf (hm rfl)
  | concat axis => exact delivered_concat hf haxis (hm rfl)
  | gather axis => exact absurd rfl (hgather axis)
  | scatter axis => exact absurd rfl (hscatter axis)
  | _ => cases hk

end Kernel

/-! ## Stored tensors -/

namespace Backend

variable {kind : OpKind} {inputs : List HostTensor} {out : TensorInfo} {p : Plan Double}

theorem map_info_operand : (inputs.map operand).map (·.info) = inputs.map (·.info) := List.map_map

/-- Valid tensors make a call whose result was inferred. -/
theorem forward_of_checked (hvalid : ∀ t ∈ inputs, t.Checked) (hsized : ∀ t ∈ inputs, t.info.shape.Sized)
    (hinfer : kind.infer (inputs.map (·.info)) = .ok out) : Forward kind (inputs.map operand) out := by
  refine ⟨map_info_operand.symm ▸ hinfer, fun x hx => ?_, fun x hx => ?_⟩
  · obtain ⟨t, ht, rfl⟩ := List.mem_map.1 hx
    rw [Operand.Complete, operand, Storage.length_toDoubles]
    exact (hvalid t ht).counted
  · obtain ⟨t, ht, rfl⟩ := List.mem_map.1 hx
    exact hsized t ht

theorem mapM_getElem?_operand {pool : List Nat} :
    pool.mapM ((inputs.map operand)[·]?) = (pool.mapM (inputs[·]?)).map (List.map operand) := by
  induction pool with
  | nil => rfl
  | cons i pool ih =>
    rw [List.mapM_cons, List.mapM_cons, ih, List.getElem?_map]
    cases inputs[i]? with
    | none => rfl
    | some t => cases pool.mapM (inputs[·]?) <;> rfl

/-- A plan that delivers gives a valid tensor, if the elements that it keeps have the width of the result. -/
theorem run_of_delivers (hvalid : ∀ t ∈ inputs, t.Checked) (hplan : plan kind (inputs.map operand) out = .ok p)
    (hd : p.Delivers (inputs.map operand) out) (hfits : p.Fits (inputs.map operand) out) :
    ∃ y, run kind inputs out = .ok y ∧ y.info = out ∧ y.data.kind = out.dtype.storage ∧ out.counted = .ok y.data.length := by
  cases p with
  | relabel =>
    obtain ⟨x, hx, hcount⟩ := hd
    obtain ⟨t, rest, rfl, rfl, hrest⟩ := List.map_eq_cons_iff.1 hx
    rw [operand, Storage.length_toDoubles] at hcount
    exact ⟨⟨out, t.data⟩, run_eq_ok.2 ⟨hcount, _, hplan, rfl⟩, rfl,
      (hvalid t (by simp)).kind.trans (hfits (operand t) (by simp)), hcount⟩
  | move pool fill sources =>
    obtain ⟨operands, l, hoperands, hne, rfl, hcount, hlt⟩ := hd
    rw [mapM_getElem?_operand, Option.map_eq_some_iff] at hoperands
    obtain ⟨parts, hparts, rfl⟩ := hoperands
    have hkind : ∀ t ∈ parts, t.data.kind = out.dtype.storage := by
      intro t ht
      obtain ⟨i, hi, hget⟩ := exists_of_forall₂ (mapM_eq_some_iff.1 hparts).flip t ht
      rw [(hvalid t (List.mem_of_getElem? hget)).kind]
      exact hfits i hi (operand t) (by rw [List.getElem?_map, hget]; rfl)
    obtain ⟨s, hs, hskind, hscells⟩ := pooled_total hparts (fun h => hne (by rw [h]; rfl)) hkind
    have hlength : s.length = ((parts.map operand).map (·.values.length)).sum := by
      rw [← Storage.length_cells, hscells, List.length_flatten, List.map_map, List.map_map]
      refine congrArg List.sum (List.map_congr_left fun t _ => ?_)
      simp [operand]
    obtain ⟨y, hy⟩ := @Storage.take_total s (.ofSingle fill) l fun j hj => hlength ▸ hlt j hj
    obtain ⟨hykind, hpick⟩ := Storage.take_eq_ok.1 hy
    have hylen : y.length = l.length := (Storage.length_cells y).symm.trans (Storage.length_pick hpick)
    rw [← hylen] at hcount
    refine ⟨⟨out, y⟩, run_eq_ok.2 ⟨hcount, _, hplan, ?_⟩, rfl, hykind.trans hskind, hcount⟩
    exact Outcome.bind_eq_ok.2 ⟨s, hs, Outcome.bind_eq_ok.2 ⟨l, rfl, Outcome.bind_eq_ok.2 ⟨y, hy, rfl⟩⟩⟩
  | values result =>
    have hcount : out.counted = .ok (Storage.ofDoubles out.dtype.storage result).length := by
      rw [Storage.length_ofDoubles]
      exact hd
    exact ⟨⟨out, _⟩, run_eq_ok.2 ⟨hcount, _, hplan, runPlan_values.2 ⟨hd, rfl⟩⟩, rfl, Storage.kind_ofDoubles _ _, hcount⟩

/-- Elements of different widths are not put behind each other. -/
theorem run_of_widths {data indices updates : HostTensor} {fill : Single} {sources : Outcome Sources}
    (hplan : plan kind ([data, indices, updates].map operand) out = .ok (.move [0, 2] fill sources))
    (h : updates.data.kind ≠ data.data.kind) : run kind [data, indices, updates] out = .execution .storageKinds := by
  have hpooled : pooled [data, indices, updates] [0, 2] = .execution .storageKinds := by
    change (data.data.append updates.data >>= fun s => pure s) = _
    rw [Storage.append_error h.symm]
    rfl
  unfold run
  rw [hplan]
  change ((pooled [data, indices, updates] [0, 2] >>= _) >>= _) = _
  rw [hpooled]
  rfl

theorem run_of_plan_error {e : Failure} (h : plan kind (inputs.map operand) out = .error e) :
    run kind inputs out = .error e := by
  rw [run, h]
  rfl

/-- Why gathering and scattering refuse operands that shape inference accepts: an index that names no position on the axis,
an index that stands where the data has no position off the axis, or updates of another width than the data. -/
inductive Refuses : OpKind → List HostTensor → ExecutionError → Prop
  | gathered {axis : Int} {a : Nat} {data indices : HostTensor} {v : Double}
      (haxis : Index.axis axis data.info.rank = .ok a) (hv : v ∈ indices.data.toDoubles)
      (hfree : ¬ Names (data.info.dims.getD a 0) v) :
      Refuses (.gather axis) [data, indices] (.indexOutOfRange (Scalar.truncate v) (data.info.dims.getD a 0))
  | scattered {axis : Int} {a : Nat} {data indices updates : HostTensor} {v : Double}
      (haxis : Index.axis axis data.info.rank = .ok a) (hv : v ∈ indices.data.toDoubles)
      (hfree : ¬ Names (data.info.dims.getD a 0) v) :
      Refuses (.scatter axis) [data, indices, updates] (.indexOutOfRange (Scalar.truncate v) (data.info.dims.getD a 0))
  | apart {axis : Int} {a b : Nat} {data indices updates : HostTensor} {c : List Nat}
      (haxis : Index.axis axis data.info.rank = .ok a) (hc : Index.Within c indices.info.dims) (hne : b ≠ a)
      (hb : b < data.info.rank) (hout : data.info.dims.getD b 0 ≤ c.getD b 0) :
      Refuses (.scatter axis) [data, indices, updates] (.scatterPosition (c.getD b 0) b)
  | widths {axis : Int} {data indices updates : HostTensor} (h : updates.data.kind ≠ data.data.kind) :
      Refuses (.scatter axis) [data, indices, updates] .storageKinds

/-- On valid operands that shape inference accepts, a run gives what was inferred, or gathering or scattering refuses. -/
theorem run_cases (hk : kind.inModels = true) (hvalid : ∀ t ∈ inputs, t.Checked)
    (hsized : ∀ t ∈ inputs, t.info.shape.Sized) (hinfer : kind.infer (inputs.map (·.info)) = .ok out)
    (haxis : kind.HasAxis (inputs.map (·.info))) (hm : kind.counts = true → kind.Measured (inputs.map (·.info)) out) :
    (∃ y, run kind inputs out = .ok y ∧ y.info = out ∧ y.data.kind = out.dtype.storage ∧
        out.counted = .ok y.data.length) ∨ ∃ e, run kind inputs out = .execution e ∧ Refuses kind inputs e := by
  have hf := forward_of_checked hvalid hsized hinfer
  have hrank : ∀ t : HostTensor, (operand t).dims.length = t.info.rank := fun t => Shape.length_dims _
  by_cases hgather : ∃ axis, kind = .gather axis
  · obtain ⟨axis, rfl⟩ := hgather
    obtain ⟨⟨i, j⟩, hij, -⟩ := Outcome.bind_eq_ok.1 hinfer
    obtain ⟨data, rest, rfl, -, hrest⟩ := List.map_eq_cons_iff.1 (OpKind.operand2_ok hij)
    obtain ⟨indices, rest, rfl, -, hrest⟩ := List.map_eq_cons_iff.1 hrest
    obtain rfl := List.map_eq_nil_iff.1 hrest
    rcases gather_cases hf (hm rfl) with ⟨p, hplan, hd, hfits⟩ | ⟨a, ha, v, hv, hfree, hplan⟩
    · exact .inl (run_of_delivers hvalid hplan hd hfits)
    · exact .inr ⟨_, run_of_plan_error hplan, .gathered (hrank data ▸ ha) hv hfree⟩
  by_cases hscatter : ∃ axis, kind = .scatter axis
  · obtain ⟨axis, rfl⟩ := hscatter
    obtain ⟨⟨i, j, k⟩, hijk, -⟩ := Outcome.bind_eq_ok.1 hinfer
    obtain ⟨data, rest, rfl, -, hrest⟩ := List.map_eq_cons_iff.1 (OpKind.operand3_ok hijk)
    obtain ⟨indices, rest, rfl, -, hrest⟩ := List.map_eq_cons_iff.1 hrest
    obtain ⟨updates, rest, rfl, -, hrest⟩ := List.map_eq_cons_iff.1 hrest
    obtain rfl := List.map_eq_nil_iff.1 hrest
    rcases scatter_cases hf (haxis data.info rfl) (hm rfl) with
      ⟨l, hplan, hout, hlen, hlt⟩ | ⟨a, ha, ⟨v, hv, hfree, hplan⟩ | ⟨c, hc, b, hne, hb, hle, hplan⟩⟩
    · by_cases hwidths : updates.data.kind = data.data.kind
      swap
      · exact .inr ⟨_, run_of_widths hplan hwidths, .widths hwidths⟩
      refine .inl (run_of_delivers hvalid hplan ⟨[operand data, operand updates], l, rfl, by simp, rfl, ?_, by simpa using hlt⟩
        fun i hi z hz => ?_)
      · rw [hlen, hout]
        exact (hm rfl).operands data.info (by simp) |>.product
      · have hdata : data.info.dtype.storage = out.dtype.storage := by rw [hout]; rfl
        rcases List.mem_pair.1 hi with rfl | rfl
        · cases hz
          exact hdata
        · cases hz
          rw [← hdata]
          exact (hvalid updates (by simp)).kind.symm.trans (hwidths.trans (hvalid data (by simp)).kind)
    · exact .inr ⟨_, run_of_plan_error hplan, .scattered (hrank data ▸ ha) hv hfree⟩
    · exact .inr ⟨_, run_of_plan_error hplan,
        .apart (hrank data ▸ ha) (Index.within_of_mem_coords hc) hne (hrank data ▸ hb) hle⟩
  · push Not at hgather hscatter
    obtain ⟨p, hplan, hd, hfits⟩ := delivered hk hgather hscatter hf (map_info_operand.symm ▸ haxis)
      (map_info_operand.symm ▸ hm)
    exact .inl (run_of_delivers hvalid hplan hd hfits)

/-- Kernels deliver what shape inference promised: on valid tensors without extents below zero, whose infos an op that can
stand in a model accepts and whose sizes can be counted, the reference backend gives a tensor of the inferred info, in the
width of its type and with all its elements. Only gathering and scattering may refuse instead. -/
theorem reference_delivers (name : String) (hk : kind.inModels = true) (hvalid : ∀ t ∈ inputs, t.Checked)
    (hsized : ∀ t ∈ inputs, t.info.shape.Sized) (hinfer : kind.infer (inputs.map (·.info)) = .ok out)
    (haxis : kind.HasAxis (inputs.map (·.info))) (hm : kind.counts = true → kind.Measured (inputs.map (·.info)) out) :
    (∃ y, (reference name).execute kind inputs [out] = .ok [y] ∧ y.info = out ∧ y.data.kind = out.dtype.storage ∧
        out.counted = .ok y.data.length) ∨
      ∃ e, (reference name).execute kind inputs [out] = .execution e ∧ Refuses kind inputs e := by
  have hexecute : (reference name).execute kind inputs [out] = do return [← run kind inputs out] := rfl
  rw [hexecute]
  refine (run_cases hk hvalid hsized hinfer haxis hm).imp ?_ ?_
  · rintro ⟨y, hy, hinfo, hkind, hcount⟩
    exact ⟨y, by rw [hy]; rfl, hinfo, hkind, hcount⟩
  · rintro ⟨e, he, hrefuses⟩
    exact ⟨e, by rw [he]; rfl, hrefuses⟩

/-- A matrix. -/
def sampleMatrix : HostTensor := ⟨⟨.float, [2, 3]⟩, .f32 [.one, .zero, .two, .zero, .one, .two]⟩

/-- A slice whose axis and start are counted from the end, and that ends behind the last position. -/
theorem reference_delivers_slice : ∃ y,
    (reference "cpu").execute (.slice [-2] [9] [-1]) [sampleMatrix] [⟨.float, [2, 2]⟩] = .ok [y] ∧
      y.info = ⟨.float, [2, 2]⟩ ∧ y.data.kind = .f32 ∧ TensorInfo.counted ⟨.float, [2, 2]⟩ = .ok y.data.length := by
  have hvalid : ∀ t ∈ [sampleMatrix], t.Checked := fun t ht => List.mem_singleton.1 ht ▸ rfl
  have hsized : ∀ t ∈ [sampleMatrix], t.info.shape.Sized := by
    intro t ht
    rw [List.mem_singleton.1 ht]
    exact (by decide : ∀ d ∈ sampleMatrix.info.shape, (0 : Int) ≤ d)
  have hmeasured : (OpKind.slice [-2] [9] [-1]).counts = true →
      (OpKind.slice [-2] [9] [-1]).Measured ([sampleMatrix].map (·.info)) ⟨.float, [2, 2]⟩ := fun _ => by
    refine ⟨fun i hi => ?_, Roomy.spans (by decide), by decide⟩
    rw [List.mem_singleton.1 hi]
    exact Roomy.spans (by decide)
  have haxis : (OpKind.slice [-2] [9] [-1]).HasAxis ([sampleMatrix].map (·.info)) := trivial
  rcases reference_delivers "cpu" rfl hvalid hsized rfl haxis hmeasured with h | ⟨e, -, hrefuses⟩
  · exact h
  · cases hrefuses

/-- A sum over a valid tensor that shape inference accepts can abort: it has no element, but its strides cannot be counted. -/
theorem sum_vast : vastTarget.Checked ∧ vastTarget.info.shape.Sized ∧ OpKind.sum.infer [vastTarget.info] = .ok vastTarget.info ∧
    (reference "cpu").execute .sum [vastTarget] [vastTarget.info] = .error .abort :=
  ⟨rfl, (by decide : ∀ d ∈ vastTarget.info.shape, (0 : Int) ≤ d), rfl, rfl⟩

end Backend

end TensorGraph
