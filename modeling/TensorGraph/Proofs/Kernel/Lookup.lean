import Mathlib.Tactic.LinearCombination
import TensorGraph.Op.Infer
import TensorGraph.Proofs.Kernel.Linear
import TensorGraph.Proofs.Op.Infer

/-!
Kernels that are led by a tensor of indices. Scattering writes updates one after the other, and the last one for a
position stays. Its gradients treat all updates alike, so they miss being adjoint by what was overwritten. Main
statement: the two sides of the law differ by exactly the overwritten updates, paired with the gradient.
-/
namespace TensorGraph

/-- An index that names a position on an axis of the given extent, from its start or from its end. -/
def Names {R : Type} [Scalar R] (extent : Nat) (v : R) : Prop :=
  -(extent : Int) ≤ Scalar.truncate v ∧ Scalar.truncate v < extent

section Positions

variable {R : Type} [Scalar R] {indices : Operand R} {extent : Nat} {v : R}

/-- The position that one index names. -/
def Operand.position (extent : Nat) (v : R) : Outcome Nat :=
  let raw := Scalar.truncate v
  let index := if raw < 0 then raw + extent else raw
  if index < 0 ∨ index ≥ extent then .execution (.indexOutOfRange raw extent) else .ok index.toNat

namespace Operand

theorem positions_eq (hint : indices.info.dtype.isFloat = false) :
    indices.positions extent = indices.values.mapM (position extent) := by
  rw [positions, hint]
  rfl

theorem position_of_names (h : Names extent v) : ∃ k, k < extent ∧ position extent v = .ok k := by
  obtain ⟨hlow, hhigh⟩ := h
  by_cases hneg : Scalar.truncate v < 0
  · refine ⟨(Scalar.truncate v + extent).toNat, by omega, ?_⟩
    simp only [position, hneg, if_true]
    rw [if_neg (by omega)]
  · refine ⟨(Scalar.truncate v).toNat, by omega, ?_⟩
    simp only [position, hneg, if_false, false_or]
    rw [if_neg (not_le.2 hhigh)]

theorem position_of_not_names (h : ¬ Names extent v) :
    position extent v = .execution (.indexOutOfRange (Scalar.truncate v) extent) := by
  rw [Names, not_and_or] at h
  by_cases hneg : Scalar.truncate v < 0
  · simp only [position, hneg, if_true]
    exact if_pos (by omega)
  · simp only [position, hneg, if_false]
    exact if_pos (by omega)

/-- Indices that all name positions give one for each. -/
theorem positions_of_names (hint : indices.info.dtype.isFloat = false) (hnamed : ∀ v ∈ indices.values, Names extent v) :
    ∃ picked, indices.positions extent = .ok picked ∧ picked.length = indices.values.length ∧ ∀ k ∈ picked, k < extent := by
  have hall : ∀ v ∈ indices.values, ∃ k, k < extent ∧ position extent v = .ok k := fun v hv => position_of_names (hnamed v hv)
  choose! w hw using hall
  refine ⟨indices.values.map w, ?_, List.length_map .., fun k hk => ?_⟩
  · rw [positions_eq hint]
    exact Outcome.mapM_of_forall fun v hv => (hw v hv).2
  · obtain ⟨v, hv, rfl⟩ := List.mem_map.1 hk
    exact (hw v hv).1

/-- Of whole numbers as indices either all name positions, or one that names none is refused. -/
theorem positions_cases (hint : indices.info.dtype.isFloat = false) (extent : Nat) :
    (∃ picked, indices.positions extent = .ok picked ∧ picked.length = indices.values.length ∧ ∀ k ∈ picked, k < extent) ∨
      ∃ v ∈ indices.values, ¬ Names extent v ∧
        indices.positions extent = .execution (.indexOutOfRange (Scalar.truncate v) extent) := by
  by_cases hnamed : ∀ v ∈ indices.values, Names extent v
  · exact .inl (positions_of_names hint hnamed)
  · right
    push Not at hnamed
    obtain ⟨w, hw, hfree⟩ := hnamed
    rw [positions_eq hint]
    rcases Outcome.mapM_cases (position extent) indices.values with ⟨m, hm⟩ | ⟨v, hv, e, he, hl⟩
    · obtain ⟨k, -, hk⟩ := exists_of_forall₂ (Outcome.mapM_eq_ok.1 hm) w hw
      cases (position_of_not_names hfree).symm.trans hk
    · have hnot : ¬ Names extent v := fun hname => by
        obtain ⟨k, -, hk⟩ := position_of_names hname
        cases he.symm.trans hk
      cases he.symm.trans (position_of_not_names hnot)
      exact ⟨v, hv, hnot, hl⟩

end Operand

end Positions

namespace Kernel

/-! ## Targets of a scatter -/

section Targets

variable {R : Type} [Scalar R]

/-- A coordinate with as many entries as there are extents either has a target, or an entry off the axis that is none of
the positions. -/
theorem scatterTarget_cases {axis k : Nat} : ∀ {c dims : List Nat} {here : Nat}, c.length = dims.length →
    (∀ b, here + b = axis → b < dims.length → k < dims.getD b 0) →
    (∃ t < volume dims, scatterTarget axis k here c dims (Index.strides dims) = .ok t) ∨
      ∃ b < dims.length, here + b ≠ axis ∧ dims.getD b 0 ≤ c.getD b 0 ∧
        scatterTarget axis k here c dims (Index.strides dims) = .execution (.scatterPosition (c.getD b 0) (here + b))
  | [], [], here, _, _ => .inl ⟨0, Nat.one_pos, rfl⟩
  | x :: c, d :: dims, here, hlen, hk => by
    have hstep : scatterTarget axis k here (x :: c) (d :: dims) (Index.strides (d :: dims)) =
        (if (if here = axis then k else x) ≥ d then
          .execution (.scatterPosition (if here = axis then k else x) here)
        else do
          let rest ← scatterTarget axis k (here + 1) c dims (Index.strides dims)
          return (if here = axis then k else x) * volume dims + rest) := rfl
    rw [hstep]
    by_cases hout : (if here = axis then k else x) ≥ d
    · have hne : here ≠ axis := by
        rintro rfl
        rw [if_pos rfl] at hout
        exact absurd (hk 0 rfl (Nat.succ_pos _)) (Nat.not_lt.2 hout)
      rw [if_neg hne] at hout ⊢
      exact .inr ⟨0, Nat.succ_pos _, hne, hout, if_pos hout⟩
    · rw [if_neg hout]
      have hbehind : ∀ b, here + 1 + b = axis → b < dims.length → k < dims.getD b 0 := fun b hb hlt =>
        hk (b + 1) (by omega) (Nat.succ_lt_succ hlt)
      rcases scatterTarget_cases (Nat.succ.inj hlen) hbehind with ⟨t, ht, hrest⟩ | ⟨b, hb, hne, hle, hrest⟩
      · rw [hrest]
        refine .inl ⟨_, ?_, rfl⟩
        calc (if here = axis then k else x) * volume dims + t
            < (if here = axis then k else x) * volume dims + volume dims := Nat.add_lt_add_left ht _
          _ = ((if here = axis then k else x) + 1) * volume dims := (Nat.succ_mul _ _).symm
          _ ≤ volume (d :: dims) := Nat.mul_le_mul_right _ (Nat.not_le.1 hout)
      · rw [hrest]
        refine .inr ⟨b + 1, Nat.succ_lt_succ hb, by omega, hle, ?_⟩
        rw [show here + (b + 1) = here + 1 + b by omega]
        rfl

theorem scatterTargets_eq {axis : Int} {a : Nat} {dims steps : List Nat} {indices : Operand R}
    (haxis : Index.axis axis dims.length = .ok a) (hsteps : Index.steps dims = .ok steps)
    (hrank : indices.dims.length = dims.length) :
    scatterTargets axis dims indices = indices.positions (dims.getD a 0) >>= fun picked =>
      ((Index.firstCoords indices.dims picked.length).zip picked).mapM fun p =>
        scatterTarget a p.2 0 p.1 dims (Index.strides dims) := by
  obtain ⟨hlt, -⟩ := Index.axis_ok haxis
  cases Index.steps_ok hsteps
  have hextent : dims[a]? = some (dims.getD a 0) := by simp [hlt, List.getD_eq_getElem?_getD]
  unfold scatterTargets
  rw [haxis]
  simp only [bind, Except.bind]
  rw [if_neg (by rw [hrank]; simp), hextent, hsteps]
  rfl

/-- What the positions read for the indices are paired with: a coordinate of an index, and the position is on the axis. -/
theorem mem_coords_of_mem_zip {extent : Nat} {dims picked : List Nat} (hbound : ∀ k ∈ picked, k < extent) {p : List Nat × Nat}
    (hp : p ∈ (Index.firstCoords dims picked.length).zip picked) :
    p.1 ∈ Index.coords dims ∧ p.1.length = dims.length ∧ p.2 < extent := by
  obtain ⟨hc, hk⟩ := List.of_mem_zip hp
  rw [Index.firstCoords_eq_take] at hc
  have hc := List.mem_of_mem_take hc
  exact ⟨hc, (Index.within_of_mem_coords hc).length_eq, hbound _ hk⟩

/-- Every index names a position, and each stands within the data off the axis. -/
structure InRange (a : Nat) (dims : List Nat) (indices : Operand R) : Prop where
  named : ∀ v ∈ indices.values, Names (dims.getD a 0) v
  within : ∀ c ∈ Index.coords indices.dims, Index.Within (c.set a 0) (dims.set a 1)

/-- Indices on as many axes as the data either have a target each, or one of them names no position on the axis, or one
stands where the data has no position off the axis. -/
theorem scatterTargets_cases {axis : Int} {a : Nat} {dims steps : List Nat} {indices : Operand R}
    (haxis : Index.axis axis dims.length = .ok a) (hsteps : Index.steps dims = .ok steps) (hint : indices.info.dtype.isFloat = false)
    (hrank : indices.dims.length = dims.length) (hindices : indices.Complete) :
    (∃ targets, scatterTargets axis dims indices = .ok targets ∧ targets.length = indices.values.length ∧
        ∀ t ∈ targets, t < volume dims) ∨
      (∃ v ∈ indices.values, ¬ Names (dims.getD a 0) v ∧
        scatterTargets axis dims indices = .execution (.indexOutOfRange (Scalar.truncate v) (dims.getD a 0))) ∨
      ∃ c ∈ Index.coords indices.dims, ∃ b ≠ a, b < dims.length ∧ dims.getD b 0 ≤ c.getD b 0 ∧
        scatterTargets axis dims indices = .execution (.scatterPosition (c.getD b 0) b) := by
  rw [scatterTargets_eq haxis hsteps hrank]
  rcases Operand.positions_cases hint (dims.getD a 0) with ⟨picked, hpicked, hlen, hbound⟩ | ⟨v, hv, hfree, herror⟩
  swap
  · exact .inr (.inl ⟨v, hv, hfree, by rw [herror]; rfl⟩)
  have hcases : ∀ p ∈ (Index.firstCoords indices.dims picked.length).zip picked,
      (∃ t < volume dims, scatterTarget a p.2 0 p.1 dims (Index.strides dims) = .ok t) ∨ ∃ b ≠ a,
        b < dims.length ∧ dims.getD b 0 ≤ p.1.getD b 0 ∧
          scatterTarget a p.2 0 p.1 dims (Index.strides dims) = .execution (.scatterPosition (p.1.getD b 0) b) := by
    intro p hp
    obtain ⟨-, hlen', hk⟩ := mem_coords_of_mem_zip hbound hp
    refine (scatterTarget_cases (hlen'.trans hrank) fun b hb _ => ?_).imp_right ?_
    · rw [Nat.zero_add] at hb
      exact hb ▸ hk
    · rintro ⟨b, hb, hne, hle, h⟩
      rw [Nat.zero_add] at hne h
      exact ⟨b, hne, hb, hle, h⟩
  rw [hpicked]
  change (∃ targets, (((Index.firstCoords indices.dims picked.length).zip picked).mapM fun p =>
    scatterTarget a p.2 0 p.1 dims (Index.strides dims)) = .ok targets ∧ _) ∨ _
  rcases Outcome.mapM_cases (fun p : List Nat × Nat => scatterTarget a p.2 0 p.1 dims (Index.strides dims))
      ((Index.firstCoords indices.dims picked.length).zip picked) with ⟨targets, htargets⟩ | ⟨p, hp, e, he, hl⟩
  · have hall := Outcome.mapM_eq_ok.1 htargets
    refine .inl ⟨targets, htargets, ?_, fun t ht => ?_⟩
    · rw [← hall.length_eq, List.length_zip, Index.firstCoords_eq_take, List.length_take, Index.length_coords, hlen,
        hindices.length_eq, Nat.min_self, Nat.min_self]
    · obtain ⟨p, hp, hok⟩ := exists_of_forall₂ hall.flip t ht
      rcases hcases p hp with ⟨t', ht', hok'⟩ | ⟨b, -, -, -, herror⟩
      · cases hok.symm.trans hok'
        exact ht'
      · cases hok.symm.trans herror
  · rcases hcases p hp with ⟨t', -, hok⟩ | ⟨b, hne, hb, hle, herror⟩
    · cases he.symm.trans hok
    · cases he.symm.trans herror
      exact .inr (.inr ⟨p.1, (mem_coords_of_mem_zip hbound hp).1, b, hne, hb, hle, hl⟩)

/-- Indices that are in range have a target each. -/
theorem scatterTargets_of_inRange {axis : Int} {a : Nat} {dims steps : List Nat} {indices : Operand R}
    (haxis : Index.axis axis dims.length = .ok a) (hsteps : Index.steps dims = .ok steps)
    (hint : indices.info.dtype.isFloat = false) (hrank : indices.dims.length = dims.length) (hindices : indices.Complete)
    (h : InRange a dims indices) : ∃ targets, scatterTargets axis dims indices = .ok targets ∧
      targets.length = indices.values.length ∧ ∀ t ∈ targets, t < volume dims := by
  rcases scatterTargets_cases haxis hsteps hint hrank hindices with
    htargets | ⟨v, hv, hfree, -⟩ | ⟨c, hc, b, hne, hb, hle, -⟩
  · exact htargets
  · exact absurd (h.named v hv) hfree
  · have hlen : b < c.length := ((Index.within_of_mem_coords hc).length_eq.trans hrank).symm ▸ hb
    have hlt := (List.forall₂_iff_get.1 (h.within c hc)).2 b (by simpa using hlen) (by simpa using hb)
    rw [List.getD_eq_getElem _ _ hb, List.getD_eq_getElem _ _ hlen] at hle
    simp only [List.get_eq_getElem, List.getElem_set_ne hne.symm] at hlt
    exact absurd hlt (Nat.not_lt.2 hle)

end Targets

/-! ## Writing one after the other -/

section Writes

variable {R : Type}

/-- Values with others written over them, one after the other. -/
def written (values : List R) (writes : List (Nat × R)) : List R := writes.foldl (fun l w => l.set w.1 w.2) values

@[simp] theorem length_written (writes : List (Nat × R)) (values : List R) : (written values writes).length = values.length := by
  induction writes generalizing values with
  | nil => rfl
  | cons w writes ih => exact (ih (values.set w.1 w.2)).trans List.length_set

/-- Picking from another source at one position is writing there. -/
theorem pick_set {x : List R} {fill v : R} {k : Nat} (hv : x[k]? = some v) :
    ∀ {sources : List (Option Nat)} {y : List R} {t : Nat}, Storage.pick x fill sources = .ok y →
      Storage.pick x fill (sources.set t (some k)) = .ok (y.set t v)
  | [], y, t, h => by
    cases h
    rfl
  | s :: sources, y, t, h => by
    simp only [Storage.pick, Outcome.mapM_eq_ok] at h ⊢
    obtain ⟨w, ys, hw, hys, rfl⟩ := List.forall₂_cons_left_iff.1 h
    cases t with
    | zero =>
      refine .cons ?_ hys
      simp only [List.getElem?_toArray, hv]
      rfl
    | succ t =>
      have hrest := pick_set (t := t) hv (Outcome.mapM_eq_ok.2 hys)
      exact .cons hw (Outcome.mapM_eq_ok.1 hrest)

/-- Picking the first part of a list as it is. -/
theorem pick_front (x rest : List R) (fill : R) :
    Storage.pick (x ++ rest) fill ((List.range x.length).map some) = .ok x := by
  have hpick : Storage.pick (x ++ rest) fill ((List.range x.length).map some) =
      .ok (((List.range x.length).map some).map fun s => s.elim fill fun j => (x ++ rest).getD j fill) := by
    refine Outcome.mapM_of_forall fun s hs => ?_
    obtain ⟨j, hj, rfl⟩ := List.mem_map.1 hs
    have hlt := List.mem_range.1 hj
    simp [hlt, Outcome.orFail, List.getD_eq_getElem?_getD, Nat.lt_add_right]
  rw [hpick, List.map_map]
  congr 1
  refine List.ext_getElem (by simp) fun i hi hi' => ?_
  simp [List.getD_eq_getElem?_getD, List.getElem?_append_left hi', hi']

/-- What a scatter picks is its data with the updates written over them. -/
theorem pick_scatterSources {data updates : List R} {fill : R} {targets : List Nat} {sources : Sources}
    (hlen : targets.length = updates.length) (h : scatterSources data.length targets = .ok sources) :
    Storage.pick (data ++ updates) fill sources = .ok (written data (targets.zip updates)) := by
  obtain ⟨_, -, h⟩ := Outcome.bind_eq_ok.1 h
  cases h
  -- by induction on the targets that are left; `seen` are the updates before them
  have hrun : ∀ (targets : List Nat) (seen left : List R) (l : Sources) (y : List R), updates = seen ++ left →
      targets.length = left.length → Storage.pick (data ++ updates) fill l = .ok y →
      Storage.pick (data ++ updates) fill
        ((targets.zipIdx seen.length).foldl (fun l t => l.set t.1 (some (data.length + t.2))) l) =
          .ok (written y (targets.zip left)) := by
    intro targets
    induction targets with
    | nil =>
      intro seen left l y _ _ hl
      exact hl
    | cons t targets ih =>
      intro seen left l y hsplit hlen hl
      match left, hsplit, hlen with
      | v :: left, hsplit, hlen =>
        have hv : (data ++ updates)[data.length + seen.length]? = some v := by
          rw [hsplit, List.getElem?_append_right (Nat.le_add_right _ _), Nat.add_sub_cancel_left,
            List.getElem?_append_right (Nat.le_refl _), Nat.sub_self, List.getElem?_cons_zero]
        rw [List.zipIdx_cons, List.foldl_cons, List.zip_cons_cons]
        have hnext := ih (seen ++ [v]) left _ _ (by rw [hsplit]; simp) (by simpa using hlen) (pick_set (t := t) hv hl)
        rw [List.length_append, List.length_singleton] at hnext
        exact hnext
  exact hrun targets [] updates _ data rfl hlen (pick_front data updates fill)

end Writes

/-! ## Gradients of a scatter -/

section Law

variable {R : Type} [Field R]

/-- What is written and then written over, paired with a gradient. -/
def overwritten (g : List R) : List (Nat × R) → R
  | [] => 0
  | w :: writes => (if w.1 ∈ writes.map Prod.fst then w.2 * g.getD w.1 0 else 0) + overwritten g writes

/-- Nothing is written over if no position is named twice. -/
theorem overwritten_of_nodup (g : List R) : ∀ {writes : List (Nat × R)}, (writes.map Prod.fst).Nodup →
    overwritten g writes = 0
  | [], _ => rfl
  | w :: writes, h => by
    rw [List.map_cons, List.nodup_cons] at h
    rw [overwritten, if_neg h.1, overwritten_of_nodup g h.2, zero_add]

/-- A gradient without what is written over. -/
def masked (g : List R) (targets : List Nat) : List R := g.zipIdx.map fun (v, i) => if targets.contains i then 0 else v

theorem getD_masked (g : List R) (targets : List Nat) (i : Nat) :
    (masked g targets).getD i 0 = if i ∈ targets then 0 else g.getD i 0 := by
  rw [masked, List.getD_eq_getElem?_getD, List.getElem?_map, List.getElem?_zipIdx, Nat.zero_add]
  cases hg : g[i]? with
  | none => simp [List.getD_eq_getElem?_getD, hg]
  | some v => simp [List.getD_eq_getElem?_getD, hg]

/-- One value written: the sum of products changes at its position. -/
theorem dot_set {x : List R} {t : Nat} (ht : t < x.length) (v : R) (d : List R) :
    dot (x.set t v) d = (∑ i ∈ Finset.range x.length, if i = t then 0 else x.getD i 0 * d.getD i 0) + v * d.getD t 0 := by
  have hone : v * d.getD t 0 = ∑ i ∈ Finset.range x.length, if i = t then v * d.getD t 0 else 0 := by
    rw [Finset.sum_ite_eq', if_pos (Finset.mem_range.2 ht)]
  rw [dot_eq_sum, List.length_set, hone, ← Finset.sum_add_distrib]
  refine Finset.sum_congr rfl fun i _ => ?_
  by_cases hi : i = t
  · subst hi
    simp [List.getD_eq_getElem?_getD, ht]
  · simp [List.getD_eq_getElem?_getD, hi, List.getElem?_set_ne (Ne.symm hi)]

theorem dot_cons (v : R) (x : List R) (w : R) (y : List R) : dot (v :: x) (w :: y) = v * w + dot x y := by
  rw [dot_eq_sum, dot_eq_sum, List.length_cons, Finset.sum_range_succ', add_comm]
  simp

/-- Values that are written one after the other, paired with a gradient: the values that were there pair with what the
mask leaves of it, and all written values with what stands at their positions, but what is written over counts for
nothing. -/
theorem dot_written (g : List R) : ∀ (targets : List Nat) {data updates : List R},
    (∀ t ∈ targets, t < data.length) → targets.length = updates.length →
      dot (written data (targets.zip updates)) g + overwritten g (targets.zip updates) =
        dot data (masked g targets) + dot updates (targets.map fun t => g.getD t 0)
  | [], data, updates, _, hlen => by
    cases List.length_eq_zero_iff.1 hlen.symm
    have hmask : dot data (masked g []) = dot data g := by
      simp only [dot_eq_sum, getD_masked, List.not_mem_nil, if_false]
    simp [written, overwritten, hmask, dot_eq_sum]
  | t :: targets, data, v :: updates, ht, hlen => by
    have hlt := ht t (by simp)
    have hlen : targets.length = updates.length := by simpa using hlen
    have ih := @dot_written g targets (data.set t v) updates
      (fun u hu => by rw [List.length_set]; exact ht u (List.mem_cons_of_mem _ hu)) hlen
    have hdata : dot data (masked g (t :: targets)) =
        ∑ i ∈ Finset.range data.length, if i = t then 0 else data.getD i 0 * (masked g targets).getD i 0 := by
      rw [dot_eq_sum]
      refine Finset.sum_congr rfl fun i _ => ?_
      rw [getD_masked, getD_masked]
      by_cases hi : i = t <;> simp [hi]
    have hmap : (targets.zip updates).map Prod.fst = targets := List.map_fst_zip hlen.le
    have hwritten : written data ((t, v) :: targets.zip updates) = written (data.set t v) (targets.zip updates) := rfl
    have hat : v * (masked g targets).getD t 0 + (if t ∈ targets then v * g.getD t 0 else 0) = v * g.getD t 0 := by
      rw [getD_masked]
      split
      · rw [mul_zero, zero_add]
      · rw [add_zero]
    rw [dot_set hlt, ← hdata] at ih
    rw [List.zip_cons_cons, hwritten, overwritten, hmap, List.map_cons, dot_cons]
    linear_combination ih + hat

/-- What is inferred of a scatter: indices are whole numbers, one for each update, on as many axes as the data has. -/
theorem infer_scatter_infos {axis : Int} {data indices updates output : TensorInfo}
    (h : (OpKind.scatter axis).infer [data, indices, updates] = .ok output) :
    output = data ∧ indices.dtype.isFloat = false ∧ indices.shape = updates.shape ∧ indices.rank = data.rank := by
  obtain ⟨⟨d, i, u⟩, hoperands, h⟩ := Outcome.bind_eq_ok.1 h
  cases OpKind.operand3_ok hoperands
  obtain ⟨_, hint, h⟩ := Outcome.bind_eq_ok.1 h
  obtain ⟨_, -, h⟩ := Outcome.bind_eq_ok.1 h
  unfold OpKind.requireInteger at hint
  split at hint
  · cases hint
  · rename_i hfloat
    split at h
    · cases h
    · rename_i hshapes
      rw [not_or, ne_eq, ne_eq, not_not, not_not] at hshapes
      cases h
      exact ⟨rfl, Bool.eq_false_iff.2 hfloat, hshapes.1, hshapes.2⟩

/-- Scatter and its gradients, on indices that are in range: all three give a result. The law that they are adjoint
lacks what is written over, and holds where no position is named twice. -/
theorem scatter_dot (f : Numbers R) {axis : Int} {a : Nat} {steps : List Nat} {data indices updates g : Operand R}
    {output : TensorInfo} (hinfer : (OpKind.scatter axis).infer [data.info, indices.info, updates.info] = .ok output)
    (haxis : Index.axis axis data.dims.length = .ok a) (hsteps : Index.steps data.dims = .ok steps)
    (hdata : data.Complete) (hindices : indices.Complete) (hupdates : updates.Complete) (hg : g.Complete)
    (hinfo : g.info = output) (hrange : @InRange R f.scalar a data.dims indices) :
    ∃ targets y d u, @scatterTargets R f.scalar axis data.dims indices = .ok targets ∧
      @exact R f.scalar (.scatter axis) [data, indices, updates] output = .ok y ∧
      @exact R f.scalar (.scatterDataGrad axis) [g, indices] output = .ok d ∧
      @exact R f.scalar (.scatterUpdatesGrad axis) [g, indices] (output.withShape indices.info.shape) = .ok u ∧
      dot y.values g.values + overwritten g.values (targets.zip updates.values) =
        dot data.values d.values + dot updates.values u.values ∧
      (targets.Nodup → dot y.values g.values = dot data.values d.values + dot updates.values u.values) := by
  let _ := f.scalar
  obtain ⟨hout, hint, hshapes, hrank⟩ := infer_scatter_infos hinfer
  have hdims : indices.dims.length = data.dims.length := by
    rw [TensorInfo.rank, TensorInfo.rank] at hrank
    simp [Operand.dims, TensorInfo.dims, Shape.dims, hrank]
  obtain ⟨targets, htargets, hlen, hbound⟩ := scatterTargets_of_inRange haxis hsteps hint hdims hindices hrange
  have hupdates' : updates.values.length = indices.values.length := by
    rw [hupdates.length_eq, hindices.length_eq, Operand.dims, Operand.dims, TensorInfo.dims, TensorInfo.dims, hshapes]
  have hg' : g.values.length = data.values.length := by
    rw [hg.length_eq, hdata.length_eq, Operand.dims, Operand.dims, hinfo, hout]
  have hlt : ∀ t ∈ targets, t < data.values.length := fun t ht => hdata.length_eq ▸ hbound t ht
  have hcount : output.counted = .ok data.values.length := hout ▸ hdata
  have hgdims : scatterTargets axis g.dims indices = .ok targets := by
    rw [Operand.dims, hinfo, hout]
    exact htargets
  have hrequire : ∀ {n}, n = data.values.length → Operand.requireIndices n targets = .ok () := by
    rintro n rfl
    exact if_pos (List.all_eq_true.2 fun t ht => decide_eq_true (hlt t ht))
  obtain ⟨sources, hsources⟩ : ∃ sources, scatterSources data.values.length targets = .ok sources := by
    rw [scatterSources, hrequire rfl]
    exact ⟨_, rfl⟩
  refine ⟨targets, ⟨output, written data.values (targets.zip updates.values)⟩, ⟨output, masked g.values targets⟩,
    ⟨output.withShape indices.info.shape, targets.map fun t => g.values.getD t 0⟩, htargets, ?_, ?_, ?_, ?_⟩
  · refine @exact_move R _ _ _ _ [0, 2] .zero sources [data.values, updates.values] _
      ?_ rfl ?_ ?_
    · change (scatterTargets axis data.dims indices >>= _) = _
      rw [htargets]
      change (scatterSources data.values.length targets >>= _) = _
      rw [hsources]
      rfl
    · simpa using pick_scatterSources (hlen.trans hupdates'.symm) hsources
    · rw [length_written]
      exact hcount
  · refine exact_values ?_ ?_
    · change (scatterDataGrad axis g indices >>= _) = _
      rw [scatterDataGrad, hgdims]
      change (Operand.requireIndices g.values.length targets >>= _) >>= _ = _
      rw [hrequire hg']
      rfl
    · rw [masked, List.length_map, List.length_zipIdx, hg']
      exact hcount
  · refine exact_values ?_ ?_
    · change (scatterUpdatesGrad axis g indices >>= _) = _
      rw [scatterUpdatesGrad, hgdims]
      change (targets.mapM fun t => Operand.fetch g.values.toArray t) >>= _ = _
      rw [Outcome.mapM_of_forall (w := fun t => g.values.getD t 0) fun t ht => ?_]
      · rfl
      · have ht := hg' ▸ hlt t ht
        simp [Operand.fetch, Outcome.promised, ht]
    · rw [List.length_map, hlen]
      exact hindices
  · have hdot := dot_written g.values targets hlt (hlen.trans hupdates'.symm)
    refine ⟨hdot, fun hnodup => ?_⟩
    rw [overwritten_of_nodup, add_zero] at hdot
    · exact hdot
    · rwa [List.map_fst_zip (hlen.trans hupdates'.symm).le]

end Law

/-! ## A position named twice -/

/-- One element that two updates are written over, the second through an index from the end. -/
def sampleData : Operand ℚ := ⟨⟨.float, [1]⟩, [5]⟩

/-- Indices that name the only position twice. -/
def sampleIndices : Operand ℚ := ⟨⟨.int32, [2]⟩, [0, -1]⟩

/-- Two updates. -/
def sampleUpdates : Operand ℚ := ⟨⟨.float, [2]⟩, [1, 1]⟩

/-- A gradient of one. -/
def sampleGradient : Operand ℚ := ⟨⟨.float, [1]⟩, [1]⟩

theorem sample_inRange : @InRange ℚ Numbers.rational.scalar 0 sampleData.dims sampleIndices := by
  let _ := Numbers.rational.scalar
  refine ⟨fun v hv => ?_, fun c hc => ?_⟩
  · rcases List.mem_pair.1 hv with rfl | rfl
    · exact ⟨by decide +kernel, by decide +kernel⟩
    · exact ⟨by decide +kernel, by decide +kernel⟩
  · have hc : c ∈ [[0], [1]] := hc
    rcases List.mem_pair.1 hc with rfl | rfl <;> exact .cons (by decide) .nil

/-- The law of adjoint kernels fails there: both updates get the gradient, and only one stays. -/
theorem scatter_not_adjoint : ∃ y d u,
    @exact ℚ Numbers.rational.scalar (.scatter 0) [sampleData, sampleIndices, sampleUpdates] ⟨.float, [1]⟩ = .ok y ∧
      @exact ℚ Numbers.rational.scalar (.scatterDataGrad 0) [sampleGradient, sampleIndices] ⟨.float, [1]⟩ = .ok d ∧
      @exact ℚ Numbers.rational.scalar (.scatterUpdatesGrad 0) [sampleGradient, sampleIndices] ⟨.float, [2]⟩ = .ok u ∧
      dot y.values sampleGradient.values ≠ dot sampleData.values d.values + dot sampleUpdates.values u.values := by
  refine ⟨⟨⟨.float, [1]⟩, [1]⟩, ⟨⟨.float, [1]⟩, [0]⟩, ⟨⟨.float, [2]⟩, [1, 1]⟩, ?_, ?_, ?_, ?_⟩
  · rfl
  · rfl
  · rfl
  · decide +kernel

theorem scatter_dot_sample : ∃ targets y d u,
    @scatterTargets ℚ Numbers.rational.scalar 0 sampleData.dims sampleIndices = .ok targets ∧
      @exact ℚ Numbers.rational.scalar (.scatter 0) [sampleData, sampleIndices, sampleUpdates] ⟨.float, [1]⟩ = .ok y ∧
      @exact ℚ Numbers.rational.scalar (.scatterDataGrad 0) [sampleGradient, sampleIndices] ⟨.float, [1]⟩ = .ok d ∧
      @exact ℚ Numbers.rational.scalar (.scatterUpdatesGrad 0) [sampleGradient, sampleIndices]
        (TensorInfo.withShape ⟨.float, [1]⟩ sampleIndices.info.shape) = .ok u ∧
      dot y.values sampleGradient.values + overwritten sampleGradient.values (targets.zip sampleUpdates.values) =
        dot sampleData.values d.values + dot sampleUpdates.values u.values ∧
      (targets.Nodup → dot y.values sampleGradient.values =
        dot sampleData.values d.values + dot sampleUpdates.values u.values) :=
  scatter_dot Numbers.rational rfl rfl (show Index.steps sampleData.dims = .ok [1] from rfl) rfl rfl rfl rfl rfl sample_inRange

end Kernel

end TensorGraph
