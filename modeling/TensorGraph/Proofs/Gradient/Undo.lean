import Mathlib
import TensorGraph.Gradient.Rule
import TensorGraph.Proofs.Op.Extent

/-!
Shapes of movements that are undone, as gradients of movements do: an order of axes and its inverse, a slice and the
pads around it, pads and the slice between them, tensors one behind the other and the slice that one of them takes.
The last two need extents that are not below zero, because a position outside of an axis is moved to its end.
-/
namespace TensorGraph

open OpKind

/-! ## Orders of axes -/

namespace OpKind

variable {s s' s'' : Shape} {perm : List Int}

theorem permAxes_ok : ∀ {l : List Int} {seen axes : List Nat}, permAxes s perm l seen = .ok axes →
    List.Forall₂ (fun p a => s.axis p = .ok a) l axes ∧ axes.Nodup ∧ ∀ a ∈ axes, a ∉ seen
  | [], seen, axes, h => by
    cases h
    exact ⟨.nil, .nil, nofun⟩
  | p :: l, seen, axes, h => by
    unfold permAxes at h
    obtain ⟨a, ha, h⟩ := Outcome.bind_eq_ok.1 h
    split at h
    · cases h
    · rename_i hseen
      obtain ⟨others, hothers, h⟩ := Outcome.bind_eq_ok.1 h
      cases h
      obtain ⟨hall, hnodup, hnew⟩ := permAxes_ok hothers
      refine ⟨.cons ha hall, List.nodup_cons.2 ⟨fun hmem => hnew a hmem List.mem_cons_self, hnodup⟩, fun b hb => ?_⟩
      rcases List.mem_cons.1 hb with rfl | hb
      · simpa using hseen
      · exact fun hmem => hnew b hb (List.mem_cons_of_mem a hmem)

theorem axis_ok {p : Int} {a : Nat} (h : s.axis p = .ok a) (hs : s ≠ []) :
    Shape.fromFront p s.length = a ∧ a < s.length := by
  unfold Shape.axis at h
  simp only at h
  split at h
  · cases h
  · rename_i hrange
    have hpos := List.length_pos_of_ne_nil hs
    obtain rfl := Except.ok.inj h
    omega

/-- The axes of the result, as axes of the operand: each one once. -/
theorem transposedShape_ok (h : transposedShape s perm = .ok s') :
    ∃ axes : List Nat, perm.map (Shape.fromFront · perm.length) = axes.map Int.ofNat ∧ axes.length = s.length ∧
      axes.Nodup ∧ (∀ a ∈ axes, a < s.length) ∧ s'.length = axes.length ∧
        ∀ k a : Nat, axes[k]? = some a → s'[k]? = s[a]? := by
  unfold transposedShape at h
  split at h
  · cases h
  · rename_i hlen
    rw [ne_eq, not_not] at hlen
    obtain ⟨axes, haxes, h⟩ := Outcome.bind_eq_ok.1 h
    obtain ⟨hall, hnodup, -⟩ := permAxes_ok haxes
    rw [Outcome.mapM_eq_ok] at h
    have hnames : List.Forall₂ (fun p a => Shape.fromFront p s.length = Int.ofNat a ∧ a < s.length) perm axes := by
      rw [List.forall₂_iff_get] at hall ⊢
      refine ⟨hall.1, fun i hi hi' => ?_⟩
      have hs : s ≠ [] := List.ne_nil_of_length_pos (by omega)
      exact axis_ok (hall.2 i hi hi') hs
    refine ⟨axes, ?_, hall.length_eq.symm.trans hlen, hnodup, fun a ha => ?_, h.length_eq.symm, fun k a hk => ?_⟩
    · rw [hlen, ← List.forall₂_eq_eq_eq, List.forall₂_map_left_iff, List.forall₂_map_right_iff]
      exact hnames.imp fun _ _ h => h.1
    · obtain ⟨i, hi, rfl⟩ := List.getElem_of_mem ha
      exact ((List.forall₂_iff_get.1 hnames).2 i (hnames.length_eq ▸ hi) hi).2
    · obtain ⟨hi, rfl⟩ := List.getElem?_eq_some_iff.1 hk
      have hentry := (List.forall₂_iff_get.1 h).2 k hi (h.length_eq ▸ hi)
      rw [Outcome.promised_eq_ok] at hentry
      rw [List.getElem?_eq_getElem (h.length_eq ▸ hi)]
      exact hentry.symm

/-- The inverse order puts all axes back. -/
theorem transposedShape_inverse (h : transposedShape s perm = .ok s')
    (h' : transposedShape s' (GradRule.inverse perm) = .ok s'') : s'' = s := by
  obtain ⟨axes, hperm, hlen, hnodup, hbound, hlen', hentry⟩ := transposedShape_ok h
  obtain ⟨axes', hinverse, hlen'', -, -, hlength, hentry'⟩ := transposedShape_ok h'
  have hn : perm.length = s.length := by
    have := congrArg List.length hperm
    simpa [hlen] using this
  -- all axes are named, because none is named twice
  have hall : ∀ j, j < s.length → j ∈ axes := by
    intro j hj
    have hsub : axes ⊆ List.range s.length := fun a ha => List.mem_range.2 (hbound a ha)
    have hperm := (List.subperm_of_subset hnodup hsub).perm_of_length_le (by simp [hlen])
    exact hperm.mem_iff.2 (List.mem_range.2 hj)
  have hplace : ∀ j, j < s.length → ∃ k : Nat, axes'[j]? = some k ∧ axes[k]? = some j := by
    intro j hj
    have hmem : Int.ofNat j ∈ axes.map Int.ofNat := List.mem_map_of_mem (hall j hj)
    obtain ⟨k, hk⟩ : ∃ k, (axes.map Int.ofNat).idxOf (Int.ofNat j) = k := ⟨_, rfl⟩
    have hfound : (axes.map Int.ofNat)[k]? = some (Int.ofNat j) := by
      rw [← hk, List.getElem?_eq_getElem (List.idxOf_lt_length_iff.2 hmem), List.getElem_idxOf]
    have hcolumn : ((GradRule.inverse perm).map (Shape.fromFront · (GradRule.inverse perm).length))[j]? =
        some (Int.ofNat k) := by
      rw [List.getElem?_map, GradRule.inverse, hperm, hn, List.getElem?_map, List.getElem?_range hj, Option.map_some, hk,
        Option.map_some, Shape.fromFront, if_neg (by simp)]
    rw [hinverse, List.getElem?_map] at hcolumn
    rw [List.getElem?_map] at hfound
    obtain ⟨a, ha, heq⟩ := Option.map_eq_some_iff.1 hcolumn
    obtain ⟨b, hb, heq'⟩ := Option.map_eq_some_iff.1 hfound
    exact ⟨k, by rw [ha, Int.ofNat.inj heq], by rw [hb, Int.ofNat.inj heq']⟩
  refine List.ext_getElem? fun j => ?_
  by_cases hj : j < s.length
  · obtain ⟨k, hk, hkj⟩ := hplace j hj
    rw [hentry' j k hk, hentry k j hkj]
  · rw [List.getElem?_eq_none (by omega), List.getElem?_eq_none (by omega)]

/-! ## Slices and pads -/

theorem clampPosition_ok {extent position : Int} {n : Nat} (h : Shape.clampPosition extent position = .ok n) :
    (n : Int) ≤ extent ∧ (0 ≤ position → position ≤ extent → (n : Int) = position) := by
  unfold Shape.clampPosition at h
  simp only at h
  split at h
  · cases h
  · cases h
    omega

/-- What a range of a slice says of its axis. -/
theorem sliceRange_ok {start stop axis : Int} {r : Shape.Range} (h : s.sliceRange start stop axis = .ok r) :
    Shape.fromFront axis s.length = r.axis ∧ ∃ d, s[r.axis]? = some d ∧ (r.start : Int) ≤ r.stop ∧ (r.stop : Int) ≤ d ∧
      (0 ≤ start → start ≤ stop → stop ≤ d → (r.start : Int) = start ∧ (r.stop : Int) = stop) := by
  unfold Shape.sliceRange at h
  simp only at h
  split at h
  · cases h
  · rename_i haxis
    obtain ⟨d, hd, h⟩ := Outcome.bind_eq_ok.1 h
    obtain ⟨first, hfirst, h⟩ := Outcome.bind_eq_ok.1 h
    obtain ⟨last, hlast, h⟩ := Outcome.bind_eq_ok.1 h
    cases h
    rw [Outcome.promised_eq_ok] at hd
    obtain ⟨hle, hexact⟩ := clampPosition_ok hfirst
    obtain ⟨hle', hexact'⟩ := clampPosition_ok hlast
    refine ⟨by simp only; omega, d, hd, by simp only; omega, by simp only; omega, fun h₁ h₂ h₃ => ?_⟩
    have := hexact h₁ (by omega)
    have := hexact' (by omega) h₃
    simp only
    omega

theorem sliceRanges_ok {starts stops axes : List Int} {ranges : List Shape.Range}
    (h : s.sliceRanges starts stops axes = .ok ranges) :
    List.Forall₂ (fun (x : (Int × Int) × Int) r => s.sliceRange x.1.1 x.1.2 x.2 = .ok r) ((starts.zip stops).zip axes)
      ranges := by
  unfold Shape.sliceRanges at h
  split at h
  · cases h
  · exact Outcome.mapM_eq_ok.1 h

/-- The pads around a part of a shape make up for what the part lacks. -/
structure Completes (s part : Shape) (pads : List Int) : Prop where
  rank : part.length = s.length
  count : pads.length = 2 * s.length
  sums : ∀ i, i < s.length → part.getD i 0 + (pads.getD i 0 + pads.getD (i + s.length) 0) = s.getD i 0

/-- A range cuts off exactly what the pads on its axis say. -/
theorem Completes.cut {part : Shape} {pads : List Int} (h : Completes s part pads) {r : Shape.Range} {d : Int}
    (hd : s[r.axis]? = some d) (hr : (r.start : Int) ≤ r.stop) :
    Completes s (part.set r.axis ((r.stop - r.start : Nat) : Int))
      ((pads.set r.axis r.start).set (r.axis + s.length) (s.getD r.axis 0 - r.stop)) := by
  obtain ⟨haxis, hget⟩ := List.getElem?_eq_some_iff.1 hd
  refine ⟨by rw [List.length_set, h.rank], by rw [List.length_set, List.length_set, h.count], fun i hi => ?_⟩
  have hold := h.sums i hi
  have hcount := h.count
  have hrank := h.rank
  simp only [List.getD_eq_getElem?_getD, List.getElem?_set, List.length_set] at hold ⊢
  by_cases heq : r.axis = i
  · subst heq
    have h₁ : ¬ r.axis + s.length = r.axis := by omega
    simp only [h₁, if_true, if_false, hrank, hi, hcount, show r.axis < 2 * s.length by omega,
      show r.axis + s.length < 2 * s.length by omega, Option.getD_some, hd]
    omega
  · have h₁ : ¬ r.axis + s.length = i := by omega
    have h₂ : ¬ r.axis + s.length = i + s.length := by omega
    have h₃ : ¬ r.axis = i + s.length := by omega
    simp only [heq, h₁, h₂, h₃, if_false]
    exact hold

theorem completes_slicePads {starts stops axes : List Int} {ranges : List Shape.Range}
    (h : s.sliceRanges starts stops axes = .ok ranges) : Completes s (slicedShape s ranges) (GradRule.slicePads s ranges) := by
  have hranges : ∀ r ∈ ranges, ∃ d, s[r.axis]? = some d ∧ (r.start : Int) ≤ r.stop := by
    intro r hr
    obtain ⟨i, hi, rfl⟩ := List.getElem_of_mem hr
    have hall := List.forall₂_iff_get.1 (sliceRanges_ok h)
    obtain ⟨-, d, hd, hle, -⟩ := sliceRange_ok (hall.2 i (hall.1 ▸ hi) hi)
    exact ⟨d, hd, hle⟩
  have hfold : ∀ (l : List Shape.Range) {part : Shape} {pads : List Int}, (∀ r ∈ l, r ∈ ranges) → Completes s part pads →
      Completes s (slicedShape part l) (l.foldl (fun pads r => (pads.set r.axis r.start).set (r.axis + s.length)
        (s.getD r.axis 0 - r.stop)) pads) := by
    intro l
    induction l with
    | nil => exact fun _ hc => hc
    | cons r l ih =>
      intro part pads hl hc
      obtain ⟨d, hd, hle⟩ := hranges r (hl r List.mem_cons_self)
      exact ih (fun r' hr' => hl r' (List.mem_cons_of_mem r hr')) (hc.cut hd hle)
  refine hfold ranges (fun _ => id) ⟨rfl, List.length_replicate, fun i hi => ?_⟩
  simp [List.getD_eq_getElem?_getD, show i < 2 * s.length by omega,
    show i + s.length < 2 * s.length by omega]

/-- A part and the pads around it make up the whole. -/
theorem Completes.whole_eq {part : Shape} {pads : List Int} (h : Completes s part pads) :
    List.zipWith (· + ·) part (List.zipWith (· + ·) (pads.take part.length) (pads.drop part.length)) = s := by
  have hlen := h.count
  refine List.ext_getElem (by simp [h.rank, h.count]; omega) fun i hi hi' => ?_
  have hsum := h.sums i hi'
  have hrank := h.rank
  simp only [List.getD_eq_getElem?_getD, List.getElem?_eq_getElem hi',
    List.getElem?_eq_getElem (show i < part.length by omega), List.getElem?_eq_getElem (show i < pads.length by omega),
    List.getElem?_eq_getElem (show i + s.length < pads.length by omega), Option.getD_some] at hsum
  simp only [List.getElem_zipWith, List.getElem_take, List.getElem_drop, hrank, Nat.add_comm s.length i]
  exact hsum

/-- A slice that is padded takes its old shape. -/
theorem paddedShape_slicePads {starts stops axes : List Int} {ranges : List Shape.Range}
    (h : s.sliceRanges starts stops axes = .ok ranges)
    (hp : paddedShape (slicedShape s ranges) (GradRule.slicePads s ranges) = .ok s') : s' = s := by
  obtain ⟨-, -, rfl⟩ := paddedShape_ok hp
  exact (completes_slicePads h).whole_eq

/-- Entries that are set one behind the other, from number `k` on. -/
theorem foldl_set_range' {α ρ : Type} (axis : ρ → Nat) (value : ρ → α) : ∀ {ranges : List ρ} {k : Nat} {l : List α},
    ranges.map axis = List.range' k ranges.length → l.length = k + ranges.length →
      ranges.foldl (fun l r => l.set (axis r) (value r)) l = l.take k ++ ranges.map value
  | [], k, l, _, hlen => by
    rw [List.map_nil, List.append_nil, List.take_of_length_le (i := k) (Nat.le_of_eq hlen)]
    rfl
  | r :: ranges, k, l, haxes, hlen => by
    rw [List.length_cons, List.range'_succ, List.map_cons, List.cons.injEq] at haxes
    obtain ⟨rfl, haxes⟩ := haxes
    have hlength : axis r < l.length := by
      rw [hlen, List.length_cons]
      omega
    have hrest := foldl_set_range' axis value (l := l.set (axis r) (value r)) haxes (by
      rw [List.length_set, hlen, List.length_cons]
      omega)
    rw [List.foldl_cons, hrest, List.map_cons, List.take_set, List.take_add_one, List.getElem?_eq_getElem hlength,
      Option.toList_some, List.set_append_right _ _ (by rw [List.length_take]; omega)]
    simp [Nat.min_eq_left (Nat.le_of_lt hlength)]

/-- The ranges between pads: on each axis, one that starts behind the first pad and has the extent of the operand. -/
theorem ranges_between {pads ends : List Int} {ranges : List Shape.Range} (hs : s.Sized)
    (hp : paddedShape s pads = .ok s')
    (hends : (List.zipWith (· + ·) (pads.take s.length) s).mapM Word.int = .ok ends)
    (hranges : s'.sliceRanges (pads.take s.length) ends ((List.range s.length).map Int.ofNat) = .ok ranges) :
    ranges.length = s.length ∧ ranges.map (·.axis) = List.range' 0 ranges.length ∧
      ranges.map (fun r => (r.start : Int)) = pads.take s.length ∧
        ranges.map (fun r => ((r.stop - r.start : Nat) : Int)) = s := by
  obtain ⟨hcount, hpads, rfl⟩ := paddedShape_ok hp
  generalize hs' : List.zipWith (· + ·) s (List.zipWith (· + ·) (pads.take s.length) (pads.drop s.length)) = s' at hranges
  rw [Outcome.mapM_eq_ok] at hends
  obtain rfl : ends = List.zipWith (· + ·) (pads.take s.length) s := by
    have hexact := hends.imp fun _ _ he => (Word.int_eq_ok_iff.1 he).2
    exact List.forall₂_eq_eq_eq ▸ hexact.flip
  obtain ⟨hlength, hall⟩ := List.forall₂_iff_get.1 (sliceRanges_ok hranges)
  have hcountRanges : ranges.length = s.length := by
    rw [← hlength]
    simp [hcount]
    omega
  have hrange : ∀ i (hi : i < ranges.length) (hi' : i < s.length) (hi'' : i < pads.length), ranges[i].axis = i ∧
      (ranges[i].start : Int) = pads[i] ∧ ((ranges[i].stop - ranges[i].start : Nat) : Int) = s[i] := by
    intro i hi hi' _
    have hone := hall i (hlength ▸ hi) hi
    simp only [List.get_eq_getElem, List.getElem_zip, List.getElem_zipWith, List.getElem_take, List.getElem_map,
      List.getElem_range] at hone
    obtain ⟨haxis, d, hd, hle, hle', hexact⟩ := sliceRange_ok hone
    have haxis' : ranges[i].axis = i := by
      rw [Shape.fromFront, if_neg (by simp)] at haxis
      exact (Int.ofNat.inj haxis).symm
    have hext := hs s[i] (List.getElem_mem hi')
    have hfront := hpads pads[i] (List.getElem_mem (by omega))
    have hback := hpads (pads[s.length + i]) (List.getElem_mem (by omega))
    have hwhole : d = s[i] + (pads[i] + pads[s.length + i]) := by
      rw [haxis', List.getElem?_eq_some_iff] at hd
      obtain ⟨hi'', rfl⟩ := hd
      simp only [← hs', List.getElem_zipWith, List.getElem_take, List.getElem_drop]
    obtain ⟨hstart, hstop⟩ := hexact hfront (by omega) (by omega)
    exact ⟨haxis', hstart, by omega⟩
  refine ⟨hcountRanges, List.ext_getElem (by simp) fun i hi hi' => ?_, List.ext_getElem ?_ fun i hi hi' => ?_,
    List.ext_getElem (by simp [hcountRanges]) fun i hi hi' => ?_⟩
  · rw [List.length_map] at hi
    simp [(hrange i hi (by omega) (by omega)).1]
  · simp [hcountRanges, hcount]
    omega
  · rw [List.length_map] at hi
    rw [List.getElem_map, List.getElem_take]
    exact (hrange i hi (by omega) (by omega)).2.1
  · rw [List.length_map] at hi
    rw [List.getElem_map]
    exact (hrange i hi hi' (by omega)).2.2

/-- Padding is cut off by the slice between the pads, if no extent is below zero. -/
theorem slicedShape_between {pads ends : List Int} {ranges : List Shape.Range} (hs : s.Sized)
    (hp : paddedShape s pads = .ok s')
    (hends : (List.zipWith (· + ·) (pads.take s.length) s).mapM Word.int = .ok ends)
    (hranges : s'.sliceRanges (pads.take s.length) ends ((List.range s.length).map Int.ofNat) = .ok ranges) :
    slicedShape s' ranges = s := by
  obtain ⟨hcount, haxes, -, hextents⟩ := ranges_between hs hp hends hranges
  have hlen : s'.length = s.length := by
    obtain ⟨hpads, -, rfl⟩ := paddedShape_ok hp
    simp [hpads]
    omega
  refine (foldl_set_range' Shape.Range.axis (fun r => ((r.stop - r.start : Nat) : Int)) haxes (by omega)).trans ?_
  rw [List.take_zero, List.nil_append, hextents]

/-! ## Tensors one behind the other -/

variable {first info : TensorInfo} {infos : List TensorInfo} {axis : Nat}

/-- The info has the extent `d` on the axis, and is like `first` apart from that. -/
structure Lies (first : TensorInfo) (axis : Nat) (i : TensorInfo) (d : Int) : Prop where
  extent : i.shape[axis]? = some d
  shape : i.shape = first.shape.set axis d

theorem lies_self {d : Int} (h : first.shape[axis]? = some d) : Lies first axis first d := by
  refine ⟨h, ?_⟩
  obtain ⟨hi, rfl⟩ := List.getElem?_eq_some_iff.1 h
  exact (List.set_getElem_self hi).symm

theorem lies_of_concatenable {other : TensorInfo} {d : Int} (h : concatenable first other axis = true)
    (hd : other.shape[axis]? = some d) : Lies first axis other d := by
  unfold concatenable at h
  simp only [Bool.and_eq_true, beq_iff_eq, List.all_eq_true, List.mem_range, Bool.or_eq_true] at h
  obtain ⟨⟨hrank, -⟩, hsame⟩ := h
  refine ⟨hd, List.ext_getElem? fun i => ?_⟩
  rw [List.getElem?_set]
  obtain ⟨haxis, -⟩ := List.getElem?_eq_some_iff.1 hd
  split
  · rename_i heq
    rw [← heq, hd]
    exact (if_pos (Nat.lt_of_lt_of_eq haxis hrank)).symm
  · rename_i heq
    by_cases hi : i < first.rank
    · exact (hsame i hi).resolve_left (Ne.symm heq)
    · have hi' : ¬ i < other.rank := hrank ▸ hi
      rw [List.getElem?_eq_none (Nat.not_lt.1 hi), List.getElem?_eq_none (Nat.not_lt.1 hi')]

theorem concatExtent_ok : ∀ {l : List TensorInfo} {total extent : Int}, concatExtent first axis l total = .ok extent →
    ∃ ds, List.Forall₂ (Lies first axis) l ds ∧ extent = total + ds.sum
  | [], total, extent, h => by
    cases h
    exact ⟨[], .nil, by simp⟩
  | other :: l, total, extent, h => by
    unfold concatExtent at h
    split at h
    · cases h
    · rename_i hconc
      rw [Bool.not_eq_false] at hconc
      obtain ⟨d, hd, h⟩ := Outcome.bind_eq_ok.1 h
      obtain ⟨total', ht, h⟩ := Outcome.bind_eq_ok.1 h
      rw [Outcome.promised_eq_ok] at hd
      obtain ⟨-, rfl⟩ := Word.int_eq_ok_iff.1 ht
      obtain ⟨ds, hds, rfl⟩ := concatExtent_ok h
      exact ⟨d :: ds, .cons (lies_of_concatenable hconc hd) hds, by rw [List.sum_cons]; omega⟩

theorem infer_concat {axis : Int} (h : (concat axis).infer infos = .ok info) :
    ∃ first rest a, infos = first :: rest ∧ first.shape.axis axis = .ok a ∧
      ∀ d, first.shape[a]? = some d → ∃ ds, List.Forall₂ (Lies first a) rest ds ∧
        info.shape = first.shape.set a (d + ds.sum) := by
  match infos, h with
  | first :: rest, h =>
    obtain ⟨a, ha, h⟩ := Outcome.bind_eq_ok.1 h
    obtain ⟨extent, hextent, h⟩ := Outcome.bind_eq_ok.1 h
    cases h
    refine ⟨first, rest, a, rfl, ha, fun d hd => ?_⟩
    rw [hd, Option.getD_some] at hextent
    obtain ⟨ds, hds, rfl⟩ := concatExtent_ok hextent
    exact ⟨ds, hds, rfl⟩

/-- The slice at the place of an operand has the shape of the operand. -/
theorem slicedShape_place {i : TensorInfo} {d offset total : Int} {ranges : List Shape.Range} (hi : Lies first axis i d)
    (hd : 0 ≤ d) (hoffset : 0 ≤ offset) (htotal : offset + d ≤ total) (hs : s = first.shape.set axis total)
    (hranges : s.sliceRanges [offset] [offset + d] [Int.ofNat axis] = .ok ranges) : slicedShape s ranges = i.shape := by
  have hall := sliceRanges_ok hranges
  cases hall with
  | @cons _ r _ _ hr hnil =>
    cases hnil
    have haxis : axis < first.shape.length := by
      have hlt := (List.getElem?_eq_some_iff.1 hi.extent).1
      rwa [hi.shape, List.length_set] at hlt
    obtain ⟨hfront, e, he, hle, -, hexact⟩ := sliceRange_ok hr
    have hr' : r.axis = axis := by
      rw [Shape.fromFront, if_neg (by simp)] at hfront
      exact (Int.ofNat.inj hfront).symm
    rw [hr', hs, List.getElem?_set_self haxis, Option.some.injEq] at he
    subst he
    have hstop : offset ≤ offset + d := by omega
    obtain ⟨hstart, hstop⟩ := hexact hoffset hstop htotal
    simp only at hstart hstop
    have hwidth : ((r.stop - r.start : Nat) : Int) = d := by omega
    change s.set r.axis ((r.stop - r.start : Nat) : Int) = _
    rw [hwidth, hr', hs, List.set_set, hi.shape]

end OpKind

end TensorGraph
