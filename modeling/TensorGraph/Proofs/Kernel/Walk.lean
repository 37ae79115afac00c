import TensorGraph.Proofs.Kernel.Gather

/-!
The walk through a shape and its strides. Asked over and over, the walk gives out each coordinate below the extents once
and then ends, and the coordinate that it gives out after `i` others has the flat index `i`. The lanes of an axis address
the same element: a coordinate is split into its entries before the axis, on it and behind it.
-/
namespace TensorGraph

namespace Index

variable {dims c : List Nat} {i n : Nat}

/-! ## Asking for coordinates -/

namespace Walk

/-- The walk after it was asked for `n` coordinates. -/
def after (w : Walk) (n : Nat) : Walk := (fun w => w.next.2)^[n] w

theorem after_succ (w : Walk) (n : Nat) : w.after (n + 1) = (w.after n).next.2 := Function.iterate_succ_apply' ..

/-- As long as there are coordinates, the walk stands at the one it was asked for last. -/
theorem after_start : ∀ {n : Nat}, n < volume dims → (start dims).after (n + 1) = reached dims n
  | 0, h => congrArg Prod.snd (next_start h)
  | n + 1, h => by rw [after_succ, after_start (Nat.lt_of_succ_lt h), next_reached (Nat.lt_of_succ_lt h), if_pos h]

/-- Once the walk has given out every coordinate, it stays at its end. -/
theorem after_start_of_le (hpos : 0 < volume dims) (h : volume dims ≤ n) : (start dims).after (n + 1) = ended dims := by
  induction n, h using Nat.le_induction with
  | base =>
    have hlast : volume dims - 1 < volume dims := Nat.sub_lt hpos Nat.one_pos
    have hsucc : volume dims - 1 + 1 = volume dims := Nat.sub_add_cancel hpos
    have hreached := after_start hlast
    rw [hsucc] at hreached
    rw [after_succ, hreached, next_reached hlast, if_neg (hsucc ▸ Nat.lt_irrefl _)]
  | succ n _ ih => rw [after_succ, ih, next_ended]

theorem after_start_of_empty (h : volume dims = 0) : ∀ n : Nat, (start dims).after n = start dims
  | 0 => rfl
  | n + 1 => by rw [after_succ, after_start_of_empty h n, next_start_of_empty h]

/-- What the walk gives out after `n` coordinates is the next one in order, as long as there is one. -/
theorem next_after_start (dims : List Nat) (n : Nat) : ((start dims).after n).next.1 = (coords dims)[n]? := by
  have hanswer : (coords dims)[n]? = if n < volume dims then some (coord dims n) else none := by
    rw [coords_eq_map_coord, List.getElem?_map]
    by_cases hn : n < volume dims
    · rw [if_pos hn, List.getElem?_range hn, Option.map_some]
    · rw [if_neg hn, List.getElem?_eq_none (by rw [List.length_range]; omega), Option.map_none]
  rw [hanswer]
  rcases Nat.eq_zero_or_pos (volume dims) with hempty | hpos
  · rw [after_start_of_empty hempty, next_start_of_empty hempty, hempty, if_neg (Nat.not_lt_zero n)]
  cases n with
  | zero => rw [if_pos hpos]; exact congrArg Prod.fst (next_start hpos)
  | succ n =>
    by_cases hn : n < volume dims
    · rw [after_start hn, next_reached hn]
      split <;> rfl
    · rw [after_start_of_le hpos (Nat.not_lt.1 hn), next_ended, if_neg (by omega)]

end Walk

theorem nodup_coords (dims : List Nat) : (coords dims).Nodup := by
  rw [coords_eq_map_coord]
  exact List.Nodup.map_on
    (fun _ hi _ hj h => coord_inj (List.mem_range.1 hi) (List.mem_range.1 hj) h) List.nodup_range

theorem getElem?_coords (h : (coords dims)[i]? = some c) : i < volume dims ∧ coord dims i = c := by
  obtain ⟨hi, hc⟩ := List.getElem?_eq_some_iff.1 h
  have hlt : i < volume dims := length_coords dims ▸ hi
  simp only [coords_eq_map_coord, List.getElem_map, List.getElem_range] at hc
  exact ⟨hlt, hc⟩

/-! ## Strides -/

/-- A shape that has elements has no empty axis. -/
theorem capacity_of_volume_pos : ∀ {dims : List Nat}, 0 < volume dims → capacity dims = volume dims
  | [], _ => rfl
  | d :: rest, h => by
    have hd : 0 < d := Nat.pos_of_mul_pos_right h
    rw [capacity_cons, volume_cons, capacity_of_volume_pos (volume_pos_of_lt h), Nat.max_eq_right hd]

theorem spans_of_volume_lt (hpos : 0 < volume dims) (h : volume dims < Word.limit) : Spans dims :=
  spans_of_capacity_lt (capacity_of_volume_pos hpos ▸ h)

theorem steps_of_limit_le (h : Word.limit ≤ volume dims) : steps dims = .error .abort := by
  refine if_neg fun hall => ?_
  have hlt := decide_eq_true_iff.1 (List.all_eq_true.1 hall _ List.mem_cons_self)
  exact absurd h (Nat.not_le.2 hlt)

/-! ## Lanes -/

/-- Axes in front count in steps of the positions behind them. -/
theorem flat_append : ∀ {front before : List Nat} (c dims : List Nat), front.length = before.length →
    flat (front ++ c) (strides (before ++ dims)) = flat front (strides before) * volume dims + flat c (strides dims)
  | [], [], c, dims, _ => by simp [flat]
  | k :: front, d :: before, c, dims, h => by
    rw [List.cons_append, List.cons_append, strides, strides, flat, flat,
      flat_append c dims (Nat.succ.inj h), volume_append]
    ring

/-- The place of a coordinate in the lanes of an axis, for the positions of its entries before the axis and behind it. -/
theorem flat_eq_index {axis : Nat} {l : Lanes} (hc : Within c dims) (hl : Lanes.ofAxis dims axis = .ok l) :
    flat (c.take axis) (strides (dims.take axis)) < l.outer ∧ c.getD axis 0 < l.extent ∧
      flat (c.drop (axis + 1)) (strides (dims.drop (axis + 1))) < l.inner ∧
      flat c (strides dims) = l.index (flat (c.take axis) (strides (dims.take axis))) (c.getD axis 0)
        (flat (c.drop (axis + 1)) (strides (dims.drop (axis + 1)))) := by
  obtain ⟨haxis, rfl⟩ := Lanes.ofAxis_ok hl
  have haxis' : axis < c.length := hc.length_eq ▸ haxis
  have hfront := List.forall₂_take axis hc
  refine ⟨flat_lt hfront, ?_, flat_lt (List.forall₂_drop (axis + 1) hc), ?_⟩
  · have hall := (List.forall₂_iff_get.1 hc).2 axis haxis' haxis
    rwa [List.getD_eq_getElem _ _ haxis', List.getD_eq_getElem _ _ haxis]
  · conv_lhs => rw [split_axis haxis', split_axis haxis, flat_append _ _ hfront.length_eq]
    rw [strides, flat, volume_cons, Lanes.index]
    ring

/-! ## The walk and the strides -/

/-- Asked again and again, the walk gives out the coordinates below the extents, each once, and then no more: one for
the scalar shape, none if an extent is zero, and else as many as the product of the extents. If the elements can be
counted in a word, then the coordinate given out after `i` others has the flat index `i` by the strides, and each axis
has lanes; else counting the strides aborts. Wherever an axis has lanes, they address that flat index. -/
theorem walk_matches_strides (dims : List Nat) :
    (∀ n, ((Walk.start dims).after n).next.1 = (coords dims)[n]?) ∧
    (∀ c, c ∈ coords dims ↔ Within c dims) ∧ (coords dims).Nodup ∧
    (coords []).length = 1 ∧ (0 ∈ dims → coords dims = []) ∧ (coords dims).length = dims.prod ∧
    ∀ i c, (coords dims)[i]? = some c →
      (volume dims < Word.limit → ∃ s, steps dims = .ok s ∧ (List.zipWith (· * ·) c s).sum = i) ∧
      (Word.limit ≤ volume dims → steps dims = .error .abort) ∧
      ∀ axis, axis < dims.length → (volume dims < Word.limit → ∃ l, Lanes.ofAxis dims axis = .ok l) ∧
        ∀ l, Lanes.ofAxis dims axis = .ok l →
          flat (c.take axis) (strides (dims.take axis)) < l.outer ∧ c.getD axis 0 < l.extent ∧
          flat (c.drop (axis + 1)) (strides (dims.drop (axis + 1))) < l.inner ∧
          i = l.index (flat (c.take axis) (strides (dims.take axis))) (c.getD axis 0)
            (flat (c.drop (axis + 1)) (strides (dims.drop (axis + 1)))) := by
  have hprod : ∀ l : List Nat, volume l = l.prod := fun l => List.prod_eq_foldr.symm
  refine ⟨Walk.next_after_start dims, fun c => mem_coords_iff, nodup_coords dims, rfl, fun hzero => ?_,
    (length_coords dims).trans (hprod dims), fun i c h => ?_⟩
  · rw [coords_eq_map_coord, volume_eq_zero_iff.2 hzero]
    rfl
  · obtain ⟨hi, rfl⟩ := getElem?_coords h
    have hspans : volume dims < Word.limit → Spans dims := spans_of_volume_lt (Nat.zero_lt_of_lt hi)
    refine ⟨fun hlt => ⟨strides dims, (hspans hlt).steps, ?_⟩, steps_of_limit_le, fun axis haxis =>
      ⟨fun hlt => ⟨_, Lanes.ofAxis_total haxis (hspans hlt)⟩, fun l hl => ?_⟩⟩
    · rw [← flat_eq_sum, flat_coord dims hi]
    · obtain ⟨hbefore, hon, hbehind, hindex⟩ := flat_eq_index (within_coord hi) hl
      exact ⟨hbefore, hon, hbehind, (flat_coord dims hi).symm.trans hindex⟩

theorem walk_matches_strides_row :
    (coords [3, 1, 4])[7]? = some [1, 0, 3] ∧ volume [3, 1, 4] < Word.limit ∧ coords [3, 0, 4] = [] ∧
    (∃ s, steps [3, 1, 4] = .ok s ∧ (List.zipWith (· * ·) [1, 0, 3] s).sum = 7) ∧
    ∃ l, Lanes.ofAxis [3, 1, 4] 0 = .ok l ∧ flat [0, 3] (strides [1, 4]) < l.inner ∧
      7 = l.index (flat [] []) 1 (flat [0, 3] (strides [1, 4])) := by
  have hrow : (coords [3, 1, 4])[7]? = some [1, 0, 3] := by decide
  have hcount : volume [3, 1, 4] < Word.limit := by decide
  obtain ⟨-, -, -, -, hempty, -, -⟩ := walk_matches_strides [3, 0, 4]
  obtain ⟨-, -, -, -, -, -, hall⟩ := walk_matches_strides [3, 1, 4]
  obtain ⟨hsteps, -, hlanes⟩ := hall 7 [1, 0, 3] hrow
  obtain ⟨htotal, hindex⟩ := hlanes 0 (by decide)
  obtain ⟨l, hl⟩ := htotal hcount
  obtain ⟨-, -, hinner, hplace⟩ := hindex l hl
  exact ⟨hrow, hcount, hempty (by decide), hsteps hcount, l, hl, hinner, hplace⟩

/-- A shape may have more coordinates than strides can count. -/
theorem walk_uncounted :
    [0, 0] ∈ coords [1099511627776, 1099511627776] ∧ steps [1099511627776, 1099511627776] = .error .abort :=
  ⟨mem_coords_iff.2 (.cons (by decide) (.cons (by decide) .nil)), by decide +kernel⟩

end Index

end TensorGraph
