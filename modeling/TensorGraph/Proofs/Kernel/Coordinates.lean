import Mathlib.Data.List.Forall2
import TensorGraph.Kernel.Operand
import TensorGraph.Proofs.Kernel.Exact
import TensorGraph.Tensor.Count

/-!
Coordinates and flat indices. Within the extents of a shape, coordinates and flat indices are two names for the same
positions. Sizes that can be counted: kernels count the positions on axes that stand together, so a shape spans words if
every such count is one. A shape is roomy if its elements could be counted and held even with every empty axis counted as
one position, and then no count on the way is too large.
-/
namespace TensorGraph

namespace Index

/-! ## Positions within a shape -/

/-- The entries of a coordinate are below the extents. -/
def Within (c dims : List Nat) : Prop := List.Forall₂ (· < ·) c dims

variable {c dims : List Nat} {i : Nat}

theorem volume_cons (d : Nat) (rest : List Nat) : volume (d :: rest) = d * volume rest := rfl

theorem volume_append (s t : List Nat) : volume (s ++ t) = volume s * volume t := by
  induction s with
  | nil => rw [List.nil_append]; exact (Nat.one_mul _).symm
  | cons d s ih => rw [List.cons_append, volume_cons, volume_cons, ih, Nat.mul_assoc]

theorem volume_pos_of_lt {d : Nat} {rest : List Nat} (h : i < volume (d :: rest)) : 0 < volume rest :=
  Nat.pos_of_mul_pos_left (Nat.zero_lt_of_lt h)

theorem within_coord : ∀ {dims : List Nat} {i : Nat}, i < volume dims → Within (coord dims i) dims
  | [], _, _ => .nil
  | d :: rest, i, h => by
    have hpos := volume_pos_of_lt h
    exact .cons ((Nat.div_lt_iff_lt_mul hpos).2 h) (within_coord (Nat.mod_lt i hpos))

theorem flat_lt (h : Within c dims) : flat c (strides dims) < volume dims := by
  induction h with
  | nil => exact Nat.one_pos
  | @cons k d c rest hk _ ih =>
    calc k * volume rest + flat c (strides rest) < k * volume rest + volume rest := Nat.add_lt_add_left ih _
      _ = (k + 1) * volume rest := (Nat.succ_mul _ _).symm
      _ ≤ d * volume rest := Nat.mul_le_mul_right _ hk

/-- The coordinate of the flat index of a coordinate is that coordinate. -/
theorem coord_flat (h : Within c dims) : coord dims (flat c (strides dims)) = c := by
  induction h with
  | nil => rfl
  | @cons k d c rest hk hc ih =>
    have hlt := flat_lt hc
    have hpos : 0 < volume rest := Nat.zero_lt_of_lt hlt
    change (k * volume rest + flat c (strides rest)) / volume rest ::
      coord rest ((k * volume rest + flat c (strides rest)) % volume rest) = k :: c
    rw [Nat.add_comm, Nat.add_mul_div_right _ _ hpos, Nat.div_eq_of_lt hlt, Nat.zero_add, Nat.add_mul_mod_self_right,
      Nat.mod_eq_of_lt hlt, ih]

/-- Positions are the same if their coordinates are. -/
theorem coord_inj {j : Nat} (hi : i < volume dims) (hj : j < volume dims) (h : coord dims i = coord dims j) : i = j := by
  rw [← flat_coord dims hi, ← flat_coord dims hj, h]

/-- A coordinate of a shape is the one whose flat index it is. -/
theorem flat_eq_iff (hc : Within c dims) (hi : i < volume dims) : flat c (strides dims) = i ↔ coord dims i = c :=
  ⟨fun h => h ▸ coord_flat hc, fun h => by rw [← h, flat_coord dims hi]⟩

theorem length_coords (dims : List Nat) : (coords dims).length = volume dims := by
  rw [coords_eq_map_coord, List.length_map, List.length_range]

theorem within_of_mem_coords (h : c ∈ coords dims) : Within c dims := by
  rw [coords_eq_map_coord] at h
  obtain ⟨i, hi, rfl⟩ := List.mem_map.1 h
  exact within_coord (List.mem_range.1 hi)

theorem mem_coords_iff : c ∈ coords dims ↔ Within c dims := by
  refine ⟨within_of_mem_coords, fun h => ?_⟩
  rw [coords_eq_map_coord]
  exact List.mem_map.2 ⟨_, List.mem_range.2 (flat_lt h), coord_flat h⟩

/-- The flat index of a coordinate, entry by entry. -/
theorem flat_eq_sum : ∀ (c s : List Nat), flat c s = (List.zipWith (· * ·) c s).sum
  | [], _ => by simp [flat]
  | _ :: _, [] => by simp [flat]
  | k :: c, t :: s => by rw [flat, flat_eq_sum c s, List.zipWith_cons_cons, List.sum_cons]

theorem steps_ok {l : List Nat} (h : steps dims = .ok l) : l = strides dims := by
  unfold steps at h
  split at h
  · exact (Except.ok.inj h).symm
  · cases h

theorem axis_ok {axis : Int} {rank a : Nat} (h : Index.axis axis rank = .ok a) :
    a < rank ∧ Shape.fromFront axis rank = a := by
  change (if Shape.fromFront axis rank < 0 ∨ Shape.fromFront axis rank ≥ rank then _
    else Except.ok (Shape.fromFront axis rank).toNat) = _ at h
  split at h
  · cases h
  · rw [Except.ok.injEq] at h
    omega

theorem axis_eq {axis : Int} {rank a : Nat} (ha : a < rank) (h : Shape.fromFront axis rank = a) :
    Index.axis axis rank = .ok a := by
  unfold Shape.fromFront at h
  simp only [Index.axis]
  rw [if_neg (by omega), h]
  rfl

end Index

/-! ## Sizes that can be counted -/

/-- The number of positions that the extents span, with every empty axis counted as one position. -/
def capacity (dims : List Nat) : Nat := volume (dims.map (max 1))

theorem capacity_cons (d : Nat) (rest : List Nat) : capacity (d :: rest) = max 1 d * capacity rest := rfl

theorem capacity_pos : ∀ dims : List Nat, 0 < capacity dims
  | [] => Nat.one_pos
  | d :: rest => by
    rw [capacity_cons]
    exact Nat.mul_pos (by omega) (capacity_pos rest)

theorem volume_le_capacity : ∀ dims : List Nat, volume dims ≤ capacity dims
  | [] => Nat.le_refl _
  | d :: rest => by
    rw [capacity_cons, Index.volume_cons]
    exact Nat.mul_le_mul (by omega) (volume_le_capacity rest)

theorem capacity_append (a b : List Nat) : capacity (a ++ b) = capacity a * capacity b := by
  induction a with
  | nil => rw [List.nil_append]; exact (Nat.one_mul _).symm
  | cons d a ih => rw [List.cons_append, capacity_cons, capacity_cons, ih, Nat.mul_assoc]

theorem capacity_le_append_left (a b : List Nat) : capacity a ≤ capacity (a ++ b) := by
  rw [capacity_append]
  exact Nat.le_mul_of_pos_right _ (capacity_pos b)

theorem capacity_le_append_right (a b : List Nat) : capacity b ≤ capacity (a ++ b) := by
  rw [capacity_append]
  exact Nat.le_mul_of_pos_left _ (capacity_pos a)

theorem le_capacity_of_mem {d : Nat} : ∀ {dims : List Nat}, d ∈ dims → d ≤ capacity dims
  | e :: rest, h => by
    rw [capacity_cons]
    have hpos := capacity_pos rest
    rcases List.mem_cons.1 h with rfl | h
    · exact Nat.le_trans (Nat.le_max_right 1 d) (Nat.le_mul_of_pos_right _ hpos)
    · exact Nat.le_trans (le_capacity_of_mem h) (Nat.le_mul_of_pos_left _ (by omega))

/-- However many axes that stand together are taken, their positions can be counted in a word. -/
def Spans (dims : List Nat) : Prop := ∀ part, part <:+: dims → volume part < Word.limit

/-- There is room for the elements, and for the source of each, even if empty axes had one position. -/
def Roomy (dims : List Nat) : Prop := 16 * capacity dims < Word.half

instance (dims : List Nat) : Decidable (Roomy dims) := inferInstanceAs (Decidable (_ < _))

theorem Word.half_lt_limit : Word.half < Word.limit := by decide

theorem Spans.part {dims part : List Nat} (h : Spans dims) (hpart : part <:+: dims) : Spans part :=
  fun p hp => h p (hp.trans hpart)

theorem Spans.volume_lt {dims : List Nat} (h : Spans dims) : volume dims < Word.limit := h dims (List.infix_refl dims)

theorem Roomy.capacity_lt {dims : List Nat} (h : Roomy dims) : capacity dims < Word.limit :=
  Nat.lt_trans (Nat.lt_of_le_of_lt (Nat.le_mul_of_pos_left _ (by decide)) h) Word.half_lt_limit

theorem Roomy.of_le {dims dims' : List Nat} (h : Roomy dims) (hle : capacity dims' ≤ capacity dims) : Roomy dims' :=
  Nat.lt_of_le_of_lt (Nat.mul_le_mul_left _ hle) h

theorem spans_of_capacity_lt {dims : List Nat} (h : capacity dims < Word.limit) : Spans dims := by
  rintro part ⟨before, behind, rfl⟩
  have hbefore := capacity_le_append_right before part
  have hbehind := capacity_le_append_left (before ++ part) behind
  exact (volume_le_capacity part).trans_lt ((hbefore.trans hbehind).trans_lt h)

theorem Roomy.spans {dims : List Nat} (h : Roomy dims) : Spans dims := spans_of_capacity_lt h.capacity_lt

namespace Word

theorem foldlM_product_of_prefixes : ∀ {l : List Nat} {a : Nat}, (∀ p, p <+: l → a * volume p < limit) →
    l.foldlM (fun n d => nat (n * d)) a = .ok (a * volume l)
  | [], a, _ => by rw [List.foldlM_nil, show volume [] = 1 from rfl, Nat.mul_one]; rfl
  | d :: l, a, h => by
    have hlt : a * d < limit := by
      have hone := h [d] ⟨l, rfl⟩
      rwa [Index.volume_cons, show volume [] = 1 from rfl, Nat.mul_one] at hone
    have hrest : ∀ p, p <+: l → a * d * volume p < limit := fun p hp => by
      rw [Nat.mul_assoc, ← Index.volume_cons]
      exact h (d :: p) (List.cons_prefix_cons.2 ⟨rfl, hp⟩)
    rw [List.foldlM_cons, nat_eq_ok_iff.2 ⟨hlt, rfl⟩]
    exact (foldlM_product_of_prefixes hrest).trans (by rw [Index.volume_cons, Nat.mul_assoc])

theorem nat_of_lt {n : Nat} (h : n < limit) : nat n = .ok n := nat_eq_ok_iff.2 ⟨h, rfl⟩

theorem room_of_le {bytes n m : Nat} (h : bytes * m < half) (hle : n ≤ m) : room bytes n = .ok () :=
  if_pos (Nat.lt_of_le_of_lt (Nat.mul_le_mul_left _ hle) h)

end Word

/-- A product is counted if each of its steps is a count. -/
theorem Word.product_of_prefixes {l : List Nat} (h : ∀ p, p <+: l → volume p < limit) : product l = .ok (volume l) :=
  (foldlM_product_of_prefixes fun p hp => by rw [Nat.one_mul]; exact h p hp).trans (by rw [Nat.one_mul])

theorem Spans.product {dims : List Nat} (h : Spans dims) : Word.product dims = .ok (volume dims) :=
  Word.product_of_prefixes fun p hp => h p hp.isInfix

theorem volume_map_volume : ∀ blocks : List (List Nat), volume (blocks.map volume) = volume blocks.flatten
  | [] => rfl
  | block :: blocks => by
    rw [List.map_cons, Index.volume_cons, volume_map_volume blocks, List.flatten_cons, Index.volume_append]

/-- Axes that are counted block by block. -/
theorem Spans.product_blocks {blocks : List (List Nat)} (h : Spans blocks.flatten) :
    Word.product (blocks.map volume) = .ok (volume blocks.flatten) := by
  rw [← volume_map_volume]
  refine Word.product_of_prefixes fun p hp => ?_
  obtain ⟨front, ⟨rest, rfl⟩, rfl⟩ := List.prefix_map_iff.1 hp
  rw [volume_map_volume]
  exact h _ ⟨[], rest.flatten, by rw [List.flatten_append, List.nil_append]⟩

theorem Roomy.product {dims : List Nat} (h : Roomy dims) : Word.product dims = .ok (volume dims) := h.spans.product

theorem Roomy.room {dims : List Nat} (h : Roomy dims) {n : Nat} (hn : n ≤ capacity dims) : Operand.room n = .ok () :=
  Word.room_of_le (Nat.lt_of_le_of_lt (Nat.mul_le_mul_right _ (by decide)) h) hn

theorem stride_eq_volume : ∀ {dims : List Nat}, ∀ s ∈ Index.strides dims, ∃ part, part <:+ dims ∧ s = volume part
  | d :: rest, s, h => by
    rcases List.mem_cons.1 h with rfl | h
    · exact ⟨rest, List.suffix_cons d rest, rfl⟩
    · obtain ⟨part, hpart, rfl⟩ := stride_eq_volume s h
      exact ⟨part, hpart.trans (List.suffix_cons d rest), rfl⟩

theorem Spans.steps {dims : List Nat} (h : Spans dims) : Index.steps dims = .ok (Index.strides dims) := by
  refine if_pos (List.all_eq_true.2 fun s hs => decide_eq_true ?_)
  rcases List.mem_cons.1 hs with rfl | hs
  · exact h.volume_lt
  · obtain ⟨part, hpart, rfl⟩ := stride_eq_volume s hs
    exact h part hpart.isInfix

theorem Roomy.steps {dims : List Nat} (h : Roomy dims) : Index.steps dims = .ok (Index.strides dims) := h.spans.steps

/-! ## Operands -/

/-- There are as many values as the info says. -/
def Operand.Complete {R : Type} (x : Operand R) : Prop := x.info.counted = .ok x.values.length

theorem Operand.Complete.length_eq {R : Type} {x : Operand R} (h : x.Complete) : x.values.length = volume x.dims :=
  TensorInfo.counted_eq h

end TensorGraph
