import TensorGraph.Number.Word

/-!
Row-major indexing: the walk through the coordinates of a shape, which counts the last axis fastest, the strides that
turn a coordinate into a flat index, the lanes of one axis, and the flat indices that a broadcast operand is read at.
Main statement: the walk gives out the coordinates of the flat indices in order, and then no more.
-/
namespace TensorGraph

namespace Index

/-- The coordinate of the element at a flat index. -/
def coord : List Nat → Nat → List Nat
  | [], _ => []
  | _ :: rest, i => i / volume rest :: coord rest (i % volume rest)

/-! ## The walk -/

/-- A walk through the coordinates of a shape: the coordinate it stands at, whether it has given one out yet, and
whether there are none left. -/
structure Walk where
  dims : List Nat
  current : List Nat
  started : Bool
  exhausted : Bool
deriving DecidableEq, Repr

namespace Walk

/-- The walk that has given out nothing yet. A shape with a zero extent has no coordinates. -/
def start (dims : List Nat) : Walk :=
  { dims, current := dims.map fun _ => 0, started := false, exhausted := dims.contains 0 }

/-- A coordinate counted up on its last axis. An axis that reaches its extent goes back to zero and carries into the
axis before it; the first component says whether the first axis did. -/
def count : List Nat → List Nat → Bool × List Nat
  | d :: dims, k :: c =>
    match count dims c with
    | (false, c) => (false, k :: c)
    | (true, c) => if k + 1 < d then (false, (k + 1) :: c) else (true, 0 :: c)
  | _, _ => (true, [])

/-- The next coordinate, if there is one, and the walk from there on. -/
def next (w : Walk) : Option (List Nat) × Walk :=
  if w.exhausted then (none, w)
  else if !w.started then (some w.current, { w with started := true })
  else
    match count w.dims w.current with
    | (false, c) => (some c, { w with current := c })
    | (true, c) => (none, { w with current := c, exhausted := true })

/-- The next coordinates, the latest first and at most `n` of them, before those in `seen`. -/
def collect : Nat → Walk → List (List Nat) → List (List Nat)
  | 0, _, seen => seen
  | n + 1, w, seen =>
    match w.next with
    | (some c, w) => collect n w (c :: seen)
    | (none, _) => seen

end Walk

/-- The first coordinates below the extents, at most `n` of them, the last axis moving fastest. -/
def firstCoords (dims : List Nat) (n : Nat) : List (List Nat) := (Walk.collect n (Walk.start dims) []).reverse

/-- The coordinates below the extents, the last axis moving fastest. There are none if an extent is zero, however
large the others are. -/
def coords (dims : List Nat) : List (List Nat) := firstCoords dims (volume dims + 1)

/-! ## Coordinates and flat indices -/

theorem volume_eq_zero_iff : ∀ {dims : List Nat}, volume dims = 0 ↔ 0 ∈ dims
  | [] => by simp [volume]
  | d :: rest => by
    rw [show volume (d :: rest) = d * volume rest from rfl, Nat.mul_eq_zero, volume_eq_zero_iff, List.mem_cons,
      eq_comm]

/-- The first coordinate is zero on every axis. -/
theorem coord_zero : ∀ dims : List Nat, coord dims 0 = dims.map fun _ => 0
  | [] => rfl
  | _ :: rest => by rw [coord, Nat.zero_div, Nat.zero_mod, coord_zero rest, List.map_cons]

theorem coord_cons {d k j : Nat} {rest : List Nat} (hj : j < volume rest) :
    coord (d :: rest) (k * volume rest + j) = k :: coord rest j := by
  rw [coord, Nat.add_comm, Nat.add_mul_div_right _ _ (by omega), Nat.div_eq_of_lt hj, Nat.zero_add,
    Nat.add_mul_mod_self_right, Nat.mod_eq_of_lt hj]

namespace Walk

/-- Counting up leads to the coordinate of the next flat index, and at the last one carries out of the first axis. -/
theorem count_coord : ∀ {dims : List Nat} {i : Nat}, i < volume dims →
    count dims (coord dims i) =
      if i + 1 < volume dims then (false, coord dims (i + 1)) else (true, dims.map fun _ => 0)
  | [], i, h => by
    have hi : i = 0 := Nat.lt_one_iff.1 h
    subst hi
    rfl
  | d :: rest, i, h => by
    obtain ⟨k, j, hk, hj, rfl⟩ : ∃ k j, k < d ∧ j < volume rest ∧ i = k * volume rest + j := by
      have hpos : 0 < volume rest := Nat.pos_of_mul_pos_left (Nat.zero_lt_of_lt h)
      exact ⟨i / volume rest, i % volume rest, (Nat.div_lt_iff_lt_mul hpos).2 h, Nat.mod_lt i hpos,
        (Nat.div_add_mod' i _).symm⟩
    have hmul : (k + 1) * volume rest ≤ d * volume rest := Nat.mul_le_mul_right _ hk
    rw [Nat.succ_mul] at hmul
    rw [coord_cons hj, count, count_coord hj, show volume (d :: rest) = d * volume rest from rfl]
    by_cases hin : j + 1 < volume rest
    · rw [if_pos hin, if_pos (by omega), Nat.add_assoc, coord_cons hin]
    · -- the axes behind start anew, and this one counts up unless it is through too
      have hnext : k * volume rest + j + 1 = (k + 1) * volume rest := by rw [Nat.succ_mul]; omega
      have hcoord : coord (d :: rest) ((k + 1) * volume rest) = (k + 1) :: rest.map fun _ => 0 := by
        rw [← coord_zero rest]
        exact coord_cons (Nat.zero_lt_of_lt hj)
      rw [if_neg hin, hnext, hcoord]
      by_cases hk' : k + 1 < d
      · rw [if_pos (Nat.mul_lt_mul_of_pos_right hk' (Nat.zero_lt_of_lt hj))]
        exact if_pos hk'
      · rw [if_neg (Nat.not_lt.2 (Nat.mul_le_mul_right _ (Nat.not_lt.1 hk')))]
        exact if_neg hk'

/-- The walk that has given out the coordinate of the flat index `i` last. -/
def reached (dims : List Nat) (i : Nat) : Walk :=
  { dims, current := coord dims i, started := true, exhausted := false }

/-- The walk that has given out every coordinate. -/
def ended (dims : List Nat) : Walk :=
  { dims, current := dims.map fun _ => 0, started := true, exhausted := true }

variable {dims : List Nat}

theorem next_start (h : 0 < volume dims) : (start dims).next = (some (coord dims 0), reached dims 0) := by
  have hzero : dims.contains 0 = false := by
    rw [List.contains_eq_mem, decide_eq_false_iff_not, ← volume_eq_zero_iff]
    omega
  simp only [next, start, hzero, reached, coord_zero]
  rfl

theorem next_start_of_empty (h : volume dims = 0) : (start dims).next = (none, start dims) := by
  have hzero : dims.contains 0 = true := by
    rw [List.contains_eq_mem, decide_eq_true_iff, ← volume_eq_zero_iff]
    exact h
  simp only [next, start, hzero]
  rfl

theorem next_reached {i : Nat} (h : i < volume dims) : (reached dims i).next =
    if i + 1 < volume dims then (some (coord dims (i + 1)), reached dims (i + 1)) else (none, ended dims) := by
  have hcount := count_coord h
  by_cases hnext : i + 1 < volume dims
  · rw [if_pos hnext] at hcount
    simp [next, reached, hcount, hnext]
  · rw [if_neg hnext] at hcount
    simp [next, reached, ended, hcount, hnext]

theorem next_ended : (ended dims).next = (none, ended dims) := rfl

/-- From the flat index `i` on, the walk gives out the coordinates of those behind it. -/
theorem collect_reached : ∀ {n i : Nat} {seen : List (List Nat)}, i < volume dims →
    collect n (reached dims i) seen =
      ((List.range' (i + 1) (min n (volume dims - (i + 1)))).map (coord dims)).reverse ++ seen
  | 0, i, seen, _ => by rw [Nat.zero_min]; rfl
  | n + 1, i, seen, h => by
    rw [collect, next_reached h]
    by_cases hnext : i + 1 < volume dims
    · have hmin : min (n + 1) (volume dims - (i + 1)) = min n (volume dims - (i + 1 + 1)) + 1 := by omega
      rw [if_pos hnext, hmin, List.range'_succ, List.map_cons, List.reverse_cons, List.append_assoc]
      exact collect_reached hnext
    · rw [if_neg hnext, show volume dims - (i + 1) = 0 by omega, Nat.min_zero]
      rfl

end Walk

theorem firstCoords_eq_map_coord (dims : List Nat) (n : Nat) :
    firstCoords dims n = (List.range (min n (volume dims))).map (coord dims) := by
  rcases Nat.eq_zero_or_pos (volume dims) with hempty | hpos
  · rw [hempty, Nat.min_zero, firstCoords]
    cases n with
    | zero => rfl
    | succ n => rw [Walk.collect, Walk.next_start_of_empty hempty]; rfl
  · rw [firstCoords]
    cases n with
    | zero => rw [Nat.zero_min]; rfl
    | succ n =>
      have hmin : min (n + 1) (volume dims) = min n (volume dims - (0 + 1)) + 1 := by omega
      rw [Walk.collect, Walk.next_start hpos, hmin, List.range_eq_range', List.range'_succ, List.map_cons]
      change (Walk.collect n (Walk.reached dims 0) [coord dims 0]).reverse = _
      rw [Walk.collect_reached hpos, List.reverse_append, List.reverse_reverse]
      rfl

/-- The coordinates in order are those of the flat indices. -/
theorem coords_eq_map_coord (dims : List Nat) : coords dims = (List.range (volume dims)).map (coord dims) := by
  rw [coords, firstCoords_eq_map_coord, Nat.min_eq_right (Nat.le_succ _)]

/-- Taking only the first coordinates is no other order. -/
theorem firstCoords_eq_take (dims : List Nat) (n : Nat) : firstCoords dims n = (coords dims).take n := by
  rw [firstCoords_eq_map_coord, coords_eq_map_coord, ← List.map_take, List.take_range]

/-! ## Strides -/

/-- How far apart the elements of neighbouring coordinates stand, for each axis. -/
def strides : List Nat → List Nat
  | [] => []
  | _ :: rest => volume rest :: strides rest

/-- The strides of a shape whose elements can be counted in words, whichever axis the count starts from. -/
def steps (dims : List Nat) : Outcome (List Nat) :=
  if (volume dims :: strides dims).all (· < Word.limit) then .ok (strides dims) else .error .abort

/-- The flat index of a coordinate under the given strides. -/
def flat : List Nat → List Nat → Nat
  | c :: coord, s :: strides => c * s + flat coord strides
  | _, _ => 0

/-- The axis that `axis` names in a tensor of the given rank. -/
def axis (axis : Int) (rank : Nat) : Outcome Nat :=
  let resolved := if axis < 0 then axis + rank else axis
  if resolved < 0 ∨ resolved ≥ rank then .execution (.axisOutOfRange axis rank)
  else .ok resolved.toNat

/-! ## Lanes -/

/-- One axis of a shape: the number of positions before it, on it and behind it. -/
structure Lanes where
  outer : Nat
  extent : Nat
  inner : Nat
deriving DecidableEq, Repr

namespace Lanes

/-- The lanes of an axis. -/
def ofAxis (dims : List Nat) (axis : Nat) : Outcome Lanes := do
  let outer ← Word.product (dims.take axis)
  let inner ← Word.product (dims.drop (axis + 1))
  return { outer, extent := ← Outcome.promised dims[axis]?, inner }

/-- The flat index of position `k` on the axis, with `o` before it and `i` behind it. -/
def index (l : Lanes) (o k i : Nat) : Nat := (o * l.extent + k) * l.inner + i

end Lanes

/-! ## Broadcasting -/

/-- The strides at which an operand is read along axes that have the extents `target`: an axis of extent one
that is stretched is read at its only position. -/
def stretchedStrides : List Nat → List Nat → List Nat → Option (List Nat)
  | d :: dims, s :: strides, t :: target => do
    let rest ← stretchedStrides dims strides target
    if d = t then some (s :: rest) else if d = 1 then some (0 :: rest) else none
  | _, _, _ => some []

/-- For each element of a tensor with extents `target`, the element of an operand with extents `source` that
stands for it. -/
def broadcastSources (source target : List Nat) : Outcome (List Nat) :=
  let offset := target.length - source.length
  if target.length < source.length then .execution (.cannotBroadcast source target)
  else do
    match stretchedStrides source (← steps source) (target.drop offset) with
    | none => .execution (.cannotBroadcast source target)
    | some aligned =>
      return (coords target).map fun c => flat c (List.replicate offset 0 ++ aligned)

end Index

end TensorGraph
