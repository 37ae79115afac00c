import TensorGraph.Proofs.Kernel.Windows

/-!
Tensors one behind the other along an axis. Where all operands but one are zero, the whole is that one operand in a
window that starts behind the operands before it, and its gradient is the slice that reads the window.
-/
namespace TensorGraph

namespace Index

/-! ## Windows along one axis -/

variable {c dims : List Nat} {a d k offset : Nat}

theorem Within.set (h : Within c dims) (hk : k < d) : Within (c.set a k) (dims.set a d) := by
  induction h generalizing a with
  | nil => exact .nil
  | cons hlt hrest ih =>
    cases a with
    | zero => exact .cons hk hrest
    | succ a => exact .cons hlt ih

theorem Within.getD_lt (h : Within c dims) (ha : a < dims.length) : c.getD a 0 < dims.getD a 0 := by
  have ha' : a < c.length := List.Forall₂.length_eq h ▸ ha
  rw [List.getD_eq_getElem _ _ ha, List.getD_eq_getElem _ _ ha']
  exact (List.forall₂_iff_get.1 h).2 a ha' ha

/-- Offsets of a window that is cut along one axis. -/
def along (n a offset : Nat) : List Nat := (List.replicate n 0).set a offset

theorem window_whole : ∀ dims : List Nat, Window (List.replicate dims.length 0) dims dims
  | [] => .nil
  | d :: dims => .cons (Nat.zero_add d).le (window_whole dims)

theorem window_along : ∀ {dims : List Nat} {a : Nat}, offset + d ≤ dims.getD a 0 →
    Window (along dims.length a offset) (dims.set a d) dims
  | [], _, _ => .nil
  | _ :: dims, 0, h => .cons h (window_whole dims)
  | e :: _, a + 1, h => .cons (Nat.zero_add e).le (window_along (a := a) h)

theorem unshift_whole (h : Within c dims) : unshift (List.replicate dims.length 0) dims c = some c := by
  induction h with
  | nil => rfl
  | @cons k d c dims hk _ ih =>
    rw [List.length_cons, List.replicate_succ, unshift, ih, if_pos ⟨Nat.zero_le k, hk⟩]
    rfl

/-- Only the entry on the axis tells whether a coordinate is one of the window. -/
theorem unshift_along : ∀ {dims c : List Nat} {a : Nat}, a < dims.length → Within c dims →
    unshift (along dims.length a offset) (dims.set a d) c =
      if offset ≤ c.getD a 0 ∧ c.getD a 0 - offset < d then some (c.set a (c.getD a 0 - offset)) else none
  | e :: dims, k :: c, 0, _, .cons hk hc => by
    change (if _ then (unshift (List.replicate dims.length 0) dims c).map _ else none) = _
    rw [unshift_whole hc]
    rfl
  | e :: dims, k :: c, a + 1, h, .cons hk hc => by
    change (if _ then (unshift (along dims.length a offset) (dims.set a d) c).map _ else none) = _
    rw [unshift_along (Nat.lt_of_succ_lt_succ h) hc, if_pos ⟨Nat.zero_le k, hk⟩]
    simp only [List.getD_cons_succ, List.set_cons_succ]
    split <;> rfl

theorem volume_set : ∀ {dims : List Nat} {a : Nat}, a < dims.length → volume (dims.set a d) = d * volume (dims.eraseIdx a)
  | e :: dims, 0, _ => rfl
  | e :: dims, a + 1, h => by
    rw [List.set_cons_succ, List.eraseIdx_cons_succ, volume_cons, volume_cons, volume_set (Nat.lt_of_succ_lt_succ h),
      Nat.mul_left_comm]

end Index

namespace OpKind

/-- The slice of a part on one axis. -/
theorem sliceRanges_part {s : Shape} {a start stop : Nat} {e : Int} (he : s[a]? = some e) (hstart : start ≤ stop)
    (hstop : (stop : Int) ≤ e) : s.sliceRanges [(start : Int)] [(stop : Int)] [Int.ofNat a] = .ok [⟨a, start, stop⟩] := by
  obtain ⟨ha, -⟩ := List.getElem?_eq_some_iff.1 he
  have hclamp : ∀ n : Nat, (n : Int) ≤ e → Shape.clampPosition e n = .ok n := by
    intro n hn
    simp only [Shape.clampPosition]
    rw [if_neg (by omega), if_neg (by omega), Int.min_eq_left hn, Int.max_eq_right (by omega), Int.toNat_natCast]
  have hfront : Shape.fromFront (Int.ofNat a) s.length = a := if_neg (by simp)
  have hrange : s.sliceRange start stop (Int.ofNat a) = .ok ⟨a, start, max stop start⟩ := by
    simp only [Shape.sliceRange, hfront]
    rw [if_neg (by omega), Int.toNat_natCast, he]
    change (Shape.clampPosition e start >>= fun first => Shape.clampPosition e stop >>= fun last => _) = _
    rw [hclamp start (by omega), hclamp stop hstop]
    rfl
  rw [Nat.max_eq_left hstart] at hrange
  rw [Shape.sliceRanges, if_neg (by simp)]
  change [(((start : Int), (stop : Int)), Int.ofNat a)].mapM (fun p => s.sliceRange p.1.1 p.1.2 p.2) = _
  rw [List.mapM_cons, hrange]
  rfl

/-- What is cut out is the part. -/
theorem slicedShape_part {out i : TensorInfo} {a start d : Nat} (h : Lies out a i d) :
    slicedShape out.shape [⟨a, start, start + d⟩] = i.shape := by
  change out.shape.set a ((start + d - start : Nat) : Int) = _
  rw [Nat.add_sub_cancel_left, h.shape]

end OpKind

namespace Kernel

open Index

/-! ## Parts one behind the other -/

section Parts

variable {R : Type} {xs : List (Operand R)} {x : Operand R} {dims c : List Nat} {a k : Nat}

/-- The extent of an operand on an axis. -/
def extent (a : Nat) (x : Operand R) : Nat := x.dims.getD a 0

/-- Where the operand with number `k` starts on the axis. -/
def startOf (a k : Nat) (xs : List (Operand R)) : Nat := ((xs.take k).map (extent a)).sum

theorem startOf_cons {z : Operand R} : startOf a (k + 1) (z :: xs) = extent a z + startOf a k xs := by
  rw [startOf, List.take_succ_cons, List.map_cons, List.sum_cons]
  rfl

/-- Operands that make up a tensor with the extents `dims`, one behind the other. -/
structure Piled (a : Nat) (dims : List Nat) (xs : List (Operand R)) : Prop where
  axis : a < dims.length
  shapes : ∀ x ∈ xs, x.dims = dims.set a (extent a x)
  total : dims.getD a 0 = (xs.map (extent a)).sum
  complete : ∀ x ∈ xs, x.Complete

/-- What an operand is in concatenation. -/
def part (x : Operand R) : Part := ⟨x.dims, strides x.dims, x.values.length⟩

/-- All of them have as many elements as what they make up. -/
theorem Piled.length_pool (h : Piled a dims xs) : (xs.map (·.values)).flatten.length = volume dims := by
  have hlengths : ((xs.map (·.values)).map List.length) = xs.map fun x => extent a x * volume (dims.eraseIdx a) := by
    rw [List.map_map]
    refine List.map_congr_left fun x hx => ?_
    rw [Function.comp, (h.complete x hx).length_eq, h.shapes x hx, volume_set h.axis]
  rw [List.length_flatten, hlengths, List.sum_map_mul_right, ← h.total, ← volume_set h.axis,
    List.getD_eq_getElem _ _ h.axis, List.set_getElem_self]

/-- The element at a coordinate, which is counted from the first of the operands on the axis. -/
def entryAlong [Zero R] (a : Nat) (c : List Nat) : List (Operand R) → Nat → R
  | [], _ => 0
  | x :: xs, i =>
    if i < extent a x then x.values.getD (flat (c.set a i) (strides x.dims)) 0 else entryAlong a c xs (i - extent a x)

variable [Scalar R]

/-- The source of a coordinate is the element that stands there. -/
theorem concatSource_ok (ha : a < dims.length) (hc : Within c dims) : ∀ {xs : List (Operand R)} (front : List R) {i : Nat}
    {r : Option Nat}, (∀ x ∈ xs, x.dims = dims.set a (extent a x)) → (∀ x ∈ xs, x.Complete) →
    concatSource a c (xs.map part) front.length i = .ok r →
      (r.elim 0 fun j => (front ++ (xs.map (·.values)).flatten).getD j 0) = entryAlong a c xs i
  | [], _, _, _, _, _, h => by
    cases h
    rfl
  | x :: xs, front, i, r, hshapes, hcomplete, h => by
    have hdims := hshapes x List.mem_cons_self
    have hextent : x.dims[a]? = some (extent a x) := by
      rw [hdims, List.getElem?_set_self ha]
    rw [List.map_cons, concatSource] at h
    obtain ⟨e, he, h⟩ := Outcome.bind_eq_ok.1 h
    cases (Outcome.promised_eq_ok.1 he).symm.trans hextent
    split at h
    · rename_i hi
      split at h
      · cases h
      · obtain ⟨j, hj, h⟩ := Outcome.bind_eq_ok.1 h
        cases h
        obtain ⟨-, rfl⟩ := Word.nat_eq_ok_iff.1 hj
        have hw : Within (c.set a i) x.dims := hdims ▸ hc.set hi
        have hlt : flat (c.set a i) (strides x.dims) < x.values.length :=
          (hcomplete x List.mem_cons_self).length_eq ▸ flat_lt hw
        change (front ++ (x.values ++ (xs.map (·.values)).flatten)).getD (front.length + flat (c.set a i) (strides x.dims)) 0 =
          if i < extent a x then _ else _
        rw [if_pos hi, List.getD_eq_getElem?_getD, List.getD_eq_getElem?_getD,
          List.getElem?_append_right (Nat.le_add_right _ _), Nat.add_sub_cancel_left, List.getElem?_append_left hlt]
    · rename_i hi
      have hrest := concatSource_ok ha hc (front ++ x.values) (fun z hz => hshapes z (List.mem_cons_of_mem x hz))
        (fun z hz => hcomplete z (List.mem_cons_of_mem x hz)) (by rwa [List.length_append])
      rw [entryAlong, if_neg hi, ← hrest, List.append_assoc, List.map_cons, List.flatten_cons]

omit [Scalar R] in
/-- There is an element at every coordinate. -/
theorem concatSource_total (ha : a < dims.length) (hc : Within c dims) : ∀ {xs : List (Operand R)} (base i : Nat),
    (∀ x ∈ xs, x.dims = dims.set a (extent a x)) → (∀ x ∈ xs, x.Complete) → i < (xs.map (extent a)).sum →
    base + (xs.map (·.values)).flatten.length < Word.limit →
      ∃ j < base + (xs.map (·.values)).flatten.length, concatSource a c (xs.map part) base i = .ok (some j)
  | [], _, _, _, _, hi, _ => absurd hi (Nat.not_lt_zero _)
  | x :: xs, base, i, hshapes, hcomplete, hi, hlimit => by
    have hdims := hshapes x List.mem_cons_self
    have hextent : x.dims[a]? = some (extent a x) := by
      rw [hdims, List.getElem?_set_self ha]
    rw [List.map_cons, List.flatten_cons, List.length_append] at hlimit ⊢
    rw [List.map_cons, List.sum_cons] at hi
    have hpart : (part x).dims[a]? = some (extent a x) := hextent
    rw [List.map_cons, concatSource, hpart]
    change ∃ j < _, (if i < extent a x then _ else _) = _
    by_cases hlt : i < extent a x
    · have hw : Within (c.set a i) x.dims := hdims ▸ hc.set hlt
      have hflat : flat (c.set a i) (strides x.dims) < x.values.length :=
        (hcomplete x List.mem_cons_self).length_eq ▸ flat_lt hw
      have hrank : ¬ (part x).dims.length < c.length := by
        change ¬ x.dims.length < c.length
        rw [hdims, List.length_set, List.Forall₂.length_eq hc]
        exact Nat.lt_irrefl _
      refine ⟨base + flat (c.set a i) (strides x.dims), by omega, ?_⟩
      rw [if_pos hlt, if_neg hrank]
      change (Word.nat (base + flat (c.set a i) (strides x.dims)) >>= _) = _
      rw [Word.nat_of_lt (by omega)]
      rfl
    · obtain ⟨j, hj, hsource⟩ := concatSource_total ha hc (base + x.values.length) (i - extent a x)
        (fun z hz => hshapes z (List.mem_cons_of_mem x hz)) (fun z hz => hcomplete z (List.mem_cons_of_mem x hz))
        (by omega) (by omega)
      exact ⟨j, by omega, (if_neg hlt).trans hsource⟩

omit [Scalar R] in
/-- What stands in operand `k` comes from there, behind the elements of the operands before it. -/
theorem concatSource_at (ha : a < dims.length) : ∀ {xs : List (Operand R)} {k base i : Nat} {r : Option Nat},
    (∀ x ∈ xs, x.dims = dims.set a (extent a x)) → xs[k]? = some x → i < extent a x →
    concatSource a c (xs.map part) base (startOf a k xs + i) = .ok r →
      r = some (base + ((xs.take k).map (·.values.length)).sum + flat (c.set a i) (strides x.dims))
  | z :: xs, k, base, i, r, hshapes, hx, hi, h => by
    have hextent : z.dims[a]? = some (extent a z) := by
      rw [hshapes z List.mem_cons_self, List.getElem?_set_self ha]
    rw [List.map_cons, concatSource] at h
    obtain ⟨e, he, h⟩ := Outcome.bind_eq_ok.1 h
    cases (Outcome.promised_eq_ok.1 he).symm.trans hextent
    cases k with
    | zero =>
      cases hx
      rw [show startOf a 0 (x :: xs) + i = i from Nat.zero_add i, if_pos hi] at h
      split at h
      · cases h
      · obtain ⟨j, hj, h⟩ := Outcome.bind_eq_ok.1 h
        cases h
        obtain ⟨-, rfl⟩ := Word.nat_eq_ok_iff.1 hj
        rfl
    | succ k =>
      rw [startOf_cons, if_neg (by omega), show extent a z + startOf a k xs + i - extent a z = startOf a k xs + i by omega] at h
      rw [concatSource_at ha (fun w hw => hshapes w (List.mem_cons_of_mem z hw)) hx hi h, List.take_succ_cons, List.map_cons,
        List.sum_cons]
      simp [part, Nat.add_assoc]

omit [Scalar R] in
/-- The elements of all operands. -/
theorem pool_all : (List.range xs.length).mapM (fun i => do return (← Outcome.promised xs[i]?).values) =
    (Except.ok (xs.map (·.values)) : Outcome _) := by
  have hentries : (List.range xs.length).mapM (fun i => do return (← Outcome.promised xs[i]?).values) =
      (Except.ok ((List.range xs.length).map fun i => (xs[i]?.map (·.values)).getD []) : Outcome _) := by
    refine Outcome.mapM_of_forall fun i hi => ?_
    simp [Outcome.promised, List.mem_range.1 hi, bind, Except.bind, pure, Except.pure]
  rw [hentries]
  refine congrArg Except.ok (List.ext_getElem (by simp) fun i hi hi' => ?_)
  have hlt : i < xs.length := by simpa using hi
  simp [hlt]

omit [Scalar R] in
/-- Every coordinate of a concatenation has a source. -/
theorem concatSources_ok {out : TensorInfo} {l : Sources} (h : concatSources a xs out = .ok l) :
    l.length = volume out.dims ∧ ∀ i < volume out.dims,
      concatSource a (coord out.dims i) (xs.map part) 0 ((coord out.dims i).getD a 0) = .ok (l.getD i none) := by
  obtain ⟨parts, hparts, h⟩ := Outcome.bind_eq_ok.1 h
  obtain ⟨sources, hsources, h⟩ := Outcome.bind_eq_ok.1 h
  split at h
  · cases h
  · cases h
    have hparts : parts = xs.map part := by
      refine eq_map_of_forall₂ ((Outcome.mapM_eq_ok.1 hparts).imp fun x p hx => ?_)
      obtain ⟨l, hl, hx⟩ := Outcome.bind_eq_ok.1 hx
      cases steps_ok hl
      exact (Except.ok.inj hx).symm
    subst hparts
    rw [sourcesOf, coords_eq_map_coord, Outcome.mapM_eq_ok, List.forall₂_map_left_iff, List.forall₂_iff_get] at hsources
    obtain ⟨hcount, hall⟩ := hsources
    rw [List.length_range] at hcount
    refine ⟨hcount.symm, fun i hi => ?_⟩
    have hi' : i < l.length := hcount ▸ hi
    have hsource := hall i (by rwa [List.length_range]) hi'
    rw [List.get_eq_getElem, List.getElem_range] at hsource
    obtain ⟨along, halong, hsource⟩ := Outcome.bind_eq_ok.1 hsource
    rw [Outcome.promised_eq_ok] at halong
    rw [List.getD_eq_getElem?_getD, halong, List.getD_eq_getElem l _ hi']
    exact hsource

omit [Scalar R] in
/-- Where the sizes can be counted, a concatenation has its sources among the elements of its operands. -/
theorem concatSources_total {out : TensorInfo} (hp : Piled a out.dims xs) (hspans : ∀ x ∈ xs, Spans x.dims)
    (hlimit : volume out.dims < Word.limit) : ∃ l, concatSources a xs out = .ok l ∧ l.length = volume out.dims ∧
      ∀ j, some j ∈ l → j < (xs.map (·.values)).flatten.length := by
  have hparts : xs.mapM (fun x => do return ⟨x.dims, ← Index.steps x.dims, x.values.length⟩) =
      (Except.ok (xs.map part) : Outcome (List Part)) := by
    refine Outcome.mapM_of_forall fun x hx => ?_
    rw [(hspans x hx).steps]
    rfl
  have hall : ∀ p ∈ coords out.dims, ∃ j,
      (Outcome.promised p[a]? >>= fun i => concatSource a p (xs.map part) 0 i) = .ok (some j) ∧
        j < (xs.map (·.values)).flatten.length := by
    intro p hmem
    have hw := within_of_mem_coords hmem
    have hlt : p.getD a 0 < (xs.map (extent a)).sum := hp.total ▸ hw.getD_lt hp.axis
    obtain ⟨j, hj, hsource⟩ := concatSource_total hp.axis hw 0 _ hp.shapes hp.complete hlt (by
      rwa [Nat.zero_add, hp.length_pool])
    have hentry : p[a]? = some (p.getD a 0) := by
      have hlen : a < p.length := List.Forall₂.length_eq hw ▸ hp.axis
      rw [List.getD_eq_getElem _ _ hlen, List.getElem?_eq_getElem hlen]
    rw [Nat.zero_add] at hj
    refine ⟨j, ?_, hj⟩
    rw [hentry]
    exact hsource
  choose! w hw hlt using hall
  refine ⟨(coords out.dims).map fun c => some (w c), ?_, by rw [List.length_map, length_coords], fun j hj => ?_⟩
  · rw [concatSources, hparts]
    change (sourcesOf out _ >>= _) = _
    rw [sourcesOf, Outcome.mapM_of_forall hw]
    exact if_neg (by simp)
  · obtain ⟨c, hc, heq⟩ := List.mem_map.1 hj
    exact Option.some.inj heq ▸ hlt c hc

/-- The elements of a concatenation. -/
theorem exact_concat {axis : Int} {out : TensorInfo} {y : Operand R} (hzero : (Scalar.ofSingle .zero : R) = 0)
    (hne : xs ≠ []) (haxis : ∀ x ∈ xs, Index.axis axis x.info.rank = .ok a) (hp : Piled a out.dims xs)
    (h : exact (.concat axis) xs out = .ok y) : y.values.length = volume out.dims ∧
      ∀ i < volume out.dims, y.values.getD i 0 = entryAlong a (coord out.dims i) xs ((coord out.dims i).getD a 0) := by
  obtain ⟨-, -, p, hplan, hread⟩ := exact_ok h
  obtain ⟨first, rest, rfl⟩ := List.exists_cons_of_ne_nil hne
  change (Index.axis axis first.info.rank >>= _) = _ at hplan
  rw [haxis first List.mem_cons_self] at hplan
  cases hplan
  obtain ⟨data, hdata, hread⟩ := Outcome.bind_eq_ok.1 hread
  cases pool_all.symm.trans hdata
  obtain ⟨l, hl, hpick⟩ := Outcome.bind_eq_ok.1 hread
  obtain ⟨hcount, hsource⟩ := concatSources_ok hl
  obtain ⟨hlen, hvalues⟩ := pick_ok hpick
  refine ⟨hlen.trans hcount, fun i hi => ?_⟩
  have hentry := concatSource_ok hp.axis (within_coord hi) [] hp.shapes hp.complete (hsource i hi)
  rw [List.nil_append] at hentry
  rw [hvalues i (hlen.trans hcount ▸ hi), hzero]
  exact hentry

/-- A concatenation gives a result where the sizes can be counted. -/
theorem exact_concat_total {axis : Int} {out : TensorInfo} (hne : xs ≠ [])
    (haxis : ∀ x ∈ xs, Index.axis axis x.info.rank = .ok a) (hp : Piled a out.dims xs) (hc : Countable xs out) :
    ∃ y, exact (.concat axis) xs out = .ok y := by
  obtain ⟨first, rest, rfl⟩ := List.exists_cons_of_ne_nil hne
  obtain ⟨l, hsources, hlen, hlt⟩ := concatSources_total hp (fun x hx => (hc.operands x hx).spans) hc.result.spans.volume_lt
  obtain ⟨values, hpick⟩ := @Storage.pick_total R ((first :: rest).map (·.values)).flatten (Scalar.ofSingle .zero) l hlt
  have hcount : out.counted = .ok values.length := counted_of_roomy hc.result (by
    rw [(pick_ok hpick).1, hlen])
  refine ⟨_, exact_move ?_ pool_all hpick hcount⟩
  change (Index.axis axis first.info.rank >>= _) = _
  rw [haxis first List.mem_cons_self, ← hsources]
  rfl

end Parts

/-! ## One operand among zeros -/

section Apart

variable {R : Type} [Field R] {f : Numbers R} {xs : List (Operand R)} {x g : Operand R} {dims c : List Nat} {a k : Nat}
  {out : TensorInfo} {axis : Int}

theorem entryAlong_zero : ∀ {xs : List (Operand R)} {i : Nat}, (∀ x ∈ xs, ∀ v ∈ x.values, v = 0) →
    entryAlong a c xs i = 0
  | [], _, _ => rfl
  | x :: xs, i, h => by
    rw [entryAlong]
    split
    · exact getD_zero (h x List.mem_cons_self) _
    · exact entryAlong_zero fun z hz => h z (List.mem_cons_of_mem x hz)

/-- Where all other operands are zero, only the elements of the one operand are left. -/
theorem entryAlong_apart : ∀ {xs : List (Operand R)} {k i : Nat}, xs[k]? = some x → ZeroApart k xs →
    entryAlong a c xs i = if startOf a k xs ≤ i ∧ i - startOf a k xs < extent a x then
      x.values.getD (flat (c.set a (i - startOf a k xs)) (strides x.dims)) 0 else 0
  | z :: xs, 0, i, hx, hzero => by
    cases hx
    have hrest : entryAlong a c xs (i - extent a x) = 0 := entryAlong_zero fun z hz => by
      obtain ⟨j, hj, rfl⟩ := List.getElem_of_mem hz
      exact hzero (j + 1) _ (by rw [List.getElem?_cons_succ, List.getElem?_eq_getElem hj]) (Nat.succ_ne_zero j)
    rw [entryAlong, hrest]
    simp [startOf]
  | z :: xs, k + 1, i, hx, hzero => by
    have hz : ∀ v ∈ z.values, v = 0 := hzero 0 z rfl (Nat.succ_ne_zero k).symm
    have hrest := @entryAlong_apart xs k (i - extent a z) hx fun j w hw hj =>
      hzero (j + 1) w hw fun heq => hj (Nat.succ.inj heq)
    rw [entryAlong, startOf_cons, hrest]
    by_cases hi : i < extent a z
    · rw [if_pos hi, getD_zero hz, if_neg (by omega)]
    · have hcond : (startOf a k xs ≤ i - extent a z ∧ i - extent a z - startOf a k xs < extent a x) ↔
          (extent a z + startOf a k xs ≤ i ∧ i - (extent a z + startOf a k xs) < extent a x) := by omega
      rw [if_neg hi, if_congr hcond (by rw [Nat.sub_sub]) rfl]

omit [Field R] in
theorem startOf_succ (hx : xs[k]? = some x) : startOf a (k + 1) xs = startOf a k xs + extent a x := by
  rw [startOf, List.take_add_one, hx]
  simp [startOf]

omit [Field R] in
theorem startOf_add_le (hx : xs[k]? = some x) : startOf a k xs + extent a x ≤ (xs.map (extent a)).sum := by
  obtain ⟨hk, rfl⟩ := List.getElem?_eq_some_iff.1 hx
  have hsplit : xs.map (extent a) = (xs.take k).map (extent a) ++ extent a xs[k] :: (xs.drop (k + 1)).map (extent a) := by
    conv_lhs => rw [← List.take_append_drop k xs, List.map_append, List.drop_eq_getElem_cons hk, List.map_cons]
  rw [hsplit, List.sum_append, List.sum_cons, startOf]
  omega

omit [Field R] in
/-- Every operand stands in a window of the whole. -/
theorem Piled.window (hp : Piled a dims xs) (hx : xs[k]? = some x) :
    Window (along dims.length a (startOf a k xs)) x.dims dims := by
  have hw := @window_along (extent a x) (startOf a k xs) dims a (hp.total ▸ startOf_add_le hx)
  rwa [← hp.shapes x (List.mem_of_getElem? hx)] at hw

/-- The whole is the one operand in its window. -/
theorem carried_concat (hx : xs[k]? = some x) (haxis : ∀ x ∈ xs, Index.axis axis x.info.rank = .ok a)
    (hp : Piled a out.dims xs) (hzero : ZeroApart k xs) {y : Operand R}
    (h : @exact R f.scalar (.concat axis) xs out = .ok y) :
    Carried (unshift (Index.along out.dims.length a (startOf a k xs)) x.dims) x.dims out.dims x.values y.values := by
  let _ := f.scalar
  have hmem := List.mem_of_getElem? hx
  obtain ⟨hlen, hvalues⟩ := exact_concat f.ofSingle_zero (List.ne_nil_of_mem hmem) haxis hp h
  refine ⟨hlen, fun i hi => ?_⟩
  rw [hvalues i hi, entryAlong_apart hx hzero, carry]
  have hwindow := @unshift_along (extent a x) (startOf a k xs) _ _ a hp.axis (within_coord hi)
  rw [← hp.shapes x hmem] at hwindow
  rw [hwindow]
  split <;> rfl

omit [Field R] in
theorem extent_eq {d : Int} (hx : x.info.shape.Sized) (hd : x.info.shape[a]? = some d) : (extent a x : Int) = d := by
  have hnonneg := hx d (List.mem_of_getElem? hd)
  have hextent : extent a x = d.toNat := by
    simp [extent, Operand.dims, TensorInfo.dims, Shape.dims, List.getD_eq_getElem?_getD, hd]
  omega

omit [Field R] in
/-- What is inferred of a concatenation of tensors that are no scalars: they lie one behind the other on the axis. -/
theorem Forward.piled (hf : Forward (.concat axis) xs out) (hrank : ∀ x ∈ xs, x.info.shape ≠ []) : ∃ a,
    Piled a out.dims xs ∧ (∀ x ∈ xs, Index.axis axis x.info.rank = .ok a ∧ x.info.shape.axis axis = .ok a ∧
      OpKind.Lies out a x.info (extent a x)) ∧ out.shape[a]? = some ((xs.map (extent a)).sum : Int) := by
  obtain ⟨first, rest, a, hinfos, ha, hall⟩ := OpKind.infer_concat hf.infers
  obtain ⟨x₀, hx₀, hfirst⟩ : ∃ x₀ ∈ xs, x₀.info = first := List.mem_map.1 (hinfos ▸ List.mem_cons_self)
  obtain ⟨hfront, halt⟩ := OpKind.axis_ok ha (hfirst ▸ hrank x₀ hx₀)
  obtain ⟨ds, hds, hout⟩ := hall _ (List.getElem?_eq_getElem halt)
  have hlies : List.Forall₂ (fun x d => OpKind.Lies first a x.info d) xs (first.shape[a] :: ds) := by
    have hall := List.Forall₂.cons (OpKind.lies_self (List.getElem?_eq_getElem halt)) hds
    rwa [← hinfos, List.forall₂_map_left_iff] at hall
  have hextents : first.shape[a] :: ds = xs.map fun x => (extent a x : Int) := by
    refine eq_map_of_forall₂ (List.forall₂_iff_get.2 ⟨hlies.length_eq, fun i hi hi' => ?_⟩)
    exact (extent_eq (hf.sized _ (List.get_mem ..)) ((List.forall₂_iff_get.1 hlies).2 i hi hi').extent).symm
  have hsum : first.shape[a] + ds.sum = ((xs.map (extent a)).sum : Int) := by
    rw [← List.sum_cons, hextents, Nat.cast_list_sum, List.map_map]
    rfl
  have htotal : out.shape[a]? = some ((xs.map (extent a)).sum : Int) := by
    rw [hout, List.getElem?_set_self halt, hsum]
  have hpart : ∀ x ∈ xs, OpKind.Lies out a x.info (extent a x) := by
    intro x hx
    obtain ⟨d, -, hd⟩ := exists_of_forall₂ hlies x hx
    rw [extent_eq (hf.sized x hx) hd.extent]
    exact ⟨hd.extent, by rw [hout, List.set_set, hd.shape]⟩
  have hlen : ∀ x ∈ xs, x.info.shape.length = first.shape.length := by
    intro x hx
    rw [(hpart x hx).shape, hout, List.length_set, List.length_set]
  refine ⟨a, ⟨?_, fun x hx => ?_, ?_, hf.complete⟩, fun x hx => ⟨?_, ?_, hpart x hx⟩, htotal⟩
  · rw [TensorInfo.dims, Shape.length_dims, hout, List.length_set]
    exact halt
  · rw [Operand.dims, TensorInfo.dims, (hpart x hx).shape, Shape.dims, List.map_set]
    rfl
  · rw [TensorInfo.dims, Shape.dims, List.getD_eq_getElem?_getD, List.getElem?_map, htotal]
    exact Int.toNat_natCast _
  · exact Index.axis_eq (by rw [TensorInfo.rank, hlen x hx]; exact halt) (by rw [TensorInfo.rank, hlen x hx]; exact hfront)
  · unfold Shape.axis
    rw [hlen x hx]
    exact ha

/-- The gradient for an operand of a concatenation. -/
theorem backs_concat (hx : xs[k]? = some x) (hf : Forward (.concat axis) xs out) (hg : Incoming out g)
    (hzero : ZeroApart k xs) (ha : x.info.shape.axis axis = .ok a) (hrank : ∀ x ∈ xs, x.info.shape ≠ []) :
    Backs f (.concat axis) xs out k g (.slice [(startOf a k xs : Int)] [(startOf a k xs + extent a x : Nat)] [Int.ofNat a])
      [g] := by
  have hmem := List.mem_of_getElem? hx
  obtain ⟨a', hp, hlies, htotal⟩ := hf.piled hrank
  cases ha.symm.trans (hlies x hmem).2.1
  have hle := startOf_add_le (a := a) hx
  exact backs_window hx hf hg (hp.window hx) (fun hy => carried_concat hx (fun z hz => (hlies z hz).1) hp hzero hy)
    (OpKind.sliceRanges_part htotal (Nat.le_add_right _ _) (by omega)) (by rw [← Shape.length_dims]; rfl)
    (OpKind.slicedShape_part (hlies x hmem).2.2)

end Apart

end Kernel

end TensorGraph
