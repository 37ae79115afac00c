import TensorGraph.Proofs.Kernel.Moves

/-!
Slices and pads. A window is a box of positions within a larger one; a slice reads a window, and pads put a tensor into
one and fill what is around it. With zeros around it, each is the gradient of the other.
-/
namespace TensorGraph

namespace Index

/-! ## Windows -/

/-- Extents that fit into larger ones at the given offsets. -/
inductive Window : List Nat → List Nat → List Nat → Prop
  | nil : Window [] [] []
  | cons {p d e : Nat} {offsets dims whole : List Nat} (h : p + d ≤ e) (hs : Window offsets dims whole) :
      Window (p :: offsets) (d :: dims) (e :: whole)

/-- The coordinate in the whole of a coordinate in a window. -/
def shift (offsets c : List Nat) : List Nat := List.zipWith (· + ·) c offsets

/-- The coordinate in a window of a coordinate in the whole, if it is one of the window. -/
def unshift : List Nat → List Nat → List Nat → Option (List Nat)
  | p :: offsets, d :: dims, k :: c => if p ≤ k ∧ k - p < d then (unshift offsets dims c).map ((k - p) :: ·) else none
  | _, _, _ => some []

variable {offsets dims whole c c' : List Nat}

theorem window_iff : ∀ {offsets dims whole : List Nat}, Window offsets dims whole ↔ offsets.length = whole.length ∧
    dims.length = whole.length ∧ ∀ i, i < whole.length → offsets.getD i 0 + dims.getD i 0 ≤ whole.getD i 0
  | offsets, dims, [] => by
    constructor
    · rintro ⟨⟩
      exact ⟨rfl, rfl, nofun⟩
    · rintro ⟨h, h', -⟩
      rw [List.length_eq_zero_iff.1 h, List.length_eq_zero_iff.1 h']
      exact .nil
  | [], dims, e :: whole => ⟨nofun, fun h => nomatch h.1⟩
  | _ :: _, [], e :: whole => ⟨nofun, fun h => nomatch h.2.1⟩
  | p :: offsets, d :: dims, e :: whole => by
    constructor
    · rintro (_ | ⟨h, hs⟩)
      obtain ⟨hlen, hlen', hall⟩ := window_iff.1 hs
      refine ⟨congrArg (· + 1) hlen, congrArg (· + 1) hlen', fun i hi => ?_⟩
      cases i with
      | zero => exact h
      | succ i => exact hall i (Nat.lt_of_succ_lt_succ hi)
    · rintro ⟨hlen, hlen', hall⟩
      refine .cons (hall 0 (Nat.succ_pos _)) (window_iff.2 ⟨Nat.succ.inj hlen, Nat.succ.inj hlen', fun i hi => ?_⟩)
      exact hall (i + 1) (Nat.succ_lt_succ hi)

theorem within_shift (h : Window offsets dims whole) (hc : Within c dims) : Within (shift offsets c) whole := by
  induction h generalizing c with
  | nil =>
    cases hc
    exact .nil
  | @cons p d e _ _ _ h _ ih =>
    obtain ⟨k, rest, hk, hrest, rfl⟩ := List.forall₂_cons_right_iff.1 hc
    exact .cons (show k + p < e by omega) (ih hrest)

theorem within_unshift (h : Window offsets dims whole) (hc : Within c whole) (hu : unshift offsets dims c = some c') :
    Within c' dims := by
  induction h generalizing c c' with
  | nil =>
    cases hc
    cases hu
    exact .nil
  | cons h _ ih =>
    obtain ⟨k, rest, hk, hrest, rfl⟩ := List.forall₂_cons_right_iff.1 hc
    rw [unshift] at hu
    split at hu
    · rename_i hin
      obtain ⟨u, hrestu, rfl⟩ := Option.map_eq_some_iff.1 hu
      exact .cons hin.2 (ih hrest hrestu)
    · cases hu

/-- A coordinate of the window stands where it is shifted to. -/
theorem unshift_eq_some (h : Window offsets dims whole) (hc : Within c whole) (hc' : Within c' dims) :
    unshift offsets dims c = some c' ↔ shift offsets c' = c := by
  induction h generalizing c c' with
  | nil =>
    cases hc
    cases hc'
    exact ⟨fun _ => rfl, fun _ => rfl⟩
  | @cons p d e offsets dims whole h hs ih =>
    obtain ⟨k, rest, hk, hrest, rfl⟩ := List.forall₂_cons_right_iff.1 hc
    obtain ⟨k', rest', hk', hrest', rfl⟩ := List.forall₂_cons_right_iff.1 hc'
    have ih := ih hrest hrest'
    change _ ↔ (k' + p) :: shift offsets rest' = k :: rest
    rw [unshift, List.cons.injEq, ← ih]
    split
    · rename_i hin
      rw [Option.map_eq_some_iff]
      constructor
      · rintro ⟨u, hu, heq⟩
        cases heq
        exact ⟨by omega, hu⟩
      · rintro ⟨hk, hu⟩
        exact ⟨rest', hu, by rw [show k - p = k' by omega]⟩
    · exact ⟨nofun, fun h => absurd h.1 (by omega)⟩

theorem leads_shift (h : Window offsets dims whole) : Leads (fun c => some (shift offsets c)) dims whole := by
  rintro c hc c' hc'
  cases hc'
  exact within_shift h hc

theorem leads_unshift (h : Window offsets dims whole) : Leads (unshift offsets dims) whole dims := fun _ hc _ hu =>
  within_unshift h hc hu

end Index

namespace OpKind

variable {s part : Shape} {pads : List Int} {offsets : List Nat}

/-- Where the window of a slice starts. -/
def sliceOffsets (n : Nat) (ranges : List Shape.Range) : List Nat :=
  ranges.foldl (fun l r => l.set r.axis r.start) (List.replicate n 0)

/-- What pads have to say of the window that they are put around. -/
structure Frames (s part : Shape) (pads : List Int) (offsets : List Nat) : Prop extends Completes s part pads where
  length : offsets.length = s.length
  front : ∀ i, i < s.length → pads.getD i 0 = offsets.getD i 0
  back : ∀ i, i < s.length → 0 ≤ pads.getD (i + s.length) 0
  part_nonneg : ∀ i, i < s.length → 0 ≤ part.getD i 0

theorem Frames.cut (h : Frames s part pads offsets) {r : Shape.Range} {d : Int} (hd : s[r.axis]? = some d)
    (hr : (r.start : Int) ≤ r.stop) (hstop : (r.stop : Int) ≤ d) :
    Frames s (part.set r.axis ((r.stop - r.start : Nat) : Int))
      ((pads.set r.axis r.start).set (r.axis + s.length) (s.getD r.axis 0 - r.stop)) (offsets.set r.axis r.start) := by
  obtain ⟨haxis, hget⟩ := List.getElem?_eq_some_iff.1 hd
  have hcount := h.count
  have hrank := h.rank
  have hlength := h.length
  refine ⟨h.toCompletes.cut hd hr, by rw [List.length_set, h.length], fun i hi => ?_, fun i hi => ?_, fun i hi => ?_⟩
  · have hold := h.front i hi
    simp only [List.getD_eq_getElem?_getD, List.getElem?_set, List.length_set] at hold ⊢
    by_cases heq : r.axis = i
    · subst heq
      have h₁ : ¬ r.axis + s.length = r.axis := by omega
      have h₂ : r.axis < pads.length := by omega
      have h₃ : r.axis < offsets.length := by omega
      simp only [h₁, h₂, h₃, if_true, if_false, Option.getD_some]
    · simp only [heq, if_false, show ¬ r.axis + s.length = i by omega]
      exact hold
  · have hold := h.back i hi
    simp only [List.getD_eq_getElem?_getD, List.getElem?_set, List.length_set] at hold ⊢
    by_cases heq : r.axis = i
    · subst heq
      have h₁ : r.axis + s.length < pads.length := by omega
      simp only [h₁, if_true, Option.getD_some, hd]
      omega
    · simp only [show ¬ r.axis + s.length = i + s.length by omega, show ¬ r.axis = i + s.length by omega, if_false]
      exact hold
  · have hold := h.part_nonneg i hi
    simp only [List.getD_eq_getElem?_getD, List.getElem?_set] at hold ⊢
    by_cases heq : r.axis = i
    · simp only [heq, if_true, show i < part.length by omega, Option.getD_some]
      omega
    · simp only [heq, if_false]
      exact hold

/-- A slice and the pads around it. -/
theorem frames_slicePads {starts stops axes : List Int} {ranges : List Shape.Range} (hs : s.Sized)
    (h : s.sliceRanges starts stops axes = .ok ranges) :
    Frames s (slicedShape s ranges) (GradRule.slicePads s ranges) (sliceOffsets s.length ranges) := by
  have hranges : ∀ r ∈ ranges, ∃ d, s[r.axis]? = some d ∧ (r.start : Int) ≤ r.stop ∧ (r.stop : Int) ≤ d := by
    intro r hr
    obtain ⟨x, -, hx⟩ := exists_of_forall₂ (sliceRanges_ok h).flip r hr
    obtain ⟨-, d, hd, hle, hstop, -⟩ := sliceRange_ok hx
    exact ⟨d, hd, hle, hstop⟩
  have hfold : ∀ (l : List Shape.Range) {part : Shape} {pads : List Int} {offsets : List Nat}, (∀ r ∈ l, r ∈ ranges) →
      Frames s part pads offsets → Frames s (slicedShape part l) (l.foldl (fun pads r => (pads.set r.axis r.start).set
        (r.axis + s.length) (s.getD r.axis 0 - r.stop)) pads) (l.foldl (fun l r => l.set r.axis r.start) offsets) := by
    intro l
    induction l with
    | nil => exact fun _ hc => hc
    | cons r l ih =>
      intro part pads offsets hl hc
      obtain ⟨d, hd, hle, hstop⟩ := hranges r (hl r List.mem_cons_self)
      exact ih (fun r' hr' => hl r' (List.mem_cons_of_mem r hr')) (hc.cut hd hle hstop)
  refine hfold ranges (fun _ => id) ⟨⟨rfl, List.length_replicate, fun i hi => ?_⟩, List.length_replicate, fun i hi => ?_,
    fun i hi => ?_, fun i hi => ?_⟩
  · simp [List.getD_eq_getElem?_getD, show i < 2 * s.length by omega, show i + s.length < 2 * s.length by omega]
  · simp [List.getD_eq_getElem?_getD, show i < 2 * s.length by omega, hi]
  · simp [List.getD_eq_getElem?_getD, show i + s.length < 2 * s.length by omega]
  · rw [List.getD_eq_getElem _ _ hi]
    exact hs _ (List.getElem_mem hi)

theorem Frames.window (h : Frames s part pads offsets) : Index.Window offsets part.dims s.dims := by
  have hrank := h.rank
  have hdim : ∀ (l : Shape) i, l.dims.getD i 0 = (l.getD i 0).toNat := fun l i => by
    simp only [Shape.dims, List.getD_eq_getElem?_getD, List.getElem?_map]
    cases l[i]? <;> rfl
  rw [Index.window_iff]
  simp only [Shape.length_dims]
  refine ⟨h.length, h.rank, fun i hi => ?_⟩
  have hsum := h.sums i hi
  have hfront := h.front i hi
  have hback := h.back i hi
  have hpart := h.part_nonneg i hi
  rw [hdim, hdim]
  omega

/-- What there is room for fits into a word. -/
theorem int_of_le {dims : List Nat} {d : Int} (hroom : Roomy dims) (hd : 0 ≤ d) (hle : d.toNat ≤ capacity dims) :
    Word.int d = .ok d := by
  have hlt : 16 * capacity dims < Word.half := hroom
  exact Word.int_eq_ok_iff.2 ⟨by omega, rfl⟩

theorem int_of_roomy (hs : s.Sized) (hroom : Roomy s.dims) : ∀ d ∈ s, Word.int d = .ok d := fun d hd =>
  int_of_le hroom (hs d hd) (le_capacity_of_mem (List.mem_map_of_mem hd))

/-- Pads around a slice give back the shape that it was taken from. -/
theorem Frames.paddedShape_eq (h : Frames s part pads offsets) (hs : s.Sized) (hroom : Roomy s.dims) :
    paddedShape part pads = .ok s := by
  have hcount := h.count
  have hrank := h.rank
  have hnonneg : ∀ p ∈ pads, ¬ p < 0 := by
    intro p hp
    obtain ⟨i, hi, rfl⟩ := List.getElem_of_mem hp
    by_cases hfront : i < s.length
    · have hp := h.front i hfront
      rw [List.getD_eq_getElem _ _ hi] at hp
      omega
    · have hp := h.back (i - s.length) (by omega)
      rw [Nat.sub_add_cancel (by omega), List.getD_eq_getElem _ _ hi] at hp
      omega
  have hexact : s.mapM Word.int = .ok s :=
    (Outcome.mapM_of_forall (int_of_roomy hs hroom)).trans (congrArg Except.ok (List.map_id' _))
  rw [paddedShape, if_neg (by simpa [hcount, hrank] using hnonneg)]
  exact h.toCompletes.whole_eq.symm ▸ hexact

theorem clampPosition_total {extent : Int} (h : 0 ≤ extent) (position : Int) :
    ∃ n, Shape.clampPosition extent position = .ok n := ⟨_, if_neg (Int.not_lt.2 h)⟩

/-- There is a range for every named axis. -/
theorem sliceRanges_total {starts stops axes : List Int} (hs : s.Sized) (hstops : starts.length = stops.length)
    (haxes : starts.length = axes.length)
    (h : ∀ a ∈ axes, 0 ≤ Shape.fromFront a s.length ∧ Shape.fromFront a s.length < s.length) :
    ∃ ranges, s.sliceRanges starts stops axes = .ok ranges := by
  have hone : ∀ p ∈ (starts.zip stops).zip axes, ∃ r, s.sliceRange p.1.1 p.1.2 p.2 = .ok r := by
    intro p hp
    obtain ⟨hlow, hhigh⟩ := h p.2 (List.of_mem_zip hp).2
    have hlt : (Shape.fromFront p.2 s.length).toNat < s.length := by omega
    have hext := hs _ (List.getElem_mem hlt)
    obtain ⟨first, hfirst⟩ := clampPosition_total hext p.1.1
    obtain ⟨last, hlast⟩ := clampPosition_total hext p.1.2
    refine ⟨⟨(Shape.fromFront p.2 s.length).toNat, first, max last first⟩, ?_⟩
    simp only [Shape.sliceRange]
    rw [if_neg (by omega), List.getElem?_eq_getElem hlt]
    simp only [Outcome.promised, bind, Except.bind, hfirst, hlast, pure, Except.pure]
  have : Inhabited Shape.Range := ⟨⟨0, 0, 0⟩⟩
  choose! w hw using hone
  exact ⟨_, (if_neg (by omega)).trans (Outcome.mapM_of_forall hw)⟩

theorem infer_slice_total {x : TensorInfo} {starts stops axes : List Int} {ranges : List Shape.Range}
    (h : x.shape.sliceRanges starts stops axes = .ok ranges) :
    (slice starts stops axes).infer [x] = .ok (x.withShape (slicedShape x.shape ranges)) := by
  simp [infer, operand1, bind, Except.bind, h, pure, Except.pure]

/-- The window that is cut out. -/
theorem window_slicedShape {starts stops axes : List Int} {ranges : List Shape.Range} (hs : s.Sized)
    (h : s.sliceRanges starts stops axes = .ok ranges) :
    Index.Window (sliceOffsets s.dims.length ranges) (slicedShape s ranges).dims s.dims := by
  have hw := (frames_slicePads hs h).window
  rwa [← Shape.length_dims] at hw

/-- The window that pads are put around. -/
theorem window_paddedShape {s' : Shape} (hs : s.Sized) (h : paddedShape s pads = .ok s') :
    Index.Window ((pads.take s.length).map Int.toNat) s.dims s'.dims := by
  obtain ⟨hcount, hpads, rfl⟩ := paddedShape_ok h
  rw [Index.window_iff]
  simp only [Shape.length_dims, List.length_map, List.length_take, List.length_zipWith, List.length_drop]
  refine ⟨by omega, by omega, fun i hi => ?_⟩
  have hi' : i < s.length := by omega
  have hext := hs s[i] (List.getElem_mem hi')
  have hfront := hpads pads[i] (List.getElem_mem (by omega))
  have hback := hpads (pads[s.length + i]) (List.getElem_mem (by omega))
  have hwhole : (Shape.dims (List.zipWith (· + ·) s
      (List.zipWith (· + ·) (pads.take s.length) (pads.drop s.length)))).getD i 0 =
        (s[i] + (pads[i] + pads[s.length + i])).toNat := by
    rw [List.getD_eq_getElem _ _ (by simpa [Shape.dims] using hi)]
    simp [Shape.dims]
  rw [hwhole]
  simp [Shape.dims, hi', show i < pads.length by omega]
  omega

/-- Extents with pads around them fit signed words. -/
theorem paddedShape_lt {s' : Shape} (h : paddedShape s pads = .ok s') : ∀ e ∈ s'.dims, e < Word.half := by
  unfold paddedShape at h
  split at h
  · cases h
  · intro e he
    obtain ⟨d, hd, rfl⟩ := List.mem_map.1 he
    obtain ⟨d', -, hword⟩ := exists_of_forall₂ (Outcome.mapM_eq_ok.1 h).flip d hd
    have := (Word.int_eq_ok_iff.1 hword).1
    have := (Word.int_eq_ok_iff.1 hword).2
    have : 0 < Word.half := by decide
    omega

/-- What stands between pads ends before the whole does. -/
theorem paddedEnds_total {s' : Shape} (hs : s.Sized) (h : paddedShape s pads = .ok s') :
    ∃ ends, (List.zipWith (· + ·) (pads.take s.length) s).mapM Word.int = .ok ends := by
  have hbound := paddedShape_lt h
  obtain ⟨hcount, hpads, rfl⟩ := paddedShape_ok h
  refine ⟨_, Outcome.mapM_of_forall (w := id) fun d hd => ?_⟩
  obtain ⟨i, hi, rfl⟩ := List.getElem_of_mem hd
  simp only [List.length_zipWith, List.length_take] at hi
  have hext := hs s[i] (List.getElem_mem (by omega))
  have hfront := hpads pads[i] (List.getElem_mem (by omega))
  have hback := hpads (pads[s.length + i]) (List.getElem_mem (by omega))
  have hwhole : s[i] + (pads[i] + pads[s.length + i]) ∈ List.zipWith (· + ·) s
      (List.zipWith (· + ·) (pads.take s.length) (pads.drop s.length)) := by
    refine List.mem_iff_getElem.2 ⟨i, ?_, ?_⟩
    · simp only [List.length_zipWith, List.length_take, List.length_drop]
      omega
    · simp
  have hlt := hbound _ (List.mem_map_of_mem (f := Int.toNat) hwhole)
  simp only [List.getElem_zipWith, List.getElem_take]
  exact Word.int_eq_ok_iff.2 ⟨by omega, rfl⟩

/-- Between pads there is a range for every axis. -/
theorem sliceRanges_between {s' : Shape} {ends : List Int} (hs : s.Sized) (hp : paddedShape s pads = .ok s')
    (hends : (List.zipWith (· + ·) (pads.take s.length) s).mapM Word.int = .ok ends) :
    ∃ ranges, s'.sliceRanges (pads.take s.length) ends ((List.range s.length).map Int.ofNat) = .ok ranges := by
  obtain ⟨hcount, -, heq⟩ := paddedShape_ok hp
  have hlen : s'.length = s.length := by
    rw [heq]
    simp [hcount]
    omega
  have hlength : ends.length = s.length := by
    rw [← (Outcome.mapM_eq_ok.1 hends).length_eq]
    simp [hcount]
    omega
  refine sliceRanges_total (sized_paddedShape hs hp) ?_ ?_ fun a ha => ?_
  · rw [hlength, List.length_take]
    omega
  · rw [List.length_take, List.length_map, List.length_range]
    omega
  · obtain ⟨i, hi, rfl⟩ := List.mem_map.1 ha
    rw [List.mem_range] at hi
    rw [show Shape.fromFront (Int.ofNat i) s'.length = i from if_neg (by simp)]
    omega

/-- The slice between pads starts behind the first ones. -/
theorem sliceOffsets_between {s' : Shape} {ends : List Int} {ranges : List Shape.Range} (hs : s.Sized)
    (hp : paddedShape s pads = .ok s') (hends : (List.zipWith (· + ·) (pads.take s.length) s).mapM Word.int = .ok ends)
    (hranges : s'.sliceRanges (pads.take s.length) ends ((List.range s.length).map Int.ofNat) = .ok ranges) :
    sliceOffsets s'.length ranges = (pads.take s.length).map Int.toNat := by
  obtain ⟨hcount, haxes, hstarts, -⟩ := ranges_between hs hp hends hranges
  have hlen : s'.length = s.length := by
    obtain ⟨hpads, -, rfl⟩ := paddedShape_ok hp
    simp [hpads]
    omega
  refine (foldl_set_range' Shape.Range.axis Shape.Range.start haxes (by rw [List.length_replicate]; omega)).trans ?_
  rw [List.take_zero, List.nil_append, ← hstarts, List.map_map]
  rfl

end OpKind

namespace Kernel

open Index

section Kernels

variable {R : Type} {x : Operand R} {out : TensorInfo} {starts ends axes pads : List Int} {ranges : List Shape.Range}
  {offsets : List Nat}

theorem sliceSources_eq (hranges : x.info.shape.sliceRanges starts ends axes = .ok ranges)
    (hlen : out.dims.length = x.dims.length) : sliceSources x.info.shape starts ends axes out = (do
      let strides ← steps x.dims
      sourcesOf out fun c => do
        return some (← Word.nat (flat (shift (OpKind.sliceOffsets x.dims.length ranges) c) strides))) := by
  have hsame : ∀ {c l : List Nat}, Within c out.dims → (if x.dims.length < c.length then .error .abort else do
      return some (← Word.nat (flat (shift (OpKind.sliceOffsets x.dims.length ranges) c) l)) : Outcome (Option Nat)) = do
        return some (← Word.nat (flat (shift (OpKind.sliceOffsets x.dims.length ranges) c) l)) := fun hc =>
    if_neg (by rw [List.Forall₂.length_eq hc, hlen]; exact Nat.lt_irrefl _)
  unfold sliceSources
  rw [hranges]
  change (steps x.dims >>= _) = _
  cases hsteps : steps x.dims with
  | error e => rfl
  | ok l => exact sourcesOf_congr fun c hc => hsame hc

theorem sliceSources_ok {l : Sources} (hranges : x.info.shape.sliceRanges starts ends axes = .ok ranges)
    (hw : Window (OpKind.sliceOffsets x.dims.length ranges) out.dims x.dims)
    (h : sliceSources x.info.shape starts ends axes out = .ok l) : l = (List.range (volume out.dims)).map
      (carry (fun c => some (shift (OpKind.sliceOffsets x.dims.length ranges) c)) x.dims out.dims) := by
  rw [sliceSources_eq hranges (window_iff.1 hw).2.1] at h
  obtain ⟨s, hs, h⟩ := Outcome.bind_eq_ok.1 h
  cases steps_ok hs
  refine sourcesOf_ok h fun c hc s hs => ?_
  obtain ⟨n, hn, hs⟩ := Outcome.bind_eq_ok.1 hs
  cases hs
  obtain ⟨-, rfl⟩ := Word.nat_eq_ok_iff.1 hn
  rfl

theorem sliceSources_total (hranges : x.info.shape.sliceRanges starts ends axes = .ok ranges)
    (hw : Window (OpKind.sliceOffsets x.dims.length ranges) out.dims x.dims) (hspans : Spans x.dims) :
    sliceSources x.info.shape starts ends axes out = .ok ((List.range (volume out.dims)).map
      (carry (fun c => some (shift (OpKind.sliceOffsets x.dims.length ranges) c)) x.dims out.dims)) := by
  rw [sliceSources_eq hranges (window_iff.1 hw).2.1, hspans.steps]
  refine sourcesOf_total fun c hc => ?_
  have hlt : flat (shift (OpKind.sliceOffsets x.dims.length ranges) c) (strides x.dims) < Word.limit :=
    (flat_lt (leads_shift hw c hc _ rfl)).trans hspans.volume_lt
  rw [Word.nat_eq_ok_iff.2 ⟨hlt, rfl⟩]
  rfl

/-- A slice reads a window. -/
theorem exact_slice [Scalar R] {y : Operand R} (hzero : (Scalar.ofSingle .zero : R) = 0)
    (hranges : x.info.shape.sliceRanges starts ends axes = .ok ranges)
    (hoffsets : OpKind.sliceOffsets x.dims.length ranges = offsets) (hw : Window offsets out.dims x.dims)
    (h : exact (.slice starts ends axes) [x] out = .ok y) :
    Carried (fun c => some (shift offsets c)) x.dims out.dims x.values y.values := by
  subst hoffsets
  exact exact_carried rfl hzero (fun _ hl => sliceSources_ok hranges hw hl) h

theorem exact_slice_total [Scalar R] (hranges : x.info.shape.sliceRanges starts ends axes = .ok ranges)
    (hoffsets : OpKind.sliceOffsets x.dims.length ranges = offsets) (hw : Window offsets out.dims x.dims)
    (hx : x.Complete) (hroom : Roomy x.dims) (hroom' : Roomy out.dims) :
    ∃ y, exact (.slice starts ends axes) [x] out = .ok y := by
  subst hoffsets
  exact exact_carried_total rfl (sliceSources_total hranges hw hroom.spans) (leads_shift hw) hx.length_eq hroom'

/-- The source of a coordinate of a padded tensor is that in the window. -/
theorem padSource_ok : ∀ {offsets dims whole : List Nat} {pads : List Int} {c : List Nat} {r : Option Nat},
    Window offsets dims whole → Within c whole → (∀ p ∈ pads.take dims.length, 0 ≤ p) →
    (pads.take dims.length).map Int.toNat = offsets → padSource c pads dims (strides dims) = .ok r →
      r = (unshift offsets dims c).map fun c' => flat c' (strides dims)
  | _, _, _, pads, _, r, .nil, .nil, _, _, h => by
    cases h
    rfl
  | _, _, _, [], _, r, .cons _ _, .cons _ _, _, hoffsets, h => by cases h
  | p :: offsets, d :: dims, e :: whole, q :: pads, k :: c, r, .cons hle hw, .cons hk hc, hpads, hoffsets, h => by
    rw [List.length_cons, List.take_succ_cons, List.map_cons, List.cons.injEq] at hoffsets
    obtain ⟨rfl, hoffsets⟩ := hoffsets
    have hq : 0 ≤ q := hpads q (by simp)
    have hrest := fun {r} => padSource_ok (r := r) hw hc (fun p hp => hpads p (by simp [hp])) hoffsets
    obtain ⟨position, hposition, h⟩ := Outcome.bind_eq_ok.1 h
    obtain ⟨-, rfl⟩ := Word.int_eq_ok_iff.1 hposition
    rw [unshift]
    split at h
    · cases h
      rw [if_neg (by omega)]
      rfl
    · simp only [strides] at h
      split at h
      · cases h
        rw [if_neg (by omega)]
        rfl
      · obtain ⟨s, hs, h⟩ := Outcome.bind_eq_ok.1 h
        cases h
        rw [hrest hs, if_pos (by omega), Option.map_map, Option.map_map]
        refine congrArg (fun f => Option.map f _) (funext fun c' => ?_)
        change _ = (k - q.toNat) * volume dims + flat c' (strides dims)
        rw [show ((k : Int) - q).toNat = k - q.toNat by omega]
        rfl

theorem padSource_total : ∀ {offsets dims whole : List Nat} {pads : List Int} {c : List Nat},
    Window offsets dims whole → Within c whole → (∀ p ∈ pads.take dims.length, 0 ≤ p) →
    (pads.take dims.length).map Int.toNat = offsets → (∀ e ∈ whole, e < Word.half) →
      ∃ r, padSource c pads dims (strides dims) = .ok r
  | _, _, _, pads, _, .nil, .nil, _, _, _ => ⟨_, rfl⟩
  | _, _, _, [], _, .cons _ _, .cons _ _, _, hoffsets, _ => nomatch hoffsets
  | p :: offsets, d :: dims, e :: whole, q :: pads, k :: c, .cons hle hw, .cons hk hc, hpads, hoffsets, hbound => by
    rw [List.length_cons, List.take_succ_cons, List.map_cons, List.cons.injEq] at hoffsets
    obtain ⟨rfl, hoffsets⟩ := hoffsets
    have hq : 0 ≤ q := hpads q (by simp)
    have he := hbound e List.mem_cons_self
    have hhalf : 0 < Word.half := by decide
    obtain ⟨s, hs⟩ := padSource_total hw hc (fun p hp => hpads p (by simp [hp])) hoffsets
      fun e he => hbound e (List.mem_cons_of_mem _ he)
    have hposition : Word.int ((k : Int) - q) = .ok (k - q) := Word.int_eq_ok_iff.2 ⟨by omega, rfl⟩
    rw [padSource, hposition, strides]
    change ∃ r, (if (k : Int) - q < 0 then _ else _) = Except.ok r
    split
    · exact ⟨_, rfl⟩
    · change ∃ r, (if (k : Int) - q ≥ d then _ else _) = Except.ok r
      split
      · exact ⟨_, rfl⟩
      · rw [hs]
        exact ⟨_, rfl⟩

theorem padSources_ok {s : Shape} {l : Sources} (hx : x.info.shape.Sized)
    (hs : OpKind.paddedShape x.info.shape pads = .ok s) (hout : out.dims = s.dims)
    (h : padSources pads x.dims out = .ok l) : l = (List.range (volume out.dims)).map
      (carry (unshift ((pads.take x.dims.length).map Int.toNat) x.dims) x.dims out.dims) := by
  obtain ⟨-, hpads, -⟩ := OpKind.paddedShape_ok hs
  have hlen : x.dims.length = x.info.shape.length := Shape.length_dims _
  have hw : Window ((pads.take x.dims.length).map Int.toNat) x.dims s.dims := hlen ▸ OpKind.window_paddedShape hx hs
  unfold padSources at h
  split at h
  · cases h
  · obtain ⟨strides, hsteps, h⟩ := Outcome.bind_eq_ok.1 h
    cases steps_ok hsteps
    refine sourcesOf_ok h fun c hc r hr => padSource_ok hw (hout ▸ hc) ?_ rfl hr
    exact fun p hp => hpads p (List.mem_of_mem_take hp)

/-- Extents that were padded fit signed words, so positions are counted from the pads on. -/
theorem padSources_total {s : Shape} (hx : x.info.shape.Sized) (hs : OpKind.paddedShape x.info.shape pads = .ok s)
    (hout : out.dims = s.dims) (hspans : Spans x.dims) : padSources pads x.dims out = .ok ((List.range (volume out.dims)).map
      (carry (unshift ((pads.take x.dims.length).map Int.toNat) x.dims) x.dims out.dims)) := by
  obtain ⟨hcount, hpads, -⟩ := OpKind.paddedShape_ok hs
  have hlen : x.dims.length = x.info.shape.length := Shape.length_dims _
  have hw : Window ((pads.take x.dims.length).map Int.toNat) x.dims s.dims := hlen ▸ OpKind.window_paddedShape hx hs
  rw [padSources, if_neg (by rw [hcount, hlen]; simp), hspans.steps]
  refine sourcesOf_total fun c hc => ?_
  have hnonneg : ∀ p ∈ pads.take x.dims.length, 0 ≤ p := fun p hp => hpads p (List.mem_of_mem_take hp)
  obtain ⟨r, hr⟩ := padSource_total hw (hout ▸ hc) hnonneg rfl (OpKind.paddedShape_lt hs)
  rw [hr, padSource_ok hw (hout ▸ hc) hnonneg rfl hr]

/-- Padding puts a tensor into a window; where it fills with zeros, that is a move. -/
theorem exact_pad [Scalar R] {y : Operand R} {s : Shape} (hzero : (Scalar.ofSingle .zero : R) = 0)
    (hx : x.info.shape.Sized) (hs : OpKind.paddedShape x.info.shape pads = .ok s) (hout : out.dims = s.dims)
    (h : exact (.pad pads .zero) [x] out = .ok y) :
    Carried (unshift ((pads.take x.dims.length).map Int.toNat) x.dims) x.dims out.dims x.values y.values :=
  exact_carried rfl hzero (fun _ hl => padSources_ok hx hs hout hl) h

theorem exact_pad_total [Scalar R] {value : Single} {s : Shape} (hx : x.info.shape.Sized)
    (hs : OpKind.paddedShape x.info.shape pads = .ok s) (hout : out.dims = s.dims) (hcomplete : x.Complete)
    (hroom : Roomy x.dims) (hroom' : Roomy out.dims) : ∃ y, exact (.pad pads value) [x] out = .ok y := by
  have hlen : x.dims.length = x.info.shape.length := Shape.length_dims _
  have hw : Window ((pads.take x.dims.length).map Int.toNat) x.dims s.dims := hlen ▸ OpKind.window_paddedShape hx hs
  exact exact_carried_total rfl (padSources_total hx hs hout hroom.spans) (hout ▸ leads_unshift hw) hcomplete.length_eq hroom'

end Kernels

variable {R : Type} [Field R] {f : Numbers R} {kind : OpKind} {xs : List (Operand R)} {x g : Operand R}
  {out : TensorInfo} {k : Nat}

/-- The gradient for the operand of a slice. -/
theorem backs_slice {starts ends axes : List Int} {ranges : List Shape.Range}
    (hf : Forward (.slice starts ends axes) [x] out) (hg : Incoming out g)
    (hranges : x.info.shape.sliceRanges starts ends axes = .ok ranges) :
    Backs f (.slice starts ends axes) [x] out 0 g (.pad (GradRule.slicePads x.info.shape ranges) .zero) [g] := by
  let _ := f.scalar
  obtain ⟨x', ranges', hx', hranges', hout⟩ := OpKind.infer_slice hf.infers
  cases hx'
  cases hranges.symm.trans hranges'
  have hframes := OpKind.frames_slicePads (hf.sized x (by simp)) hranges
  have hlen : x.dims.length = x.info.shape.length := Shape.length_dims _
  have hw : Window (OpKind.sliceOffsets x.dims.length ranges) out.dims x.dims :=
    hout ▸ OpKind.window_slicedShape (hf.sized x (by simp)) hranges
  have hgshape : g.info.shape = OpKind.slicedShape x.info.shape ranges := by rw [hg.shape, hout]; rfl
  have hglen : g.info.shape.length = x.info.shape.length := hgshape ▸ hframes.rank
  have hsized : g.info.shape.Sized := hgshape ▸ OpKind.sized_slicedShape (hf.sized x (by simp))
  have hoffsets : ((GradRule.slicePads x.info.shape ranges).take g.dims.length).map Int.toNat =
      OpKind.sliceOffsets x.dims.length ranges := by
    have hcount := hframes.count
    have hlength := hframes.length
    refine List.ext_getElem ?_ fun i hi hi' => ?_
    · rw [List.length_map, List.length_take, show g.dims.length = g.info.shape.length from Shape.length_dims _, hglen, hlen,
        hlength]
      omega
    · rw [hlen, hlength] at hi'
      have hfront := hframes.front i hi'
      rw [List.getD_eq_getElem _ _ (by omega), List.getD_eq_getElem _ _ (by omega)] at hfront
      simp only [List.getElem_map, List.getElem_take, hfront, hlen]
      rfl
  refine ⟨fun {x' y b info} hx hy hinfer hb => ?_, fun hc => ?_⟩
  · cases hx
    obtain ⟨g', s, hg', hs, hinfo⟩ := OpKind.infer_pad hinfer
    cases hg'
    obtain rfl : s = x.info.shape := OpKind.paddedShape_slicePads hranges (hgshape ▸ hs)
    refine ⟨by rw [hinfo]; rfl, ?_⟩
    have hinfodims : info.dims = x.dims := by rw [hinfo]; rfl
    have hy := exact_slice f.ofSingle_zero hranges rfl hw hy
    have hb := exact_pad f.ofSingle_zero hsized hs hinfodims hb
    rw [hoffsets, hinfodims, hg.dims] at hb
    exact hy.dot_eq hb (hf.complete x (by simp)).length_eq hg.length (leads_shift hw) (leads_unshift hw)
      fun c c' hc hc' => by rw [unshift_eq_some hw hc' hc, Option.some.injEq]
  · have hs : OpKind.paddedShape g.info.shape (GradRule.slicePads x.info.shape ranges) = .ok x.info.shape :=
      hgshape ▸ hframes.paddedShape_eq (hf.sized x (by simp)) (hc.operands x (by simp))
    have hinfer : (OpKind.pad (GradRule.slicePads x.info.shape ranges) .zero).infer [g.info] =
        .ok (g.info.withShape x.info.shape) := by
      simp [OpKind.infer, OpKind.operand1, bind, Except.bind, hs, pure, Except.pure]
    have hdims : (g.info.withShape x.info.shape).dims = x.info.shape.dims := rfl
    obtain ⟨b, hb⟩ := exact_pad_total hsized hs hdims hg.complete (hg.dims ▸ hc.result) (hc.operands x (by simp))
    exact ⟨_, b, hinfer, hb⟩

/-- The gradient for an operand that is put into a window, with zeros around it: the slice that reads the window. -/
theorem backs_window {starts ends axes : List Int} {ranges : List Shape.Range} {offsets : List Nat}
    (hx : xs[k]? = some x) (hf : Forward kind xs out) (hg : Incoming out g) (hw : Window offsets x.dims out.dims)
    (hforward : ∀ {y}, @exact R f.scalar kind.linearPart xs out = .ok y →
      Carried (unshift offsets x.dims) x.dims out.dims x.values y.values)
    (hranges : out.shape.sliceRanges starts ends axes = .ok ranges)
    (hoffsets : OpKind.sliceOffsets out.shape.length ranges = offsets)
    (hshape : OpKind.slicedShape out.shape ranges = x.info.shape) :
    Backs f kind xs out k g (.slice starts ends axes) [g] := by
  let _ := f.scalar
  have hmem := List.mem_of_getElem? hx
  have hgranges : g.info.shape.sliceRanges starts ends axes = .ok ranges := hg.shape ▸ hranges
  have hgoffsets : OpKind.sliceOffsets g.dims.length ranges = offsets := by
    rw [show g.dims.length = g.info.shape.length from Shape.length_dims _, hg.shape, hoffsets]
  have hgshape : OpKind.slicedShape g.info.shape ranges = x.info.shape := hg.shape ▸ hshape
  have hgw : Window offsets (g.info.withShape x.info.shape).dims g.dims := hg.dims ▸ hw
  have hinfer : (OpKind.slice starts ends axes).infer [g.info] = .ok (g.info.withShape x.info.shape) := by
    rw [OpKind.infer_slice_total hgranges, hgshape]
  refine ⟨fun {x' y b info} hx' hy hinfer' hb => ?_, fun hc => ?_⟩
  · cases hx.symm.trans hx'
    cases hinfer.symm.trans hinfer'
    refine ⟨rfl, ?_⟩
    have hb := exact_slice f.ofSingle_zero hgranges hgoffsets hgw hb
    rw [hg.dims] at hb
    exact (hforward hy).dot_eq hb (hf.complete x hmem).length_eq hg.length (leads_unshift hw) (leads_shift hw)
      fun c c' hc hc' => by rw [unshift_eq_some hw hc hc', Option.some.injEq]
  · obtain ⟨b, hb⟩ := exact_slice_total hgranges hgoffsets hgw hg.complete (hg.dims ▸ hc.result) (hc.operands x hmem)
    exact ⟨_, b, hinfer, hb⟩

/-- The gradient for the operand of padding. -/
theorem backs_pad {pads ends : List Int} {value : Single} (hf : Forward (.pad pads value) [x] out) (hg : Incoming out g)
    (hends : (List.zipWith (· + ·) (pads.take x.info.shape.length) x.info.shape).mapM Word.int = .ok ends) :
    Backs f (.pad pads value) [x] out 0 g
      (.slice (pads.take x.info.shape.length) ends ((List.range x.info.shape.length).map Int.ofNat)) [g] := by
  let _ := f.scalar
  obtain ⟨x', s, hx', hs, hout⟩ := OpKind.infer_pad hf.infers
  cases hx'
  replace hs : OpKind.paddedShape x.info.shape pads = .ok s := hs
  have hsized := hf.sized x (by simp)
  have hshape : out.shape = s := by rw [hout]; rfl
  have hdims : out.dims = s.dims := by rw [hout]; rfl
  obtain ⟨ranges, hranges⟩ := OpKind.sliceRanges_between hsized hs hends
  refine backs_window rfl hf hg (hdims ▸ OpKind.window_paddedShape hsized hs) (fun hy => ?_) (hshape ▸ hranges)
    (hshape ▸ OpKind.sliceOffsets_between hsized hs hends hranges)
    (hshape ▸ OpKind.slicedShape_between hsized hs hends hranges)
  have hy := exact_pad f.ofSingle_zero hsized hs hdims hy
  rwa [show x.dims.length = x.info.shape.length from Shape.length_dims _] at hy

end Kernel

end TensorGraph
