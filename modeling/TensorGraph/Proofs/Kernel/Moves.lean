import TensorGraph.Proofs.Kernel.Adjoint

/-!
Kernels that put axes into another order. A move of elements is told by the coordinates: where the element at a
coordinate of the result comes from. Two moves that undo each other on coordinates are adjoint.
-/
namespace TensorGraph

namespace Index

/-! ## Moves of coordinates -/

/-- A move leads from coordinates within `target` to coordinates within `source`. -/
def Leads (φ : List Nat → Option (List Nat)) (target source : List Nat) : Prop :=
  ∀ c, Within c target → ∀ c' ∈ φ c, Within c' source

/-- A move on flat indices. -/
def carry (φ : List Nat → Option (List Nat)) (source target : List Nat) (i : Nat) : Option Nat :=
  (φ (coord target i)).map fun c => flat c (strides source)

variable {φ ψ : List Nat → Option (List Nat)} {source target : List Nat} {i j : Nat}

theorem carry_lt (hφ : Leads φ target source) (hi : i < volume target) (h : carry φ source target i = some j) :
    j < volume source := by
  obtain ⟨c, hc, rfl⟩ := Option.map_eq_some_iff.1 h
  exact flat_lt (hφ _ (within_coord hi) c hc)

theorem carry_eq_some (hφ : Leads φ target source) (hi : i < volume target) (hj : j < volume source) :
    carry φ source target i = some j ↔ φ (coord target i) = some (coord source j) := by
  rw [carry, Option.map_eq_some_iff]
  constructor
  · rintro ⟨c, hc, heq⟩
    rw [hc, (flat_eq_iff (hφ _ (within_coord hi) c hc) hj).1 heq]
  · exact fun h => ⟨_, h, flat_coord source hj⟩

/-- Moves that undo each other on coordinates do so on flat indices. -/
theorem carry_undo (hφ : Leads φ target source) (hψ : Leads ψ source target)
    (h : ∀ c c', Within c target → Within c' source → (φ c = some c' ↔ ψ c' = some c)) (hi : i < volume target)
    (hj : j < volume source) : carry φ source target i = some j ↔ carry ψ target source j = some i := by
  rw [carry_eq_some hφ hi hj, carry_eq_some hψ hj hi]
  exact h _ _ (within_coord hi) (within_coord hj)

/-! ## Orders of axes -/

/-- The entries in the order of the given axes. -/
def reorder (axes l : List Nat) : List Nat := axes.map fun a => l.getD a 0

/-- The place of each axis in an order. -/
def inverse (axes : List Nat) : List Nat := (List.range axes.length).map fun j => axes.idxOf j

/-- An order of `n` axes, each of them once. -/
structure Order (axes : List Nat) (n : Nat) : Prop where
  length : axes.length = n
  nodup : axes.Nodup
  lt : ∀ a ∈ axes, a < n

namespace Order

variable {axes c : List Nat} {n : Nat} (h : Order axes n)

include h

theorem perm : axes.Perm (List.range n) := by
  have hsub : axes ⊆ List.range n := fun a ha => List.mem_range.2 (h.lt a ha)
  exact (List.subperm_of_subset h.nodup hsub).perm_of_length_le (by simp [h.length])

theorem mem {j : Nat} (hj : j < n) : j ∈ axes := h.perm.mem_iff.2 (List.mem_range.2 hj)

theorem length_inverse : (Index.inverse axes).length = n := by
  rw [Index.inverse, List.length_map, List.length_range, h.length]

omit h in
theorem getElem_inverse {j : Nat} (hj : j < (Index.inverse axes).length) : (Index.inverse axes)[j] = axes.idxOf j := by
  simp [Index.inverse]

/-- Both orders undo each other. -/
theorem reorder_reorder (hc : c.length = n) :
    reorder axes (reorder (Index.inverse axes) c) = c ∧ reorder (Index.inverse axes) (reorder axes c) = c := by
  constructor
  · refine List.ext_getElem (by simp [reorder, h.length, hc]) fun k hk hk' => ?_
    have hk : k < axes.length := by simpa [reorder] using hk
    have hbound : axes[k] < n := h.lt _ (List.getElem_mem hk)
    simp [reorder, Index.inverse, h.length, hbound, h.nodup.idxOf_getElem k hk, hk']
  · refine List.ext_getElem (by simp [reorder, h.length_inverse, hc]) fun j hj hj' => ?_
    have hmem := h.mem (hc ▸ hj')
    have hk := List.idxOf_lt_length_iff.2 hmem
    simp [reorder, Index.inverse, hk, List.getElem_idxOf hk, hj']

theorem inverse : Order (Index.inverse axes) n := by
  refine ⟨h.length_inverse, ?_, fun a ha => ?_⟩
  · refine List.Nodup.map_on (fun i hi j hj heq => ?_) List.nodup_range
    rw [h.length, List.mem_range] at hi hj
    exact (List.idxOf_inj (h.mem hi)).1 heq
  · obtain ⟨j, hj, rfl⟩ := List.mem_map.1 ha
    rw [h.length, List.mem_range] at hj
    exact h.length ▸ List.idxOf_lt_length_iff.2 (h.mem hj)

/-- The place of a place is the axis. -/
theorem inverse_inverse : Index.inverse (Index.inverse axes) = axes := by
  refine List.ext_getElem (by rw [h.inverse.length_inverse, h.length]) fun k hk hk' => ?_
  rw [getElem_inverse]
  have hbound : axes[k] < n := h.lt _ (List.getElem_mem hk')
  have hbound' : axes[k] < (Index.inverse axes).length := by rw [h.length_inverse]; exact hbound
  have hplace : (Index.inverse axes)[axes[k]] = k := by
    rw [getElem_inverse, h.nodup.idxOf_getElem k hk']
  conv_lhs => rw [← hplace]
  exact h.inverse.nodup.idxOf_getElem _ _

theorem within_reorder {dims : List Nat} (hdims : dims.length = n) (hc : Within c (reorder axes dims)) :
    Within (reorder (Index.inverse axes) c) dims := by
  have hlen : c.length = n := by rw [List.Forall₂.length_eq hc, reorder, List.length_map, h.length]
  refine List.forall₂_iff_get.2 ⟨by simp [reorder, h.length_inverse, hdims], fun j hj hj' => ?_⟩
  have hmem := h.mem (hdims ▸ hj')
  have hk := List.idxOf_lt_length_iff.2 hmem
  have hentry := (List.forall₂_iff_get.1 hc).2 (axes.idxOf j) (by rw [hlen, ← h.length]; exact hk) (by simpa [reorder] using hk)
  have hk' : axes.idxOf j < c.length := by rw [hlen, ← h.length]; exact hk
  simpa [reorder, Index.inverse, hk', List.getElem_idxOf hk, List.getElem?_eq_getElem hj'] using hentry

/-- Strides in another order belong to coordinates that are put back. -/
theorem flat_reorder {l : List Nat} (hc : c.length = n) (hl : l.length = n) :
    flat (reorder (Index.inverse axes) c) l = flat c (reorder axes l) := by
  have hleft : List.zipWith (· * ·) (reorder (Index.inverse axes) c) l =
      (List.range n).map fun a => c.getD (axes.idxOf a) 0 * l.getD a 0 := by
    refine List.ext_getElem (by simp [reorder, h.length_inverse, hl]) fun j hj hj' => ?_
    have hj : j < l.length := by simp at hj; omega
    simp [reorder, Index.inverse, hj]
  have hright : List.zipWith (· * ·) c (reorder axes l) =
      axes.map fun a => c.getD (axes.idxOf a) 0 * l.getD a 0 := by
    refine List.ext_getElem (by simp [reorder, h.length, hc]) fun k hk hk' => ?_
    have hk : k < axes.length := by simpa using hk'
    have hkc : k < c.length := by rw [hc, ← h.length]; exact hk
    simp [reorder, h.nodup.idxOf_getElem k hk, hkc]
  rw [flat_eq_sum, flat_eq_sum, hleft, hright]
  exact (h.perm.map _).sum_eq.symm

end Order

end Index

namespace OpKind

variable {s s' : Shape} {perm : List Int} {axes : List Nat} {n : Nat}

/-- The order of axes that a list of axis numbers names. -/
theorem order_of_transposedShape (h : transposedShape s perm = .ok s') :
    ∃ axes, Index.Order axes s.length ∧ perm.map (Shape.fromFront · s.length) = axes.map Int.ofNat ∧
      s'.dims = Index.reorder axes s.dims := by
  obtain ⟨axes, hperm, hlen, hnodup, hbound, hlen', hentry⟩ := transposedShape_ok h
  have hn : perm.length = s.length := by
    have := congrArg List.length hperm
    simpa [hlen] using this
  refine ⟨axes, ⟨hlen, hnodup, hbound⟩, hn ▸ hperm, List.ext_getElem ?_ fun k hk hk' => ?_⟩
  · simp [Index.reorder, Shape.dims, hlen']
  · have hk : k < axes.length := by simpa [Index.reorder] using hk'
    have hs := hentry k axes[k] (List.getElem?_eq_getElem hk)
    have hb := hbound _ (List.getElem_mem hk)
    rw [List.getElem?_eq_getElem (hlen' ▸ hk), List.getElem?_eq_getElem hb, Option.some.injEq] at hs
    simp [Index.reorder, Shape.dims, hs, hb]

theorem idxOf_map_ofNat (a : Nat) : ∀ axes : List Nat, (axes.map Int.ofNat).idxOf (Int.ofNat a) = axes.idxOf a
  | [] => rfl
  | b :: axes => by
    have heq : (Int.ofNat b == Int.ofNat a) = (b == a) := Bool.eq_iff_iff.2 (by simp)
    rw [List.map_cons, List.idxOf_cons, List.idxOf_cons, idxOf_map_ofNat a axes, heq]

/-- The axis numbers that undo an order name its inverse. -/
theorem inverse_eq (horder : Index.Order axes n) (h : perm.map (Shape.fromFront · n) = axes.map Int.ofNat) :
    GradRule.inverse perm = (Index.inverse axes).map Int.ofNat := by
  have hn : perm.length = axes.length := by simpa using congrArg List.length h
  have hplace : ∀ j, (perm.map (Shape.fromFront · perm.length)).idxOf (Int.ofNat j) = axes.idxOf j := fun j => by
    rw [hn, horder.length, h, idxOf_map_ofNat]
  simp only [GradRule.inverse, Index.inverse, List.map_map, hn] at hplace ⊢
  exact List.map_congr_left fun j _ => congrArg Int.ofNat (hplace j)

theorem permAxes_of_order {perm : List Int} : ∀ {axes seen : List Nat}, axes.Nodup → (∀ a ∈ axes, a < s.length ∧ a ∉ seen) →
    permAxes s perm (axes.map Int.ofNat) seen = .ok axes
  | [], _, _, _ => rfl
  | a :: axes, seen, hnodup, hall => by
    obtain ⟨hlt, hnew⟩ := hall a List.mem_cons_self
    obtain ⟨hnot, hnodup⟩ := List.nodup_cons.1 hnodup
    have haxis : s.axis (Int.ofNat a) = .ok a := by
      have hfront : Shape.fromFront (Int.ofNat a) s.length = a := if_neg (by simp)
      simp only [Shape.axis, hfront]
      rw [if_neg (by omega)]
      rfl
    have hrest : permAxes s perm (axes.map Int.ofNat) (a :: seen) = .ok axes := by
      refine permAxes_of_order hnodup fun b hb => ⟨(hall b (List.mem_cons_of_mem a hb)).1, fun hmem => ?_⟩
      rcases List.mem_cons.1 hmem with rfl | hmem
      · exact hnot hb
      · exact (hall b (List.mem_cons_of_mem a hb)).2 hmem
    rw [List.map_cons, permAxes, haxis]
    change (if seen.contains a = true then _ else (permAxes s perm (axes.map Int.ofNat) (a :: seen) >>= _)) = _
    rw [if_neg (by simpa using hnew), hrest]
    rfl

/-- Every order of axes gives a shape. -/
theorem transposedShape_of_order (h : Index.Order axes s.length) : ∃ s', transposedShape s (axes.map Int.ofNat) = .ok s' := by
  have hentries : axes.mapM (fun a => Outcome.promised s[a]?) = .ok (axes.map fun a => s.getD a 0) := by
    refine Outcome.mapM_of_forall fun a ha => ?_
    simp [Outcome.promised, h.lt a ha]
  refine ⟨axes.map fun a => s.getD a 0, ?_⟩
  rw [transposedShape, if_neg (by simp [h.length]), permAxes_of_order h.nodup fun a ha => ⟨h.lt a ha, by simp⟩]
  exact hentries

/-- The inverse order gives back the shape. -/
theorem transposedShape_undo (h : transposedShape s perm = .ok s') :
    transposedShape s' (GradRule.inverse perm) = .ok s := by
  obtain ⟨axes, horder, hperm, hdims⟩ := order_of_transposedShape h
  have hlen : s'.length = s.length := by
    rw [← Shape.length_dims s', hdims, Index.reorder, List.length_map, horder.length]
  have horder' : Index.Order (Index.inverse axes) s'.length := hlen ▸ horder.inverse
  obtain ⟨s'', hs''⟩ := transposedShape_of_order horder'
  rw [← inverse_eq horder hperm] at hs''
  cases transposedShape_inverse h hs''
  exact hs''

end OpKind

namespace Kernel

open Index

/-! ## Elements that are moved -/

section Carries

variable {R : Type} [Scalar R]

/-- The sources of a result, where the source of each coordinate is told by a move. -/
theorem sourcesOf_ok {φ : List Nat → Option (List Nat)} {source : List Nat} {output : TensorInfo}
    {F : List Nat → Outcome (Option Nat)} {l : Sources} (h : sourcesOf output F = .ok l)
    (hF : ∀ c, Within c output.dims → ∀ s, F c = .ok s → s = (φ c).map fun c' => flat c' (strides source)) :
    l = (List.range (volume output.dims)).map (carry φ source output.dims) := by
  rw [sourcesOf, coords_eq_map_coord, Outcome.mapM_eq_ok, List.forall₂_map_left_iff] at h
  refine eq_map_of_forall₂ ?_
  rw [List.forall₂_iff_get] at h ⊢
  refine ⟨h.1, fun i hi hi' => ?_⟩
  have hlt : i < volume output.dims := by simpa using hi
  have hs := hF _ (within_coord (by simpa using hlt)) _ (h.2 i hi hi')
  simpa [carry] using hs

theorem sourcesOf_total {φ : List Nat → Option (List Nat)} {source : List Nat} {output : TensorInfo}
    {F : List Nat → Outcome (Option Nat)}
    (hF : ∀ c, Within c output.dims → F c = .ok ((φ c).map fun c' => flat c' (strides source))) :
    sourcesOf output F = .ok ((List.range (volume output.dims)).map (carry φ source output.dims)) := by
  rw [sourcesOf, Outcome.mapM_of_forall fun c hc => hF c (within_of_mem_coords hc), coords_eq_map_coord, List.map_map]
  rfl

theorem sourcesOf_congr {output : TensorInfo} {F G : List Nat → Outcome (Option Nat)}
    (h : ∀ c, Within c output.dims → F c = G c) : sourcesOf output F = sourcesOf output G := by
  have hlist : ∀ l : List (List Nat), (∀ c ∈ l, F c = G c) → l.mapM F = l.mapM G := by
    intro l
    induction l with
    | nil => exact fun _ => rfl
    | cons c l ih =>
      intro hl
      rw [List.mapM_cons, List.mapM_cons, hl c List.mem_cons_self, ih fun c' hc' => hl c' (List.mem_cons_of_mem c hc')]
  exact hlist _ fun c hc => h c (within_of_mem_coords hc)

/-- The elements of a result are those that a move brings there, and zeros where it brings none. -/
structure Carried [Zero R] (φ : List Nat → Option (List Nat)) (source target : List Nat) (x y : List R) : Prop where
  length : y.length = volume target
  values : ∀ i < volume target, y.getD i 0 = (carry φ source target i).elim 0 fun j => x.getD j 0

variable {φ : List Nat → Option (List Nat)} {source : List Nat} {kind : OpKind} {x y : Operand R}
  {rest : List (Operand R)} {out : TensorInfo} {fill : Single} {sources : Outcome Sources}

theorem exact_carried (hplan : plan kind (x :: rest) out = do return .move [0] fill (.ok (← sources)))
    (hfill : (Scalar.ofSingle fill : R) = 0)
    (hs : ∀ l, sources = .ok l → l = (List.range (volume out.dims)).map (carry φ source out.dims))
    (h : exact kind (x :: rest) out = .ok y) : Carried φ source out.dims x.values y.values := by
  obtain ⟨l, hl, hpick⟩ := exact_move_ok hplan h
  cases hs l hl
  obtain ⟨hlen, hvalues⟩ := pick_ok hpick
  have hlen : y.values.length = volume out.dims := by simpa using hlen
  refine ⟨hlen, fun i hi => ?_⟩
  rw [hvalues i (hlen ▸ hi), hfill]
  simp [List.getD_eq_getElem?_getD, hi]

theorem exact_carried_total (hplan : plan kind (x :: rest) out = do return .move [0] fill (.ok (← sources)))
    (hs : sources = .ok ((List.range (volume out.dims)).map (carry φ source out.dims)))
    (hφ : Leads φ out.dims source) (hx : x.values.length = volume source) (hroom : Roomy out.dims) :
    ∃ y, exact kind (x :: rest) out = .ok y := by
  rw [hs] at hplan
  refine move_total hplan (fun j hj => ?_) hroom (by rw [List.length_map, List.length_range])
  obtain ⟨i, hi, heq⟩ := List.mem_map.1 hj
  exact hx ▸ carry_lt hφ (List.mem_range.1 hi) heq

end Carries

variable {R : Type} [Field R] {f : Numbers R} {x g : Operand R} {out : TensorInfo}

/-- Moves that undo each other on coordinates are adjoint. -/
theorem Carried.dot_eq {φ ψ : List Nat → Option (List Nat)} {source target : List Nat} {x y g b : List R}
    (hy : Carried φ source target x y) (hb : Carried ψ target source g b) (hx : x.length = volume source)
    (hg : g.length = volume target) (hφ : Leads φ target source) (hψ : Leads ψ source target)
    (h : ∀ c c', Within c target → Within c' source → (φ c = some c' ↔ ψ c' = some c)) : dot y g = dot x b :=
  dot_eq_of_undo (fun i hi => hy.values i (hy.length ▸ hi)) (fun j hj => hb.values j (hb.length ▸ hj))
    (hg.trans hy.length.symm) (hb.length.trans hx.symm)
    fun _ hi _ hj => carry_undo hφ hψ h (hy.length ▸ hi) (hx ▸ hj)

/-! ## Other orders of axes -/

section Transpose

variable {perm : List Int} {axes : List Nat} {n : Nat}

/-- The move of another order of axes: coordinates are put back. -/
def putBack (axes c : List Nat) : Option (List Nat) := some (reorder (inverse axes) c)

theorem leads_putBack {dims : List Nat} (h : Order axes dims.length) : Leads (putBack axes) (reorder axes dims) dims := by
  rintro c hc c' hc'
  cases hc'
  exact h.within_reorder rfl hc

/-- Putting back into the inverse order undoes putting back. -/
theorem putBack_inverse {dims : List Nat} (h : Order axes dims.length) {c c' : List Nat} (hc : Within c (reorder axes dims))
    (hc' : Within c' dims) : putBack axes c = some c' ↔ putBack (inverse axes) c' = some c := by
  have hlen : c.length = dims.length := by rw [List.Forall₂.length_eq hc, reorder, List.length_map, h.length]
  have hlen' : c'.length = dims.length := List.Forall₂.length_eq hc'
  rw [putBack, putBack, h.inverse_inverse, Option.some.injEq, Option.some.injEq]
  constructor
  · rintro rfl
    exact (h.reorder_reorder hlen).1
  · rintro rfl
    exact (h.reorder_reorder hlen').2

theorem transposeSources_eq {dims : List Nat} (horder : Order axes dims.length)
    (hperm : perm.map (Shape.fromFront · dims.length) = axes.map Int.ofNat) :
    transposeSources perm dims out = (do
      let strides ← steps dims
      sourcesOf out fun c => do return some (← Word.nat (flat c (reorder axes strides)))) := by
  have haxes : perm.mapM (fun p => Index.axis p dims.length) = .ok axes := by
    rw [Outcome.mapM_eq_ok, List.forall₂_iff_get]
    refine ⟨by simpa using congrArg List.length hperm, fun i hi hi' => Index.axis_eq (horder.lt _ (List.get_mem ..)) ?_⟩
    have hentry := List.getElem_of_eq hperm (i := i) (by simpa using hi)
    rwa [List.getElem_map, List.getElem_map] at hentry
  unfold transposeSources
  cases hsteps : steps dims with
  | error e => rfl
  | ok l =>
    cases steps_ok hsteps
    have hentries : axes.mapM (fun a => Outcome.promised (strides dims)[a]?) = .ok (reorder axes (strides dims)) := by
      refine Outcome.mapM_of_forall fun a ha => ?_
      have hlt : a < (strides dims).length := length_strides dims ▸ horder.lt a ha
      simp [Outcome.promised, hlt]
    simp only [bind, Except.bind, haxes, hentries]

/-- Coordinates are put back. -/
theorem transposeSources_ok {dims : List Nat} {l : Sources} (horder : Order axes dims.length)
    (hperm : perm.map (Shape.fromFront · dims.length) = axes.map Int.ofNat) (hout : out.dims = reorder axes dims)
    (h : transposeSources perm dims out = .ok l) :
    l = (List.range (volume out.dims)).map (carry (putBack axes) dims out.dims) := by
  rw [transposeSources_eq horder hperm] at h
  obtain ⟨s, hs, h⟩ := Outcome.bind_eq_ok.1 h
  cases steps_ok hs
  refine sourcesOf_ok h fun c hc s hs => ?_
  have hlen : c.length = dims.length := by rw [List.Forall₂.length_eq hc, hout, reorder, List.length_map, horder.length]
  obtain ⟨n, hn, hs⟩ := Outcome.bind_eq_ok.1 hs
  cases hs
  obtain ⟨-, rfl⟩ := Word.nat_eq_ok_iff.1 hn
  rw [putBack, Option.map_some, horder.flat_reorder hlen (length_strides _)]

/-- Where the elements can be counted, each coordinate of the result has a source. -/
theorem transposeSources_total {dims : List Nat} (horder : Order axes dims.length)
    (hperm : perm.map (Shape.fromFront · dims.length) = axes.map Int.ofNat) (hout : out.dims = reorder axes dims)
    (hspans : Spans dims) :
    transposeSources perm dims out = .ok ((List.range (volume out.dims)).map (carry (putBack axes) dims out.dims)) := by
  have hleads : Leads (putBack axes) out.dims dims := hout ▸ leads_putBack horder
  rw [transposeSources_eq horder hperm, hspans.steps]
  refine sourcesOf_total fun c hc => ?_
  have hlen : c.length = dims.length := by rw [List.Forall₂.length_eq hc, hout, reorder, List.length_map, horder.length]
  have hlt : flat (reorder (inverse axes) c) (strides dims) < Word.limit :=
    (flat_lt (hleads c hc _ rfl)).trans hspans.volume_lt
  rw [putBack, Option.map_some, horder.flat_reorder hlen (length_strides _)] at *
  rw [Word.nat_eq_ok_iff.2 ⟨hlt, rfl⟩]
  rfl

/-- Another order of axes moves the elements. -/
theorem exact_transpose {R : Type} [Scalar R] {x y : Operand R} (hzero : (Scalar.ofSingle .zero : R) = 0)
    (horder : Order axes x.dims.length)
    (hperm : perm.map (Shape.fromFront · x.dims.length) = axes.map Int.ofNat) (hout : out.dims = reorder axes x.dims)
    (h : exact (.transpose perm) [x] out = .ok y) : Carried (putBack axes) x.dims out.dims x.values y.values :=
  exact_carried rfl hzero (fun _ hl => transposeSources_ok horder hperm hout hl) h

theorem exact_transpose_total {R : Type} [Scalar R] {x : Operand R} (horder : Order axes x.dims.length)
    (hperm : perm.map (Shape.fromFront · x.dims.length) = axes.map Int.ofNat) (hout : out.dims = reorder axes x.dims)
    (hx : x.Complete) (hroom : Roomy x.dims) (hroom' : Roomy out.dims) : ∃ y, exact (.transpose perm) [x] out = .ok y :=
  exact_carried_total rfl (transposeSources_total horder hperm hout hroom.spans) (hout ▸ leads_putBack horder) hx.length_eq
    hroom'

/-- The gradient for the operand of another order of axes. -/
theorem backs_transpose (hf : Forward (.transpose perm) [x] out) (hg : Incoming out g) :
    Backs f (.transpose perm) [x] out 0 g (.transpose (GradRule.inverse perm)) [g] := by
  let _ := f.scalar
  obtain ⟨x', s, hx', hs, hout⟩ := OpKind.infer_transpose hf.infers
  cases hx'
  obtain ⟨axes, horder, hperm, hdims⟩ := OpKind.order_of_transposedShape hs
  have horder' : Order axes x.dims.length := by rwa [Operand.dims, TensorInfo.dims, Shape.length_dims]
  have hperm' : perm.map (Shape.fromFront · x.dims.length) = axes.map Int.ofNat := by
    rwa [Operand.dims, TensorInfo.dims, Shape.length_dims]
  have hgdims : g.dims = reorder axes x.dims := by rw [hg.dims, hout, dims_withShape, hdims]; rfl
  have hoback : out.dims = reorder axes x.dims := hg.dims ▸ hgdims
  have hglen : g.dims.length = x.dims.length := by rw [hgdims, reorder, List.length_map, horder'.length]
  have hback : x.dims = reorder (inverse axes) g.dims := by rw [hgdims, (horder'.reorder_reorder rfl).2]
  have hinverse : (GradRule.inverse perm).map (Shape.fromFront · g.dims.length) = (inverse axes).map Int.ofNat := by
    rw [OpKind.inverse_eq horder' hperm', List.map_map]
    exact List.map_congr_left fun a _ => show Shape.fromFront (Int.ofNat a) _ = _ from if_neg (by simp)
  have horder'' : Order (inverse axes) g.dims.length := hglen ▸ horder'.inverse
  refine ⟨fun {x' y b info} hx hy hinfer hb => ?_, fun hc => ?_⟩
  · cases hx
    obtain ⟨g', s', hg', hs', hinfo⟩ := OpKind.infer_transpose hinfer
    cases hg'
    have hshape : s' = x.info.shape := by
      rw [hg.shape, hout] at hs'
      exact OpKind.transposedShape_inverse hs hs'
    have hinfodims : info.dims = x.dims := by rw [hinfo, dims_withShape, hshape]; rfl
    refine ⟨by rw [hinfo, hshape]; rfl, ?_⟩
    have hy := exact_transpose f.ofSingle_zero horder' hperm' hoback hy
    have hb := exact_transpose f.ofSingle_zero horder'' hinverse (hinfodims.trans hback) hb
    rw [hinfodims, hg.dims] at hb
    rw [hoback] at hy hb
    have hleads := leads_putBack horder''
    rw [← hback, hgdims] at hleads
    exact hy.dot_eq hb (hf.complete x (by simp)).length_eq (by rw [hg.length, hoback]) (leads_putBack horder') hleads
      fun c c' => putBack_inverse horder'
  · have hs' : OpKind.transposedShape g.info.shape (GradRule.inverse perm) = .ok x.info.shape := by
      rw [hg.shape, hout]
      exact OpKind.transposedShape_undo hs
    have hinfer : (OpKind.transpose (GradRule.inverse perm)).infer [g.info] = .ok (g.info.withShape x.info.shape) := by
      simp [OpKind.infer, OpKind.operand1, bind, Except.bind, hs', pure, Except.pure]
    have hgback : (g.info.withShape x.info.shape).dims = reorder (inverse axes) g.dims := hback
    obtain ⟨b, hb⟩ := exact_transpose_total horder'' hinverse hgback hg.complete (hg.dims ▸ hc.result)
      (hc.operands x (by simp))
    exact ⟨_, b, hinfer, hb⟩

end Transpose

end Kernel

end TensorGraph
