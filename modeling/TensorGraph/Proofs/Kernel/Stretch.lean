import TensorGraph.Kernel.Elementwise
import TensorGraph.Proofs.Kernel.Linear

/-!
Stretching operands to the shape of a result, and summing back. A shape stretches to another one if it has ones where
it differs, with the last axes under each other; then every position of the result stands over one position of the
operand. Stretching twice is stretching once. What is read from stretched operands and what is summed back are both
stated over that position.
-/
namespace TensorGraph

/-! ## Shapes that stretch -/

/-- The extents `a` stretch to `s`: with the last ones under each other, each of them is that of `s` or one. -/
def Stretches {α : Type} [One α] (a s : List α) : Prop :=
  a.length ≤ s.length ∧ List.Forall₂ (fun x t => x = t ∨ x = 1) a (s.drop (s.length - a.length))

namespace Stretches

variable {α β : Type} [One α] [One β] {a b s : List α}

theorem refl (a : List α) : Stretches a a := by
  refine ⟨Nat.le_refl _, ?_⟩
  rw [Nat.sub_self, List.drop_zero]
  exact List.forall₂_same.2 fun _ _ => .inl rfl

theorem trans_axes : ∀ {a b s : List α}, List.Forall₂ (fun x t => x = t ∨ x = 1) a b →
    List.Forall₂ (fun x t => x = t ∨ x = 1) b s → List.Forall₂ (fun x t => x = t ∨ x = 1) a s
  | _, _, _, .nil, .nil => .nil
  | _, _, _, .cons h hs, .cons h' hs' =>
    .cons (h.elim (fun e => h'.imp e.trans e.trans) .inr) (trans_axes hs hs')

theorem trans (h : Stretches a b) (h' : Stretches b s) : Stretches a s := by
  refine ⟨h.1.trans h'.1, ?_⟩
  have hdrop := List.forall₂_drop (b.length - a.length) h'.2
  rw [List.drop_drop, show s.length - b.length + (b.length - a.length) = s.length - a.length by
    have := h.1; have := h'.1; omega] at hdrop
  exact trans_axes h.2 hdrop

theorem map {f : α → β} (hone : f 1 = 1) (h : Stretches a s) : Stretches (a.map f) (s.map f) := by
  refine ⟨by simpa using h.1, ?_⟩
  rw [List.length_map, List.length_map, ← List.map_drop, List.forall₂_map_left_iff, List.forall₂_map_right_iff]
  exact h.2.imp fun x t hx => hx.imp (congrArg f) fun e => by rw [e, hone]

end Stretches

namespace Shape

variable {a b s : Shape}

theorem broadcastExtent_ok {x y d : Int} (h : broadcastExtent x y = some d) : (x = d ∨ x = 1) ∧ (y = d ∨ y = 1) := by
  unfold broadcastExtent at h
  split at h
  · rename_i hxy
    cases h
    exact ⟨.inl rfl, .inl hxy.symm⟩
  · split at h
    · rename_i hx
      cases h
      exact ⟨.inr hx, .inl rfl⟩
    · split at h
      · rename_i hy
        cases h
        exact ⟨.inl rfl, .inr hy⟩
      · cases h

theorem joinExtents_ok : ∀ {a b s : Shape}, a.length = b.length → joinExtents a b = some s →
    List.Forall₂ (fun x t => x = t ∨ x = 1) a s ∧ List.Forall₂ (fun x t => x = t ∨ x = 1) b s
  | [], [], _, _, h => by
    cases h
    exact ⟨.nil, .nil⟩
  | _ :: a, _ :: b, _, hlen, h => by
    obtain ⟨d, hd, h⟩ := Option.bind_eq_some_iff.1 h
    obtain ⟨rest, hrest, h⟩ := Option.bind_eq_some_iff.1 h
    cases h
    obtain ⟨hx, hy⟩ := broadcastExtent_ok hd
    obtain ⟨ha, hb⟩ := joinExtents_ok (by simpa using hlen) hrest
    exact ⟨.cons hx ha, .cons hy hb⟩

theorem joinExtents_of_axes : ∀ {a s : Shape}, List.Forall₂ (fun x t => x = t ∨ x = 1) a s →
    joinExtents a s = some s ∧ joinExtents s a = some s
  | [], [], .nil => ⟨rfl, rfl⟩
  | x :: a, t :: s, .cons h hs => by
    obtain ⟨hleft, hright⟩ := joinExtents_of_axes hs
    have hl : broadcastExtent x t = some t := by
      rcases h with rfl | rfl
      · exact if_pos rfl
      · unfold broadcastExtent
        split
        · rename_i heq
          rw [heq]
        · rfl
    have hr : broadcastExtent t x = some t := by
      rcases h with rfl | rfl
      · exact if_pos rfl
      · unfold broadcastExtent
        split
        · rfl
        · exact if_pos rfl
    rw [joinExtents, joinExtents, hl, hr, hleft, hright]
    exact ⟨rfl, rfl⟩

theorem length_dims (s : Shape) : s.dims.length = s.length := List.length_map ..

theorem length_padTo {rank : Nat} (h : s.length ≤ rank) : (s.padTo rank).length = rank := by
  rw [padTo, List.length_append, List.length_replicate]
  omega

theorem stretches_of_padTo {rank : Nat} (hrank : s.length = rank) (ha : a.length ≤ rank)
    (h : List.Forall₂ (fun x t => x = t ∨ x = 1) (a.padTo rank) s) : Stretches a s := by
  refine ⟨hrank.symm ▸ ha, ?_⟩
  have hdrop := List.forall₂_drop (rank - a.length) h
  rwa [padTo, List.drop_left' (List.length_replicate ..), ← hrank] at hdrop

/-- Both of two shapes stretch to the one that they broadcast to. -/
theorem stretches_of_broadcast (h : a.broadcast b = .ok s) : Stretches a s ∧ Stretches b s := by
  rw [broadcast, Outcome.orFail_eq_ok] at h
  have hlen : (a.padTo (max a.length b.length)).length = (b.padTo (max a.length b.length)).length := by
    rw [length_padTo (Nat.le_max_left ..), length_padTo (Nat.le_max_right ..)]
  obtain ⟨ha, hb⟩ := joinExtents_ok hlen h
  have hs : s.length = max a.length b.length := by rw [← ha.length_eq, length_padTo (Nat.le_max_left ..)]
  exact ⟨stretches_of_padTo hs (Nat.le_max_left ..) ha, stretches_of_padTo hs (Nat.le_max_right ..) hb⟩

/-- A shape still stretches with ones put in front. -/
theorem axes_padTo (h : Stretches a s) : List.Forall₂ (fun x t => x = t ∨ x = 1) (a.padTo s.length) s := by
  have hones : ∀ l : Shape, List.Forall₂ (fun x t => x = t ∨ x = 1) (List.replicate l.length 1) l := by
    intro l
    induction l with
    | nil => exact .nil
    | cons d l ih => exact .cons (.inr rfl) ih
  have hfront := hones (s.take (s.length - a.length))
  rw [List.length_take, Nat.min_eq_left (Nat.sub_le ..)] at hfront
  have hall : List.Forall₂ _ (_ ++ a) (_ ++ _) := List.rel_append hfront h.2
  rwa [List.take_append_drop] at hall

/-- A shape takes in what stretches to it. -/
theorem broadcast_of_stretches (h : Stretches a s) : a.broadcast s = .ok s ∧ s.broadcast a = .ok s := by
  have hself : s.padTo s.length = s := by rw [padTo, Nat.sub_self]; rfl
  obtain ⟨hleft, hright⟩ := joinExtents_of_axes (axes_padTo h)
  rw [broadcast, broadcast, Outcome.orFail_eq_ok, Outcome.orFail_eq_ok, broadcast?, broadcast?, Nat.max_eq_right h.1,
    Nat.max_eq_left h.1, hself]
  exact ⟨hleft, hright⟩

theorem stretches_dims (h : Stretches a s) : Stretches a.dims s.dims := h.map rfl

end Shape

/-! ## Positions under positions -/

namespace Index

variable {a b c d : List Nat} {i : Nat}

/-- A coordinate with its entries on axes of extent one set to zero. -/
def shrink (dims c : List Nat) : List Nat := List.zipWith (fun d k => if d = 1 then 0 else k) dims c

/-- The position in a shape `source` that stands under position `i` of a shape `target` that it stretches to. -/
def under (source target : List Nat) (i : Nat) : Nat :=
  flat (shrink source ((coord target i).drop (target.length - source.length))) (strides source)

theorem within_shrink : ∀ {dims target c : List Nat}, List.Forall₂ (fun x t => x = t ∨ x = 1) dims target →
    Within c target → Within (shrink dims c) dims
  | _, _, _, .nil, .nil => .nil
  | d :: dims, t :: target, k :: c, .cons h hs, .cons hk hc => by
    refine .cons ?_ (within_shrink hs hc)
    change (if d = 1 then 0 else k) < d
    split
    · omega
    · rename_i hd
      rcases h with rfl | rfl
      · exact hk
      · exact absurd rfl hd

theorem within_under (h : Stretches a b) (hi : i < volume b) :
    Within (shrink a ((coord b i).drop (b.length - a.length))) a :=
  within_shrink h.2 (List.forall₂_drop _ (within_coord hi))

theorem under_lt (h : Stretches a b) (hi : i < volume b) : under a b i < volume a := flat_lt (within_under h hi)

theorem coord_under (h : Stretches a b) (hi : i < volume b) :
    coord a (under a b i) = shrink a ((coord b i).drop (b.length - a.length)) := coord_flat (within_under h hi)

theorem shrink_self : ∀ {dims c : List Nat}, Within c dims → shrink dims c = c
  | _, _, .nil => rfl
  | d :: dims, k :: c, .cons hk hc => by
    rw [shrink, List.zipWith_cons_cons, ← shrink, shrink_self hc]
    split
    · rw [show k = 0 by omega]
    · rfl

/-- A shape stands under itself as it is. -/
theorem under_self (hi : i < volume a) : under a a i = i := by
  rw [under, Nat.sub_self, List.drop_zero, shrink_self (within_coord hi), flat_coord a hi]

theorem shrink_shrink : ∀ {a b : List Nat} {c : List Nat}, List.Forall₂ (fun x t => x = t ∨ x = 1) a b →
    shrink a (shrink b c) = shrink a c
  | _, _, _, .nil => rfl
  | _ :: _, _ :: _, [], .cons _ _ => rfl
  | x :: a, t :: b, k :: c, .cons h hs => by
    simp only [shrink, List.zipWith_cons_cons]
    congr 1
    · split
      · rfl
      · rename_i hx
        rcases h with rfl | rfl
        · rw [if_neg hx]
        · exact absurd rfl hx
    · exact shrink_shrink hs

/-- What stands under what stands under a position stands under it. -/
theorem under_under (hab : Stretches a b) (hbc : Stretches b c) (hi : i < volume c) :
    under a b (under b c i) = under a c i := by
  have hoffset : c.length - b.length + (b.length - a.length) = c.length - a.length := by
    have := hab.1
    have := hbc.1
    omega
  have hdrop : ∀ n (l : List Nat), (shrink b l).drop n = shrink (b.drop n) (l.drop n) := fun n l => by
    rw [shrink, List.drop_zipWith, ← shrink]
  rw [under, coord_under hbc hi, hdrop, shrink_shrink hab.2, List.drop_drop, hoffset, under]

/-! ## Broadcast sources -/

theorem flat_replicate_zero : ∀ (n : Nat) (c s : List Nat), flat c (List.replicate n 0 ++ s) = flat (c.drop n) s
  | 0, _, _ => rfl
  | _ + 1, [], s => by cases s <;> rfl
  | n + 1, k :: c, s => by
    rw [List.replicate_succ, List.cons_append, flat, Nat.mul_zero, Nat.zero_add, flat_replicate_zero n c s]
    rfl

theorem stretchedStrides_ok : ∀ {dims target : List Nat} {l aligned : List Nat}, dims.length = target.length →
    l.length = dims.length → stretchedStrides dims l target = some aligned →
      List.Forall₂ (fun x t => x = t ∨ x = 1) dims target ∧ ∀ c, Within c target → flat c aligned = flat (shrink dims c) l
  | [], [], l, _, _, _, h => by
    cases h
    refine ⟨.nil, fun c hc => ?_⟩
    cases hc
    rfl
  | d :: dims, t :: target, s :: l, aligned, hlen, hlen', h => by
    obtain ⟨rest, hrest, h⟩ := Option.bind_eq_some_iff.1 h
    obtain ⟨haxes, hflat⟩ := stretchedStrides_ok (by simpa using hlen) (by simpa using hlen') hrest
    have hcons : ∀ (stride : Nat) (hd : d = t ∨ d = 1)
        (hstride : ∀ k, k < t → k * stride = (if d = 1 then 0 else k) * s), aligned = stride :: rest →
        List.Forall₂ (fun x t => x = t ∨ x = 1) (d :: dims) (t :: target) ∧
          ∀ c, Within c (t :: target) → flat c aligned = flat (shrink (d :: dims) c) (s :: l) := by
      rintro stride hd hstride rfl
      refine ⟨.cons hd haxes, fun c hc => ?_⟩
      obtain ⟨k, c, hk, hrest, rfl⟩ := List.forall₂_cons_right_iff.1 hc
      rw [flat, hstride k hk, hflat c hrest]
      rfl
    split at h
    · rename_i heq
      refine hcons s (.inl heq) (fun k hk => ?_) (Option.some.inj h).symm
      split
      · rw [show k = 0 by omega]
      · rfl
    · split at h
      · rename_i hone
        exact hcons 0 (.inr hone) (fun k _ => by rw [if_pos hone, Nat.mul_zero, Nat.zero_mul]) (Option.some.inj h).symm
      · cases h

theorem stretchedStrides_total : ∀ {dims target : List Nat} (l : List Nat),
    List.Forall₂ (fun x t => x = t ∨ x = 1) dims target → ∃ aligned, stretchedStrides dims l target = some aligned
  | [], [], l, .nil => ⟨[], rfl⟩
  | d :: dims, t :: target, [], .cons _ _ => ⟨[], rfl⟩
  | d :: dims, t :: target, s :: l, .cons h hs => by
    obtain ⟨rest, hrest⟩ := stretchedStrides_total l hs
    rw [stretchedStrides, hrest]
    rcases h with rfl | rfl
    · exact ⟨_, if_pos rfl⟩
    · change ∃ aligned, (if 1 = t then some (s :: rest) else if 1 = 1 then some (0 :: rest) else none) = some aligned
      split
      · exact ⟨_, rfl⟩
      · exact ⟨_, rfl⟩

/-- An operand is read at the positions that stand under those of the result. -/
theorem broadcastSources_ok {source target l : List Nat} (h : broadcastSources source target = .ok l) :
    Stretches source target ∧ l = (List.range (volume target)).map (under source target) := by
  unfold broadcastSources at h
  split at h
  · cases h
  · rename_i hlen
    obtain ⟨steps, hsteps, h⟩ := Outcome.bind_eq_ok.1 h
    cases steps_ok hsteps
    split at h
    · cases h
    · rename_i aligned haligned
      cases h
      have hdrop : source.length = (target.drop (target.length - source.length)).length := by
        rw [List.length_drop]
        omega
      obtain ⟨haxes, hflat⟩ := stretchedStrides_ok hdrop (length_strides source) haligned
      refine ⟨⟨Nat.not_lt.1 hlen, haxes⟩, ?_⟩
      rw [coords_eq_map_coord, List.map_map]
      refine List.map_congr_left fun i hi => ?_
      have hw := List.forall₂_drop (target.length - source.length) (within_coord (List.mem_range.1 hi))
      exact (flat_replicate_zero _ _ _).trans (hflat _ hw)

theorem broadcastSources_total {source target steps : List Nat} (h : Stretches source target)
    (hsteps : Index.steps source = .ok steps) :
    broadcastSources source target = .ok ((List.range (volume target)).map (under source target)) := by
  obtain ⟨aligned, haligned⟩ := stretchedStrides_total steps h.2
  have hok : ∃ l, broadcastSources source target = .ok l := by
    unfold broadcastSources
    rw [if_neg (Nat.not_lt.2 h.1), hsteps]
    refine ⟨(coords target).map fun c => flat c (List.replicate (target.length - source.length) 0 ++ aligned),
      Outcome.bind_eq_ok.2 ⟨steps, rfl, ?_⟩⟩
    rw [haligned]
    rfl
  obtain ⟨l, hl⟩ := hok
  rw [hl, ← (broadcastSources_ok hl).2]

end Index

namespace Kernel

/-! ## Element by element -/

section Elements

variable {R : Type} [Scalar R] {φ : List R → R} {xs : List (Operand R)} {dims : List Nat} {values : List R}

/-- Every element comes from those of the operands that stand under it. -/
theorem zipWith_ok (h : zipWith φ xs dims = .ok values) : (∀ x ∈ xs, Stretches x.dims dims) ∧
    values.length = volume dims ∧ Word.product dims = .ok values.length ∧
      ∀ i < values.length, values.getD i 0 = φ (xs.map fun x => x.values.getD (Index.under x.dims dims i) 0) := by
  obtain ⟨sources, hsources, h⟩ := Outcome.bind_eq_ok.1 h
  obtain ⟨n, hn, h⟩ := Outcome.bind_eq_ok.1 h
  obtain rfl : n = volume dims := Word.product_eq hn
  have hall := Outcome.mapM_eq_ok.1 hsources
  have hstretch : ∀ x ∈ xs, Stretches x.dims dims := by
    intro x hx
    obtain ⟨s, -, hs⟩ := exists_of_forall₂ hall x hx
    obtain ⟨indices, hindices, -⟩ := Outcome.bind_eq_ok.1 hs
    exact (Index.broadcastSources_ok hindices).1
  have hsources : sources =
      xs.map fun x => (x.values.toArray, ((List.range (volume dims)).map (Index.under x.dims dims)).toArray) := by
    refine eq_map_of_forall₂ (hall.imp fun x s hs => ?_)
    obtain ⟨indices, hindices, hs⟩ := Outcome.bind_eq_ok.1 hs
    cases hs
    rw [(Index.broadcastSources_ok hindices).2]
  subst hsources
  rw [Outcome.mapM_eq_ok, List.forall₂_iff_get] at h
  obtain ⟨hlen, hall⟩ := h
  rw [List.length_range] at hlen
  refine ⟨hstretch, hlen.symm, hlen ▸ hn, fun i hi => ?_⟩
  have hi' : i < volume dims := hlen ▸ hi
  obtain ⟨args, hargs, hvalue⟩ := Outcome.bind_eq_ok.1 (hall i (by simpa using hi') hi)
  rw [Outcome.mapM_eq_ok, List.forall₂_map_left_iff] at hargs
  have hargs : args = xs.map fun x => x.values.getD (Index.under x.dims dims i) 0 := by
    refine eq_map_of_forall₂ (hargs.imp fun x v hv => ?_)
    obtain ⟨index, hindex, hv⟩ := Outcome.bind_eq_ok.1 hv
    rw [Outcome.promised_eq_ok] at hindex
    simp [hi'] at hindex
    rw [← hindex, Operand.fetch, Outcome.promised_eq_ok, List.getElem?_toArray] at hv
    exact (getD_of_getElem? hv).symm
  rw [← hargs, List.getD_eq_getElem _ _ hi]
  exact (Except.ok.inj hvalue).symm

/-- Operands that stretch to the result and have all their values give one. -/
theorem zipWith_total (hxs : ∀ x ∈ xs, Stretches x.dims dims ∧ (∃ s, Index.steps x.dims = .ok s) ∧
    x.values.length = volume x.dims) (hdims : Word.product dims = .ok (volume dims)) :
    ∃ values, zipWith φ xs dims = .ok values := by
  unfold zipWith
  rw [Outcome.mapM_of_forall (w := fun x : Operand R =>
    (x.values.toArray, ((List.range (volume dims)).map (Index.under x.dims dims)).toArray)) fun x hx => ?_]
  · change ∃ values, (Word.product dims >>= _) = _
    rw [hdims]
    refine ⟨_, Outcome.mapM_of_forall
      (w := fun i => φ (xs.map fun x => x.values.getD (Index.under x.dims dims i) 0)) fun i hi => ?_⟩
    have hi := List.mem_range.1 hi
    refine Outcome.bind_eq_ok.2 ⟨xs.map fun x => x.values.getD (Index.under x.dims dims i) 0, ?_, rfl⟩
    rw [Outcome.mapM_eq_ok, List.forall₂_map_left_iff, List.forall₂_map_right_iff, List.forall₂_same]
    intro x hx
    obtain ⟨hstretch, -, hlen⟩ := hxs x hx
    have hlt : Index.under x.dims dims i < x.values.length := hlen ▸ Index.under_lt hstretch hi
    simp [Outcome.promised, hi, Operand.fetch, bind, Except.bind, hlt]
  · obtain ⟨hstretch, ⟨s, hs⟩, -⟩ := hxs x hx
    rw [Index.broadcastSources_total hstretch hs]
    rfl

omit [Scalar R] in
theorem elementwise_ok {output : TensorInfo} (h : elementwise φ xs output = .ok values) :
    zipWith φ xs output.dims = .ok values := by
  unfold elementwise at h
  split at h
  · cases h
  · exact h

omit [Scalar R] in
theorem elementwise_eq {output : TensorInfo} {x : Operand R} : elementwise φ (x :: xs) output = zipWith φ (x :: xs) output.dims :=
  rfl

end Elements

/-! ## Sums over stretched axes -/

section Sums

variable {R : Type} [Field R]

/-- Every element is the sum of those that it stands under. -/
theorem reduceTo_ok (f : Numbers R) {values result : List R} {source target : List Nat}
    (h : @reduceTo R f.scalar values source target = .ok result) (hlen : values.length = volume source) :
    Stretches target source ∧ result.length = volume target ∧
      Transforms (fun j i => moving (fun i => some (Index.under target source i)) (1 : Nat → R) i j) values result := by
  let _ := f.scalar
  obtain ⟨targets, htargets, h⟩ := Outcome.bind_eq_ok.1 h
  obtain ⟨n, hn, h⟩ := Outcome.bind_eq_ok.1 h
  obtain ⟨_, -, h⟩ := Outcome.bind_eq_ok.1 h
  cases h
  obtain rfl : n = volume target := Word.product_eq hn
  obtain ⟨hstretch, rfl⟩ := Index.broadcastSources_ok htargets
  refine ⟨hstretch, length_accumulate .., ?_⟩
  have hsame : ((List.range (volume source)).map (Index.under target source)).length = values.length := by
    rw [List.length_map, List.length_range, hlen]
  refine (transforms_accumulate f (volume target) hsame).congr fun j _ i hi => ?_
  have hi : i < volume source := hlen ▸ hi
  simp [moving, hi]

/-- What is summed back to a shape that can be counted and held. -/
theorem reduceTo_eq {R : Type} [Scalar R] {values : List R} {source target : List Nat} (h : Stretches target source)
    (hspans : Spans target) (hroom : Operand.room (volume target) = .ok ()) : reduceTo values source target =
      .ok (accumulate (volume target) (((List.range (volume source)).map (Index.under target source)).zip values)) := by
  unfold reduceTo
  rw [Index.broadcastSources_total h hspans.steps]
  change (Word.product target >>= _) = _
  rw [hspans.product]
  change (Operand.room (volume target) >>= _) = _
  rw [hroom]
  rfl

theorem reduceTo_total {R : Type} [Scalar R] {values : List R} {source target : List Nat}
    (h : Stretches target source) (hroom : Roomy target) : ∃ result, reduceTo values source target = .ok result :=
  ⟨_, reduceTo_eq h hroom.spans (hroom.room (volume_le_capacity target))⟩

end Sums

end Kernel

end TensorGraph
