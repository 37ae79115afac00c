import TensorGraph.Proofs.Kernel.Stretch
import TensorGraph.Proofs.Op.Extent

/-!
Broadcasting as a least upper bound. Shapes are ordered by what they stretch to, and two shapes broadcast to the least
one that both stretch to, if there is any. So broadcasting commutes and associates, a shape takes in itself and the
scalar shape, and broadcasting twice is broadcasting once. An operand has sources in a result exactly if the result
takes it in and its strides can be counted.
-/
namespace TensorGraph

/-! ## The order of shapes -/

namespace Stretches

variable {α : Type} [One α] {a b s : List α}

theorem nil (s : List α) : Stretches [] s := by
  refine ⟨Nat.zero_le _, ?_⟩
  rw [List.length_nil, Nat.sub_zero, List.drop_length]
  exact .nil

theorem antisymm_axes : ∀ {a b : List α}, List.Forall₂ (fun x t => x = t ∨ x = 1) a b →
    List.Forall₂ (fun x t => x = t ∨ x = 1) b a → a = b
  | _, _, .nil, .nil => rfl
  | _, _, .cons h hs, .cons h' hs' => by
    rw [antisymm_axes hs hs']
    rcases h with rfl | rfl
    · rfl
    · rw [h'.elim id id]

/-- Shapes that stretch to each other are the same. -/
theorem antisymm (h : Stretches a b) (h' : Stretches b a) : a = b := by
  have hlen : a.length = b.length := Nat.le_antisymm h.1 h'.1
  have haxes := h.2
  have haxes' := h'.2
  rw [hlen, Nat.sub_self, List.drop_zero] at haxes haxes'
  exact antisymm_axes haxes haxes'

/-- What a shape stretches to, it still does with the front axes left out, down to its own rank. -/
theorem drop {n : Nat} (h : Stretches a s) (hn : a.length + n ≤ s.length) : Stretches a (s.drop n) := by
  have hrest : s.length - n - a.length + n = s.length - a.length := by omega
  refine ⟨by rw [List.length_drop]; omega, ?_⟩
  rw [List.length_drop, List.drop_drop, Nat.add_comm, hrest]
  exact h.2

end Stretches

namespace Shape

variable {a b c s t : Shape}

/-! ## Least upper bounds -/

theorem broadcastExtent_of_bound {x y d : Int} (hx : x = d ∨ x = 1) (hy : y = d ∨ y = 1) :
    ∃ e, broadcastExtent x y = some e ∧ (e = d ∨ e = 1) := by
  unfold broadcastExtent
  split
  · exact ⟨x, rfl, hx⟩
  · split
    · exact ⟨y, rfl, hy⟩
    · rename_i hx1
      obtain rfl := hx.resolve_right hx1
      rename_i hxy
      obtain rfl := hy.resolve_left fun h => hxy h.symm
      exact ⟨x, if_pos rfl, .inl rfl⟩

theorem joinExtents_of_bound {u : Shape} (ha : List.Forall₂ (fun x t => x = t ∨ x = 1) a u)
    (hb : List.Forall₂ (fun x t => x = t ∨ x = 1) b u) :
    ∃ s, joinExtents a b = some s ∧ List.Forall₂ (fun x t => x = t ∨ x = 1) s u := by
  induction ha generalizing b with
  | nil =>
    cases hb
    exact ⟨[], rfl, .nil⟩
  | cons hx _ ih =>
    cases hb with
    | cons hy hb =>
      obtain ⟨e, he, hed⟩ := broadcastExtent_of_bound hx hy
      obtain ⟨s, hs, hsu⟩ := ih hb
      refine ⟨e :: s, ?_, .cons hed hsu⟩
      rw [joinExtents, he, hs]
      rfl

/-- Two shapes that stretch to a common one broadcast, and what they broadcast to stretches to it too. -/
theorem broadcast_of_bound {u : Shape} (ha : Stretches a u) (hb : Stretches b u) :
    ∃ s, a.broadcast b = .ok s ∧ Stretches s u := by
  have hrank : max a.length b.length ≤ u.length := Nat.max_le.2 ⟨ha.1, hb.1⟩
  generalize hr : max a.length b.length = rank at hrank
  have hla : a.length ≤ rank := hr ▸ Nat.le_max_left ..
  have hlb : b.length ≤ rank := hr ▸ Nat.le_max_right ..
  have hlen : (u.drop (u.length - rank)).length = rank := by rw [List.length_drop]; omega
  have hpa := axes_padTo (ha.drop (n := u.length - rank) (by omega))
  have hpb := axes_padTo (hb.drop (n := u.length - rank) (by omega))
  rw [hlen] at hpa hpb
  obtain ⟨s, hs, hsu⟩ := joinExtents_of_bound hpa hpb
  have hslen : s.length = rank := hsu.length_eq.trans hlen
  refine ⟨s, ?_, hslen.symm ▸ hrank, hslen.symm ▸ hsu⟩
  rw [broadcast, Outcome.orFail_eq_ok, broadcast?, hr]
  exact hs

/-- What two shapes broadcast to stretches to exactly what both of them stretch to. -/
theorem broadcast_eq_ok_iff :
    a.broadcast b = .ok s ↔ ∀ u, Stretches s u ↔ Stretches a u ∧ Stretches b u := by
  constructor
  · intro h u
    obtain ⟨ha, hb⟩ := stretches_of_broadcast h
    refine ⟨fun hu => ⟨ha.trans hu, hb.trans hu⟩, fun ⟨hau, hbu⟩ => ?_⟩
    obtain ⟨t, ht, htu⟩ := broadcast_of_bound hau hbu
    cases h.symm.trans ht
    exact htu
  · intro h
    obtain ⟨ha, hb⟩ := (h s).1 (.refl s)
    obtain ⟨t, ht, hts⟩ := broadcast_of_bound ha hb
    have hst : Stretches s t := (h t).2 (stretches_of_broadcast ht)
    rwa [hst.antisymm hts]

/-- A shape takes in another one exactly if that one stretches to it. -/
theorem broadcast_eq_right_iff : a.broadcast s = .ok s ↔ Stretches a s :=
  ⟨fun h => (stretches_of_broadcast h).1, fun h => (broadcast_of_stretches h).1⟩

/-- Three shapes broadcast from the left to the least one that all of them stretch to. -/
theorem broadcast_bind_eq_ok_iff : (a.broadcast b >>= fun t => t.broadcast c) = .ok s ↔
    ∀ u, Stretches s u ↔ Stretches a u ∧ Stretches b u ∧ Stretches c u := by
  rw [Outcome.bind_eq_ok]
  constructor
  · rintro ⟨t, ht, h⟩ u
    rw [broadcast_eq_ok_iff.1 h u, broadcast_eq_ok_iff.1 ht u, and_assoc]
  · intro h
    obtain ⟨ha, hb, -⟩ := (h s).1 (.refl s)
    obtain ⟨t, ht, -⟩ := broadcast_of_bound ha hb
    refine ⟨t, ht, broadcast_eq_ok_iff.2 fun u => ?_⟩
    rw [h u, broadcast_eq_ok_iff.1 ht u, and_assoc]

theorem broadcast_comm : a.broadcast b = .ok s ↔ b.broadcast a = .ok s := by
  rw [broadcast_eq_ok_iff, broadcast_eq_ok_iff]
  simp only [and_comm]

theorem broadcast_assoc :
    (a.broadcast b >>= fun t => t.broadcast c) = .ok s ↔ (b.broadcast c >>= fun t => a.broadcast t) = .ok s := by
  have hswap : (b.broadcast c >>= fun t => a.broadcast t) = .ok s ↔ (b.broadcast c >>= fun t => t.broadcast a) = .ok s := by
    rw [Outcome.bind_eq_ok, Outcome.bind_eq_ok]
    simp only [broadcast_comm]
  rw [hswap, broadcast_bind_eq_ok_iff, broadcast_bind_eq_ok_iff]
  exact forall_congr' fun u => iff_congr Iff.rfl
    ⟨fun ⟨ha, hb, hc⟩ => ⟨hb, hc, ha⟩, fun ⟨hb, hc, ha⟩ => ⟨ha, hb, hc⟩⟩

/-- Without extents below zero, counts stretch only where the shapes do. -/
theorem stretches_of_dims (ha : a.Sized) (hs : s.Sized) (h : Stretches a.dims s.dims) : Stretches a s := by
  have hlen := h.1
  have haxes := h.2
  rw [length_dims, length_dims] at hlen haxes
  rw [dims, dims, ← List.map_drop, List.forall₂_map_left_iff, List.forall₂_map_right_iff] at haxes
  refine ⟨hlen, ?_⟩
  rw [List.forall₂_iff_get] at haxes ⊢
  refine haxes.imp_right fun h i hi hi' => ?_
  have hx : 0 ≤ a[i] := ha _ (List.getElem_mem hi)
  have ht : 0 ≤ (s.drop (s.length - a.length))[i] := hs _ (List.mem_of_mem_drop (List.getElem_mem hi'))
  have := h i hi hi'
  simp only [List.get_eq_getElem] at this ⊢
  omega

end Shape

/-! ## The sources of an operand -/

namespace Index

variable {dims source target : List Nat}

theorem volume_mem_of_suffix : ∀ {dims part : List Nat}, part <:+ dims → volume part ∈ volume dims :: strides dims
  | [], part, h => by rw [List.suffix_nil.1 h]; exact List.mem_cons_self
  | d :: rest, part, h => by
    rcases List.suffix_cons_iff.1 h with rfl | h
    · exact List.mem_cons_self
    · exact List.mem_cons_of_mem _ (volume_mem_of_suffix h)

/-- Strides can be counted exactly if the elements behind every axis can. -/
theorem steps_total_iff : (∃ l, steps dims = .ok l) ↔ ∀ part, part <:+ dims → volume part < Word.limit := by
  constructor
  · rintro ⟨l, hl⟩ part hpart
    unfold steps at hl
    split at hl
    · rename_i hall
      exact decide_eq_true_iff.1 (List.all_eq_true.1 hall _ (volume_mem_of_suffix hpart))
    · cases hl
  · intro h
    refine ⟨strides dims, if_pos (List.all_eq_true.2 fun s hs => decide_eq_true ?_)⟩
    rcases List.mem_cons.1 hs with rfl | hs
    · exact h dims (List.suffix_refl dims)
    · obtain ⟨part, hpart, rfl⟩ := stride_eq_volume s hs
      exact h part hpart

/-- An operand has sources in a result that it stretches to, if its strides can be counted. -/
theorem broadcastSources_total_iff : (∃ l, broadcastSources source target = .ok l) ↔
    Stretches source target ∧ ∃ l, steps source = .ok l := by
  constructor
  · rintro ⟨l, hl⟩
    refine ⟨(broadcastSources_ok hl).1, ?_⟩
    unfold broadcastSources at hl
    split at hl
    · cases hl
    · obtain ⟨steps, hsteps, -⟩ := Outcome.bind_eq_ok.1 hl
      exact ⟨steps, hsteps⟩
  · rintro ⟨hstretch, steps, hsteps⟩
    exact ⟨_, broadcastSources_total hstretch hsteps⟩

end Index

namespace Shape

/-- Broadcasting commutes and associates, is idempotent, has the scalar shape as its identity, and a shape takes in what it
was broadcast from. An operand has sources in a result exactly if broadcasting the two gives that result and the
elements behind each axis of the operand can be counted in a word. There is then one source for each element of the result: the
element of the operand at the last coordinates of that one, with zeros on the axes where the operand has extent one. -/
theorem broadcast_laws (a b c : Shape) :
    (∀ s, a.broadcast b = .ok s ↔ b.broadcast a = .ok s) ∧
    (∀ s, (a.broadcast b >>= fun t => t.broadcast c) = .ok s ↔ (b.broadcast c >>= fun t => a.broadcast t) = .ok s) ∧
    a.broadcast a = .ok a ∧ broadcast [] a = .ok a ∧ a.broadcast [] = .ok a ∧
    (∀ s, a.broadcast b = .ok s → a.broadcast s = .ok s) ∧
    (a.Sized → b.Sized →
      ((∃ l, Index.broadcastSources a.dims b.dims = .ok l) ↔
        a.broadcast b = .ok b ∧ ∀ part, part <:+ a.dims → volume part < Word.limit) ∧
      ∀ l, Index.broadcastSources a.dims b.dims = .ok l → l.length = b.count ∧ (∀ n ∈ l, n < a.count) ∧
        l = (Index.coords b.dims).map fun c =>
          Index.flat (Index.shrink a.dims (c.drop (b.length - a.length))) (Index.strides a.dims)) := by
  refine ⟨fun s => broadcast_comm, fun s => broadcast_assoc, broadcast_self a,
    (broadcast_of_stretches (.nil a)).1, (broadcast_of_stretches (.nil a)).2,
    fun s h => broadcast_eq_right_iff.2 (stretches_of_broadcast h).1, fun ha hb => ⟨?_, fun l hl => ?_⟩⟩
  · rw [Index.broadcastSources_total_iff, Index.steps_total_iff, broadcast_eq_right_iff]
    exact and_congr_left' ⟨stretches_of_dims ha hb, stretches_dims⟩
  · obtain ⟨hstretch, rfl⟩ := Index.broadcastSources_ok hl
    refine ⟨by rw [List.length_map, List.length_range]; rfl, fun n hn => ?_, ?_⟩
    · obtain ⟨i, hi, rfl⟩ := List.mem_map.1 hn
      exact Index.under_lt hstretch (List.mem_range.1 hi)
    · rw [Index.coords_eq_map_coord, List.map_map, ← length_dims a, ← length_dims b]
      rfl

theorem broadcast_laws_column :
    broadcast [3, 1] [2, 3, 2] = .ok [2, 3, 2] ∧
    (broadcast [3, 1] [2, 3, 2] >>= fun t => t.broadcast [2]) = .ok [2, 3, 2] ∧
    ∃ l, Index.broadcastSources (dims [3, 1]) (dims [2, 3, 2]) = .ok l ∧ l.length = 12 ∧ (∀ n ∈ l, n < 3) ∧
      l = (Index.coords (dims [2, 3, 2])).map fun c =>
        Index.flat (Index.shrink (dims [3, 1]) (c.drop 1)) (Index.strides (dims [3, 1])) := by
  obtain ⟨hcomm, hassoc, -, -, -, habsorb, hsources⟩ := broadcast_laws [3, 1] [2, 3, 2] [2]
  have hbroadcast : broadcast [2, 3, 2] [3, 1] = .ok [2, 3, 2] := by decide
  have hleft := (hcomm _).2 hbroadcast
  obtain ⟨hiff, hall⟩ := hsources (by unfold Sized; decide) (by unfold Sized; decide)
  obtain ⟨l, hl⟩ := hiff.2 ⟨habsorb _ hleft, Index.steps_total_iff.1 ⟨_, rfl⟩⟩
  exact ⟨hleft, (hassoc _).2 (by decide), l, hl, hall l hl⟩

/-- The strides of an operand are counted even where it has no elements, and may not fit a word. -/
theorem broadcast_uncounted :
    Sized [0, 1099511627776, 1099511627776] ∧
    broadcast [0, 1099511627776, 1099511627776] [0, 1099511627776, 1099511627776] =
      .ok [0, 1099511627776, 1099511627776] ∧
    Index.broadcastSources (dims [0, 1099511627776, 1099511627776]) (dims [0, 1099511627776, 1099511627776]) =
      .error .abort :=
  ⟨by unfold Sized; decide, broadcast_self _, by decide +kernel⟩

end Shape

end TensorGraph
