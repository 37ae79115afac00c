import TensorGraph.Proofs.Session.Reporting

/-!
The tiles of a tensor. Where every tensor is on a virtual graph that there is, the tile map partitions each tensor: its
elements are cut, from the first to the last, into regions of one size but for the last one, on tiles of its chip that
ascend. There is such a map exactly if the lists of all tiles can be held and the regions of each tensor can be counted.
-/
namespace TensorGraph

open Placement (InRange)

variable {e : Executable} {d : Device} {n : Nat}

namespace TileMapping

variable {id : TensorId} {info : TensorInfo} {m : TileMapping} {v : Int} {count size first k : Nat}

/-! ## Regions behind each other -/

/-- Regions that take up all elements between two positions, one behind the other and none of them empty. -/
inductive Tiling : Nat → List TileRegion → Nat → Prop
  | nil (i : Nat) : Tiling i [] i
  | cons {r : TileRegion} {regions : List TileRegion} {stop : Nat} (hr : r.start < r.stop)
      (h : Tiling r.stop regions stop) : Tiling r.start (r :: regions) stop

theorem lt_regions_iff (hsize : 0 < size) : k < (count + size - 1) / size ↔ k * size < count := by
  rw [Nat.lt_iff_add_one_le, Nat.le_div_iff_mul_le hsize, Nat.succ_mul]
  omega

/-- Elements cut into regions of one size are taken up by them. -/
theorem tiling_cut (hsize : 0 < size) : Tiling 0 (cut count size first) count := by
  -- the regions from the one of number `k` on
  have hrest : ∀ j k, k + j = (count + size - 1) / size →
      Tiling (min (k * size) count)
        ((List.range' k j).map fun k => ⟨first + k, k * size, min ((k + 1) * size) count⟩) count := by
    intro j
    induction j with
    | zero =>
      intro k hk
      have hend : ¬ k * size < count := by rw [← lt_regions_iff hsize]; omega
      rw [Nat.min_eq_right (Nat.not_lt.1 hend)]
      exact .nil count
    | succ j ih =>
      intro k hk
      have hstart : k * size < count := by rw [← lt_regions_iff hsize]; omega
      rw [Nat.min_eq_left hstart.le, List.range'_succ, List.map_cons]
      refine .cons (r := ⟨first + k, k * size, min ((k + 1) * size) count⟩) (Nat.lt_min.2 ⟨?_, hstart⟩) (ih (k + 1) ?_)
      · exact Nat.mul_lt_mul_of_pos_right (Nat.lt_succ_self k) hsize
      · omega
  have hall := hrest ((count + size - 1) / size) 0 (Nat.zero_add _)
  rwa [Nat.zero_mul, Nat.zero_min, ← List.range_eq_range'] at hall

theorem cut_zero (hsize : 0 < size) : cut 0 size first = [] := by
  rw [cut, Nat.zero_add, Nat.div_eq_of_lt (Nat.sub_lt hsize Nat.one_pos)]
  rfl

/-- All regions but the last have the size that they are cut to. -/
theorem stop_of_mem_dropLast {r : TileRegion} (hsize : 0 < size) (hr : r ∈ (cut count size first).dropLast) :
    r.stop = r.start + size := by
  have hlast : ∀ m, (List.range m).dropLast = List.range (m - 1)
    | 0 => rfl
    | m + 1 => by rw [List.range_succ, List.dropLast_concat, Nat.add_sub_cancel]
  rw [cut, ← List.map_dropLast, hlast] at hr
  obtain ⟨k, hk, rfl⟩ := List.mem_map.1 hr
  have hnext : (k + 1) * size < count := by
    rw [← lt_regions_iff hsize]
    have := List.mem_range.1 hk
    omega
  change min ((k + 1) * size) count = k * size + size
  rw [Nat.min_eq_left hnext.le, Nat.succ_mul]

/-! ## When there is a mapping -/

/-- The lists of all tiles can be held and the elements of a tensor can be counted, with those that its last tile could
still take. -/
structure Fits (d : Device) (info : TensorInfo) : Prop where
  held : tileBytes * (max d.tiles 1 * max d.ipus 1) < Word.half
  counted : ∃ n, info.counted = .ok n
  filled : info.rank ≠ 0 → (info.count + grain info.count (max d.tiles 1) - 1) / grain info.count (max d.tiles 1) *
    grain info.count (max d.tiles 1) < Word.limit

theorem spread_total_iff {tiles : Nat} (htiles : tiles < Word.limit)
    (hfit : ∀ k < (count + size - 1) / size, first + k < tiles) :
    (∃ regions, spread count size first tiles = .ok regions) ↔ (count + size - 1) / size * size < Word.limit := by
  constructor
  · rintro ⟨regions, h⟩
    obtain ⟨found, hfound, -⟩ := Outcome.bind_eq_ok.1 h
    rcases Nat.eq_zero_or_pos ((count + size - 1) / size) with hnone | hpos
    · rw [hnone, Nat.zero_mul]
      decide
    · -- the last region has been counted to its end
      obtain ⟨region, -, hregion⟩ := exists_of_forall₂ (Outcome.mapM_eq_ok.1 hfound) ((count + size - 1) / size - 1)
        (List.mem_range.2 (Nat.sub_lt hpos Nat.one_pos))
      obtain ⟨tile, htile, hregion⟩ := Outcome.bind_eq_ok.1 hregion
      obtain ⟨-, rfl⟩ := Word.nat_eq_ok_iff.1 htile
      rw [if_pos (hfit _ (Nat.sub_lt hpos Nat.one_pos))] at hregion
      obtain ⟨stop, hstop, -⟩ := Outcome.bind_eq_ok.1 hregion
      rw [Nat.sub_add_cancel hpos] at hstop
      exact (Word.nat_eq_ok_iff.1 hstop).1
  · intro hlt
    have hall := Outcome.mapM_of_forall (l := List.range ((count + size - 1) / size))
      (f := fun k => do
        let tile ← Word.nat (first + k)
        if tile < tiles then
          return some (⟨tile, k * size, min (← Word.nat ((k + 1) * size)) count⟩ : TileRegion)
        else return none)
      (w := fun k => some ⟨first + k, k * size, min ((k + 1) * size) count⟩) fun k hk => by
        have hk := List.mem_range.1 hk
        have hstop : (k + 1) * size < Word.limit := (Nat.mul_le_mul_right _ hk).trans_lt hlt
        rw [Word.nat_eq_ok_iff.2 ⟨(hfit k hk).trans htiles, rfl⟩]
        change (if first + k < tiles then _ else _) = _
        rw [if_pos (hfit k hk), Word.nat_eq_ok_iff.2 ⟨hstop, rfl⟩]
        rfl
    exact ⟨_, Outcome.bind_eq_ok.2 ⟨_, hall, rfl⟩⟩

theorem room_eq_ok_iff {bytes n : Nat} : Word.room bytes n = .ok () ↔ bytes * n < Word.half := by
  unfold Word.room
  split
  · rename_i h
    exact ⟨fun _ => h, fun _ => rfl⟩
  · rename_i h
    exact ⟨nofun, fun h' => absurd h' h⟩

/-- A tensor on a virtual graph that there is has a mapping exactly if all that is counted on the way fits. -/
theorem ofTensor_total_iff (hv : InRange n v) (hn : n ≤ max d.ipus 1) :
    (∃ m, ofTensor d v id info = .ok m) ↔ Fits d info := by
  have htiles : tileBytes * (max d.tiles 1 * max d.ipus 1) < Word.half → max d.tiles 1 * max d.ipus 1 < Word.limit :=
    fun h => (Nat.le_mul_of_pos_left _ (by decide)).trans_lt (h.trans (by decide))
  have hfit : ∀ k < (info.count + grain info.count (max d.tiles 1) - 1) / grain info.count (max d.tiles 1),
      v.toNat * max d.tiles 1 + k < max d.tiles 1 * max d.ipus 1 := fun k hk => (tile_lt hv hn hk).2
  have hspread := fun hheld => spread_total_iff (htiles hheld) hfit
  constructor
  · rintro ⟨m, h⟩
    obtain ⟨_, hheld, h⟩ := Outcome.bind_eq_ok.1 h
    have hheld := room_eq_ok_iff.1 hheld
    obtain ⟨count, hcount, h⟩ := Outcome.bind_eq_ok.1 h
    refine ⟨hheld, ⟨count, hcount⟩, fun hrank => (hspread hheld).1 ?_⟩
    obtain rfl := TensorInfo.counted_eq hcount
    rw [if_neg hrank] at h
    obtain ⟨first, hfirst, h⟩ := Outcome.bind_eq_ok.1 h
    obtain ⟨-, rfl⟩ := Word.nat_eq_ok_iff.1 hfirst
    obtain ⟨regions, hregions, -⟩ := Outcome.bind_eq_ok.1 h
    exact ⟨regions, hregions⟩
  · rintro ⟨hheld, ⟨count, hcount⟩, hfilled⟩
    obtain rfl := TensorInfo.counted_eq hcount
    have hroom := room_eq_ok_iff.2 hheld
    by_cases hrank : info.rank = 0
    · exact ⟨_, Outcome.bind_eq_ok.2 ⟨(), hroom, Outcome.bind_eq_ok.2 ⟨_, hcount, if_pos hrank⟩⟩⟩
    · obtain ⟨regions, hregions⟩ := (hspread hheld).2 (hfilled hrank)
      have hfirst : v.toNat * max d.tiles 1 < Word.limit := by
        refine (Nat.mul_lt_mul_of_pos_right ?_ (Nat.lt_of_lt_of_le Nat.one_pos (Nat.le_max_right ..))).trans
          (Nat.mul_comm .. ▸ htiles hheld)
        obtain ⟨hlow, hhigh⟩ := hv
        omega
      have hmapped : (do
          let first ← Word.nat (v.toNat * max d.tiles 1)
          return (⟨id, max d.tiles 1 * max d.ipus 1,
            ← spread info.count (grain info.count (max d.tiles 1)) first (max d.tiles 1 * max d.ipus 1)⟩ : TileMapping)) =
          .ok ⟨id, max d.tiles 1 * max d.ipus 1, regions⟩ :=
        Outcome.bind_eq_ok.2 ⟨_, Word.nat_eq_ok_iff.2 ⟨hfirst, rfl⟩, Outcome.bind_eq_ok.2 ⟨regions, hregions, rfl⟩⟩
      exact ⟨_, Outcome.bind_eq_ok.2 ⟨(), hroom, Outcome.bind_eq_ok.2 ⟨_, hcount, (if_neg hrank).trans hmapped⟩⟩⟩

/-! ## Partitions -/

/-- The elements of a tensor, over the tiles of its virtual graph `v`: a scalar is on the first tile of all, and the
elements of any other tensor are on tiles of the chip that ascend, as many on each as go around evenly, the last one
taking what is left. -/
structure Partitions (m : TileMapping) (d : Device) (v : Int) (info : TensorInfo) : Prop where
  tiles : m.tiles = max d.tiles 1 * max d.ipus 1
  scalar : info.rank = 0 → m.regions = [⟨0, 0, 1⟩]
  empty : info.count = 0 → m.regions = []
  tiling : info.rank ≠ 0 → Tiling 0 m.regions info.count
  ascending : m.regions.Pairwise fun r r' => r.tile < r'.tile
  chip : info.rank ≠ 0 → ∀ r ∈ m.regions, v * ↑(max d.tiles 1) ≤ r.tile ∧ r.tile < (v + 1) * ↑(max d.tiles 1)
  even : info.rank ≠ 0 → ∀ r ∈ m.regions.dropLast, r.stop = r.start + (info.count + max d.tiles 1 - 1) / max d.tiles 1

/-- What there is a mapping of is partitioned by it. -/
theorem partitions_ofTensor (hv : InRange n v) (hn : n ≤ max d.ipus 1) (h : ofTensor d v id info = .ok m) :
    m.tensor = id ∧ m.Partitions d v info := by
  obtain ⟨hid, htiles, hregions⟩ := ofTensor_ok hv hn h
  refine ⟨hid, ?_⟩
  by_cases hrank : info.rank = 0
  · rw [if_pos hrank] at hregions
    have hone : info.count ≠ 0 := by
      rw [TensorInfo.count, List.length_eq_zero_iff.1 hrank]
      decide
    exact ⟨htiles, fun _ => hregions, fun h => absurd h hone, fun h => absurd hrank h, hregions ▸ List.pairwise_singleton ..,
      fun h => absurd hrank h, fun h => absurd hrank h⟩
  · rw [if_neg hrank] at hregions
    have hpos := grain_pos info.count (max d.tiles 1)
    have hnone : info.count = 0 → m.regions = [] := fun h => by rw [hregions, h, cut_zero (grain_pos ..)]
    refine ⟨htiles, fun h => absurd h hrank, hnone, fun _ => hregions ▸ tiling_cut hpos, ?_, fun _ r hr => ?_,
      fun _ r hr => ?_⟩
    · rw [hregions, cut, List.pairwise_map]
      exact List.pairwise_lt_range.imp fun h => Nat.add_lt_add_left h _
    · rw [hregions] at hr
      obtain ⟨k, hk, rfl⟩ := List.mem_map.1 hr
      obtain ⟨hlt, -⟩ := tile_lt hv hn (List.mem_range.1 hk)
      obtain ⟨w, rfl⟩ := Int.eq_ofNat_of_zero_le hv.1
      rw [Int.toNat_natCast] at hlt ⊢
      exact ⟨by exact_mod_cast Nat.le_add_right .., by exact_mod_cast hlt⟩
    · have hcount : 0 < info.count := Nat.pos_of_ne_zero fun h => by
        rw [hnone h] at hr
        cases hr
      have hchip : 0 < max d.tiles 1 := Nat.lt_of_lt_of_le Nat.one_pos (Nat.le_max_right ..)
      have hshare : 0 < (info.count + max d.tiles 1 - 1) / max d.tiles 1 := Nat.div_pos (by omega) hchip
      rw [hregions] at hr
      rw [stop_of_mem_dropLast hpos hr, grain, Nat.max_eq_left hshare]

end TileMapping

/-- Where each tensor of a program is on a virtual graph that the device has, the tile map partitions all of them. There
is one exactly if the lists of all tiles can be held in memory and the elements of each tensor can be counted in a word,
with those that its last tile could still take. -/
theorem Executable.tileMap_partitions (e : Executable) (d : Device)
    (hplaced : ∀ x ∈ e.infos.entries, InRange (max d.ipus 1) (e.virtualGraphOf x.1)) :
    ((∃ maps, e.tileMap d = .ok maps) ↔ ∀ x ∈ e.infos.entries, TileMapping.Fits d x.2) ∧
    ∀ maps, e.tileMap d = .ok maps → List.Forall₂
      (fun x m => m.tensor = x.1 ∧ m.Partitions d (e.virtualGraphOf x.1) x.2) e.infos.entries maps := by
  refine ⟨⟨fun ⟨maps, h⟩ x hx => ?_, fun hfits => ?_⟩, fun maps h => ?_⟩
  · obtain ⟨m, -, hm⟩ := exists_of_forall₂ (Outcome.mapM_eq_ok.1 h) x hx
    exact (TileMapping.ofTensor_total_iff (hplaced x hx) (Nat.le_refl _)).1 ⟨m, hm⟩
  · rcases Outcome.mapM_cases (fun x => TileMapping.ofTensor d (e.virtualGraphOf x.1) x.1 x.2) e.infos.entries with
      h | ⟨x, hx, f, hf, -⟩
    · exact h
    · obtain ⟨m, hm⟩ := (TileMapping.ofTensor_total_iff (hplaced x hx) (Nat.le_refl _)).2 (hfits x hx)
      cases hf.symm.trans hm
  · refine List.Forall₂.imp (fun x m hm => ?_) ((List.forall₂_and_left ..).2 ⟨hplaced, Outcome.mapM_eq_ok.1 h⟩)
    exact TileMapping.partitions_ofTensor hm.1 (Nat.le_refl _) hm.2

namespace Executable

/-- A program without steps that has the given tensors. -/
def holding (infos : List (TensorId × TensorInfo)) : Executable where
  graphHash := 0
  virtualGraphs := 1
  fragments := .empty
  streams := []
  weights := []
  optimizerStreams := []
  constants := []
  updates := []
  infos := .ofList infos

/-- A scalar, and a tensor that is made on the second chip. -/
def secondChip : Executable :=
  { holding [("c", ⟨.float, []⟩), ("y", ⟨.float, [3, 3]⟩)] with
    virtualGraphs := 2
    fragments := .ofList [(.forward, [⟨"y", .unary .relu, ["x"], ["y"], [⟨.float, [3, 3]⟩], .forward, 1, false⟩])] }

/-- A device with two chips of four tiles. -/
def twoChips : Device := { type := .ipuModel, id := 0, ipus := 2, tiles := 4 }

/-- The scalar on the first tile of all, and the rows of the other tensor on tiles of the second chip. -/
def secondChipMap : List TileMapping := [⟨"c", 8, [⟨0, 0, 1⟩]⟩, ⟨"y", 8, [⟨4, 0, 3⟩, ⟨5, 3, 6⟩, ⟨6, 6, 9⟩]⟩]

theorem tileMap_partitions_secondChip :
    (∀ x ∈ secondChip.infos.entries, 0 ≤ secondChip.virtualGraphOf x.1 ∧ secondChip.virtualGraphOf x.1 < 2) ∧
    secondChip.tileMap twoChips = .ok secondChipMap ∧
    (∀ x ∈ secondChip.infos.entries, TileMapping.Fits twoChips x.2) ∧
    List.Forall₂ (fun x m => m.tensor = x.1 ∧ m.Partitions twoChips (secondChip.virtualGraphOf x.1) x.2)
      secondChip.infos.entries secondChipMap := by
  obtain ⟨hplaced, hmap⟩ : (∀ x ∈ secondChip.infos.entries, 0 ≤ secondChip.virtualGraphOf x.1 ∧
      secondChip.virtualGraphOf x.1 < 2) ∧ secondChip.tileMap twoChips = .ok secondChipMap := by decide +kernel
  obtain ⟨htotal, hall⟩ := tileMap_partitions secondChip twoChips hplaced
  exact ⟨hplaced, hmap, htotal.1 ⟨_, hmap⟩, hall _ hmap⟩

/-- A device with one chip of two tiles. -/
def twoTiles : Device := { type := .ipuModel, id := 0, ipus := 1, tiles := 2 }

/-- There is no tile map of a tensor whose last tile could take more elements than a word counts, or of an empty one
with axes in front that are too long. -/
theorem tileMap_uncounted :
    (holding [("x", ⟨.float, [3, 6148914691236517205]⟩)]).virtualGraphOf "x" = 0 ∧
    (holding [("x", ⟨.float, [3, 6148914691236517205]⟩)]).tileMap twoTiles = .error .abort ∧
    (holding [("x", ⟨.float, [1099511627776, 1099511627776, 0]⟩)]).virtualGraphOf "x" = 0 ∧
    (holding [("x", ⟨.float, [1099511627776, 1099511627776, 0]⟩)]).tileMap twoTiles = .error .abort := by
  decide +kernel

end Executable

end TensorGraph
