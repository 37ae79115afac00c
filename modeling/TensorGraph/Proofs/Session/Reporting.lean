import TensorGraph.Proofs.Session.Standing
import TensorGraph.Session.Report

/-!
Reports on programs that have been made. If every op is on a virtual graph that there is, the memory of the virtual
graphs comes to all results, and each element of each tensor is on one tile. Where ops are not placed they keep what
the model says, and there is one virtual graph.
-/
namespace TensorGraph

open Placement (InRange sum_parts)

variable {e : Executable} {n : Nat} {d : Device}

/-! ## Memory -/

namespace Executable

/-- The bytes of the results of a step. -/
def outputBytes (op : CompiledOp) : Nat := (op.infos.map TensorInfo.bytes).sum

theorem opReport_ok {op : CompiledOp} {r : OpReport} (hinfos : op.outputs.length = op.infos.length)
    (h : opReport op = .ok r) : r.virtualGraph = op.virtualGraph ∧ memoryOf r = outputBytes op := by
  obtain ⟨outputs, houtputs, h⟩ := Outcome.bind_eq_ok.1 h
  cases h
  refine ⟨rfl, ?_⟩
  have hbytes : outputs.map (·.bytes) = (op.outputs.zip op.infos).map fun x => x.2.bytes := by
    refine Outcome.map_eq_of_mapM (fun x _ report hx => ?_) houtputs
    obtain ⟨size, hsize, hx⟩ := Outcome.bind_eq_ok.1 hx
    cases hx
    obtain ⟨count, hcount, hsize⟩ := Outcome.bind_eq_ok.1 hsize
    obtain ⟨-, rfl⟩ := Word.nat_eq_ok_iff.1 hsize
    rw [TensorInfo.counted_eq hcount]
    rfl
  have hzip : ((op.outputs.zip op.infos).map fun x => x.2.bytes) = op.infos.map TensorInfo.bytes :=
    (List.map_map ..).symm.trans (congrArg (List.map TensorInfo.bytes) (List.map_snd_zip hinfos.ge))
  rw [memoryOf, sumOf_eq_sum, hbytes, hzip, outputBytes]

/-- If the ops are on virtual graphs that there are, the memory of these comes to that of the ops. -/
theorem memory_ok {ops : List OpReport} {memory : List Nat} (hall : ∀ op ∈ ops, InRange n op.virtualGraph)
    (hn : 0 < n) (h : Executable.memory ops n = .ok memory) : memory.sum = (ops.map memoryOf).sum := by
  obtain ⟨_, -, h⟩ := Outcome.bind_eq_ok.1 h
  rw [Nat.max_eq_left hn] at h
  have hparts : memory = (List.range n).map fun v =>
      ((ops.filter (some ·.virtualGraph = some (Int.ofNat v))).map memoryOf).sum := by
    refine Outcome.eq_map_of_mapM (fun v _ sum hv => ?_) h
    obtain ⟨-, rfl⟩ := Word.nat_eq_ok_iff.1 hv
    refine congrArg (fun l => (List.map memoryOf l).sum) (List.filter_congr fun op hop => ?_)
    obtain ⟨hlow, -⟩ := hall op hop
    obtain ⟨k, hk⟩ := Int.eq_ofNat_of_zero_le hlow
    simp [hk]
  rw [hparts]
  exact sum_parts memoryOf (fun op => some op.virtualGraph) fun op hop => ⟨_, rfl, hall op hop⟩

/-- A program whose steps are on virtual graphs that there are, each with an info for every result. -/
structure Ranged (e : Executable) : Prop where
  nonempty : 0 < e.virtualGraphs
  ops : ∀ op ∈ e.ops, InRange e.virtualGraphs op.virtualGraph
  infos : ∀ op ∈ e.ops, op.outputs.length = op.infos.length

/-- The memory of the virtual graphs comes to the results of all steps. -/
theorem Ranged.graphReport_ok {report : GraphReport} (he : e.Ranged) (h : e.graphReport d = .ok report) :
    report.memory.sum = (e.ops.map outputBytes).sum := by
  obtain ⟨ops, hops, h⟩ := Outcome.bind_eq_ok.1 h
  obtain ⟨memory, hmemory, h⟩ := Outcome.bind_eq_ok.1 h
  cases h
  have hin : ∀ r ∈ ops, InRange e.virtualGraphs r.virtualGraph := by
    intro r hr
    obtain ⟨op, hop, hreport⟩ := exists_of_forall₂ (Outcome.mapM_eq_ok.1 hops).flip r hr
    rw [(opReport_ok (he.infos op hop) hreport).1]
    exact he.ops op hop
  have hbytes : ops.map memoryOf = e.ops.map outputBytes :=
    Outcome.map_eq_of_mapM (fun op hop r hr => (opReport_ok (he.infos op hop) hr).2) hops
  rw [memory_ok hin he.nonempty hmemory, hbytes]

theorem Ranged.virtualGraphOf (he : e.Ranged) (id : TensorId) : InRange e.virtualGraphs (e.virtualGraphOf id) := by
  unfold Executable.virtualGraphOf
  dsimp only
  cases h : (e.ops.find? fun op => op.outputs.contains id).or (e.ops.find? fun op => op.inputs.contains id) with
  | none => exact ⟨Int.le_refl 0, Int.natCast_pos.2 he.nonempty⟩
  | some op =>
    rcases Option.or_eq_some_iff.1 h with h | ⟨-, h⟩
    · exact he.ops op (List.mem_of_find?_eq_some h)
    · exact he.ops op (List.mem_of_find?_eq_some h)

end Executable

/-! ## Tiles -/

namespace TileMapping

variable {id : TensorId} {info : TensorInfo} {m : TileMapping} {v : Int}

/-- Each element of a tensor is in one region, and all regions are on tiles that there are. -/
structure Covers (m : TileMapping) (info : TensorInfo) : Prop where
  inside : ∀ r ∈ m.regions, r.tile < m.tiles ∧ r.stop ≤ info.count
  once : ∀ i < info.count, m.regions.countP (fun r => r.start ≤ i ∧ i < r.stop) = 1

/-- Elements cut into regions of `grain` each, on one tile after the other from `first` on. -/
def cut (count grain first : Nat) : List TileRegion :=
  (List.range ((count + grain - 1) / grain)).map fun k => ⟨first + k, k * grain, min ((k + 1) * grain) count⟩

/-- If there are tiles for all regions, none is left out. -/
theorem spread_ok {count grain first tiles : Nat} {regions : List TileRegion}
    (hfit : ∀ k < (count + grain - 1) / grain, first + k < tiles) (h : spread count grain first tiles = .ok regions) :
    regions = cut count grain first := by
  obtain ⟨found, hfound, h⟩ := Outcome.bind_eq_ok.1 h
  cases h
  have hsome : found = (List.range ((count + grain - 1) / grain)).map fun k =>
      some ⟨first + k, k * grain, min ((k + 1) * grain) count⟩ := by
    refine Outcome.eq_map_of_mapM (fun k hk region hregion => ?_) hfound
    obtain ⟨tile, htile, hregion⟩ := Outcome.bind_eq_ok.1 hregion
    obtain ⟨-, rfl⟩ := Word.nat_eq_ok_iff.1 htile
    rw [if_pos (hfit k (List.mem_range.1 hk))] at hregion
    obtain ⟨stop, hstop, hregion⟩ := Outcome.bind_eq_ok.1 hregion
    obtain ⟨-, rfl⟩ := Word.nat_eq_ok_iff.1 hstop
    cases hregion
    rfl
  rw [hsome, List.filterMap_map]
  exact congrFun List.filterMap_eq_map _

/-- An element is in the region that its place falls into. -/
theorem countP_cut {count grain first i : Nat} (hgrain : 0 < grain) (hi : i < count) :
    (cut count grain first).countP (fun r => r.start ≤ i ∧ i < r.stop) = 1 := by
  have hregion : ∀ k, k * grain ≤ i ∧ i < min ((k + 1) * grain) count ↔ i / grain = k := by
    intro k
    rw [lt_min_iff, Nat.div_eq_iff hgrain, Nat.succ_mul]
    omega
  have hmem : i / grain ∈ List.range ((count + grain - 1) / grain) := by
    rw [List.mem_range, Nat.lt_iff_add_one_le, Nat.le_div_iff_mul_le hgrain, Nat.succ_mul]
    have := Nat.div_mul_le_self i grain
    omega
  rw [cut, List.countP_map]
  simp only [Function.comp_def, hregion, eq_comm (a := i / grain)]
  exact (List.count_eq_countP ..).symm.trans (List.count_eq_one_of_mem List.nodup_range hmem)

/-- How many elements a tile takes if a chip has this many tiles. -/
def grain (count tiles : Nat) : Nat := max ((count + tiles - 1) / tiles) 1

theorem grain_pos (count tiles : Nat) : 0 < grain count tiles := Nat.lt_of_lt_of_le Nat.one_pos (Nat.le_max_right ..)

/-- The tiles of a chip are enough for all regions. -/
theorem regions_le_tiles {count tiles : Nat} (htiles : 0 < tiles) :
    (count + grain count tiles - 1) / grain count tiles ≤ tiles := by
  have hceil : count ≤ tiles * ((count + tiles - 1) / tiles) := by
    have := Nat.div_add_mod (count + tiles - 1) tiles
    have := Nat.mod_lt (count + tiles - 1) htiles
    omega
  have hpos := grain_pos count tiles
  have hall : count ≤ tiles * grain count tiles := hceil.trans (Nat.mul_le_mul_left _ (Nat.le_max_left ..))
  rw [Nat.div_le_iff_le_mul_add_pred hpos, Nat.mul_comm]
  omega

/-- The regions of a tensor on a virtual graph that there is are on tiles of its chip. -/
theorem tile_lt {count k : Nat} (hv : InRange n v) (hn : n ≤ max d.ipus 1)
    (hk : k < (count + grain count (max d.tiles 1) - 1) / grain count (max d.tiles 1)) :
    v.toNat * max d.tiles 1 + k < (v.toNat + 1) * max d.tiles 1 ∧
      v.toNat * max d.tiles 1 + k < max d.tiles 1 * max d.ipus 1 := by
  have hchip : k < max d.tiles 1 := hk.trans_le (regions_le_tiles (Nat.lt_of_lt_of_le Nat.one_pos (Nat.le_max_right ..)))
  have hnext : v.toNat * max d.tiles 1 + k < (v.toNat + 1) * max d.tiles 1 := by
    rw [Nat.succ_mul]
    exact Nat.add_lt_add_left hchip _
  refine ⟨hnext, hnext.trans_le ?_⟩
  rw [Nat.mul_comm]
  exact Nat.mul_le_mul_left _ (by obtain ⟨hlow, hhigh⟩ := hv; omega)

/-- The regions of a tensor on a virtual graph that there is: one for a scalar, and else its elements cut evenly. -/
theorem ofTensor_ok (hv : InRange n v) (hn : n ≤ max d.ipus 1) (h : ofTensor d v id info = .ok m) :
    m.tensor = id ∧ m.tiles = max d.tiles 1 * max d.ipus 1 ∧ m.regions = if info.rank = 0 then [⟨0, 0, 1⟩]
      else cut info.count (grain info.count (max d.tiles 1)) (v.toNat * max d.tiles 1) := by
  obtain ⟨_, -, h⟩ := Outcome.bind_eq_ok.1 h
  obtain ⟨count, hcount, h⟩ := Outcome.bind_eq_ok.1 h
  obtain rfl := TensorInfo.counted_eq hcount
  split at h
  · rename_i hrank
    cases h
    exact ⟨rfl, rfl, (if_pos hrank).symm⟩
  · rename_i hrank
    obtain ⟨first, hfirst, h⟩ := Outcome.bind_eq_ok.1 h
    obtain ⟨-, rfl⟩ := Word.nat_eq_ok_iff.1 hfirst
    obtain ⟨regions, hregions, h⟩ := Outcome.bind_eq_ok.1 h
    cases h
    exact ⟨rfl, rfl, (spread_ok (fun k hk => (tile_lt hv hn hk).2) hregions).trans (if_neg hrank).symm⟩

theorem covers_ofTensor (hv : InRange n v) (hn : n ≤ max d.ipus 1) (h : ofTensor d v id info = .ok m) :
    m.tensor = id ∧ m.Covers info := by
  obtain ⟨hid, htiles, hregions⟩ := ofTensor_ok hv hn h
  refine ⟨hid, ?_⟩
  split at hregions
  · rename_i hrank
    have hone : info.count = 1 := by
      rw [TensorInfo.count, List.length_eq_zero_iff.1 hrank]
      rfl
    refine ⟨fun r hr => ?_, fun i hi => ?_⟩
    · rw [hregions] at hr
      cases List.mem_singleton.1 hr
      rw [htiles]
      exact ⟨Nat.mul_pos (Nat.lt_of_lt_of_le Nat.one_pos (Nat.le_max_right ..))
        (Nat.lt_of_lt_of_le Nat.one_pos (Nat.le_max_right ..)), hone.ge⟩
    · have hzero : i = 0 := by omega
      simp [hregions, hzero]
  · refine ⟨fun r hr => ?_, fun i hi => hregions ▸ countP_cut (grain_pos ..) hi⟩
    rw [hregions] at hr
    obtain ⟨k, hk, rfl⟩ := List.mem_map.1 hr
    exact ⟨htiles ▸ (tile_lt hv hn (List.mem_range.1 hk)).2, Nat.min_le_right ..⟩

end TileMapping

theorem Executable.Ranged.tileMap_ok {maps : List TileMapping} (he : e.Ranged) (hn : e.virtualGraphs ≤ max d.ipus 1)
    (h : e.tileMap d = .ok maps) :
    List.Forall₂ (fun x m => m.tensor = x.1 ∧ m.Covers x.2) e.infos.entries maps :=
  (Outcome.mapM_eq_ok.1 h).imp fun x _ hm => TileMapping.covers_ofTensor (he.virtualGraphOf x.1) hn hm

namespace Session

variable {c : SessionConfig} {p p' : Platform} {s t : Session} {g : Graph} {r : Runtime}

/-- A session whose ops are placed, or whose model puts no op on another virtual graph than the first. -/
def PlacesOps (s : Session) : Prop :=
  s.options.enableVirtualGraphs = true ∧ 0 < s.device.device.ipus ∨
    s.options.enableVirtualGraphs = false ∧ ∀ v, s.model.NamesGraph v → v = 0

theorem Lays.inRange (h : s.Lays g n) (hs : s.Opened) (hplaces : s.PlacesOps) :
    (0 < n ∧ n ≤ max s.device.device.ipus 1) ∧ ∀ o op, g.op? o = some op → InRange n (op.virtualGraph.getD 0) := by
  rcases hplaces with ⟨hon, hipus⟩ | ⟨hoff, hfirst⟩
  · obtain ⟨hle, hplaced⟩ := h.on hon
    obtain ⟨hpos, hall⟩ := hplaced hipus
    refine ⟨⟨hpos, hle.trans (Nat.le_max_left ..)⟩, fun o op ho => ?_⟩
    obtain ⟨v, hv, hrange⟩ := hall o op ho
    rwa [hv]
  · obtain ⟨rfl, rfl⟩ := h.off hoff
    refine ⟨⟨Nat.zero_lt_one, Nat.le_max_right ..⟩, fun o op ho => ?_⟩
    cases hv : op.virtualGraph with
    | none => exact ⟨Int.le_refl 0, Int.zero_lt_one⟩
    | some v =>
      rw [hfirst v (hs.names o op ho v hv)]
      exact ⟨Int.le_refl 0, Int.zero_lt_one⟩

theorem Lays.ranged (h : s.Lays g n) (hs : s.Opened) (hplaces : s.PlacesOps)
    (hcompile : Executable.compile g n s.graphHash = .ok e) :
    e.Ranged ∧ e.virtualGraphs ≤ max s.device.device.ipus 1 := by
  obtain ⟨⟨hpos, hle⟩, hall⟩ := h.inRange hs hplaces
  obtain ⟨rfl, -⟩ := Executable.compile_lists hcompile
  refine ⟨⟨hpos, fun c hc => ?_, fun c hc => ?_⟩, hle⟩ <;> obtain ⟨o, op, ho, hfrom, hplaced⟩ := Executable.compile_step hcompile hc
  · rw [hplaced]
    exact hall o op ho
  · rw [hfrom.outputs]
    exact (Outcome.mapM_eq_ok.1 hfrom.infos).length_eq

theorem profiled_ok (h : t.profiled = .ok r) : t.engine = some r := by
  obtain ⟨r', hr', h⟩ := Outcome.bind_eq_ok.1 h
  split at h
  · cases h
    exact Outcome.orFail_eq_ok.1 hr'
  · cases h

/-- Where ops are placed, or where the model puts none elsewhere, all ops of a program that a session makes are on
virtual graphs that there are. Its reports account for all results, and for each element of each tensor once. -/
theorem reports_of_made (hp : p.Fitting) (hopen : (open_ c).run p = (.ok s, p'))
    (hcalls : Relation.ReflTransGen (Called True fun _ => True) s t) (hr : t.engine = some r) (hmade : t.cacheHit = false)
    (hplaces : s.PlacesOps) :
    (∀ op ∈ r.executable.ops, 0 ≤ op.virtualGraph ∧ op.virtualGraph < r.executable.virtualGraphs) ∧
      (∀ report, t.graphReport = .ok report →
        report.memory.sum = (r.executable.ops.map Executable.outputBytes).sum) ∧
      ∀ maps, t.tileMap = .ok maps →
        List.Forall₂ (fun x m => m.tensor = x.1 ∧ m.Covers x.2) r.executable.infos.entries maps := by
  have hs := opened_ok hp hopen
  have hdescends := hs.descends_calls hcalls
  obtain ⟨g, n, hlays, hcompile⟩ := hdescends.made r hr hmade
  obtain ⟨hranged, hle⟩ := hlays.ranged hs hplaces hcompile
  refine ⟨hranged.ops, fun report h => ?_, fun maps h => ?_⟩ <;> obtain ⟨r', hr', h⟩ := Outcome.bind_eq_ok.1 h <;>
    cases hr.symm.trans (profiled_ok hr')
  · exact hranged.graphReport_ok h
  · rw [hdescends.device] at h
    exact hranged.tileMap_ok hle h

/-! A model with one op, and a session that prepares it. -/

def sigmoidModel (v : Int) : Model where
  name := ""
  nodes := [⟨"s", "Sigmoid", "", ["x"], ["y"], .ofList [(Graph.virtualGraphAttribute, .int v)]⟩]
  inputs := [⟨"x", ⟨.float, [2]⟩⟩]
  outputs := [⟨"y", ⟨.float, [2]⟩⟩]
  initializers := []
  valueInfo := []

def sigmoidConfig (options : Options) (v : Int) : SessionConfig where
  model := (sigmoidModel v).toBytes
  dataFlow := .unread
  device := ⟨0, { type := .ipuModel, id := 0, ipus := 1, tiles := 2 }⟩
  options
  patterns := .ofLevel .empty .none

def sigmoidPrepared (options : Options) (v : Int) : Outcome (Session × Session) := do
  let s ← ((open_ (sigmoidConfig options v)).run {}).1
  return (s, (prepare.run ⟨{}, s⟩).2.session)

theorem reports_of_sigmoid : ∃ s t r report maps, sigmoidPrepared { enableVirtualGraphs := true } 0 = .ok (s, t) ∧
    t.engine = some r ∧ (∀ op ∈ r.executable.ops, 0 ≤ op.virtualGraph ∧ op.virtualGraph < r.executable.virtualGraphs) ∧
    t.graphReport = .ok report ∧ report.memory.sum = (r.executable.ops.map Executable.outputBytes).sum ∧
    t.tileMap = .ok maps ∧
    List.Forall₂ (fun x m => m.tensor = x.1 ∧ m.Covers x.2) r.executable.infos.entries maps := by
  have hrun : ((sigmoidPrepared { enableVirtualGraphs := true } 0).bind fun (s, t) => do
      let _ ← t.graphReport
      let _ ← t.tileMap
      return (s.options.enableVirtualGraphs, s.device.device.ipus, s.usesCache, t.engine.isSome, t.cacheHit)) =
      .ok (true, 1, false, true, false) := by decide +kernel
  obtain ⟨⟨s, t⟩, hprepared, hrun⟩ := Outcome.bind_eq_ok.1 hrun
  obtain ⟨report, hreport, hrun⟩ := Outcome.bind_eq_ok.1 hrun
  obtain ⟨maps, hmaps, hrun⟩ := Outcome.bind_eq_ok.1 hrun
  have hfacts := Except.ok.inj hrun
  simp only [Prod.mk.injEq] at hfacts
  obtain ⟨hon, hipus, huncached, hsome, hmiss⟩ := hfacts
  obtain ⟨r, hr⟩ := Option.isSome_iff_exists.1 hsome
  obtain ⟨s', hopen, hcall⟩ := Outcome.bind_eq_ok.1 hprepared
  cases hcall
  have hcalled : Called True (fun _ => True) s (prepare.run ⟨{}, s⟩).2.session := .prepare {} fun e h hfound => by
    rw [findEngine_of_uncached huncached] at hfound
    cases hfound
  obtain ⟨hin, hmemory, hcovered⟩ := reports_of_made (Platform.fitting_of_empty rfl rfl) (Stateful.eq_ok_of_fst hopen)
    (.single hcalled) hr hmiss (.inl ⟨hon, hipus ▸ Nat.zero_lt_one⟩)
  exact ⟨s, _, r, report, maps, hprepared, hr, hin, hreport, hmemory report hreport, hmaps, hcovered maps hmaps⟩

/-- Where ops are not placed they keep the virtual graphs of the model, but there is one only: an op on the fourth is
left out of the memory, and its tensors are on no tile. -/
theorem stray_op_unreported :
    ((sigmoidPrepared {} 3).bind fun (_, t) => do
      return (t.executable?.map fun e => (e.virtualGraphs, e.ops.map (·.virtualGraph)), t.cacheHit,
        (← t.graphReport).memory, ← t.tileMap)) =
      .ok (some (1, [3]), false, [0], [⟨"x", 2, []⟩, ⟨"y", 2, []⟩]) := by
  decide +kernel

end Session

end TensorGraph
