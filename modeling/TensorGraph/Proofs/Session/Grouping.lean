import TensorGraph.Proofs.Engine.Counting
import TensorGraph.Proofs.Session.Returns

/-!
Batches grouped into steps. A step over several batches leaves the device as one step for each of them does, and the
buffers of what is given back for every batch are those of the single steps, put behind each other.
-/
namespace TensorGraph

open TensorGraph.Graph

/-! ## Storages behind each other -/

namespace Storage

/-- A storage is made of the storages of a list, one behind the other. -/
inductive Joins : List Storage → Storage → Prop
  | f32 (l : List (List Single)) : Joins (l.map .f32) (.f32 l.flatten)
  | i32 (l : List (List Int32)) : Joins (l.map .i32) (.i32 l.flatten)
  | i64 (l : List (List Int64)) : Joins (l.map .i64) (.i64 l.flatten)

section

variable {α : Type} {n : Nat}

theorem flatten_part : ∀ {l : List (List α)} {b : Nat} {x : List α}, (∀ y ∈ l, y.length = n) → l[b]? = some x →
    (b + 1) * n ≤ l.flatten.length ∧ (l.flatten.drop (b * n)).take n = x
  | [], _, _, _, h => by simp at h
  | y :: l, b, x, hl, h => by
    have hy : y.length = n := hl y (by simp)
    rw [List.flatten_cons, List.length_append, hy]
    match b, h with
    | 0, h =>
      obtain rfl : y = x := by simpa using h
      exact ⟨by omega, by rw [Nat.zero_mul, List.drop_zero, ← hy, List.take_left]⟩
    | b + 1, h =>
      rw [List.getElem?_cons_succ] at h
      obtain ⟨hle, hpart⟩ := flatten_part (fun z hz => hl z (List.mem_cons_of_mem _ hz)) h
      refine ⟨by rw [Nat.succ_mul]; omega, ?_⟩
      rw [Nat.succ_mul, Nat.add_comm, ← List.drop_drop, List.drop_left' hy]
      exact hpart

theorem flatten_parts (v : List α) : ∀ {m : Nat}, v.length = m * n →
    ((List.range m).map fun b => (v.drop (b * n)).take n).flatten = v
  | m, h => by
    induction m generalizing v with
    | zero =>
      rw [Nat.zero_mul] at h
      rw [List.length_eq_zero_iff.1 h]
      rfl
    | succ m ih =>
      have hrest : (v.drop n).length = m * n := by rw [List.length_drop, h, Nat.succ_mul, Nat.add_sub_cancel]
      have hshift : (List.range m).map ((fun b => (v.drop (b * n)).take n) ∘ Nat.succ) =
          (List.range m).map fun b => ((v.drop n).drop (b * n)).take n := by
        refine List.map_congr_left fun b _ => ?_
        rw [Function.comp_apply, List.drop_drop, Nat.succ_mul, Nat.add_comm]
      rw [List.range_succ_eq_map, List.map_cons, List.map_map, List.flatten_cons, hshift, ih _ hrest, Nat.zero_mul,
        List.drop_zero, List.take_append_drop]

end

variable {parts : List Storage} {whole x : Storage} {n b : Nat}

theorem cut_all {s : Storage} (h : s.length = n) : s.cut 0 n = s := by
  cases s <;> subst h <;> simp [cut, length]

/-- A part of what was joined, where all parts are of one length. -/
theorem Joins.slice? (h : Joins parts whole) (hn : ∀ y ∈ parts, y.length = n) (hx : parts[b]? = some x) :
    whole.slice? (b * n) n = some x := by
  rw [slice?_eq_some, ← Nat.succ_mul]
  cases h <;> rw [List.getElem?_map, Option.map_eq_some_iff] at hx <;> obtain ⟨y, hy, rfl⟩ := hx <;>
    obtain ⟨hle, hpart⟩ := flatten_part (fun z hz => hn _ (List.mem_map_of_mem hz)) hy <;>
    exact ⟨hle, by rw [cut, hpart]⟩

/-- A storage whose parts of one length are those of a list. -/
theorem Joins.of_slices (hlen : whole.length = parts.length * n)
    (h : ∀ b x, parts[b]? = some x → whole.slice? (b * n) n = some x) : Joins parts whole := by
  have hparts : parts = (List.range parts.length).map fun b => whole.cut (b * n) n := by
    refine List.ext_getElem? fun b => ?_
    rw [List.getElem?_map]
    rcases Nat.lt_or_ge b parts.length with hb | hb
    · rw [List.getElem?_range hb, List.getElem?_eq_getElem hb, Option.map_some,
        (slice?_eq_some.1 (h b _ (List.getElem?_eq_getElem hb))).2]
    · rw [List.getElem?_eq_none hb, List.getElem?_eq_none (by rw [List.length_range]; exact hb)]
      rfl
  rw [hparts]
  cases whole with
  | f32 v =>
    have hjoins := Joins.f32 ((List.range parts.length).map fun b => (v.drop (b * n)).take n)
    rwa [flatten_parts v hlen, List.map_map] at hjoins
  | i32 v =>
    have hjoins := Joins.i32 ((List.range parts.length).map fun b => (v.drop (b * n)).take n)
    rwa [flatten_parts v hlen, List.map_map] at hjoins
  | i64 v =>
    have hjoins := Joins.i64 ((List.range parts.length).map fun b => (v.drop (b * n)).take n)
    rwa [flatten_parts v hlen, List.map_map] at hjoins

end Storage

/-- The elements of an array, none if it is not there. -/
def arrayData (d : Dict TensorId HostTensor) (id : TensorId) : Storage := ((d.get? id).map (·.data)).getD default

/-- Each part has an array of this name, and the array of the whole is made of them, one behind the other. -/
structure JoinedAt (id : TensorId) (parts : List (Dict TensorId HostTensor)) (whole : Dict TensorId HostTensor) : Prop where
  present : ∀ d ∈ parts, d.contains id = true
  joins : ∃ t, whole.get? id = some t ∧ Storage.Joins (parts.map (arrayData · id)) t.data

theorem arrayData_eq {d : Dict TensorId HostTensor} {id : TensorId} {x : HostTensor} (h : d.get? id = some x) :
    arrayData d id = x.data := by
  rw [arrayData, h]
  rfl

/-- Arrays of one length that are joined are the parts of the whole, one behind the other. -/
theorem JoinedAt.slice? {id : TensorId} {parts : List (Dict TensorId HostTensor)} {whole d : Dict TensorId HostTensor}
    {x : HostTensor} {k n : Nat} (h : JoinedAt id parts whole) (hx : whole.get? id = some x)
    (hn : ∀ d ∈ parts, (arrayData d id).length = n) (hd : parts[k]? = some d) : x.data.slice? (k * n) n = some (arrayData d id) := by
  obtain ⟨-, t, ht, hjoins⟩ := h
  cases hx.symm.trans ht
  refine hjoins.slice? (fun y hy => ?_) (by rw [List.getElem?_map, hd]; rfl)
  obtain ⟨d', hd', rfl⟩ := List.mem_map.1 hy
  exact hn d' hd'

namespace Runtime

theorem Twins.fed : ∀ (l : List (TensorId × HostTensor)) {r r' : Runtime}, Twins r r' → Twins (r.fed l) (r'.fed l)
  | [], _, _, h => h
  | (id, v) :: l, _, _, h => by
    obtain ⟨c, rfl⟩ := h
    exact Twins.fed l ⟨c, rfl⟩

end Runtime

namespace Session

variable {g : Graph} {e : Executable} {flow one : DataFlow} {r r' : Runtime} {mode : RunMode} {s s' t t' : Session}
  {io : ArrayIo} {st st' : Stepping ArrayIo}

/-! ## Steps on data of their own -/

/-- Runs a step on the given data; what it wrote. -/
def stepOn (mode : RunMode) (io : ArrayIo) : SessionM Anchors :=
  Stateful.focus (fun s => ⟨s, io⟩) (fun st _ => st.session) do
    runStep ArrayIo.io mode
    return (← get).data.outputs

theorem stepOn_ok {out : Anchors} (h : (stepOn mode io).run s = (.ok out, s')) :
    ∃ io', (runStep ArrayIo.io mode).run ⟨s, io⟩ = (.ok (), ⟨s', io'⟩) ∧ io'.outputs = out := by
  rw [stepOn, Stateful.run_focus, Prod.mk.injEq] at h
  obtain ⟨hout, rfl⟩ := h
  obtain ⟨_, ⟨s₁, io'⟩, hstep, hget⟩ := Stateful.run_bind_ok.1 (Stateful.eq_ok_of_fst hout)
  obtain ⟨_, _, hrun, hpure⟩ := Stateful.run_bind_ok.1 hget
  cases hrun
  obtain ⟨hwritten, hstate⟩ := Prod.mk.inj hpure
  rw [← hstate]
  exact ⟨io', hstep, Except.ok.inj hwritten⟩

/-- A step that succeeds found arrays with the elements of all its batches. -/
theorem arrays_of_step (h : st.session.Serves g e flow r) (hrun : (runStep ArrayIo.io mode).run st = (.ok (), st'))
    {id : TensorId} {info : TensorInfo} (hid : (id, info) ∈ e.streamsFor mode) :
    ∃ x, st.data.inputs.get? id = some x ∧ x.data.length = flow.batches * info.count := by
  replace hrun := Stateful.of_get_bind hrun
  obtain ⟨p, hplan, hrun⟩ := Stateful.run_liftM_bind_ok.1 hrun
  obtain ⟨hp, -⟩ := plan_ok h hplan
  rw [if_pos h.host] at hrun
  obtain ⟨_, _, hcheck, -⟩ := Stateful.run_bind_ok.1 hrun
  rw [Stateful.run_lift, Prod.mk.injEq] at hcheck
  obtain ⟨ins, hins, hcheck⟩ := Outcome.bind_eq_ok.1 hcheck.1
  obtain ⟨outs, houts, hcheck⟩ := Outcome.bind_eq_ok.1 hcheck
  rw [← hp.batches]
  exact (sized_of_check hp h.labelled.labels hins houts hcheck).inputs (hp.streams ▸ hid)

/-- The values that one batch feeds. -/
def feeds (e : Executable) (mode : RunMode) (data : TensorId → Storage) : List (TensorId × HostTensor) :=
  (e.streamsFor mode).map fun (id, info) => (id, ⟨info, data id⟩)

theorem fills_eq {p : StepPlan} (hp : p.Follows g e flow mode) (data : TensorId → Storage) :
    p.fills data = feeds e mode data := by
  rw [StepPlan.fills, hp.streams]
  rfl

/-- A step over one batch feeds whole arrays, runs the program once and gives back what it computed. -/
theorem single_step (h : t.Serves g e one r) (hone : one.batches = 1)
    (hfresh : io.inputCursors = .empty ∧ io.outputCursors = .empty) {out : Anchors}
    (hrun : (stepOn mode io).run t = (.ok out, t')) :
    ∃ r' c data, t'.Serves g e one { r' with counters := c } ∧
      (∀ id info, (id, info) ∈ e.streamsFor mode → ∃ x, io.inputs.get? id = some x ∧ x.data = data id ∧
        x.data.length = info.count) ∧
      (Runtime.runBatch mode).run (r.fed (feeds e mode data)) = (.ok (), r') ∧
      ∀ id, one.anchors.get? id = some .all → ∃ x info, out.get? id = some x ∧ x.data.length = info.count ∧
        g.info? id = some info ∧ r'.download id = .ok ⟨info, x.data⟩ := by
  obtain ⟨io', hstep, rfl⟩ := stepOn_ok hrun
  have hstands : Stands False g e one ⟨t, io⟩ := ⟨⟨r, h⟩, placed_of_fresh hfresh False.elim⟩
  obtain ⟨⟨⟨r₁, hserves⟩, -⟩, -, p, rs, c, hp, hfirst, hlast, hran⟩ := runStep_aligned hstands (offsets_of_fresh hfresh) hstep
  have hbatches : p.batches = 1 := hp.batches.trans hone
  cases h.engine.symm.trans hfirst
  cases hserves.engine.symm.trans hlast
  rw [hbatches] at hserves
  obtain ⟨data, htaken, hbatch⟩ := hran.batches 0 (by omega)
  refine ⟨rs 1, c, data, hserves, fun id info hid => ?_, ?_, fun id hall => ?_⟩
  · obtain ⟨x, hx, hlen⟩ := arrays_of_step h hstep hid
    obtain ⟨y, hy, hslice⟩ := htaken id info (hp.streams ▸ hid)
    cases hx.symm.trans hy
    rw [hone, Nat.one_mul] at hlen
    rw [Nat.zero_mul, Storage.slice?_eq_some] at hslice
    exact ⟨x, hx, hslice.2.symm ▸ (Storage.cut_all hlen).symm, hlen⟩
  · rw [← fills_eq hp]
    obtain rfl := hp.runs
    exact hbatch
  · obtain ⟨a, ha, rfl, hreturns⟩ := hp.complete hall
    obtain ⟨x, hx, hlen, hvalues⟩ := hran.anchors a ha
    rw [hreturns, ReturnType.returns, hbatches, Nat.one_mul] at hlen
    obtain ⟨y, hgives, hslice⟩ := hvalues 0 (by rw [hreturns, ReturnType.returns, hbatches]; exact Nat.one_pos)
    rw [Gives, if_neg (by rw [hreturns]; decide), hreturns] at hgives
    rw [Nat.zero_mul, Storage.slice?_eq_some] at hslice
    refine ⟨x, a.info, hx, hlen, (hp.anchors a ha).2, ?_⟩
    rw [hslice.2, Storage.cut_all hlen] at hgives
    exact hgives

/-! ## Single steps along a grouped one -/

theorem arrays_of_singles (hone : one.batches = 1) : ∀ {ios : List ArrayIo} {t t' : Session} {r : Runtime}
    {outs : List Anchors}, (∀ io ∈ ios, io.inputCursors = .empty ∧ io.outputCursors = .empty) → t.Serves g e one r →
    (ios.mapM (stepOn mode)).run t = (.ok outs, t') →
    ∀ io ∈ ios, ∀ id info, (id, info) ∈ e.streamsFor mode → (arrayData io.inputs id).length = info.count
  | [], _, _, _, _, _, _, _ => nofun
  | io :: ios, t, t', r, outs, hfresh, h, hrun => by
    rw [List.mapM_cons] at hrun
    obtain ⟨out, t₁, hstep, hrun⟩ := Stateful.run_bind_ok.1 hrun
    obtain ⟨rest, t₂, hrest, -⟩ := Stateful.run_bind_ok.1 hrun
    obtain ⟨r₁, c, d, hserves, htaken, -⟩ := single_step h hone (hfresh io (by simp)) hstep
    intro io' hio' id info hid
    rcases List.mem_cons.1 hio' with rfl | hio'
    · obtain ⟨x, hx, -, hlen⟩ := htaken id info hid
      rw [arrayData_eq hx, hlen]
    · exact arrays_of_singles hone (fun io hio => hfresh io (List.mem_cons_of_mem _ hio)) hserves hrest io' hio' id info hid

/-- Steps over one batch each, from a moment of a grouped run on, feed what its later batches feed, compute what they
compute and give it back. -/
theorem single_steps (hone : one.batches = 1) {rs : Nat → Runtime} {data : Nat → TensorId → Storage} {n : Nat}
    (hruns : ∀ b < n, (Runtime.runBatch mode).run ((rs b).fed (feeds e mode (data b))) = (.ok (), rs (b + 1))) :
    ∀ {ios : List ArrayIo} {b : Nat} {t t' : Session} {r : Runtime} {outs : List Anchors}, b + ios.length = n →
    (∀ io ∈ ios, io.inputCursors = .empty ∧ io.outputCursors = .empty) →
    (∀ k io, ios[k]? = some io → ∀ id info, (id, info) ∈ e.streamsFor mode → arrayData io.inputs id = data (b + k) id) →
    t.Serves g e one r → (rs b).Twins r → (ios.mapM (stepOn mode)).run t = (.ok outs, t') →
    (∃ r', t'.Serves g e one r' ∧ (rs n).Twins r') ∧ outs.length = ios.length ∧
      ∀ id, one.anchors.get? id = some .all → ∀ k out, outs[k]? = some out → ∃ x info, out.get? id = some x ∧
        x.data.length = info.count ∧ g.info? id = some info ∧ (rs (b + k + 1)).download id = .ok ⟨info, x.data⟩
  | [], b, t, t', r, outs, hn, _, _, h, htwins, hrun => by
    cases hrun
    obtain rfl : b = n := hn
    exact ⟨⟨r, h, htwins⟩, rfl, fun _ _ _ _ hk => by simp at hk⟩
  | io :: ios, b, t, t', r, outs, hn, hfresh, hdata, h, htwins, hrun => by
    rw [List.length_cons] at hn
    rw [List.mapM_cons] at hrun
    obtain ⟨out, t₁, hstep, hrun⟩ := Stateful.run_bind_ok.1 hrun
    obtain ⟨rest, t₂, hrest, hrun⟩ := Stateful.run_bind_ok.1 hrun
    cases hrun
    obtain ⟨r₁, c, d, hserves, htaken, hbatch, hgave⟩ := single_step h hone (hfresh io (by simp)) hstep
    -- the step feeds what the batch feeds, so the program does what it did there
    have hfeeds : feeds e mode d = feeds e mode (data b) := by
      refine List.map_congr_left fun (id, info) hid => ?_
      obtain ⟨x, hx, heq, -⟩ := htaken id info hid
      have hsame := hdata 0 io rfl id info hid
      rw [arrayData_eq hx, heq] at hsame
      simp only [hsame, Nat.add_zero]
    have hsame : (rs (b + 1)).Twins r₁ := by
      obtain ⟨r₂, hr₂, htwins₂⟩ := (Runtime.Twins.runBatch mode).run_ok (.fed _ htwins) (hruns b (by omega))
      rw [hfeeds, hr₂] at hbatch
      cases hbatch
      exact htwins₂
    obtain ⟨hend, hlen, hrest⟩ := single_steps hone hruns (b := b + 1) (by omega)
      (fun io' hio' => hfresh io' (List.mem_cons_of_mem _ hio'))
      (fun k io' hk id info hid => by
        rw [Nat.add_right_comm]
        exact hdata (k + 1) io' hk id info hid) hserves (hsame.counted c) hrest
    refine ⟨hend, by rw [List.length_cons, hlen, List.length_cons], fun id hall k out' hk => ?_⟩
    match k, hk with
    | 0, hk =>
      cases hk
      obtain ⟨x, info, hx, hlen, hinfo, hvalue⟩ := hgave id hall
      exact ⟨x, info, hx, hlen, hinfo, (hsame.download id).symm.trans hvalue⟩
    | k + 1, hk =>
      obtain ⟨x, info, hx, hlen, hinfo, hvalue⟩ := hrest id hall k out' hk
      refine ⟨x, info, hx, hlen, hinfo, ?_⟩
      rw [← Nat.add_assoc b k 1, Nat.add_right_comm b k 1]
      exact hvalue

/-! ## Grouping -/

/-- Two sessions have one program loaded, with the same values on the device. -/
def SameDevice (s t : Session) : Prop := ∃ r r', s.engine = some r ∧ t.engine = some r' ∧ r.Twins r'

/-- A session over single batches of another one: it is on the same graph with the same options and the same values on
the device, but each of its steps has one batch only. -/
structure SinglesOf (s t : Session) : Prop where
  graph : t.graph = s.graph
  options : t.options = s.options
  device : s.SameDevice t
  batches : t.dataFlow.batches = 1

theorem SinglesOf.serves (h : s.SinglesOf t) (hhost : s.options.effectiveSynthetic = .off) (hengine : s.engine = some r)
    (hlabelled : r.Labelled s.graph e) : ∃ r', t.Serves s.graph e t.dataFlow r' ∧ r.Twins r' := by
  obtain ⟨_, r', hr, hr', c, rfl⟩ := h.device
  cases hengine.symm.trans hr
  exact ⟨_, ⟨h.graph, rfl, h.options ▸ hhost, hr', ⟨hlabelled.backend, hlabelled.executable, hlabelled.labels, hlabelled.values⟩⟩,
    c, rfl⟩

/-- Grouping batches changes nothing. If a step over several batches succeeds, and so do as many steps of the session over
single batches that are given the batches one by one, then both leave the same values on the device, and what is given
back for every batch is what the single steps give back, one behind the other. -/
theorem step_groups_batches {ios : List ArrayIo} {out : Anchors} {outs : List Anchors} (hs : s.Conforms)
    (hhost : s.options.effectiveSynthetic = .off) (ht : s.SinglesOf t)
    (hfresh : ∀ x ∈ io :: ios, x.inputCursors = .empty ∧ x.outputCursors = .empty)
    (hcount : ios.length = s.dataFlow.batches)
    (hdata : ∀ id, io.inputs.contains id = true → JoinedAt id (ios.map (·.inputs)) io.inputs)
    (hgrouped : (stepOn mode io).run s = (.ok out, s')) (hsingle : (ios.mapM (stepOn mode)).run t = (.ok outs, t')) :
    s'.SameDevice t' ∧ ∀ id, s.dataFlow.anchors.get? id = some .all → t.dataFlow.anchors.get? id = some .all →
      JoinedAt id outs out := by
  obtain ⟨e, r, hengine, hlabelled⟩ := hs
  obtain ⟨r₁, hserves, htwins⟩ := ht.serves hhost hengine hlabelled
  obtain ⟨io', hstep, rfl⟩ := stepOn_ok hgrouped
  have hio := hfresh io (by simp)
  have hstands : Stands False s.graph e s.dataFlow ⟨s, io⟩ :=
    ⟨⟨r, rfl, rfl, hhost, hengine, hlabelled⟩, placed_of_fresh hio False.elim⟩
  obtain ⟨-, -, p, rs, c, hp, hfirst, hlast, hran⟩ := runStep_aligned hstands (offsets_of_fresh hio) hstep
  cases hengine.symm.trans hfirst
  rw [← hp.batches] at hcount
  have hsingles := fun x hx => hfresh x (List.mem_cons_of_mem io hx)
  have hwidths := arrays_of_singles ht.batches hsingles hserves hsingle
  choose! data htaken hruns using hran.batches
  -- the part that a batch of the grouped step takes is the array of a single step
  have hparts : ∀ k x, ios[k]? = some x → ∀ id info, (id, info) ∈ e.streamsFor mode → arrayData x.inputs id = data (0 + k) id := by
    intro k x hk id info hid
    rw [Nat.zero_add]
    have hlt : k < p.batches := hcount ▸ (List.getElem?_eq_some_iff.1 hk).1
    obtain ⟨y, hy, hslice⟩ := htaken k hlt id info (hp.streams ▸ hid)
    have hpart := (hdata id (Dict.contains_iff.2 ⟨y, hy⟩)).slice? hy
      (fun d hd => by
        obtain ⟨x', hx', rfl⟩ := List.mem_map.1 hd
        exact hwidths x' hx' id info hid)
      (by rw [List.getElem?_map, hk, Option.map_some])
    exact Option.some.inj (hpart.symm.trans hslice)
  obtain ⟨⟨r', hend, htwins'⟩, hlen, hgave⟩ := single_steps ht.batches (n := p.batches)
    (fun b hb => by
      rw [← fills_eq hp, ← hp.runs]
      exact hruns b hb) (by rw [Nat.zero_add, hcount]) hsingles hparts hserves htwins hsingle
  refine ⟨⟨_, r', hlast, hend.engine, ?_⟩, fun id hall hall' => ⟨fun d hd => ?_, ?_⟩⟩
  · obtain ⟨c', rfl⟩ := htwins'
    exact ⟨c', rfl⟩
  · obtain ⟨k, hk⟩ := List.mem_iff_getElem?.1 hd
    obtain ⟨x, -, hx, -⟩ := hgave id hall' k d hk
    exact Dict.contains_iff.2 ⟨x, hx⟩
  · obtain ⟨a, ha, rfl, hreturns⟩ := hp.complete hall
    obtain ⟨whole, hwhole, hwlen, hvalues⟩ := hran.anchors a ha
    rw [hreturns, ReturnType.returns] at hwlen hvalues
    refine ⟨whole, hwhole, .of_slices (n := a.info.count) (by rw [List.length_map, hlen, hcount, hwlen]) fun k v hk => ?_⟩
    rw [List.getElem?_map] at hk
    obtain ⟨d, hd, rfl⟩ := Option.map_eq_some_iff.1 hk
    obtain ⟨x, info, hx, -, hinfo, hvalue⟩ := hgave a.id hall' k d hd
    have hlt : k < p.batches := by
      rw [← hcount, ← hlen]
      exact (List.getElem?_eq_some_iff.1 hd).1
    obtain ⟨y, hgives, hslice⟩ := hvalues k hlt
    rw [Gives, if_neg (by rw [hreturns]; decide), hreturns, ReturnType.batch] at hgives
    rw [Nat.zero_add, hgives] at hvalue
    rw [arrayData_eq hx, hslice]
    cases hvalue
    rfl

/-! ### The stream that passes, row by row -/

/-- The same anchors, with a step for every batch. -/
def rowFlow : DataFlow where
  batches := 1
  anchors := .ofList [("y", .all)]
  batches_pos := by decide
  fits := DataFlow.fits_insert ⟨1, .empty, by decide, nofun⟩ "y" (r := .all) trivial

/-- One row, with its label. -/
def rowIo (row : List Single) : ArrayIo where
  inputs := .ofList [("x", ⟨⟨.float, [1, 2]⟩, .f32 row⟩), ("labels", ⟨⟨.int64, [1]⟩, .i64 [0]⟩)]
  outputs := .ofList [("y", ⟨⟨.float, [1, 2]⟩, .f32 [.zero, .zero]⟩)]

theorem step_groups_batches_passing : ∃ out outs s' t', (stepOn .infer passingIo).run passing = (.ok out, s') ∧
    ([rowIo [.one, .zero], rowIo [.zero, .one]].mapM (stepOn .infer)).run { passing with dataFlow := rowFlow } = (.ok outs, t') ∧
    s'.SameDevice t' ∧ JoinedAt "y" outs out := by
  have hgrouped : ((stepOn .infer passingIo).run passing).1.isOk = true := by decide +kernel
  have hsingle : (([rowIo [.one, .zero], rowIo [.zero, .one]].mapM (stepOn .infer)).run
      { passing with dataFlow := rowFlow }).1.isOk = true := by decide +kernel
  obtain ⟨out, hout⟩ := Outcome.exists_of_isOk hgrouped
  obtain ⟨outs, houts⟩ := Outcome.exists_of_isOk hsingle
  have hrun := Stateful.eq_ok_of_fst hout
  have hruns := Stateful.eq_ok_of_fst houts
  have hrows : ∀ id, passingIo.inputs.contains id = true →
      JoinedAt id ([rowIo [.one, .zero], rowIo [.zero, .one]].map (·.inputs)) passingIo.inputs := by
    intro id hid
    have hkeys : ∀ id ∈ passingIo.inputs.keys, id = "x" ∨ id = "labels" := by decide
    have hparts : ([rowIo [.one, .zero], rowIo [.zero, .one]].map (·.inputs)).map (arrayData · "x") =
        [[.one, .zero], [.zero, .one]].map .f32 ∧
        ([rowIo [.one, .zero], rowIo [.zero, .one]].map (·.inputs)).map (arrayData · "labels") = [[0], [0]].map .i64 := by
      decide
    rcases hkeys id (Dict.mem_keys.2 (Dict.contains_iff.1 hid)) with rfl | rfl
    · exact ⟨by decide, _, rfl, hparts.1.symm ▸ .f32 _⟩
    · exact ⟨by decide, _, rfl, hparts.2.symm ▸ .i64 _⟩
  have hsingles : passing.SinglesOf { passing with dataFlow := rowFlow } := ⟨rfl, rfl, ⟨_, _, rfl, rfl, _, rfl⟩, rfl⟩
  obtain ⟨hdevice, hjoined⟩ := step_groups_batches passing_conforms (by decide) hsingles (by decide) rfl hrows hrun hruns
  exact ⟨out, outs, _, _, hrun, hruns, hdevice, hjoined "y" (by decide) (by decide)⟩

end Session

end TensorGraph
