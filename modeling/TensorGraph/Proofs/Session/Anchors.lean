import TensorGraph.Proofs.Engine.Supply
import TensorGraph.Proofs.Session.Returns
import TensorGraph.Proofs.Session.Settings

/-!
Values of anchors, in sessions that have been opened and given any calls. A tensor that a step may give back has a value
after each batch, and it is the value of that batch: what the graph computes from the data that the batch was fed, and
for a stream these data themselves. Streams that the mode of the step does not read are the exception. They may be asked
for too, but have what they were given before the step, if anything.
-/
namespace TensorGraph

open TensorGraph.Graph

variable {σ : Type} {io : StepIo σ} {g : Graph} {e : Executable} {flow : DataFlow} {b : Backend} {P : HostTensor → Prop}
  {r r' : Runtime} {st st' : Stepping σ} {p : StepPlan} {id : TensorId} {info : TensorInfo} {s : Session} {mode : RunMode}
  {settings : Prop}

/-! ## Failures -/

section Never

open Outcome

theorem Storage.accumulate_never (t v : Storage) : Never (.lacks id) (t.accumulate v) := by
  have habort : ∀ {α : Type} {c : Prop} [Decidable c] {a : α}, Never (.lacks id) (if c then .ok a else .error .abort) :=
    .ite (.ok _) (.abort (Failure.lacks_ne_abort _))
  unfold accumulate
  split
  · exact .ok _
  · split
    · exact .ok _
    · exact .bind (.mapM fun ab => habort) fun _ => .ok _
    · exact .bind (.mapM fun ab => habort) fun _ => .ok _
    · exact .ok _

theorem StepPlan.counts_never (p : StepPlan) (id : TensorId) : Never (.lacks id) p.inputCounts ∧ Never (.lacks id) p.outputCounts := by
  exact ⟨.bind (.mapM fun x => .bind (x.2.counted_never (Failure.lacks_ne_abort _)) fun n =>
      .bind (Word.nat_never (Failure.lacks_ne_abort _) _) fun _ => .ok _) fun _ => .ok _,
    .bind (.mapM fun a => .bind (TensorInfo.counted_never (Failure.lacks_ne_abort _) _) fun _ => .ok _) fun _ => .ok _⟩

namespace Session

theorem engineFor_never (s : Session) (call : String) : Never (.lacks id) (s.engineFor call) := by
  unfold engineFor orFail
  split
  · split
    · exact .ok _
    · exact fun h => by cases h
  · exact fun h => by cases h

theorem stepAnchor_never (e : Executable) (mode : RunMode) (id' : TensorId) (t : ReturnType) :
    Never (.lacks id) (stepAnchor e mode id' t) := by
  unfold stepAnchor orFail
  split
  · refine .bind ?_ fun _ => .ok _
    split
    · exact .ok _
    · exact fun h => by cases h
  · exact fun h => by cases h

theorem plan_never (s : Session) (mode : RunMode) : Never (.lacks id) (s.plan mode) := by
  refine .bind (.bind (engineFor_never s _) fun engine => ?_) fun engine => .bind (.mapM fun entry => ?_) fun _ => .ok _
  · repeat' split
    all_goals first | exact .ok _ | exact fun h => by cases h
  · exact stepAnchor_never engine.executable mode entry.1 entry.2

theorem addTo_never (sums : Dict TensorId Storage) (id' : TensorId) (v : Storage) : Never (.lacks id) (addTo sums id' v) := by
  unfold addTo
  split
  · exact .ok _
  · exact .bind (Storage.accumulate_never _ _) fun _ => .ok _

end Session

end Never

/-! ## Sessions that compute their graphs -/

namespace Session

/-- A session on data of the host, with a graph that sessions can have. Its program is one of this graph and has its
constants in memory, and anchors are kept. -/
structure Computes (g : Graph) (e : Executable) (flow : DataFlow) (b : Backend) (r : Runtime) (s : Session) : Prop
    extends s.Serves g e flow r where
  serving : ∃ l settings, g.Serving l settings
  program : e.Serves g
  compiled : ∃ l, Executable.Compiled g l e
  loaded : r.Loaded b e
  kept : ∀ {id t}, flow.anchors.get? id = some t → id ∈ g.kept

/-- Weights have been put on the device, and if `settings` holds, so have the streamed settings of the optimizer. -/
structure Stocked (e : Executable) (settings : Prop) (r : Runtime) : Prop where
  weights : ∀ ti ∈ e.weights, (r.memory.tensor? ti.1).isSome = true
  settings : settings → ∀ ti ∈ e.optimizerStreams, (r.memory.tensor? ti.1).isSome = true

/-- An anchor of a step is no stream that its mode does not read, and no streamed setting unless `settings` holds. -/
structure Sourced (e : Executable) (mode : RunMode) (settings : Prop) (id : TensorId) : Prop where
  streams : id ∈ e.streams.map (·.1) → id ∈ (e.streamsFor mode).map (·.1)
  settings : id ∈ e.optimizerStreams.map (·.1) → settings

namespace Computes

theorem sound (h : s.Computes g e flow b r) : g.Sound := by
  obtain ⟨l, settings, hg⟩ := h.serving
  exact hg.steady.sound

theorem producer?_eq_none (h : s.Computes g e flow b r) {x : Tensor} (hx : g.tensor? id = some x)
    (htype : x.type ≠ .actGrad) : g.producer? id = none := h.sound.producer?_eq_none hx htype

theorem spares (h : s.Computes g e flow b r) (hid : g.producer? id = none ∨ id ∈ g.kept) : e.Spares id := by
  obtain ⟨l, settings, hg⟩ := h.serving
  obtain ⟨order, hl⟩ := h.compiled
  exact hl.spares hg.marked hid

theorem sparesConstants (h : s.Computes g e flow b r) : e.SparesConstants := by
  obtain ⟨l, settings, hg⟩ := h.serving
  obtain ⟨order, hl⟩ := h.compiled
  exact hl.sparesConstants hg.steady.sound.wellFormed hg.marked hg.updating.updatesWeights

/-- Where infos are inferred and updated values stay, the program computes the values of the graph. -/
theorem runnable (h : s.Computes g e flow b r) (hinferred : g.Inferred) (hkeeps : g.KeepsUpdates)
    (hagree : b.OverwritesAs P) : Runtime.Runnable g e b P := by
  obtain ⟨l, settings, hg⟩ := h.serving
  refine ⟨⟨hg.steady.sound.wellFormed, hg.acyclic, hinferred, ?_, hg.marked⟩, hg.updating.updatesWeights, hkeeps, hagree,
    h.compiled⟩
  rintro p q a c ⟨op, hq, t, ht, hp⟩ ha hc
  cases hq.symm.trans hc
  exact hg.steady.phased q c hc t ht p a hp ha

/-- What may be asked for after a run is not computed, or it is computed in a phase of the run. -/
theorem available (h : s.Computes g e flow b r) (hid : id ∈ e.availableAfter mode) :
    (∃ x, g.tensor? id = some x ∧ x.type ≠ .actGrad) ∨ ∃ p ∈ mode.phases, ∃ c ∈ e.fragment p, id ∈ c.outputs := by
  simp only [Executable.availableAfter, List.map_append, List.mem_append] at hid
  rcases hid with (((hmem | hmem) | hmem) | hconst) | hproduced
  · obtain ⟨ti, hti, rfl⟩ := List.mem_map.1 hmem
    obtain ⟨x, hx, htype⟩ := h.program.streams ti hti
    exact .inl ⟨x, hx, by simp [htype]⟩
  · obtain ⟨ti, hti, rfl⟩ := List.mem_map.1 hmem
    obtain ⟨x, hx, htype, -⟩ := (h.program.weights ti).1 hti
    exact .inl ⟨x, hx, by simp [htype]⟩
  · obtain ⟨ti, hti, rfl⟩ := List.mem_map.1 hmem
    obtain ⟨x, hx, htype, -⟩ := (h.program.settings ti).1 hti
    exact .inl ⟨x, hx, by simp [htype]⟩
  · obtain ⟨kv, hkv, rfl⟩ := List.mem_map.1 hconst
    obtain ⟨x, hx, htype, -⟩ := (h.program.constants kv.1 kv.2).1 hkv
    exact .inl ⟨x, hx, by simp [htype]⟩
  · obtain ⟨p, hp, hmem⟩ := List.mem_flatMap.1 hproduced
    obtain ⟨c, hc, hout⟩ := List.mem_flatMap.1 hmem
    exact .inr ⟨p, hp, c, hc, hout⟩

/-- The result of a step is produced by an op of the phase of the step. -/
theorem makes (h : s.Computes g e flow b r) {ph : Phase} {c : CompiledOp} (hc : c ∈ e.fragment ph) (hout : id ∈ c.outputs) :
    ∃ o op, g.producer? id = some o ∧ g.op? o = some op ∧ op.phase = ph := by
  obtain ⟨l, hl⟩ := h.compiled
  obtain ⟨o, op, ho, hphase, hfrom⟩ := hl.step hc
  exact ⟨o, op, h.sound.linked.makes.2 ⟨op, ho, hfrom.outputs ▸ hout⟩, ho, hphase⟩

theorem constant_ne (h : s.Computes g e flow b r) {ti : TensorId × TensorInfo} (hti : ti ∈ e.streams) :
    ∀ kv ∈ e.constants, kv.1 ≠ ti.1 := by
  rintro kv hkv heq
  obtain ⟨x, hx, hconst, -⟩ := (h.program.constants kv.1 kv.2).1 hkv
  obtain ⟨y, hy, hstream⟩ := h.program.streams ti hti
  rw [heq, hy, Option.some.injEq] at hx
  rw [← hx, hstream] at hconst
  cases hconst

end Computes

/-- Whatever calls came before, a session that has been opened computes its graph once it has a program. -/
theorem Opened.computes_calls {t : Session} (hs : s.Opened) (hcalls : Relation.ReflTransGen (Called True fun _ => True) s t)
    (hhost : t.options.effectiveSynthetic = .off) (hr : t.engine = some r) :
    t.Computes t.graph r.executable t.dataFlow r.backend r ∧
      ∀ mode r', t.checkCanRun mode = .ok r' → Stocked r.executable (mode = .train ∨ t.optimizerUploaded = true) r := by
  obtain ⟨hd, hconforming, hsupplied, htuned⟩ := calls_keep
    (P := fun t => Descends s t ∧ Conforming s t ∧ Supplied t ∧ Tuned s t)
    (fun ht hturn => ⟨ht.1.turn hs.serving.steady hturn, ht.2.1.turn hs ht.1 hturn, ht.2.2.1.turn hs ht.1 hturn,
      ht.2.2.2.turn hs ht.1 hturn⟩) ⟨hs.descends, hs.conforming, hs.supplied, hs.tuned⟩ hcalls
  have hback := hd.relocated.symm
  have hcompiles := hd.compiled r hr
  have hserves := hcompiles.serves hs
  obtain ⟨l, hl⟩ := hcompiles.compiled hs
  refine ⟨⟨⟨rfl, rfl, hhost, hr, (hconforming.device r hr).congr hd.relocated.moved.info?_eq.symm⟩,
    ⟨_, _, hs.serving.relocated hd.relocated⟩, hserves.relocated hback, ⟨l, hl.relocated hback⟩,
    ⟨rfl, rfl, hsupplied.constants r hr⟩, fun {id ty} hid => ?_⟩, fun mode r' hrun => ⟨fun ti hti => ?_, fun hsettings ti hti => ?_⟩⟩
  · rw [hd.relocated.frame]
    exact hs.anchors (hd.dataFlow ▸ hid)
  · obtain hup | hnone := weights_of_checkCanRun hrun
    · exact hsupplied.weights hup r hr ti hti
    · obtain ⟨x, hx, htype, -⟩ := (hserves.weights ti).1 hti
      obtain ⟨v, hv⟩ := (hd.hostWeight_iff hs).2 ⟨x, hx, htype⟩
      exact absurd hv (hnone ti.1 v)
  · obtain rfl | hup := hsettings
    · cases hr.symm.trans (engine_of_checkCanRun hrun)
      obtain ⟨o, -, hup | hnone⟩ := optimizer_of_checkCanRun hrun
      · exact htuned.isSome hs hd hr hup hti
      · rw [hnone] at hti
        exact absurd hti List.not_mem_nil
    · exact htuned.isSome hs hd hr hup hti

end Session

namespace Runtime

variable {t : TensorId} {X : Option HostTensor → Prop}

theorem Loaded.fed : ∀ {l : List (TensorId × HostTensor)} {r : Runtime}, (∀ iv ∈ l, ∀ kv ∈ e.constants, kv.1 ≠ iv.1) →
    Loaded b e r → Loaded b e (r.fed l)
  | [], _, _, h => h
  | iv :: l, _, hl, h =>
    fed (l := l) (fun jv hjv => hl jv (List.mem_cons_of_mem _ hjv)) (h.upload iv.2 (hl iv (by simp)))

theorem At.fed : ∀ {l : List (TensorId × HostTensor)} {r : Runtime}, (∀ iv ∈ l, iv.1 = t → ∀ v, X (some v)) →
    At e t X r → At e t X (r.fed l)
  | [], _, _, h => h
  | iv :: l, r, hl, h =>
    fed (l := l) (r := r.upload iv.1 iv.2) (fun jv hjv => hl jv (List.mem_cons_of_mem _ hjv))
      (h.of_set iv.1 rfl (DeviceMemory.tensor?_store ..) (hl iv (by simp)))

/-- A tensor that is fed once has what it was given. -/
theorem tensor?_fed {v : HostTensor} : ∀ {l : List (TensorId × HostTensor)} {r : Runtime}, (l.map (·.1)).Nodup → (t, v) ∈ l →
    (r.fed l).memory.tensor? t = some v
  | iv :: l, r, hnodup, hmem => by
    rw [List.map_cons, List.nodup_cons] at hnodup
    rcases List.mem_cons.1 hmem with rfl | hmem
    · refine (At.fed (e := r.executable) (X := fun x => x = some v) (l := l) (r := r.upload t v)
        (fun jv hjv heq => ?_) ⟨rfl, ?_⟩).value
      · exact absurd (heq ▸ List.mem_map.2 ⟨jv, hjv, rfl⟩) hnodup.1
      · rw [Runtime.upload, DeviceMemory.tensor?_store, if_pos rfl]
    · exact tensor?_fed (l := l) (r := r.upload iv.1 iv.2) hnodup.2 hmem

end Runtime

/-! ## Batches -/

namespace Session

variable {data : TensorId → Storage}

theorem Serves.streams_nodup (h : s.Serves g e flow r) (hp : p.Follows g e flow mode) : (p.streams.map (·.1)).Nodup := by
  rw [hp.streams]
  exact h.labelled.labels.nodup.sublist (List.filter_sublist.map _)

theorem map_fst_fills (p : StepPlan) (data : TensorId → Storage) : (p.fills data).map (·.1) = p.streams.map (·.1) := by
  rw [StepPlan.fills, List.map_map]
  rfl

namespace Computes

theorem fed (h : s.Computes g e flow b r) (hp : p.Follows g e flow mode) (data : TensorId → Storage) :
    (r.fed (p.fills data)).Loaded b e := by
  refine .fed (fun iv hiv => ?_) h.loaded
  obtain ⟨ti, hti, rfl⟩ := List.mem_map.1 hiv
  rw [hp.streams] at hti
  exact h.constant_ne (List.mem_filter.1 hti).1

/-- After a batch the session still computes its graph. -/
theorem ran (h : s.Computes g e flow b r) (hp : p.Follows g e flow mode)
    (hrun : (Runtime.runBatch mode).run (r.fed (p.fills data)) = (.ok (), r')) {s' : Session} (hs : s'.Serves g e flow r') :
    s'.Computes g e flow b r' := by
  refine ⟨hs, h.serving, h.program, h.compiled, ?_, h.kept⟩
  have hloaded := Runtime.Loaded.runBatch h.sparesConstants mode _ (h.fed hp data)
  rw [hrun] at hloaded
  exact hloaded

theorem isSome_ran (h : s.Computes g e flow b r) (hid : g.producer? id = none)
    (hp : p.Follows g e flow mode) (hrun : (Runtime.runBatch mode).run (r.fed (p.fills data)) = (.ok (), r'))
    (hsome : ((r.fed (p.fills data)).memory.tensor? id).isSome = true) : (r'.memory.tensor? id).isSome = true := by
  have hat := Runtime.At.runBatch (X := fun x => x.isSome = true) (h.spares (.inl hid)) (.inl fun _ => rfl)
    mode (r.fed (p.fills data)) ⟨(h.fed hp data).executable, hsome⟩
  rw [hrun] at hat
  exact hat.value

theorem isSome_fed (hsome : (r.memory.tensor? id).isSome = true) : ((r.fed (p.fills data)).memory.tensor? id).isSome = true :=
  (Runtime.At.fed (e := r.executable) (X := fun x => x.isSome = true) (fun _ _ _ _ => rfl) ⟨rfl, hsome⟩).value

/-- What a step needs on the device is still there after a batch. -/
theorem stocked_ran (h : s.Computes g e flow b r) (hstock : Stocked e settings r) (hp : p.Follows g e flow mode)
    (hrun : (Runtime.runBatch mode).run (r.fed (p.fills data)) = (.ok (), r')) : Stocked e settings r' := by
  refine ⟨fun ti hti => ?_, fun hsettings ti hti => ?_⟩
  · obtain ⟨x, hx, htype, -⟩ := (h.program.weights ti).1 hti
    exact h.isSome_ran (h.producer?_eq_none hx (by simp [htype])) hp hrun (isSome_fed (hstock.weights ti hti))
  · obtain ⟨x, hx, htype, -⟩ := (h.program.settings ti).1 hti
    exact h.isSome_ran (h.producer?_eq_none hx (by simp [htype])) hp hrun (isSome_fed (hstock.settings hsettings ti hti))

/-- After a batch every anchor has a value. -/
theorem anchor_isSome (h : s.Computes g e flow b r) (hstock : Stocked e settings r) (hp : p.Follows g e flow mode)
    (hrun : (Runtime.runBatch mode).run (r.fed (p.fills data)) = (.ok (), r')) {a : StepAnchor} (ha : a ∈ p.anchors)
    (hsourced : Sourced e mode settings a.id) (havailable : a.id ∈ e.availableAfter mode) : (r'.memory.tensor? a.id).isSome = true := by
  have hsource : ∀ {x}, g.tensor? a.id = some x → x.type ≠ .actGrad →
      ((r.fed (p.fills data)).memory.tensor? a.id).isSome = true → (r'.memory.tensor? a.id).isSome = true :=
    fun hx htype hsome => h.isSome_ran (h.producer?_eq_none hx htype) hp hrun hsome
  simp only [Executable.availableAfter, List.map_append, List.mem_append] at havailable
  rcases havailable with (((hstream | hweight) | hsetting) | hconst) | hproduced
  · obtain ⟨ti, hti, hid⟩ := List.mem_map.1 (hsourced.streams hstream)
    obtain ⟨x, hx, htype⟩ := h.program.streams ti (List.mem_filter.1 hti).1
    rw [hid] at hx
    refine hsource hx (by simp [htype]) ?_
    rw [Runtime.tensor?_fed (v := ⟨ti.2, data a.id⟩) (by rw [map_fst_fills]; exact h.streams_nodup hp)]
    · rfl
    · rw [StepPlan.fills, hp.streams]
      exact List.mem_map.2 ⟨ti, hti, by rw [← hid]⟩
  · obtain ⟨ti, hti, hid⟩ := List.mem_map.1 hweight
    obtain ⟨x, hx, htype, -⟩ := (h.program.weights ti).1 hti
    rw [hid] at hx
    exact hsource hx (by simp [htype]) (isSome_fed (hid ▸ hstock.weights ti hti))
  · obtain ⟨ti, hti, hid⟩ := List.mem_map.1 hsetting
    obtain ⟨x, hx, htype, -⟩ := (h.program.settings ti).1 hti
    rw [hid] at hx
    exact hsource hx (by simp [htype]) (isSome_fed (hid ▸ hstock.settings (hsourced.settings hsetting) ti hti))
  · obtain ⟨kv, hkv, hid⟩ := List.mem_map.1 hconst
    obtain ⟨x, hx, htype, -⟩ := (h.program.constants kv.1 kv.2).1 hkv
    rw [hid] at hx
    refine hsource hx (by simp [htype]) ?_
    rw [← hid, (h.fed hp data).constants kv hkv]
    rfl
  · obtain ⟨ph, hph, hmem⟩ := List.mem_flatMap.1 hproduced
    obtain ⟨c, hc, hout⟩ := List.mem_flatMap.1 hmem
    exact Runtime.runBatch_gives (h.spares (.inr (h.kept (hp.anchors a ha).1))) (h.fed hp data).executable
      hrun hph hc hout

/-- After a batch every anchor that the mode computes, or that is not computed, has the value of the graph on the data
that the batch was fed; training gives a weight the value of its update. -/
theorem anchor_value (h : s.Computes g e flow b r) (hp : p.Follows g e flow mode)
    (hrun : (Runtime.runBatch mode).run (r.fed (p.fills data)) = (.ok (), r')) {a : StepAnchor} (ha : a ∈ p.anchors)
    (havailable : a.id ∈ e.availableAfter mode) (hg : Runtime.Runnable g e b P)
    (heval : g.Evaluates b (r.fed (p.fills data)).memory mode)
    (hclass : ∀ o t v, g.Overwrites o t → g.valueOn b (r.fed (p.fills data)).memory t = some v → P v) :
    r'.memory.tensor? a.id = g.valueOn b (r.fed (p.fills data)).memory (Runtime.origin e mode a.id) := by
  obtain ⟨r₁, hrun₁, hvisible⟩ := hg.runBatch (h.fed hp data) mode heval hclass
  obtain rfl : r₁ = r' := (Prod.mk.inj (hrun₁.symm.trans hrun)).2
  refine hvisible ⟨?_, fun o op ho hop => ⟨?_, h.kept (hp.anchors a ha).1⟩⟩
  · obtain ⟨x, hx, -⟩ := Option.map_eq_some_iff.1 (hp.anchors a ha).2
    exact hasTensor_iff.2 ⟨x, hx⟩
  · rcases h.available havailable with ⟨x, hx, htype⟩ | ⟨ph, hph, c, hc, hout⟩
    · rw [h.producer?_eq_none hx htype] at ho
      cases ho
    · obtain ⟨o', op', ho', hop', hphase⟩ := h.makes hc hout
      cases ho.symm.trans ho'
      cases hop.symm.trans hop'
      exact hphase ▸ hph

/-- A stream has what it was fed in this batch, and what it had before if the mode does not read it. -/
theorem stream_ran (h : s.Computes g e flow b r) (hp : p.Follows g e flow mode)
    (hrun : (Runtime.runBatch mode).run (r.fed (p.fills data)) = (.ok (), r')) (hid : (id, info) ∈ e.streams) :
    ((id, info) ∈ p.streams → r'.memory.tensor? id = some ⟨info, data id⟩) ∧
    (id ∉ p.streams.map (·.1) → r'.memory.tensor? id = r.memory.tensor? id) := by
  obtain ⟨x, hx, htype⟩ := h.program.streams _ hid
  have hnone := h.producer?_eq_none hx (by simp [htype])
  have hsame : r'.memory.tensor? id = (r.fed (p.fills data)).memory.tensor? id := by
    have hat := Runtime.At.runBatch (X := fun y => y = (r.fed (p.fills data)).memory.tensor? id)
      (h.spares (.inl hnone)) (.inr (h.program.leaves hx (by simp [htype]) (by simp [htype]))) mode
      (r.fed (p.fills data)) ⟨(h.fed hp data).executable, rfl⟩
    rw [hrun] at hat
    exact hat.value
  refine ⟨fun hread => hsame.trans ?_, fun hunread => hsame.trans ?_⟩
  · refine Runtime.tensor?_fed (by rw [map_fst_fills]; exact h.streams_nodup hp) ?_
    exact List.mem_map.2 ⟨_, hread, rfl⟩
  · refine (Runtime.At.fed (e := r.executable) (X := fun y => y = r.memory.tensor? id) (fun iv hiv heq => ?_) ⟨rfl, rfl⟩).value
    exact absurd (heq ▸ List.mem_map.2 ⟨iv, hiv, rfl⟩ : id ∈ (p.fills data).map (·.1)) (by rw [map_fst_fills]; exact hunread)

end Computes

/-! ## Data of a step -/

/-- The streams of a list are fed from one state of the data to another: each is asked for once, and told so. -/
inductive Feeds (io : StepIo σ) (data : TensorId → Storage) : List (TensorId × TensorInfo) → σ → σ → Prop
  | nil {x : σ} : Feeds io data [] x x
  | cons {id : TensorId} {info : TensorInfo} {l : List (TensorId × TensorInfo)} {x x₁ x₂ x' : σ}
    (hinput : (io.input id info).run x = (.ok (data id), x₁)) (hdone : (io.inputDone id).run x₁ = (.ok (), x₂))
    (h : Feeds io data l x₂ x') : Feeds io data ((id, info) :: l) x x'

/-- What a step writes for an anchor after batch `i`: the value of this batch, or the sum of those up to it. -/
def Written (r : Nat → Runtime) (a : StepAnchor) (i : Nat) (v : Storage) : Prop :=
  if a.returns = .sum then SumsTo r a (i + 1) v else (r (i + 1)).download a.id = .ok ⟨a.info, v⟩

/-- An anchor is served after batch `i` of `n`: a value is written if its return type asks for one. -/
inductive Puts (io : StepIo σ) (n : Nat) (r : Nat → Runtime) (i : Nat) (a : StepAnchor) : σ → σ → Prop
  | skip {x : σ} (h : a.returns.writes i n = false) : Puts io n r i a x x
  | write {v : Storage} {x x' : σ} (h : a.returns.writes i n = true) (hv : Written r a i v)
    (hrun : (io.output a.id v).run x = (.ok (), x')) : Puts io n r i a x x'

/-- The anchors of a list are served one after the other. -/
inductive Writes (io : StepIo σ) (n : Nat) (r : Nat → Runtime) (i : Nat) : List StepAnchor → σ → σ → Prop
  | nil {x : σ} : Writes io n r i [] x x
  | cons {a : StepAnchor} {l : List StepAnchor} {x x₁ x' : σ} (h : Puts io n r i a x x₁) (hl : Writes io n r i l x₁ x') :
    Writes io n r i (a :: l) x x'

/-- Batch `i` of a step: the data go from `x` to `x'`, and the program runs on what its streams were fed. -/
structure Advances (io : StepIo σ) (p : StepPlan) (i : Nat) (r : Nat → Runtime) (data : TensorId → Storage) (x x' : σ) :
    Prop where
  moved : ∃ x₁, Feeds io data p.streams x x₁ ∧ Writes io p.batches r i p.anchors x₁ x'
  run : (Runtime.runBatch p.mode).run ((r i).fed (p.fills data)) = (.ok (), r (i + 1))

/-- What calls of a step make of the data that it starts with. -/
inductive Reached (io : StepIo σ) (x₀ : σ) : σ → Prop
  | start : Reached io x₀ x₀
  | input {id : TensorId} {info : TensorInfo} {d : Storage} {x x' : σ} (h : Reached io x₀ x)
    (hrun : (io.input id info).run x = (.ok d, x')) : Reached io x₀ x'
  | inputDone {id : TensorId} {x x' : σ} (h : Reached io x₀ x) (hrun : (io.inputDone id).run x = (.ok (), x')) :
    Reached io x₀ x'
  | output {id : TensorId} {v : Storage} {x x' : σ} (h : Reached io x₀ x) (hrun : (io.output id v).run x = (.ok (), x')) :
    Reached io x₀ x'

/-- A failure that a kernel of the backend or a call on the data of the step ended with. -/
inductive Raised (io : StepIo σ) (b : Backend) (x₀ : σ) (f : Failure) : Prop
  | input {id : TensorId} {info : TensorInfo} {x x' : σ} (hx : Reached io x₀ x)
    (h : (io.input id info).run x = (.error f, x'))
  | inputDone {id : TensorId} {x x' : σ} (hx : Reached io x₀ x) (h : (io.inputDone id).run x = (.error f, x'))
  | output {id : TensorId} {v : Storage} {x x' : σ} (hx : Reached io x₀ x) (h : (io.output id v).run x = (.error f, x'))
  | check {inputs outputs : Dict TensorId Nat} (h : io.check inputs outputs x₀ = .error f)
  | kernel (h : b.Raises f)

section Data

variable {x₀ x x₁ x' : σ} {rs rs' : Nat → Runtime} {i n : Nat} {a : StepAnchor}

theorem Feeds.congr {data' : TensorId → Storage} {l : List (TensorId × TensorInfo)} (h : Feeds io data l x x') :
    (∀ ti ∈ l, data' ti.1 = data ti.1) → Feeds io data' l x x' := by
  induction h with
  | nil => exact fun _ => .nil
  | cons hinput hdone _ ih =>
    intro heq
    refine .cons ?_ hdone (ih fun ti hti => heq ti (List.mem_cons_of_mem _ hti))
    rw [heq _ List.mem_cons_self]
    exact hinput

theorem Feeds.reached {l : List (TensorId × TensorInfo)} (h : Feeds io data l x x') : Reached io x₀ x → Reached io x₀ x' := by
  induction h with
  | nil => exact fun hx => hx
  | cons hinput hdone _ ih => exact fun hx => ih ((hx.input hinput).inputDone hdone)

theorem Puts.reached (h : Puts io n rs i a x x') (hx : Reached io x₀ x) : Reached io x₀ x' := by
  cases h with
  | skip => exact hx
  | write _ _ hrun => exact hx.output hrun

theorem Writes.reached {l : List StepAnchor} (h : Writes io n rs i l x x') : Reached io x₀ x → Reached io x₀ x' := by
  induction h with
  | nil => exact fun hx => hx
  | cons hput _ ih => exact fun hx => ih (hput.reached hx)

theorem Advances.reached (h : Advances io p i rs data x x') (hx : Reached io x₀ x) : Reached io x₀ x' := by
  obtain ⟨x₁, hfeeds, hwrites⟩ := h.moved
  exact hwrites.reached (hfeeds.reached hx)

/-- What is written after a batch depends on the batches up to it. -/
theorem Writes.congr {l : List StepAnchor} (h : Writes io n rs i l x x') (heq : ∀ k ≤ i + 1, rs' k = rs k) :
    Writes io n rs' i l x x' := by
  induction h with
  | nil => exact .nil
  | cons hput _ ih =>
    refine .cons ?_ ih
    cases hput with
    | skip hno => exact .skip hno
    | write hyes hv hrun =>
      refine .write hyes ?_ hrun
      unfold Written at hv ⊢
      split
      · rename_i hsum
        rw [if_pos hsum] at hv
        exact hv.congr heq
      · rename_i hsum
        rw [if_neg hsum] at hv
        rw [heq _ (Nat.le_refl _)]
        exact hv

theorem Advances.congr (h : Advances io p i rs data x x') (heq : ∀ k ≤ i + 1, rs' k = rs k) :
    Advances io p i rs' data x x' := by
  obtain ⟨x₁, hfeeds, hwrites⟩ := h.moved
  refine ⟨⟨x₁, hfeeds, hwrites.congr heq⟩, ?_⟩
  rw [heq i (Nat.le_succ i), heq (i + 1) (Nat.le_refl _)]
  exact h.run

end Data

/-! ## Steps -/

section Steps

variable {x₀ : σ} {rs : Nat → Runtime} {i : Nat} {sums : Dict TensorId Storage}

theorem onEngine_excused {α : Type} {Q : α → Runtime → Prop} {R : Failure → Prop} {x : RuntimeM α} (call : String)
    (hr : s.engine = some r) (hx : Stateful.Ends Q (fun f _ => f.Excused R) x r) :
    Stateful.Ends (fun a s' => ∃ r', Q a r' ∧ s' = { s with engine := some r' }) (fun f _ => f.Excused R)
      (onEngine call x) s := by
  refine .get_bind (.bind (R := fun _ s' => s' = s)
    (.liftM (fun _ _ => rfl) fun f hf => .of_never (fun _ => engineFor_never s call) hf) ?_)
  rintro engine _ rfl
  refine .focus ?_
  rw [hr, Option.getD_some]
  exact hx.mono (fun _ r' h => ⟨r', h, rfl⟩) fun _ _ h => h

theorem feed_excused (call : String) (hx : Reached io x₀ st.data) (hr : st.session.engine = some r)
    (hoff : st.session.options.effectiveSynthetic = .off) :
    Stateful.Ends (fun _ st' => ∃ d x₁, (io.input id info).run st.data = (.ok d, x₁) ∧
        (io.inputDone id).run x₁ = (.ok (), st'.data) ∧
        st'.session = { st.session with engine := some (r.upload id ⟨info, d⟩) })
      (fun f _ => f.Excused (Raised io b x₀)) (feed io call id info) st := by
  have hdata : Stateful.Ends (fun d st' => (∃ x₁, (io.input id info).run st.data = (.ok d, x₁) ∧
      (io.inputDone id).run x₁ = (.ok (), st'.data)) ∧ st'.session = st.session)
      (fun f _ => f.Excused (Raised io b x₀)) (streamData io id info) st := by
    refine .get_bind ?_
    simp only [hoff]
    refine .focus (.bind (R := fun d x₁ => (io.input id info).run st.data = (.ok d, x₁))
      ⟨fun h => h, fun h => .intro (.input hx h)⟩ fun d x₁ h => ?_)
    exact .bind (R := fun _ x₂ => (io.inputDone id).run x₁ = (.ok (), x₂))
      ⟨fun h => h, fun h' => .intro (.inputDone (hx.input h) h')⟩ fun _ _ h' => .pure ⟨⟨x₁, h, h'⟩, rfl⟩
  refine .bind hdata fun d st₁ h₁ => .bind (R := fun v st' => v = ⟨info, d⟩ ∧ st' = st₁)
    (.liftM (fun v hv => ⟨(HostTensor.ofStorage_ok hv).1, rfl⟩)
      fun _ hf => .of_never (fun _ => HostTensor.ofStorage_never info d) hf) ?_
  rintro _ _ ⟨rfl, rfl⟩
  obtain ⟨⟨x₁, hinput, hdone⟩, hsession⟩ := h₁
  refine .focus ((onEngine_excused call (hsession ▸ hr) (.modify (Q := fun _ r' => r' = r.upload id ⟨info, d⟩) rfl)).mono ?_
    fun _ _ h => h)
  rintro _ _ ⟨_, rfl, rfl⟩
  exact ⟨d, x₁, hinput, hdone, by rw [hsession]⟩

/-- Every stream of a list is fed. -/
theorem feedAll_excused (call : String) : ∀ {l : List (TensorId × TensorInfo)} {r : Runtime} {st : Stepping σ},
    (l.map (·.1)).Nodup → Reached io x₀ st.data → st.session.engine = some r →
    st.session.options.effectiveSynthetic = .off →
    Stateful.Ends (fun _ st' => ∃ data : TensorId → Storage, Feeds io data l st.data st'.data ∧
        st'.session = { st.session with engine := some (r.fed (l.map fun (id, info) => (id, ⟨info, data id⟩))) })
      (fun f _ => f.Excused (Raised io b x₀)) (l.forM fun (id, info) => feed io call id info) st
  | [], r, st, _, _, hr, _ => by
    refine .pure ⟨fun _ => .f32 [], .nil, ?_⟩
    rw [List.map_nil, Runtime.fed, List.foldl_nil, ← hr]
  | (id, info) :: l, r, st, hnodup, hx, hr, hoff => by
    rw [List.map_cons, List.nodup_cons] at hnodup
    rw [Stateful.forM_cons]
    refine .bind (feed_excused call hx hr hoff) ?_
    rintro _ st₁ ⟨d, x₁, hinput, hdone, hsession⟩
    refine (feedAll_excused call (l := l) (r := r.upload id ⟨info, d⟩) hnodup.2 ((hx.input hinput).inputDone hdone)
      (by rw [hsession]) (by rw [hsession]; exact hoff)).mono ?_ fun _ _ h => h
    rintro _ st' ⟨data, hfeeds, hsession'⟩
    have hsame : ∀ ti ∈ l, (if ti.1 = id then d else data ti.1) = data ti.1 := by
      intro ti hti
      refine if_neg ?_
      rintro rfl
      exact hnodup.1 (List.mem_map.2 ⟨ti, hti, rfl⟩)
    refine ⟨fun t => if t = id then d else data t, .cons ?_ hdone (hfeeds.congr hsame), ?_⟩
    · rw [if_pos rfl]
      exact hinput
    · have hmap : (l.map fun (t, i) => ((t, ⟨i, data t⟩) : TensorId × HostTensor)) =
          l.map fun (t, i) => (t, ⟨i, if t = id then d else data t⟩) :=
        List.map_congr_left fun ti hti => by simp only [hsame ti hti]
      rw [hsession', hsession, hmap, List.map_cons, Runtime.fed, Runtime.fed, List.foldl_cons]
      simp only [if_true]

theorem deviceValue_excused {R : Failure → Prop} (call : String) (hr : st.session.engine = some r) :
    Stateful.Ends (fun d st' => st' = st ∧ ∃ v, r.download id = .ok v ∧ v.data = d)
      (fun f _ => (r.memory.tensor? id).isSome = true → f.Excused R) (deviceValue call id) st := by
  refine .get_bind (.bind (R := fun engine st' => engine = r ∧ st' = st) (.liftM (fun engine h => ⟨engineFor_ok hr h, rfl⟩)
    fun _ hf _ => .of_never (fun _ => engineFor_never _ _) hf) ?_)
  rintro engine st₁ ⟨rfl, rfl⟩
  exact .bind (R := fun v st' => st' = st₁ ∧ engine.download id = .ok v) (.liftM (fun v hv => ⟨rfl, hv⟩)
    fun _ hf hsome => .of_never (fun _ => Runtime.download_never hsome) hf) fun v _ h => .pure ⟨h.1, v, h.2, rfl⟩

/-- What holds of the sums before batch `i`, for the anchors of a list. -/
structure Summing (p : StepPlan) (rs : Nat → Runtime) (i : Nat) (l : List StepAnchor) (sums : Dict TensorId Storage) : Prop where
  subtotals : ∀ a ∈ l, a.returns = .sum → Subtotal rs a i (sums.get? a.id)
  sized : Summed p sums

/-- An anchor that has a value on the device is served, and does not fail for lack of one. -/
theorem giveBack_excused {a : StepAnchor} (hp : p.Follows g e flow mode) (ha : a ∈ p.anchors)
    (hlabelled : (rs (i + 1)).Labelled g e) (hr : st.session.engine = some (rs (i + 1))) (hx : Reached io x₀ st.data)
    (hsums : Summing p rs i [a] sums) :
    Stateful.Ends (fun sums' st' => st'.session = st.session ∧ Puts io p.batches rs i a st.data st'.data ∧
        Summing p rs (i + 1) [a] sums' ∧ ∀ id, id ≠ a.id → sums'.get? id = sums.get? id)
      (fun f _ => ((rs (i + 1)).memory.tensor? a.id).isSome = true → f.Excused (Raised io b x₀)) (giveBack io p i sums a) st := by
  have hwrite : ∀ (v : Storage), Stateful.Ends (fun _ st' => st'.session = st.session ∧
      (io.output a.id v).run st.data = (.ok (), st'.data))
      (fun f _ => ((rs (i + 1)).memory.tensor? a.id).isSome = true → f.Excused (Raised io b x₀))
      (Stepping.onData (io.output a.id v)) st :=
    fun v => .focus ⟨fun h => ⟨rfl, h⟩, fun h _ => .intro (.output hx h)⟩
  unfold giveBack
  simp only
  split
  · rename_i hsum
    refine .bind (deviceValue_excused p.mode.label hr) ?_
    rintro _ st₁ ⟨rfl, v, hv, rfl⟩
    obtain ⟨hinfo, hlen, hkind⟩ := hp.value ha hlabelled hv
    refine .bind (R := fun sums' st' => st' = st₁ ∧ ∃ total, Adds v.data (sums.get? a.id) total ∧
      sums' = sums.insert a.id total) (.lift (fun _ hadd => ⟨rfl, addTo_ok hadd⟩)
        fun _ hf _ => .of_never (fun _ => addTo_never _ _ _) hf) ?_
    rintro _ st₂ ⟨rfl, total, hadds, rfl⟩
    have hold : ∀ t, sums.get? a.id = some t → t.length = v.data.length ∧ t.kind = v.data.kind := by
      intro t ht
      obtain ⟨htlen, htkind⟩ := hsums.sized a ha t ht
      exact ⟨htlen.trans hlen.symm, htkind.trans hkind.symm⟩
    have htotal : SumsTo rs a (i + 1) total :=
      (hsums.subtotals a (by simp) hsum).add (hv.trans (congrArg Except.ok hinfo)) hadds hold
    have hself : (sums.insert a.id total).get? a.id = some total := by rw [Dict.get?_insert, if_pos rfl]
    have hnext : Summing p rs (i + 1) [a] (sums.insert a.id total) ∧
        ∀ id, id ≠ a.id → (sums.insert a.id total).get? id = sums.get? id := by
      refine ⟨⟨fun a' ha' _ => ?_, hsums.sized.insert hp ha (hadds.sized ⟨hlen, hkind⟩ (hsums.sized a ha))⟩, fun id hid => ?_⟩
      · obtain rfl := List.mem_singleton.1 ha'
        rw [hself]
        exact htotal
      · rw [Dict.get?_insert, if_neg hid.symm]
    split
    · rename_i hyes
      rw [hself]
      refine .bind (hwrite total) fun _ st' h => .pure ⟨h.1, .write hyes ?_ h.2, hnext⟩
      rw [Written, if_pos hsum]
      exact htotal
    · rename_i hno
      exact .pure ⟨rfl, .skip (Bool.eq_false_iff.2 hno), hnext⟩
  · rename_i hsum
    have hnext : Summing p rs (i + 1) [a] sums ∧ ∀ id, id ≠ a.id → sums.get? id = sums.get? id := by
      refine ⟨⟨fun a' ha' heq => ?_, hsums.sized⟩, fun _ _ => rfl⟩
      obtain rfl := List.mem_singleton.1 ha'
      exact absurd heq hsum
    split
    · rename_i hyes
      refine .bind (deviceValue_excused p.mode.label hr) ?_
      rintro _ st₁ ⟨rfl, v, hv, rfl⟩
      refine .bind (hwrite v.data) fun _ st' h => .pure ⟨h.1, .write hyes ?_ h.2, hnext⟩
      rw [Written, if_neg hsum]
      exact hv.trans (congrArg Except.ok (hp.value ha hlabelled hv).1)
    · rename_i hno
      exact .pure ⟨rfl, .skip (Bool.eq_false_iff.2 hno), hnext⟩

theorem giveAll_excused (hp : p.Follows g e flow mode) (hlabelled : (rs (i + 1)).Labelled g e) :
    ∀ {l : List StepAnchor} {st : Stepping σ} {sums : Dict TensorId Storage}, l ⊆ p.anchors → (l.map (·.id)).Nodup →
    st.session.engine = some (rs (i + 1)) → Reached io x₀ st.data → Summing p rs i l sums →
    Stateful.Ends (fun sums' st' => st'.session = st.session ∧ Writes io p.batches rs i l st.data st'.data ∧
        Summing p rs (i + 1) l sums' ∧ ∀ id ∉ l.map (·.id), sums'.get? id = sums.get? id)
      (fun f _ => (∀ a ∈ l, ((rs (i + 1)).memory.tensor? a.id).isSome = true) → f.Excused (Raised io b x₀))
      (l.foldlM (giveBack io p i) sums) st
  | [], st, sums, _, _, _, _, hsums => .pure ⟨rfl, .nil, ⟨fun _ h => absurd h List.not_mem_nil, hsums.sized⟩, fun _ _ => rfl⟩
  | a :: l, st, sums, hl, hnodup, hr, hx, hsums => by
    rw [List.map_cons, List.nodup_cons] at hnodup
    rw [List.foldlM_cons]
    refine .bind ((giveBack_excused hp (hl (by simp)) hlabelled hr hx
      ⟨fun a' ha' => hsums.subtotals a' (List.mem_singleton.1 ha' ▸ List.mem_cons_self), hsums.sized⟩).mono (fun _ _ h => h)
      fun _ _ h hall => h (hall a (by simp))) ?_
    rintro sums₁ st₁ ⟨hsession, hputs, hfirst, hothers⟩
    have hne : ∀ b ∈ l, b.id ≠ a.id := fun b hb heq => hnodup.1 (heq ▸ List.mem_map.2 ⟨b, hb, rfl⟩)
    refine (giveAll_excused hp hlabelled (fun _ hb => hl (List.mem_cons_of_mem _ hb)) hnodup.2 (by rw [hsession]; exact hr)
      (hputs.reached hx) ⟨fun b hb hsum => ?_, hfirst.sized⟩).mono ?_ fun _ _ h hall =>
        h fun b hb => hall b (List.mem_cons_of_mem _ hb)
    · rw [hothers b.id (hne b hb)]
      exact hsums.subtotals b (List.mem_cons_of_mem _ hb) hsum
    · rintro sums' st' ⟨hsession', hwrites, hrest, hothers'⟩
      refine ⟨hsession'.trans hsession, .cons hputs hwrites, ⟨fun b hb hsum => ?_, hrest.sized⟩, fun id hid => ?_⟩
      · rcases List.mem_cons.1 hb with rfl | hb
        · rw [hothers' _ hnodup.1]
          exact hfirst.subtotals b (by simp) hsum
        · exact hrest.subtotals b hb hsum
      · rw [List.map_cons, List.mem_cons, not_or] at hid
        exact (hothers' id hid.2).trans (hothers id hid.1)

/-- What a plan asks for is on the device after each batch. -/
def Served (e : Executable) (settings : Prop) (p : StepPlan) : Prop :=
  ∀ a ∈ p.anchors, Sourced e p.mode settings a.id ∧ a.id ∈ e.availableAfter p.mode

/-- What holds before batch `i` of a step that started with the data `x₀`. -/
structure Between (io : StepIo σ) (g : Graph) (e : Executable) (flow : DataFlow) (b : Backend) (settings : Prop)
    (p : StepPlan) (x₀ : σ) (rs : Nat → Runtime) (i : Nat) (sums : Dict TensorId Storage) (st : Stepping σ) : Prop where
  computes : st.session.Computes g e flow b (rs i)
  stocked : Stocked e settings (rs i)
  reached : Reached io x₀ st.data
  sums : Summing p rs i p.anchors sums

theorem runBatch_excused (h : Between io g e flow b settings p x₀ rs i sums st) (hp : p.Follows g e flow p.mode) :
    Stateful.Ends (fun sums' st' => ∃ rs' data, (∀ k ≤ i, rs' k = rs k) ∧ Advances io p i rs' data st.data st'.data ∧
        st'.session = { st.session with engine := some (rs' (i + 1)) } ∧
        Between io g e flow b settings p x₀ rs' (i + 1) sums' st')
      (fun f _ => Served e settings p → f.Excused (Raised io b x₀)) (runBatch io p i sums) st := by
  have hc := h.computes
  refine .bind ((feedAll_excused p.mode.label (hc.streams_nodup hp) h.reached hc.engine hc.host).mono (fun _ _ h => h)
    fun _ _ h _ => h) ?_
  rintro _ st₁ ⟨data, hfeeds, hsession₁⟩
  have hlabelled := hp.fed_labelled data hc.labelled
  have hbatch : Stateful.Ends (fun _ r' => (Runtime.runBatch p.mode).run ((rs i).fed (p.fills data)) = (.ok (), r'))
      (fun f _ => f.Excused (Raised io b x₀)) (Runtime.runBatch p.mode) ((rs i).fed (p.fills data)) :=
    ⟨fun hok => hok, fun hf id heq =>
      .kernel ((Runtime.runBatch_excused p.mode (hc.fed hp data).backend).error hf id heq)⟩
  refine .bind (R := fun _ st' => ∃ r', (Runtime.runBatch p.mode).run ((rs i).fed (p.fills data)) = (.ok (), r') ∧
    st'.session = { st.session with engine := some r' } ∧ st'.data = st₁.data) ?_ ?_
  · refine .focus ((onEngine_excused p.mode.label (by rw [hsession₁]; rfl) hbatch).mono ?_ fun _ _ h _ => h)
    rintro _ _ ⟨r', hok, rfl⟩
    exact ⟨r', hok, by rw [hsession₁], rfl⟩
  rintro _ st₂ ⟨r', hok, hsession₂, hdata₂⟩
  have hserves : Serves g e flow r' { st.session with engine := some r' } :=
    hc.toServes.loaded ((hlabelled.runBatch p.mode).ok hok)
  have hcomputes := hc.ran hp hok hserves
  -- the batches so far, and this one
  let rs' : Nat → Runtime := fun k => if k ≤ i then rs k else r'
  have hbefore : ∀ k ≤ i, rs' k = rs k := fun k hk => if_pos hk
  have hlast : rs' (i + 1) = r' := if_neg (by omega)
  have hsums : Summing p rs' i p.anchors sums := ⟨fun a ha hsum => .congr hbefore (h.sums.subtotals a ha hsum), h.sums.sized⟩
  refine .get_bind ?_
  rw [if_pos (by rw [hsession₂]; exact hc.host)]
  refine (giveAll_excused hp (by rw [hlast]; exact hserves.labelled) (fun _ ha => ha) hp.nodup (by rw [hlast, hsession₂])
    (hdata₂ ▸ hfeeds.reached h.reached) hsums).mono ?_ fun f _ hf hserved => hf fun a ha => ?_
  · rintro sums' st' ⟨hsession', hwrites, hsums', -⟩
    have hadvances : Advances io p i rs' data st.data st'.data := by
      refine ⟨⟨st₁.data, hfeeds, hdata₂ ▸ hwrites⟩, ?_⟩
      rw [hbefore i (Nat.le_refl i), hlast]
      exact hok
    have hsession : st'.session = { st.session with engine := some (rs' (i + 1)) } := by rw [hsession', hsession₂, hlast]
    refine ⟨rs', data, hbefore, hadvances, hsession, ⟨?_, ?_, hadvances.reached h.reached, hsums'⟩⟩
    · rw [hsession, hlast]
      exact hcomputes
    · rw [hlast]
      exact hc.stocked_ran h.stocked hp hok
  · rw [hlast]
    exact hc.anchor_isSome h.stocked hp hok ha (hserved a ha).1 (hserved a ha).2

/-- The run of a step over its batches: the program and the data after each of them. -/
theorem runBatches_excused (hp : p.Follows g e flow p.mode) : ∀ {n i : Nat} {rs : Nat → Runtime} {st : Stepping σ}
    {sums : Dict TensorId Storage}, Between io g e flow b settings p x₀ rs i sums st →
    Stateful.Ends (fun _ st' => ∃ (rs' : Nat → Runtime) (data : Nat → TensorId → Storage) (xs : Nat → σ),
        (∀ k ≤ i, rs' k = rs k) ∧ xs i = st.data ∧ xs (i + n) = st'.data ∧
        (∀ k, i ≤ k → k < i + n → Advances io p k rs' (data k) (xs k) (xs (k + 1))) ∧
        st'.session = { st.session with engine := some (rs' (i + n)) })
      (fun f _ => Served e settings p → f.Excused (Raised io b x₀)) (runBatches io p n i sums) st
  | 0, i, rs, st, sums, h => by
    refine .pure ⟨rs, fun _ _ => .f32 [], fun _ => st.data, fun _ _ => rfl, rfl, rfl, fun k hk hlt => absurd hk (by omega), ?_⟩
    rw [Nat.add_zero, ← h.computes.engine]
  | n + 1, i, rs, st, sums, h => by
    refine .bind (runBatch_excused h hp) ?_
    rintro sums₁ st₁ ⟨rs₁, d, hbefore₁, hadvances, hsession₁, h₁⟩
    refine (runBatches_excused hp (n := n) (i := i + 1) h₁).mono ?_ fun _ _ h => h
    rintro _ st' ⟨rs', data, xs, hbefore, hfirst, hlast, hall, hsession⟩
    have hend : i + 1 + n = i + (n + 1) := by omega
    rw [hend] at hlast hsession
    refine ⟨rs', fun k => if k = i then d else data k, fun k => if k = i then st.data else xs k,
      fun k hk => (hbefore k (by omega)).trans (hbefore₁ k hk), if_pos rfl, ?_, fun k hle hlt => ?_, ?_⟩
    · beta_reduce
      rw [if_neg (by omega), hlast]
    · beta_reduce
      rw [if_neg (show k + 1 ≠ i by omega)]
      rcases Nat.eq_or_lt_of_le hle with rfl | hlt'
      · rw [if_pos rfl, if_pos rfl, hfirst]
        exact hadvances.congr hbefore
      · rw [if_neg (by omega), if_neg (by omega)]
        exact hall k hlt' (by omega)
    · rw [hsession, hsession₁]

/-- What holds along the batches of a step. -/
theorem Computes.along {data : Nat → TensorId → Storage} {xs : Nat → σ} (h : s.Computes g e flow b (rs 0))
    (hstock : Stocked e settings (rs 0)) (hp : p.Follows g e flow p.mode)
    (hall : ∀ k < p.batches, Advances io p k rs (data k) (xs k) (xs (k + 1))) :
    ∀ {k : Nat}, k ≤ p.batches → (∃ s' : Session, s'.Computes g e flow b (rs k)) ∧ Stocked e settings (rs k) ∧
      ∀ {id info}, (id, info) ∈ e.streams → id ∉ p.streams.map (·.1) →
        (rs k).memory.tensor? id = (rs 0).memory.tensor? id
  | 0, _ => ⟨⟨s, h⟩, hstock, fun _ _ => rfl⟩
  | k + 1, hk => by
    obtain ⟨⟨s', h'⟩, hstock', hunread⟩ := along h hstock hp hall (k := k) (by omega)
    have hrun := (hall k hk).run
    have hserves := h'.toServes.loaded (((hp.fed_labelled (data k) h'.labelled).runBatch p.mode).ok hrun)
    refine ⟨⟨_, h'.ran hp hrun hserves⟩, h'.stocked_ran hstock' hp hrun, fun hid hnot => ?_⟩
    exact ((h'.stream_ran hp hrun hid).2 hnot).trans (hunread hid hnot)

end Steps

/-- How a step ran on data of the host: batch by batch, from the program and the data that it found to those that it
left. -/
structure Proceeds (io : StepIo σ) (p : StepPlan) (rs : Nat → Runtime) (data : Nat → TensorId → Storage) (xs : Nat → σ)
    (st st' : Stepping σ) : Prop where
  engine : st.session.engine = some (rs 0)
  engine' : ∃ c, st'.session.engine = some { rs p.batches with counters := c }
  first : xs 0 = st.data
  last : xs p.batches = st'.data
  batches : ∀ k < p.batches, Advances io p k rs (data k) (xs k) (xs (k + 1))

/-- A step on data of the host goes on from batch to batch; where its anchors are no unread streams, it does not fail for
lack of their values. -/
theorem runStep_excused (io : StepIo σ) (h : st.session.Computes g e flow b r)
    (hstocked : ∀ r', st.session.checkCanRun mode = .ok r' → Stocked e settings r) :
    Stateful.Ends (fun _ st' => Stocked e settings r ∧ ∃ p rs data xs, p.Follows g e flow mode ∧
        (∀ a ∈ p.anchors, a.id ∈ e.availableAfter mode) ∧ Proceeds io p rs data xs st st')
      (fun f _ => (∀ {id t}, flow.anchors.get? id = some t → Sourced e mode settings id) → f.Excused (Raised io b st.data))
      (runStep io mode) st := by
  refine .get_bind (.bind (R := fun p st' => st' = st ∧ st.session.plan mode = .ok p)
    (.liftM (fun p hplan => ⟨rfl, hplan⟩) fun _ hf _ => .of_never (fun _ => plan_never _ _) hf) ?_)
  rintro p st₁ ⟨rfl, hplan⟩
  obtain ⟨r', hcan, -⟩ := Outcome.bind_eq_ok.1 hplan
  have hstock := hstocked r' hcan
  obtain ⟨hp, havailable⟩ := plan_ok h.toServes hplan
  obtain rfl := hp.runs
  rw [if_pos h.host]
  refine .bind (R := fun _ st' => st' = st₁) (.lift (fun _ _ => rfl) fun f hf _ id heq => ?_) ?_
  · obtain ⟨hin, hout⟩ := p.counts_never id
    rcases Outcome.bind_eq_error.1 hf with hf | ⟨ins, -, hf⟩
    · exact absurd (heq ▸ hf) hin
    · rcases Outcome.bind_eq_error.1 hf with hf | ⟨outs, -, hf⟩
      · exact absurd (heq ▸ hf) hout
      · exact .check hf
  rintro _ st₂ rfl
  have hstart : Between io g e flow b settings p st₂.data (fun _ => r) 0 .empty st₂ :=
    ⟨h, hstock, .start, ⟨fun _ _ _ => rfl, fun _ _ _ ht => by cases ht⟩⟩
  refine .bind ((runBatches_excused hp (n := p.batches) hstart).mono (fun _ _ h => h) fun f _ hf hsourced =>
    hf fun a ha => ⟨hsourced (hp.anchors a ha).1, havailable a ha⟩) ?_
  rintro _ st₃ ⟨rs, data, xs, hbefore, hfirst, hlast, hall, hsession⟩
  rw [Nat.zero_add] at hlast hall hsession
  have hend : ∀ {s' : Session}, (∃ c, s'.engine = some { rs p.batches with counters := c }) →
      Stocked e settings r ∧ ∃ q rs data xs, q.Follows g e flow p.mode ∧
        (∀ a ∈ q.anchors, a.id ∈ e.availableAfter p.mode) ∧
          Proceeds io q rs data xs st₂ { st₃ with session := s' } := fun hengine =>
    ⟨hstock, p, rs, data, xs, hp, havailable, by rw [hbefore 0 (Nat.le_refl 0)]; exact h.engine, hengine, hfirst, hlast,
      fun k hk => hall k (Nat.zero_le k) hk⟩
  refine .focus (.bind (R := fun _ s' => ∃ c, s'.engine = some { rs p.batches with counters := c }) ?_ fun _ s₄ h₄ =>
    .bind (R := fun _ s' => ∃ c, s'.engine = some { rs p.batches with counters := c }) (.modify h₄) fun _ s₅ h₅ => ?_)
  · refine (onEngine_excused p.mode.label (by rw [hsession]) (.modify
      (Q := fun _ r' => ∃ c, r' = { rs p.batches with counters := c }) ⟨_, rfl⟩)).mono ?_ fun _ _ h _ => h
    rintro _ _ ⟨_, ⟨c, rfl⟩, rfl⟩
    exact ⟨c, rfl⟩
  · refine .get_bind ?_
    split
    · exact .bind (R := fun _ s' => ∃ c, s'.engine = some { rs p.batches with counters := c }) (.modify h₅)
        fun _ _ h₆ => .modify (hend h₆)
    · exact .pure (hend h₅)

/-- The value `v` is what is taken for an anchor after a batch that was fed `data` and ran from `r` to `r'`: for a stream
the data themselves, and where the values of a graph are defined, what the graph computes from them. -/
structure Taken (g : Graph) (e : Executable) (p : StepPlan) (data : TensorId → Storage) (r r' : Runtime) (a : StepAnchor)
    (v : HostTensor) : Prop where
  held : r'.memory.tensor? a.id = some v
  downloaded : ∀ x, r'.download a.id = .ok x → x = v
  streamed : ∀ info, (a.id, info) ∈ p.streams → v = ⟨info, data a.id⟩
  computed : ∀ P, g.Inferred → g.KeepsUpdates → r.backend.OverwritesAs P →
    g.Evaluates r.backend (r.fed (p.fills data)).memory p.mode →
    (∀ o t x, g.Overwrites o t → g.valueOn r.backend (r.fed (p.fills data)).memory t = some x → P x) →
    g.valueOn r.backend (r.fed (p.fills data)).memory (Runtime.origin e p.mode a.id) = some v

theorem Computes.taken (h : s.Computes g e flow b r) (hstock : Stocked e settings r) (hp : p.Follows g e flow p.mode)
    (hrun : (Runtime.runBatch p.mode).run (r.fed (p.fills data)) = (.ok (), r')) {s' : Session}
    (hs : s'.Serves g e flow r') {a : StepAnchor} (ha : a ∈ p.anchors) (hsourced : Sourced e p.mode settings a.id)
    (havailable : a.id ∈ e.availableAfter p.mode) : ∃ v, Taken g e p data r r' a v := by
  obtain ⟨v, hv⟩ := Option.isSome_iff_exists.1 (h.anchor_isSome hstock hp hrun ha hsourced havailable)
  refine ⟨v, hv, fun x hx => ?_, fun info hinfo => ?_, fun P hinferred hkeeps hagree heval hclass => ?_⟩
  · exact Option.some.inj ((hs.labelled.download hx).1.symm.trans hv)
  · have hmem : (a.id, info) ∈ e.streams := by
      rw [hp.streams] at hinfo
      exact (List.mem_filter.1 hinfo).1
    exact Option.some.inj (hv.symm.trans ((h.stream_ran hp hrun hmem).1 hinfo))
  · rw [h.loaded.backend] at hagree heval hclass ⊢
    exact (h.anchor_value hp hrun ha havailable (h.runnable hinferred hkeeps hagree) heval hclass).symm.trans hv

/-- A step on data of the host, in a session that has been opened and given any calls. If its anchors are no streams that
its mode does not read and no settings that were not put on the device, it does not fail for lack of their values. If it
succeeds, each batch feeds the streams once with their data and writes for each anchor what its return type asks for:
its value after this batch, or the sum up to it. Such an anchor has a value after each batch, which is what is taken for
it. A stream that the mode does not read has what it had before the step. -/
theorem anchors_of_step (io : StepIo σ) (mode : RunMode) (st : Stepping σ) {c : SessionConfig} {f f' : Platform}
    (hf : f.Fitting) (hopen : (open_ c).run f = (.ok s, f'))
    (hcalls : Relation.ReflTransGen (Called True fun _ => True) s st.session)
    (hhost : st.session.options.effectiveSynthetic = .off) (hr : st.session.engine = some r) :
    (∀ f st', (∀ {id t}, st.session.dataFlow.anchors.get? id = some t →
        Sourced r.executable mode (mode = .train ∨ st.session.optimizerUploaded = true) id) →
      (runStep io mode).run st = (.error f, st') → f.Excused (Raised io r.backend st.data)) ∧
    ∀ st', (runStep io mode).run st = (.ok (), st') →
      ∃ p rs data xs, p.Follows st.session.graph r.executable st.session.dataFlow mode ∧ Proceeds io p rs data xs st st' ∧
        ∀ k < p.batches, (∀ a ∈ p.anchors,
          Sourced r.executable mode (mode = .train ∨ st.session.optimizerUploaded = true) a.id →
            ∃ v, Taken st.session.graph r.executable p (data k) (rs k) (rs (k + 1)) a v) ∧
          ∀ {id info}, (id, info) ∈ r.executable.streams → id ∉ p.streams.map (·.1) →
            (rs (k + 1)).memory.tensor? id = r.memory.tensor? id := by
  obtain ⟨h, hstocked⟩ := (opened_ok hf hopen).computes_calls hcalls hhost hr
  have hends := runStep_excused io h (hstocked mode)
  refine ⟨fun f st' hsourced hrun => hends.error hrun hsourced, fun st' hrun => ?_⟩
  obtain ⟨hstock, p, rs, data, xs, hp, havailable, hproceeds⟩ := hends.ok hrun
  obtain rfl := hp.runs
  obtain rfl : r = rs 0 := Option.some.inj (hr.symm.trans hproceeds.engine)
  refine ⟨p, rs, data, xs, hp, hproceeds, fun k hk =>
    ⟨fun a ha hsourced => ?_, (h.along hstock hp hproceeds.batches hk).2.2⟩⟩
  obtain ⟨⟨s', h'⟩, hstock', -⟩ := h.along hstock hp hproceeds.batches (Nat.le_of_lt hk)
  obtain ⟨⟨s'', h''⟩, -⟩ := h.along hstock hp hproceeds.batches hk
  exact h'.taken hstock' hp (hproceeds.batches k hk).run h''.toServes ha hsourced (havailable a ha)

theorem anchoring_fits : ∀ a ∈ (Dict.ofList [("x", ReturnType.all), ("y", .sum)]).entries, a.2.Fits 2 :=
  DataFlow.fits_insert ⟨2, .ofList [("x", .all)], Nat.zero_lt_two,
    DataFlow.fits_insert ⟨2, .empty, Nat.zero_lt_two, fits_empty⟩ "x" (r := .all) trivial⟩ "y" (r := .sum) trivial

/-- What is fed is given back for both batches, and the sum of what is computed. -/
def anchoringConfig : SessionConfig :=
  { addingConfig with dataFlow := ⟨2, .ofList [("x", .all), ("y", .sum)], Nat.zero_lt_two, anchoring_fits⟩ }

/-- The session after it has been prepared and weights have been put on the device. -/
def furnished (s : Session) : Session := (uploadWeights.run s.readied).2

def anchoringIo : ArrayIo where
  inputs := .ofList [("x", ⟨⟨.float, [2, 1]⟩, .f32 [.one, .two]⟩)]
  outputs := .ofList [("x", ⟨⟨.float, [2, 1]⟩, .f32 [.zero, .zero]⟩), ("y", ⟨⟨.float, [1]⟩, .f32 [.zero]⟩)]

theorem anchors_of_step_adding : ∃ s f r st', (open_ anchoringConfig).run {} = (.ok s, f) ∧
    s.furnished.engine = some r ∧ (runStep ArrayIo.io .infer).run ⟨s.furnished, anchoringIo⟩ = (.ok (), st') ∧
    ∃ p rs data xs, Proceeds ArrayIo.io p rs data xs ⟨s.furnished, anchoringIo⟩ st' ∧
      (∃ a ∈ p.anchors, a.id = "x") ∧ ∀ k < p.batches, ∀ a ∈ p.anchors,
        ∃ v, Taken s.furnished.graph r.executable p (data k) (rs k) (rs (k + 1)) a v := by
  have hfacts : (((open_ anchoringConfig).run {}).1.bind fun s => do
      let r ← Outcome.promised s.furnished.engine
      let _ ← ((runStep ArrayIo.io .infer).run ⟨s.furnished, anchoringIo⟩).1
      return (s.usesCache, s.furnished.options.effectiveSynthetic, s.furnished.dataFlow.anchors.get? "x",
        s.furnished.dataFlow.anchors.keys.all fun id => decide (id ∈ (r.executable.streamsFor .infer).map (·.1) ∨
          id ∉ r.executable.streams.map (·.1)) && decide (id ∉ r.executable.optimizerStreams.map (·.1)))) =
      .ok (false, .off, some .all, true) := by decide +kernel
  obtain ⟨s, hopen, hfacts⟩ := Outcome.bind_eq_ok.1 hfacts
  obtain ⟨r, hr, hfacts⟩ := Outcome.bind_eq_ok.1 hfacts
  obtain ⟨_, hrun, hfacts⟩ := Outcome.bind_eq_ok.1 hfacts
  have hfacts := Except.ok.inj hfacts
  simp only [Prod.mk.injEq] at hfacts
  obtain ⟨huncached, hhost, hx, hall⟩ := hfacts
  rw [Outcome.promised_eq_ok] at hr
  have hcalls : Relation.ReflTransGen (Called True fun _ => True) s s.furnished :=
    (Relation.ReflTransGen.single (readied_called huncached)).tail .uploadWeights
  have hrun := Stateful.eq_ok_of_fst hrun
  obtain ⟨-, hstep⟩ := anchors_of_step ArrayIo.io .infer ⟨s.furnished, anchoringIo⟩
    (Platform.fitting_of_empty rfl rfl) (Stateful.eq_ok_of_fst hopen) hcalls hhost hr
  obtain ⟨p, rs, data, xs, hp, hproceeds, htaken⟩ := hstep _ hrun
  obtain ⟨a, ha, hid, -⟩ := hp.complete hx
  refine ⟨s, _, r, _, Stateful.eq_ok_of_fst hopen, hr, hrun, p, rs, data, xs, hproceeds, ⟨a, ha, hid⟩, fun k hk a ha => ?_⟩
  have hsourced := List.all_eq_true.1 hall a.id (Dict.mem_keys.2 ⟨_, (hp.anchors a ha).1⟩)
  rw [Bool.and_eq_true, decide_eq_true_eq, decide_eq_true_eq] at hsourced
  exact (htaken k hk).1 a ha ⟨fun h => hsourced.1.resolve_right fun hnot => hnot h, fun h => absurd h hsourced.2⟩

theorem labels_fit : ∀ a ∈ (Dict.ofList [("labels", ReturnType.final)]).entries, a.2.Fits 2 :=
  DataFlow.fits_insert ⟨2, .empty, passingFlow.batches_pos, fits_empty⟩ "labels" (r := .final) trivial

/-- Labels, which only the loss reads, are asked for. -/
def asking : Session := { passing with dataFlow := ⟨2, .ofList [("labels", .final)], passingFlow.batches_pos, labels_fit⟩ }

/-- Data of the right widths. -/
def askingIo : ArrayIo where
  inputs := .ofList
    [("x", ⟨⟨.float, [2, 1, 2]⟩, .f32 [.one, .zero, .zero, .one]⟩), ("labels", ⟨⟨.int32, [2, 1]⟩, .i32 [0, 1]⟩)]
  outputs := .ofList [("labels", ⟨⟨.int32, [1]⟩, .i32 [0]⟩)]

/-- Asking for a stream that the mode does not read is allowed, and fails for lack of a value. -/
theorem unread_stream_lacks :
    "labels" ∈ (Runtime.programOf passingGraph).availableAfter .infer ∧
    asking.anchorBuffers = .ok askingIo.outputs ∧
    ((runStep ArrayIo.io .infer).run ⟨asking, askingIo⟩).1 = .error (.lacks "labels") := by
  decide +kernel

end Session

end TensorGraph
