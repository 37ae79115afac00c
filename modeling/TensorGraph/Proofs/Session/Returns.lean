import TensorGraph.Proofs.Engine.Refinement
import TensorGraph.Proofs.Session.Programs
import TensorGraph.Proofs.Session.Steps

/-!
What steps give back. Buffers made for the anchors of a session always have room for what a step writes, so after any
number of successful steps the next one takes the batches in order and fills the buffers in order. After a step that
failed on the way this is no longer so.
-/
namespace TensorGraph

open TensorGraph.Graph

variable {g : Graph} {e : Executable} {flow : DataFlow} {r r' : Runtime} {st st' : Stepping ArrayIo} {io io' : ArrayIo}
  {p : StepPlan} {id : TensorId} {info : TensorInfo} {s : Session} {mode : RunMode}

/-! ## Room -/

namespace ArrayIo

/-- Whether the buffer of an anchor can take a value. -/
def takes (io : ArrayIo) (id : TensorId) (value : Storage) : Bool :=
  (io.outputs.get? id).any fun t => (t.data.write? (io.outputOffset id) value).isSome

/-- Data in arrays, where something else is done in place of a write that a buffer cannot take. -/
def ioOr (refused : TensorId → Storage → Stateful ArrayIo Unit) : StepIo ArrayIo :=
  { ArrayIo.io with
    output := fun id value => do if (← get).takes id value then output id value else refused id value }

end ArrayIo

namespace Session

variable {refused : TensorId → Storage → Stateful ArrayIo Unit} {sums : Dict TensorId Storage} {a : StepAnchor}

theorem Ongoing.takes {x : Storage} (h : Ongoing True g e flow p r st sums) (hp : p.Follows g e flow mode)
    (ha : a ∈ p.anchors) (hx : x.length = a.info.count ∧ x.kind = a.info.dtype.storage) : st.data.takes a.id x = true := by
  obtain ⟨hreturns, hinfo⟩ := hp.anchors a ha
  obtain ⟨t, ht, hlen⟩ := h.sized.outputs ha
  obtain ⟨k, hk, hoffset⟩ := h.placed.outputs hreturns hinfo
  have hle : st.data.outputOffset a.id + x.length ≤ t.data.length := by
    rw [hoffset, hx.1, hlen, hp.batches, ← Nat.succ_mul]
    exact Nat.mul_le_mul_right _ hk
  obtain ⟨data, hdata⟩ := Storage.write?_isSome hle (hx.2.trans (h.placed.kinds trivial hreturns hinfo ht).symm)
  rw [ArrayIo.takes, ht, Option.any_some, hdata]
  rfl

theorem write_congr {x : Storage} (h : Ongoing True g e flow p r st sums) (hp : p.Follows g e flow mode) (ha : a ∈ p.anchors)
    (hx : x.length = a.info.count ∧ x.kind = a.info.dtype.storage) :
    (Stepping.onData ((ArrayIo.ioOr refused).output a.id x)).run st = (Stepping.onData (ArrayIo.io.output a.id x)).run st := by
  have hsame : ((ArrayIo.ioOr refused).output a.id x).run st.data = (ArrayIo.output a.id x).run st.data := by
    change (get >>= fun io => if io.takes a.id x = true then ArrayIo.output a.id x else refused a.id x).run st.data = _
    rw [Stateful.run_bind, Stateful.run_get]
    simp only [h.takes hp ha hx, if_true]
  rw [Stepping.onData, Stepping.onData, Stateful.run_focus, Stateful.run_focus, hsame]
  rfl

theorem giveBack_congr (i : Nat) (hp : p.Follows g e flow mode) (ha : a ∈ p.anchors)
    (h : Ongoing True g e flow p r st sums) :
    (giveBack (ArrayIo.ioOr refused) p i sums a).run st = (giveBack ArrayIo.io p i sums a).run st := by
  have hvalue : ∀ {data st'}, (deviceValue p.mode.label a.id).run st = (.ok data, st') →
      st' = st ∧ data.length = a.info.count ∧ data.kind = a.info.dtype.storage := by
    intro data st' hdata
    obtain ⟨rfl, v, hv, rfl⟩ := (deviceValue_ends p.mode.label h.serves.engine).ok hdata
    exact ⟨rfl, (hp.value ha h.serves.labelled hv).2⟩
  unfold giveBack
  simp only
  split
  · refine Stateful.run_bind_congr rfl fun data st₁ hrun => Stateful.run_bind_congr rfl fun sums' st₂ hadd => ?_
    obtain ⟨rfl, hdata⟩ := hvalue hrun
    obtain ⟨hadded, rfl⟩ := Prod.mk.inj hadd
    obtain ⟨total, hadds, rfl⟩ := addTo_ok hadded
    have htotal := hadds.sized hdata fun t ht => h.summed a ha t ht
    split
    · rw [Dict.get?_insert, if_pos rfl]
      exact Stateful.run_bind_congr (write_congr (h.add hp ha htotal) hp ha htotal) fun _ _ _ => rfl
    · rfl
  · split
    · refine Stateful.run_bind_congr rfl fun data st₁ hrun => ?_
      obtain ⟨rfl, hdata⟩ := hvalue hrun
      exact Stateful.run_bind_congr (write_congr h hp ha hdata) fun _ _ _ => rfl
    · rfl

theorem giveAll_congr (i : Nat) (hp : p.Follows g e flow mode) :
    ∀ {l : List StepAnchor} {st : Stepping ArrayIo} {sums : Dict TensorId Storage}, l ⊆ p.anchors →
    Ongoing True g e flow p r st sums →
    (l.foldlM (giveBack (ArrayIo.ioOr refused) p i) sums).run st = (l.foldlM (giveBack ArrayIo.io p i) sums).run st
  | [], _, _, _, _ => rfl
  | a :: l, st, sums, hl, h => by
    have ha : a ∈ p.anchors := hl (by simp)
    rw [List.foldlM_cons, List.foldlM_cons]
    exact Stateful.run_bind_congr (giveBack_congr i hp ha h) fun sums' st' hgive =>
      giveAll_congr i hp (fun x hx => hl (List.mem_cons_of_mem _ hx)) ((giveBack_ends i hp ha h).ok hgive).1

theorem runBatches_congr (hp : p.Follows g e flow mode) : ∀ {n i : Nat} {r : Runtime} {st : Stepping ArrayIo}
    {sums : Dict TensorId Storage}, Ongoing True g e flow p r st sums →
    (runBatches (ArrayIo.ioOr refused) p n i sums).run st = (runBatches ArrayIo.io p n i sums).run st
  | 0, _, _, _, _, _ => rfl
  | n + 1, i, r, st, sums, h => by
    refine Stateful.run_bind_congr ?_ fun sums' st' hbatch => ?_
    · -- streams are fed alike, since only writes differ
      have heq : runBatch (ArrayIo.ioOr refused) p i sums = (do
          compute p
          if (← get).session.options.effectiveSynthetic = .off then
            p.anchors.foldlM (giveBack (ArrayIo.ioOr refused) p i) sums
          else return sums) := by
        simp only [runBatch, compute, bind_assoc]
        rfl
      rw [heq, runBatch_eq]
      refine Stateful.run_bind_congr rfl fun _ st₁ hcompute => Stateful.run_bind_congr rfl fun st₂ st₃ hget => ?_
      cases hget
      obtain ⟨r', data, hgoing, -⟩ := (compute_ends hp h).ok hcompute
      split
      · exact giveAll_congr i hp (fun _ hx => hx) hgoing
      · rfl
    · obtain ⟨r', hgoing, -⟩ := (runBatch_ends i hp h).ok hbatch
      exact runBatches_congr hp hgoing

/-- A step never writes what a buffer cannot take. -/
theorem runStep_congr (mode : RunMode) (h : Stands True g e flow st) :
    (runStep (ArrayIo.ioOr refused) mode).run st = (runStep ArrayIo.io mode).run st := by
  obtain ⟨r, hserves⟩ := h.serves
  refine Stateful.run_bind_congr rfl fun st₁ st₂ hget => ?_
  cases hget
  refine Stateful.run_bind_congr rfl fun p st₂ hrun => ?_
  obtain ⟨hplan, rfl⟩ := Prod.mk.inj hrun
  obtain ⟨hp, -⟩ := plan_ok hserves hplan
  rw [if_pos hserves.host, if_pos hserves.host]
  refine Stateful.run_bind_congr rfl fun _ st₂ hlift => Stateful.run_bind_congr ?_ fun _ _ _ => rfl
  obtain ⟨hcheck, rfl⟩ := Prod.mk.inj hlift
  obtain ⟨ins, hins, hcheck⟩ := Outcome.bind_eq_ok.1 hcheck
  obtain ⟨outs, houts, hcheck⟩ := Outcome.bind_eq_ok.1 hcheck
  have hsized := sized_of_check hp hserves.labelled.labels hins houts hcheck
  exact runBatches_congr hp ⟨hserves, h.placed, hsized, fun _ _ _ ht => by cases ht⟩

/-! ## Successful steps -/

theorem Stands.executable {typed : Prop} (h : Stands typed g e flow st) (hr : st.session.engine = some r) :
    r.executable = e := by
  obtain ⟨r', hserves⟩ := h.serves
  cases hr.symm.trans hserves.engine
  exact hserves.labelled.executable

/-- The program of a session is that of its graph, and its values have the infos of their tensors. -/
def Conforms (s : Session) : Prop := ∃ e r, s.engine = some r ∧ r.Labelled s.graph e

/-- Calls never lose this: with a program a session conforms, and once it has been prepared it has one unless it is to do
without. -/
theorem Opened.conforms_calls {W : Prop} {V : HostTensor → Prop} {s t : Session} (hs : s.Opened)
    (hcalls : Relation.ReflTransGen (Called W V) s t) : (t.engine.isSome = true → t.Conforms) ∧
      (t.isPrepared = true → t.options.compileEngine = true → t.Conforms) := by
  obtain ⟨hd, h⟩ := calls_keep (P := fun t => Descends s t ∧ Conforming s t)
    (fun ht hturn => ⟨ht.1.turn hs.serving.steady hturn, ht.2.turn hs ht.1 hturn⟩) ⟨hs.descends, hs.conforming⟩ hcalls
  have hconforms : t.engine.isSome = true → t.Conforms := fun hsome => by
    obtain ⟨r, hr⟩ := Option.isSome_iff_exists.1 hsome
    exact ⟨r.executable, r, hr, (h.device r hr).congr hd.relocated.moved.info?_eq.symm⟩
  exact ⟨hconforms, fun hprepared hcompile => hconforms (h.loaded hprepared (hd.options ▸ hcompile))⟩

theorem Ran.congr {source source' : TensorId → Nat → Nat} {target target' : StepAnchor → Nat → Nat} {r : Nat → Runtime}
    (h : Ran p source target r io io') (hsource : ∀ id, ∀ b < p.batches, source id b = source' id b)
    (htarget : ∀ a ∈ p.anchors, ∀ j < a.returns.returns p.batches, target a j = target' a j) : Ran p source' target' r io io' := by
  refine ⟨fun b hb => ?_, fun a ha => ?_, h.inputs, h.inputPlaces, h.outputPlaces⟩
  · obtain ⟨data, htaken, hrun⟩ := h.batches b hb
    refine ⟨data, fun id info hid => ?_, hrun⟩
    rw [← hsource id b hb]
    exact htaken id info hid
  · obtain ⟨t, ht, hlen, hvalues⟩ := h.anchors a ha
    refine ⟨t, ht, hlen, fun j hj => ?_⟩
    rw [← htarget a ha j hj]
    exact hvalues j hj

theorem returns_pos_of_flow {t : ReturnType} (ht : flow.anchors.get? id = some t) : 0 < t.returns flow.batches :=
  ReturnType.returns_pos flow.batches_pos (flow.fits (id, t) (Dict.mem_entries.2 ht))

theorem zeros_kind {t : HostTensor} (h : HostTensor.zeros info = .ok t) : t.data.kind = info.dtype.storage := by
  obtain ⟨n, -, h⟩ := Outcome.bind_eq_ok.1 h
  obtain ⟨d, hd, h⟩ := Outcome.bind_eq_ok.1 h
  cases h
  obtain ⟨_, -, hd⟩ := Outcome.bind_eq_ok.1 hd
  split at hd <;> cases hd <;> simp_all [Storage.kind]

/-- Buffers made for the anchors of a session have the widths of their tensors. -/
theorem anchorBuffers_kinds {buffers : Anchors} (h : s.anchorBuffers = .ok buffers) {t : ReturnType} {x : HostTensor}
    (ht : s.dataFlow.anchors.get? id = some t) (hinfo : s.graph.info? id = some info) (hx : buffers.get? id = some x) :
    x.data.kind = info.dtype.storage := by
  unfold anchorBuffers at h
  obtain ⟨l, hl, h⟩ := Outcome.bind_eq_ok.1 h
  cases h
  rw [Outcome.mapM_eq_ok] at hl
  have hmade : ∀ {entry : TensorId × ReturnType} {b : TensorId × HostTensor}, (do
      let info ← s.graph.info entry.1
      return (entry.1, ← HostTensor.zeros (entry.2.bufferInfo s.dataFlow.batches info))) =
        (.ok b : Outcome (TensorId × HostTensor)) →
      b.1 = entry.1 ∧ ∀ info, s.graph.info? entry.1 = some info → b.2.data.kind = info.dtype.storage := by
    intro entry b hb
    obtain ⟨info', hinfo', hb⟩ := Outcome.bind_eq_ok.1 hb
    obtain ⟨t, ht, hb⟩ := Outcome.bind_eq_ok.1 hb
    cases hb
    refine ⟨rfl, fun info hinfo => ?_⟩
    rw [Graph.info, Outcome.orFail_eq_ok, hinfo, Option.some.injEq] at hinfo'
    rw [zeros_kind ht, hinfo']
    unfold ReturnType.bufferInfo
    split <;> rfl
  have hkeys : l.map (·.1) = s.dataFlow.anchors.entries.map (·.1) :=
    eq_map_of_forall₂ (List.forall₂_map_right_iff.2 (hl.imp fun _ _ hb => (hmade hb).1))
  have hentry : (id, t) ∈ s.dataFlow.anchors.entries := Dict.mem_entries.2 ht
  obtain ⟨b, hb, hof⟩ := exists_of_forall₂ hl (id, t) hentry
  obtain ⟨hid, hkind⟩ := @hmade (id, t) b hof
  have hnodup : (l.map (·.1)).Nodup := by
    rw [hkeys]
    exact Dict.nodup_keys _
  have hmem : (id, b.2) ∈ l := by
    rw [← show b.1 = id from hid]
    exact hb
  have hget := Dict.get?_ofList hnodup hmem
  rw [hx, Option.some.injEq] at hget
  rw [hget]
  exact hkind info hinfo

theorem offsets_of_fresh (hfresh : io.inputCursors = .empty ∧ io.outputCursors = .empty) (id : TensorId) :
    io.inputOffset id = 0 ∧ io.outputOffset id = 0 := by
  rw [ArrayIo.inputOffset, ArrayIo.outputOffset, hfresh.1, hfresh.2]
  exact ⟨rfl, rfl⟩

/-- Fresh places are at the starts. -/
theorem placed_of_fresh {typed : Prop} (hfresh : io.inputCursors = .empty ∧ io.outputCursors = .empty)
    (hkinds : typed → ∀ {id t info x}, flow.anchors.get? id = some t → g.info? id = some info → io.outputs.get? id = some x →
      x.data.kind = info.dtype.storage) : io.Placed typed g e flow := by
  have hstart := offsets_of_fresh hfresh
  refine ⟨fun {id info} _ => ⟨0, flow.batches_pos, ?_⟩, fun {id t info} ht _ => ⟨0, returns_pos_of_flow ht, ?_⟩, hkinds⟩
  · exact (hstart id).1.trans (Nat.zero_mul _).symm
  · exact (hstart id).2.trans (Nat.zero_mul _).symm

theorem stands_of_fresh (typed : Prop) (hs : s.Conforms) (hhost : s.options.effectiveSynthetic = .off)
    (hfresh : io.inputCursors = .empty ∧ io.outputCursors = .empty) (hbuffers : typed → s.anchorBuffers = .ok io.outputs) : ∃ e, Stands typed s.graph e s.dataFlow ⟨s, io⟩ := by
  obtain ⟨e, r, hengine, hlabelled⟩ := hs
  exact ⟨e, ⟨r, rfl, rfl, hhost, hengine, hlabelled⟩, placed_of_fresh hfresh fun h => anchorBuffers_kinds (hbuffers h)⟩

/-- A step from the starts takes the batches in order, fills the buffers in order and ends at the starts. -/
theorem runStep_aligned {typed : Prop} (h : Stands typed g e flow st)
    (hstart : ∀ id, st.data.inputOffset id = 0 ∧ st.data.outputOffset id = 0)
    (hrun : (runStep ArrayIo.io mode).run st = (.ok (), st')) :
    Stands typed g e flow st' ∧ (∀ id, st'.data.inputOffset id = 0 ∧ st'.data.outputOffset id = 0) ∧
    ∃ p r c, p.Follows g e flow mode ∧ st.session.engine = some (r 0) ∧
      st'.session.engine = some { r p.batches with counters := c } ∧
      Ran p (fun _ b => b) (fun _ j => j) r st.data st'.data := by
  obtain ⟨hstands, p, r, c, hplan, hfirst, hlast, hran⟩ := (runStep_ends mode h).ok hrun
  obtain ⟨r₀, hserves⟩ := h.serves
  have hturned := hran (fun _ => 0) (fun _ => 0)
    (fun id info _ => by rw [(hstart id).1, Nat.zero_mod, Nat.zero_mul])
    (fun a _ => by rw [(hstart a.id).2, Nat.zero_mod, Nat.zero_mul])
  refine ⟨hstands, fun id => ⟨(hturned.inputPlaces id).trans (hstart id).1, (hturned.outputPlaces id).trans (hstart id).2⟩,
    p, r, c, (plan_ok hserves hplan).1, hfirst, hlast, hturned.congr (fun id b hb => ?_) fun a _ j hj => ?_⟩
  · simp only [Nat.zero_add, Nat.mod_eq_of_lt hb]
  · simp only [Nat.zero_add, Nat.mod_eq_of_lt hj]

theorem steps_aligned {typed : Prop} {modes : List RunMode} (h : Stands typed g e flow st)
    (hstart : ∀ id, st.data.inputOffset id = 0 ∧ st.data.outputOffset id = 0)
    (hrun : (modes.forM (runStep ArrayIo.io)).run st = (.ok (), st')) :
    Stands typed g e flow st' ∧ ∀ id, st'.data.inputOffset id = 0 ∧ st'.data.outputOffset id = 0 :=
  Stateful.run_forM_keeps
    (fun st => Stands typed g e flow st ∧ ∀ id, st.data.inputOffset id = 0 ∧ st.data.outputOffset id = 0)
    (fun mode _ {st₁ st₂} h hstep => by
      obtain ⟨h', hstart', -⟩ := runStep_aligned h.1 h.2 hstep
      exact ⟨h', hstart'⟩) ⟨h, hstart⟩ hrun

/-- After any number of successful steps on fresh arrays and on the buffers of the session all places are at the starts.
The next step never writes what a buffer cannot take. If it succeeds, its batch `b` takes the `b`-th batch of every array
that it reads, and the buffer of an anchor is made of the values of the batches that its return type names, in their
order, or of the sum over all batches. -/
theorem steps_fill_buffers {modes : List RunMode} (hs : s.Conforms) (hhost : s.options.effectiveSynthetic = .off)
    (hfresh : io.inputCursors = .empty ∧ io.outputCursors = .empty) (hbuffers : s.anchorBuffers = .ok io.outputs)
    (hrun : (modes.forM (runStep ArrayIo.io)).run ⟨s, io⟩ = (.ok (), st)) :
    (∀ id, st.data.inputOffset id = 0 ∧ st.data.outputOffset id = 0) ∧ ∀ mode,
      (∀ refused, (runStep (ArrayIo.ioOr refused) mode).run st = (runStep ArrayIo.io mode).run st) ∧
      ∀ st', (runStep ArrayIo.io mode).run st = (.ok (), st') → ∃ p r c, st.session.engine = some (r 0) ∧
        p.Follows s.graph (r 0).executable s.dataFlow mode ∧
        st'.session.engine = some { r p.batches with counters := c } ∧
        Ran p (fun _ b => b) (fun _ j => j) r st.data st'.data := by
  obtain ⟨e, hstands⟩ := stands_of_fresh True hs hhost hfresh fun _ => hbuffers
  obtain ⟨hstands, hstart⟩ := steps_aligned hstands (offsets_of_fresh hfresh) hrun
  refine ⟨hstart, fun mode => ⟨fun refused => runStep_congr mode hstands, fun st' hstep => ?_⟩⟩
  obtain ⟨-, -, p, r, c, hp, hengine, hran⟩ := runStep_aligned hstands hstart hstep
  exact ⟨p, r, c, hengine, hstands.executable hengine ▸ hp, hran⟩

/-! ### A session that passes a stream on -/

/-- A stream passes through an identity, and a loss reads the result beside labels. -/
def passingGraph : Graph :=
  [Edit.addTensor "x" ⟨.float, [1, 2]⟩ .stream none, .addTensor "labels" ⟨.int32, [1]⟩ .stream none,
    .addOp .identity ["x"] ["y"] .forward, .addOp (.nll .sum none) ["y", "labels"] ["loss"] .loss, .keep "y",
    .keep "labels"].foldl (fun g e => (e.call.run g).2) Graph.empty

theorem passingGraph_sound : passingGraph.Sound := by
  have h : Edited Graph.empty passingGraph :=
    .call _ (.call _ (.call _ (.call _ (.call _ (.call _ .start trivial) trivial) trivial) trivial) trivial) trivial
  exact h.sound .empty

theorem fits_empty {n : Nat} : ∀ a ∈ (Dict.empty : Dict TensorId ReturnType).entries, a.2.Fits n := fun _ h => by cases h

/-- Two batches, and what passes is given back for both. -/
def passingFlow : DataFlow where
  batches := 2
  anchors := .ofList [("y", .all)]
  batches_pos := by decide
  fits := DataFlow.fits_insert ⟨2, .empty, by decide, fits_empty⟩ "y" (r := .all) trivial

def passing : Session where
  model := { name := "passing", nodes := [], inputs := [], outputs := [], initializers := [], valueInfo := [] }
  graph := passingGraph
  dataFlow := passingFlow
  options := {}
  device := ⟨0, .cpu⟩
  hasLease := false
  optimizer := none
  hasLosses := true
  hostWeights := .empty
  graphHash := 0
  cacheKey := 0
  state := .prepared
  engine := some (Runtime.load (.reference "cpu") (Runtime.programOf passingGraph))
  random := .ofSeed 0
  log := []

theorem passing_conforms : passing.Conforms := by
  refine ⟨Runtime.programOf passingGraph, _, rfl, .load (Backend.reference_labels _)
    (Executable.compile_labels passingGraph_sound ?_ (show Executable.compile passingGraph 1 0 = _ by rfl)) (by decide)⟩
  have hops : ∀ op ∈ passingGraph.ops.values, op.kind ≠ .sgdVarUpdate := by decide
  exact fun {o op _ _} ho hk => absurd hk (hops op (Dict.mem_values.2 ⟨o, ho⟩))

/-- Two batches of one row each. The labels have another width than their stream. -/
def passingIo : ArrayIo where
  inputs := .ofList
    [("x", ⟨⟨.float, [2, 1, 2]⟩, .f32 [.one, .zero, .zero, .one]⟩), ("labels", ⟨⟨.int64, [2, 1]⟩, .i64 [0, 0]⟩)]
  outputs := .ofList [("y", ⟨⟨.float, [2, 1, 2]⟩, .f32 [.zero, .zero, .zero, .zero]⟩)]

theorem steps_fill_buffers_passing : ∃ st st', (([.infer] : List RunMode).forM (runStep ArrayIo.io)).run ⟨passing, passingIo⟩ = (.ok (), st) ∧
    (runStep ArrayIo.io .infer).run st = (.ok (), st') ∧
    (∃ p r, Ran p (fun _ b => b) (fun _ j => j) r st.data st'.data) ∧
    (st'.data.outputs.get? "y").map (·.data) = (passingIo.inputs.get? "x").map (·.data) := by
  have hrun := Stateful.eq_ok_of_fst
    (show ((([.infer] : List RunMode).forM (runStep ArrayIo.io)).run ⟨passing, passingIo⟩).1 = .ok () by decide +kernel)
  have hstep := Stateful.eq_ok_of_fst (show ((runStep ArrayIo.io .infer).run
    ((([.infer] : List RunMode).forM (runStep ArrayIo.io)).run ⟨passing, passingIo⟩).2).1 = .ok () by decide +kernel)
  obtain ⟨-, hsteps⟩ := steps_fill_buffers passing_conforms (by decide) ⟨rfl, rfl⟩ (by decide +kernel) hrun
  obtain ⟨p, r, c, -, -, -, hran⟩ := (hsteps .infer).2 _ hstep
  exact ⟨_, _, hrun, hstep, ⟨p, r, hran⟩, by decide +kernel⟩

/-! ## Steps after failed ones -/

/-- The state after steps in some modes, whether they succeed or fail. -/
def after (st : Stepping ArrayIo) (modes : List RunMode) : Stepping ArrayIo :=
  modes.foldl (fun st mode => ((runStep ArrayIo.io mode).run st).2) st

theorem Stands.after {typed : Prop} : ∀ (modes : List RunMode) {st : Stepping ArrayIo}, Stands typed g e flow st →
    Stands typed g e flow (after st modes)
  | [], _, h => h
  | mode :: modes, st, h => by
    refine Stands.after modes ?_
    change Stands typed g e flow ((runStep ArrayIo.io mode).run st).2
    rcases hrun : (runStep ArrayIo.io mode).run st with ⟨f | a, st'⟩
    · exact (runStep_ends mode h).error hrun
    · exact ((runStep_ends mode h).ok hrun).1

/-- After any steps on fresh arrays, whether they succeed or fail, a step that succeeds takes the batches of each array
in turned order and fills each buffer in turned order, and all later steps do so too until the next one that fails. The
orders are not turned if no step before it has failed. -/
theorem step_turned {modes : List RunMode} (hs : s.Conforms) (hhost : s.options.effectiveSynthetic = .off)
    (hfresh : io.inputCursors = .empty ∧ io.outputCursors = .empty)
    (hrun : (runStep ArrayIo.io mode).run (after ⟨s, io⟩ modes) = (.ok (), st')) :
    ∃ p r k q, (after ⟨s, io⟩ modes).session.engine = some (r 0) ∧
      p.Follows s.graph (r 0).executable s.dataFlow mode ∧
      Ran p (fun id b => (k id + b) % p.batches) (fun a j => (q a + j) % a.returns.returns p.batches) r
        (after ⟨s, io⟩ modes).data st'.data ∧
      ((modes.forM (runStep ArrayIo.io)).run ⟨s, io⟩ = (.ok (), after ⟨s, io⟩ modes) → k = (fun _ => 0) ∧ q = fun _ => 0) := by
  obtain ⟨e, hfirst⟩ := stands_of_fresh False hs hhost hfresh fun h => h.elim
  have hstands := hfirst.after modes
  obtain ⟨-, p, r, c, hplan, hengine, -, hran⟩ := (runStep_ends mode hstands).ok hrun
  obtain ⟨r₀, hserves⟩ := hstands.serves
  have hp := (plan_ok hserves hplan).1
  obtain rfl := hstands.executable hengine
  by_cases hstart : ∀ id, (after ⟨s, io⟩ modes).data.inputOffset id = 0 ∧ (after ⟨s, io⟩ modes).data.outputOffset id = 0
  · exact ⟨p, r, fun _ => 0, fun _ => 0, hengine, hp, hran _ _
      (fun id info _ => by rw [(hstart id).1, Nat.zero_mod, Nat.zero_mul])
      (fun a _ => by rw [(hstart a.id).2, Nat.zero_mod, Nat.zero_mul]), fun _ => ⟨rfl, rfl⟩⟩
  · have hin : ∀ id, ∃ k, ∀ info, (id, info) ∈ p.streams →
        (after ⟨s, io⟩ modes).data.inputOffset id = k % p.batches * info.count := by
      intro id
      by_cases hid : ∃ info, (id, info) ∈ p.streams
      · obtain ⟨info, hid⟩ := hid
        have hmem : ∀ {info}, (id, info) ∈ p.streams → (id, info) ∈ (r 0).executable.streams := by
          intro info hid
          rw [hp.streams] at hid
          exact (List.mem_filter.1 hid).1
        obtain ⟨k, hk, hoffset⟩ := hstands.placed.inputs (hmem hid)
        refine ⟨k, fun info' hid' => ?_⟩
        have hlabels := hserves.labelled.labels
        obtain rfl : info = info' := Option.some.inj ((hlabels.streams (hmem hid)).symm.trans (hlabels.streams (hmem hid')))
        rw [hp.batches, Nat.mod_eq_of_lt hk, hoffset]
      · exact ⟨0, fun info hid' => absurd ⟨info, hid'⟩ hid⟩
    have hout : ∀ a, ∃ k, a ∈ p.anchors →
        (after ⟨s, io⟩ modes).data.outputOffset a.id = k % a.returns.returns p.batches * a.info.count := by
      intro a
      by_cases ha : a ∈ p.anchors
      · obtain ⟨k, hk, hoffset⟩ := hstands.placed.outputs (hp.anchors a ha).1 (hp.anchors a ha).2
        refine ⟨k, fun _ => ?_⟩
        rw [hp.batches, Nat.mod_eq_of_lt hk, hoffset]
      · exact ⟨0, fun h => absurd h ha⟩
    choose k hk using hin
    choose q hq using hout
    exact ⟨p, r, k, q, hengine, hp, hran k q hk hq, fun hsteps =>
      absurd (steps_aligned hfirst (offsets_of_fresh hfresh) hsteps).2 hstart⟩

theorem step_turned_passing : ∃ st', (runStep ArrayIo.io .infer).run (after ⟨passing, passingIo⟩ [.evaluate]) = (.ok (), st') ∧
    ∃ (p : StepPlan) (r : Nat → Runtime) (k : TensorId → Nat) (q : StepAnchor → Nat),
      Ran p (fun id b => (k id + b) % p.batches) (fun a j => (q a + j) % a.returns.returns p.batches) r
        (after ⟨passing, passingIo⟩ [.evaluate]).data st'.data := by
  have hstep := Stateful.eq_ok_of_fst
    (show ((runStep ArrayIo.io .infer).run (after ⟨passing, passingIo⟩ [.evaluate])).1 = .ok () by decide +kernel)
  obtain ⟨p, r, k, q, -, -, hran, -⟩ := step_turned passing_conforms (by decide) ⟨rfl, rfl⟩ hstep
  exact ⟨_, hstep, p, r, k, q, hran⟩

/-- A step fails in its first batch, after the first row has been taken. The step after it succeeds, and gives back the
second row for its first batch and the first row for its second batch. -/
theorem failed_step_turns_rows :
    ((runStep ArrayIo.io .evaluate).run ⟨passing, passingIo⟩).1 ≠ .ok () ∧
    (after ⟨passing, passingIo⟩ [.evaluate]).data.inputOffset "x" = 2 ∧
    ((runStep ArrayIo.io .infer).run (after ⟨passing, passingIo⟩ [.evaluate])).1 = .ok () ∧
    ((after ⟨passing, passingIo⟩ [.evaluate]).data.inputs.get? "x").map (·.data) = some (.f32 [.one, .zero, .zero, .one]) ∧
    ((after ⟨passing, passingIo⟩ [.evaluate, .infer]).data.outputs.get? "y").map (·.data) =
      some (.f32 [.zero, .one, .one, .zero]) := by
  decide +kernel

end Session

end TensorGraph
