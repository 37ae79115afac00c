import TensorGraph.Proofs.Engine.Values
import TensorGraph.Proofs.Graph.Signature
import TensorGraph.Proofs.Session.Preparing
import TensorGraph.Session.Run
import TensorGraph.Session.Weights

/-!
Calls on a session, in any order, whether they succeed or fail. What a call can do is put down once, as a sequence of
turns: a program is loaded, values are put on the device, weights or the optimizer are replaced, or batches run.
-/
namespace TensorGraph

open Stateful

/-- What feeding a program and running its batches in a mode may leave, also where a batch fails. -/
inductive Runtime.Driven (mode : RunMode) : Runtime → Runtime → Prop
  | refl (r : Runtime) : Driven mode r r
  | feed {r r' : Runtime} (h : Driven mode r r') {id : TensorId} {info : TensorInfo} {data : Storage} {x : HostTensor}
      (hid : (id, info) ∈ r'.executable.streams) (hx : HostTensor.ofStorage info data = .ok x) :
      Driven mode r (r'.upload id x)
  | batch {r r' : Runtime} (h : Driven mode r r') : Driven mode r ((Runtime.runBatch mode).run r').2
  | count {r r' : Runtime} (h : Driven mode r r') (f : Counters → Counters) :
      Driven mode r { r' with counters := f r'.counters }

theorem Runtime.Driven.same {mode : RunMode} {r r' : Runtime} (h : Driven mode r r') : Same r r' := by
  induction h with
  | refl => exact .refl _
  | feed _ _ _ ih => exact ih
  | batch _ ih => exact ih.trans (same_runBatch mode _)
  | count _ _ ih => exact ih

/-- A program after values were put on the device. -/
def Runtime.withValues (r : Runtime) (values : List (TensorId × HostTensor)) : Runtime :=
  values.foldl (fun r (id, value) => r.upload id value) r

theorem Runtime.same_withValues : ∀ (values : List (TensorId × HostTensor)) (r : Runtime), Same r (r.withValues values)
  | [], r => .refl r
  | (id, value) :: values, r => same_withValues values (r.upload id value)

/-- The streamed settings of an optimizer that a program takes, with their values. -/
def Sgd.streamedValues (o : Sgd) (e : Executable) : List (TensorId × HostTensor) :=
  e.optimizerStreams.filterMap fun x => (o.values.lookup x.1).map fun v => (x.1, .ofSingle v.value)

namespace Session

/-- The graph of another session has the fingerprint of the graph of this one, with its ops where they were once. -/
def Matches (s s₁ : Session) : Prop :=
  ∃ g, Graph.Relocated s.graph g ∧ g.Encodable ∧ s₁.graph.Encodable ∧ g.signature = s₁.graph.signature

/-- The program `e` is one of the session: it is compiled, with ops anywhere, from its graph or from that of a session
that it matches. -/
def Compiles (s : Session) (e : Executable) : Prop :=
  ∃ g n, (Graph.Relocated s.graph g ∨ ∃ s₁ : Session, s₁.Opened ∧ s.Matches s₁ ∧ Graph.Relocated s₁.graph g) ∧
    Executable.compile g n s.graphHash = .ok e

/-- A call and what it leaves, also if it fails. Where `W` does not hold, the call is none that is to change weights, and
weights that are written are in the class `V`. A program that a preparation finds was compiled by a session of the same
fingerprint. -/
inductive Called (W : Prop) (V : HostTensor → Prop) (s : Session) : Session → Prop
  | prepare (p : Platform) (hfound : ∀ e h, findEngine.run ⟨p, s⟩ = (.ok (some e), h) → s.Compiles e) :
      Called W V s (prepare.run ⟨p, s⟩).2.session
  | uploadWeights : Called W V s (uploadWeights.run s).2
  | uploadOptimizer : Called W V s (uploadOptimizer.run s).2
  | updateOptimizer (optimizer : Sgd) : Called W V s ((updateOptimizer optimizer).run s).2
  | writeWeights (hw : W) (weights : Dict TensorId HostTensor) (hvalues : ∀ iv ∈ weights.entries, V iv.2) :
      Called W V s ((writeWeights weights).run s).2
  | resetWeights (hw : W) (bytes : Bytes) : Called W V s ((resetWeights bytes).run s).2
  | runStep {σ : Type} (io : StepIo σ) (mode : RunMode) (hw : mode = .train → W) (data : σ) :
      Called W V s ((runStep io mode).run ⟨s, data⟩).2.session

/-- One thing that a call can do to a session. -/
inductive Turn (W : Prop) (V : HostTensor → Prop) (s : Session) : Session → Prop
  | note (state : SessionState) (hstate : state = s.state ∨ s.engine.isSome = true ∧ state ≠ .constructed)
      (stepsRun : Nat) (random : Random.Generator) (log : List Diagnostic) :
      Turn W V s { s with state, stepsRun, random, log }
  | place {t : Session} (hstate : s.state = .constructed) (cacheHit : Bool) (h : Along { s with cacheHit } t) : Turn W V s t
  | prepare {t : Session} (p : Platform) (hfound : ∀ e h, findEngine.run ⟨p, s⟩ = (.ok (some e), h) → s.Compiles e)
      (h : Prepared ⟨p, s⟩ t) : Turn W V s t
  | uploadWeights {r : Runtime} (hr : s.engine = some r) :
      Turn W V s { s with engine := some (r.withValues s.hostWeights.entries), weightsUploaded := true }
  | uploadOptimizer {r : Runtime} {o : Sgd} (hr : s.engine = some r) (ho : s.optimizer = some o) :
      Turn W V s { s with engine := some (r.withValues (o.streamedValues r.executable)), optimizerUploaded := true }
  | updateOptimizer {o o' : Sgd} (ho : s.optimizer = some o) (h : o.replaceableBy o' = true) :
      Turn W V s { s with optimizer := some o', optimizerUploaded := false }
  | writeWeight (hw : W) {id : TensorId} {current value : HostTensor} (hid : s.hostWeights.get? id = some current)
      (hinfo : current.info = value.info) (hvalue : V value) :
      Turn W V s { s with
        hostWeights := s.hostWeights.insert id value
        engine := if s.weightsUploaded then s.engine.map (·.upload id value) else s.engine }
  | resetWeight (hw : W) {init : NamedTensor} {current value : HostTensor}
      (hid : s.hostWeights.get? init.name = some current) (hinfo : current.info = init.info)
      (hvalue : HostTensor.ofStorage init.info init.data = .ok value) :
      Turn W V s { s with hostWeights := s.hostWeights.insert init.name value }
  | serve {mode : RunMode} (hw : mode = .train → W) {r r' : Runtime} (hr : s.engine = some r)
      (h : Runtime.Driven mode r r') : Turn W V s { s with engine := some r' }

variable {W : Prop} {V : HostTensor → Prop} {s t : Session} {mode : RunMode} {r : Runtime} {σ : Type}

/-- Turns, one after the other. -/
abbrev Turns (W : Prop) (V : HostTensor → Prop) : Session → Session → Prop := Relation.ReflTransGen (Turn W V)

/-! ## Calls on the loaded program -/

theorem engineFor_eq_ok {call : String} : s.engineFor call = .ok r ↔ s.isPrepared = true ∧ s.engine = some r := by
  unfold engineFor
  split
  · rename_i h
    rw [Outcome.orFail_eq_ok]
    exact ⟨fun hr => ⟨h, hr⟩, fun hr => hr.2⟩
  · rename_i h
    exact ⟨nofun, fun hr => absurd hr.1 h⟩

theorem run_onEngine_ok {α : Type} {call : String} (x : RuntimeM α) (h : s.engineFor call = .ok r) :
    (onEngine call x).run s = ((x.run r).1, { s with engine := some (x.run r).2 }) := by
  simp only [onEngine, run_bind, run_get, run_liftM, h, run_focus, (engineFor_eq_ok.1 h).2, Option.getD_some]

theorem run_onEngine_error {α : Type} {call : String} {f : Failure} (x : RuntimeM α) (h : s.engineFor call = .error f) :
    (onEngine call x).run s = (.error f, s) := by
  simp only [onEngine, run_bind, run_get, run_liftM, h]

theorem run_withValues : ∀ (values : List (TensorId × HostTensor)) (r : Runtime),
    (values.forM fun (id, value) => modify (·.upload id value) : RuntimeM Unit).run r = (.ok (), r.withValues values)
  | [], _ => rfl
  | (id, value) :: values, r => by
    rw [forM_cons, run_bind, run_modify]
    exact run_withValues values (r.upload id value)

theorem run_streamedValues (o : Sgd) : ∀ (streams : List (TensorId × TensorInfo)) (r : Runtime),
    (streams.forM fun (id, _) =>
      match o.values.lookup id with
      | some v => modify (·.upload id (HostTensor.ofSingle v.value))
      | none => pure () : RuntimeM Unit).run r =
      (.ok (), r.withValues (streams.filterMap fun x => (o.values.lookup x.1).map fun v => (x.1, .ofSingle v.value)))
  | [], _ => rfl
  | (id, info) :: streams, r => by
    rw [forM_cons, run_bind, List.filterMap_cons]
    dsimp only
    cases o.values.lookup id with
    | none => exact run_streamedValues o streams r
    | some v => exact run_streamedValues o streams _

/-! ## Calls as turns -/

theorem enter_cases (target : SessionState) (t : Session) :
    ((enter target).run t).2 = t ∨ ∃ log, ((enter target).run t).2 = { t with state := target, log } := by
  by_cases hne : t.state = target
  · refine .inl ?_
    simp only [enter, run_bind, run_get, if_neg (not_not.2 hne), run_pure]
  · rw [run_enter hne]
    exact .inr ⟨_, rfl⟩

theorem turns_enter {target : SessionState} (h : t.engine.isSome = true) (htarget : target ≠ .constructed)
    (ht : Turns W V s t) : Turns W V s ((enter target).run t).2 := by
  rcases enter_cases target t with hsame | ⟨log, hentered⟩
  · rwa [hsame]
  · rw [hentered]
    exact ht.tail (.note target (.inr ⟨h, htarget⟩) t.stepsRun t.random log)

theorem engine_enter (target : SessionState) (t : Session) : ((enter target).run t).2.engine = t.engine := by
  rcases enter_cases target t with hsame | ⟨log, hentered⟩
  · rw [hsame]
  · rw [hentered]

theorem turns_uploadWeights : Turns W V s (uploadWeights.run s).2 := by
  cases h : s.engineFor "weightsFromHost" with
  | error f =>
    have hrun : uploadWeights.run s = (.error f, s) := by
      simp only [uploadWeights, run_bind, run_get, run_onEngine_error _ h]
    rw [hrun]
  | ok r =>
    have hturn := Relation.ReflTransGen.single (Turn.uploadWeights (W := W) (V := V) (engineFor_eq_ok.1 h).2)
    simp only [uploadWeights, run_bind, run_get, run_onEngine_ok _ h, run_withValues, run_modify]
    split
    · exact turns_enter rfl nofun hturn
    · exact hturn

theorem turns_uploadOptimizer : Turns W V s (uploadOptimizer.run s).2 := by
  cases ho : s.optimizer with
  | none =>
    have hrun : (uploadOptimizer.run s).2 = s := by
      simp only [uploadOptimizer, run_bind, run_get, run_liftM, ho, Outcome.orFail]
      rfl
    rw [hrun]
  | some o =>
    cases h : s.engineFor "optimizerFromHost" with
    | error f =>
      have hrun : uploadOptimizer.run s = (.error f, s) := by
        simp only [uploadOptimizer, run_bind, run_get, run_liftM, ho, Outcome.orFail, run_onEngine_error _ h]
      rw [hrun]
    | ok r =>
      have hengine := run_onEngine_ok (do
        (← get).executable.optimizerStreams.forM fun (id, _) =>
          match o.values.lookup id with
          | some v => modify (·.upload id (HostTensor.ofSingle v.value))
          | none => pure ()) h
      rw [run_bind, run_get] at hengine
      dsimp only at hengine
      rw [run_streamedValues] at hengine
      have hrun : uploadOptimizer.run s = (.ok (), { s with
          engine := some (r.withValues (o.streamedValues r.executable)), optimizerUploaded := true }) :=
        run_bind_ok.2 ⟨s, s, rfl, run_bind_ok.2 ⟨o, s, by rw [run_liftM, ho]; rfl,
          run_bind_ok.2 ⟨(), _, hengine, rfl⟩⟩⟩
      rw [hrun]
      exact .single (.uploadOptimizer (engineFor_eq_ok.1 h).2 ho)

theorem turns_updateOptimizer (o' : Sgd) : Turns W V s ((updateOptimizer o').run s).2 := by
  cases ho : s.optimizer with
  | none =>
    have hrun : ((updateOptimizer o').run s).2 = s := by
      simp only [updateOptimizer, run_bind, run_get, run_liftM, ho, Outcome.orFail]
      rfl
    rw [hrun]
  | some o =>
    simp only [updateOptimizer, run_bind, run_get, run_liftM, ho, Outcome.orFail]
    split
    · rename_i h
      exact .single (.updateOptimizer ho h)
    · exact .refl

theorem keeps_writeWeight (hw : W) (id : TensorId) {value : HostTensor} (hvalue : V value) :
    Keeps (Turns W V s) (writeWeight id value) := by
  intro t ht
  cases hid : t.hostWeights.get? id with
  | none =>
    have hrun : ((writeWeight id value).run t).2 = t := by
      simp only [writeWeight, run_bind, run_get, run_liftM, hid, Outcome.orFail]
      rfl
    rwa [hrun]
  | some current =>
    simp only [writeWeight, run_bind, run_get, run_liftM, hid, Outcome.orFail]
    split
    · exact ht
    · rename_i hinfo
      exact ht.tail (.writeWeight hw hid (not_not.1 hinfo) hvalue)

theorem keeps_resetWeight (hw : W) (init : NamedTensor) : Keeps (Turns W V s) (resetWeight init) := by
  intro t ht
  cases hid : t.hostWeights.get? init.name with
  | none =>
    have hrun : ((resetWeight init).run t).2 = t := by
      simp only [resetWeight, run_bind, run_get, run_liftM, hid, Outcome.orFail]
      rfl
    rwa [hrun]
  | some current =>
    simp only [resetWeight, run_bind, run_get, run_liftM, hid, Outcome.orFail]
    split
    · exact ht
    · rename_i hinfo
      cases hvalue : HostTensor.ofStorage init.info init.data with
      | error f =>
        exact ht
      | ok value =>
        exact ht.tail (.resetWeight hw hid (not_not.1 hinfo) hvalue)

/-! ## Steps as turns -/

/-- A session on the way through a step, with the program `e`. -/
structure Stepped (W : Prop) (V : HostTensor → Prop) (e : Executable) (s t : Session) : Prop where
  turns : Turns W V s t
  engine : ∀ r, t.engine = some r → r.executable = e

variable {e : Executable}

theorem keeps_onEngine {α : Type} (call : String) {x : RuntimeM α} (hw : mode = .train → W)
    (hx : ∀ r, r.executable = e → Runtime.Driven mode r (x.run r).2) : Keeps (Stepped W V e s) (onEngine call x) := by
  intro t ht
  cases h : t.engineFor call with
  | error f =>
    rw [run_onEngine_error _ h]
    exact ht
  | ok r =>
    have hr := (engineFor_eq_ok.1 h).2
    have hdriven := hx r (ht.engine r hr)
    rw [run_onEngine_ok _ h]
    refine ⟨ht.turns.tail (.serve hw hr hdriven), fun r' hr' => ?_⟩
    cases hr'
    exact hdriven.same.2.trans (ht.engine r hr)

theorem keeps_step {α : Type} {x : SessionM α} (hx : Keeps (Stepped W V e s) x) :
    Keeps (fun st : Stepping σ => Stepped W V e s st.session) (Stepping.onSession x) := fun st hst => hx st.session hst

theorem keeps_data {α : Type} (x : Stateful σ α) :
    Keeps (fun st : Stepping σ => Stepped W V e s st.session) (Stepping.onData x) := fun _ hst => hst

theorem keeps_streamData (io : StepIo σ) (id : TensorId) (info : TensorInfo) :
    Keeps (fun st : Stepping σ => Stepped W V e s st.session) (streamData io id info) := by
  refine .get_bind fun st _ => ?_
  dsimp only
  split
  · exact keeps_data _
  · exact .lift _
  · refine .bind (.lift _) fun drawn => .bind (keeps_step (.modify fun t ht => ?_)) fun _ => .pure _
    exact ⟨ht.turns.tail (.note t.state (.inl rfl) t.stepsRun drawn.2 t.log), ht.engine⟩

theorem keeps_feed (io : StepIo σ) (call : String) (hw : mode = .train → W) {id : TensorId} {info : TensorInfo}
    (hid : (id, info) ∈ e.streams) : Keeps (fun st : Stepping σ => Stepped W V e s st.session) (feed io call id info) :=
  .bind (keeps_streamData io id info) fun _ => Keeps.liftM_bind fun _ hvalue =>
    keeps_step (keeps_onEngine call hw fun r hr => .feed (.refl r) (by rwa [hr]) hvalue)

theorem keeps_deviceValue (call : String) (id : TensorId) :
    Keeps (fun st : Stepping σ => Stepped W V e s st.session) (deviceValue call id) :=
  .get_bind fun _ _ => .bind (.liftM _) fun _ => .bind (.liftM _) fun _ => .pure _

theorem keeps_giveBack (io : StepIo σ) (p : StepPlan) (i : Nat) (sums : Dict TensorId Storage) (a : StepAnchor) :
    Keeps (fun st : Stepping σ => Stepped W V e s st.session) (giveBack io p i sums a) := by
  unfold giveBack
  dsimp only
  split
  · refine .bind (keeps_deviceValue _ _) fun _ => .bind (.lift _) fun total => ?_
    split
    · split
      · exact .bind (keeps_data _) fun _ => .pure _
      · exact .pure _
    · exact .pure _
  · split
    · exact .bind (keeps_deviceValue _ _) fun _ => .bind (keeps_data _) fun _ => .pure _
    · exact .pure _

theorem keeps_runBatch (io : StepIo σ) {p : StepPlan} (hw : p.mode = .train → W) (hp : ∀ x ∈ p.streams, x ∈ e.streams)
    (i : Nat) (sums : Dict TensorId Storage) :
    Keeps (fun st : Stepping σ => Stepped W V e s st.session) (runBatch io p i sums) := by
  refine .bind (.forM fun x hx => keeps_feed io _ hw (hp x hx)) fun _ =>
    .bind (keeps_step (keeps_onEngine _ hw fun r _ => .batch (.refl r))) fun _ => .get_bind fun st _ => ?_
  split
  · exact .foldlM fun a _ sums => keeps_giveBack io p i sums a
  · exact .pure _

theorem keeps_runBatches (io : StepIo σ) {p : StepPlan} (hw : p.mode = .train → W)
    (hp : ∀ x ∈ p.streams, x ∈ e.streams) : ∀ (n i : Nat) (sums : Dict TensorId Storage),
    Keeps (fun st : Stepping σ => Stepped W V e s st.session) (runBatches io p n i sums)
  | 0, _, _ => .pure _
  | n + 1, i, sums => .bind (keeps_runBatch io hw hp i sums) fun sums => keeps_runBatches io hw hp n (i + 1) sums

theorem engine_of_checkCanRun (h : s.checkCanRun mode = .ok r) : s.engine = some r := by
  obtain ⟨r', hr', h⟩ := Outcome.bind_eq_ok.1 h
  split at h
  · cases h
  split at h
  · cases h
  split at h
  · cases h
  split at h
  · cases h
  cases h
  exact (engineFor_eq_ok.1 hr').2

theorem plan_streams {p : StepPlan} (h : s.plan mode = .ok p) :
    ∃ r, s.engine = some r ∧ p.mode = mode ∧ ∀ x ∈ p.streams, x ∈ r.executable.streams := by
  obtain ⟨r, hr, h⟩ := Outcome.bind_eq_ok.1 h
  obtain ⟨anchors, -, h⟩ := Outcome.bind_eq_ok.1 h
  cases h
  exact ⟨r, engine_of_checkCanRun hr, rfl, fun x hx => (List.mem_filter.1 hx).1⟩

theorem keeps_runStep (io : StepIo σ) (hw : mode = .train → W) :
    Keeps (fun st : Stepping σ => Stepped W V e s st.session) (runStep io mode) := by
  refine .get_bind fun st hst => .liftM_bind fun p hplan => ?_
  obtain ⟨r, hr, rfl, hp⟩ := plan_streams hplan
  rw [hst.engine r hr] at hp
  have hend : Keeps (Stepped W V e s) (do
      onEngine p.mode.label (Runtime.count fun c => { c with steps := c.steps + 1 })
      modify fun s => { s with stepsRun := s.stepsRun + 1 }
      enter .running) := by
    intro t ht
    cases h : t.engineFor p.mode.label with
    | error f =>
      rw [run_bind, run_onEngine_error _ h]
      exact ht
    | ok r' =>
      have hr' := (engineFor_eq_ok.1 h).2
      have hdriven : Runtime.Driven p.mode r' _ := .count (.refl r') fun c => { c with steps := c.steps + 1 }
      let t' : Session := { t with engine := some { r' with counters.steps := r'.counters.steps + 1 } }
      have hserve : Turns W V s t' := ht.turns.tail (.serve hw hr' hdriven)
      have hturns : Turns W V s { t' with stepsRun := t'.stepsRun + 1 } :=
        hserve.tail (.note t'.state (.inl rfl) (t'.stepsRun + 1) t'.random t'.log)
      rw [run_bind, run_onEngine_ok _ h]
      refine ⟨turns_enter rfl nofun hturns, fun r'' hr'' => ?_⟩
      have hsame := (engine_enter .running _).symm.trans hr''
      cases hsame
      exact ht.engine r' hr'
  have hrest := Keeps.bind (keeps_runBatches io hw hp p.batches 0 .empty) fun _ => keeps_step (σ := σ) hend
  dsimp only
  split
  · exact .bind (.lift _) fun _ => hrest
  · exact hrest

theorem turns_runStep (io : StepIo σ) (hw : mode = .train → W) (data : σ) :
    Turns W V s ((runStep io mode).run ⟨s, data⟩).2.session := by
  cases hr : s.engine with
  | none =>
    have hstart : Stepped W V (.withoutOps 0 []) s s := ⟨.refl, fun r' hr' => nomatch hr.symm.trans hr'⟩
    exact (keeps_runStep io hw ⟨s, data⟩ hstart).turns
  | some r =>
    have hstart : Stepped W V r.executable s s := ⟨.refl, fun r' hr' => by rw [Option.some.inj (hr.symm.trans hr')]⟩
    exact (keeps_runStep io hw ⟨s, data⟩ hstart).turns

theorem turns_prepare {p : Platform} (hfound : ∀ e h, findEngine.run ⟨p, s⟩ = (.ok (some e), h) → s.Compiles e) :
    Turns W V s (prepare.run ⟨p, s⟩).2.session := by
  have hends := prepare_ends ⟨p, s⟩
  rcases hrun : prepare.run ⟨p, s⟩ with ⟨f | _, h⟩
  · rcases hends.error hrun with ⟨hstate, hit, halong⟩ | hsame
    · exact .single (.place hstate hit halong)
    · rw [hsame]
  · exact .single (.prepare p hfound (hends.ok hrun))

/-- A call is a sequence of turns. -/
theorem Called.turns (h : Called W V s t) : Turns W V s t := by
  cases h with
  | prepare p hfound => exact turns_prepare hfound
  | uploadWeights => exact turns_uploadWeights
  | uploadOptimizer => exact turns_uploadOptimizer
  | updateOptimizer o' => exact turns_updateOptimizer o'
  | writeWeights hw weights hvalues =>
    exact Keeps.forM (P := Turns W V s) (fun iv hiv => keeps_writeWeight hw iv.1 (hvalues iv hiv)) s .refl
  | resetWeights hw bytes =>
    exact Keeps.bind (P := Turns W V s) (.liftM _) (fun _ => .forM fun init _ => keeps_resetWeight hw init) s .refl
  | runStep io mode hw data => exact turns_runStep io hw data

end Session

end TensorGraph
