import TensorGraph.Proofs.Engine.History

/-!
A batch of a compiled program gives every tensor that can be seen afterwards the value that its graph has by recursion
over the ops, from the values in memory before the batch. Running without writing over operands gives the same.
-/
namespace TensorGraph

open TensorGraph.Graph

variable {g : Graph} {e : Executable} {b : Backend} {o : OpId} {op : Op} {t : TensorId} {m : DeviceMemory}
  {r r' : Runtime} {mode : RunMode} {P : HostTensor → Prop}

namespace Graph

/-! ## Values over a memory -/

/-- The value that a tensor has without being computed: a constant its data, others what is in memory. -/
def held (g : Graph) (m : DeviceMemory) (t : TensorId) : Option HostTensor :=
  (g.tensor? t).bind fun x => if x.type = .const then x.data else m.tensor? t

/-- The value of a tensor by recursion over the ops, when all that is not computed is in memory. -/
def valueOn (g : Graph) (b : Backend) (m : DeviceMemory) (t : TensorId) : Option HostTensor :=
  Reading.value? ⟨b.kernel, g.held m⟩ g t

/-- What is compiled: a well-formed graph without cycles, with inferred infos, whose phases stand in order and whose
marks are safe. -/
structure Ready (g : Graph) : Prop where
  wellFormed : g.WellFormed
  acyclic : g.Acyclic
  inferred : g.Inferred
  monotone : g.PhaseMonotone
  marked : g.MarkedSafely

/-- Every op of the phases of a mode has a value. -/
def Evaluates (g : Graph) (b : Backend) (m : DeviceMemory) (mode : RunMode) : Prop :=
  ∀ o op t, g.op? o = some op → op.phase ∈ mode.phases → t ∈ op.outputs → (g.valueOn b m t).isSome = true

/-- No op writes over an updated value. -/
def KeepsUpdates (g : Graph) : Prop :=
  ∀ o op t q, g.op? o = some op → op.kind = .sgdVarUpdate → t ∈ op.outputs → ¬ g.Overwrites q t

/-- What can be seen after a run: tensors that no op produces, and kept ones that the run produced. -/
def Visible (g : Graph) (mode : RunMode) (t : TensorId) : Prop :=
  g.hasTensor t = true ∧
    ∀ o op, g.producer? t = some o → g.op? o = some op → op.phase ∈ mode.phases ∧ t ∈ g.kept

theorem valueOn_congr {m' : DeviceMemory}
    (h : ∀ t, g.hasTensor t = true → g.producer? t = none → m'.tensor? t = m.tensor? t) :
    g.valueOn b m' = g.valueOn b m := by
  refine Reading.value?_congr fun t hp => ?_
  unfold held
  cases hx : g.tensor? t with
  | none => rfl
  | some x => rw [h t (hasTensor_iff.2 ⟨x, hx⟩) hp]

theorem valueOn_clearInPlace : g.clearInPlace.valueOn b m = g.valueOn b m := Reading.value?_clearInPlace _

theorem Evaluates.yields (h : g.Evaluates b m mode) (ha : g.Acyclic) (hl : g.Linked) (hi : g.Inferred)
    (ho : g.op? o = some op) (hp : op.phase ∈ mode.phases) :
    ∃ out xs info y, g.Yields b (g.valueOn b m) op out xs info y := by
  obtain ⟨out, hout⟩ := hi.output ho
  have hmem : out ∈ op.outputs := by simp [hout]
  obtain ⟨y, hy⟩ := Option.isSome_iff_exists.1 (h o op out ho hp hmem)
  have happly := (Reading.value?_op ⟨b.kernel, g.held m⟩ ha hl (hl.makes.2 ⟨op, ho, hmem⟩) ho).symm.trans hy
  obtain ⟨xs, hxs, happly⟩ := Option.bind_eq_some_iff.1 happly
  obtain ⟨info, hinfo, happly⟩ := Option.bind_eq_some_iff.1 happly
  exact ⟨out, xs, info, y, hout, hxs, hinfo, happly, hy⟩

end Graph

namespace Runtime

/-- Before a batch nothing is computed yet, and what is not computed is there. -/
theorem Loaded.holds {l : List OpId} (h : Loaded b e r) (hc : Executable.Compiled g l e) :
    Holds g (g.valueOn b r.memory) [] r.memory := by
  refine ⟨fun {t} ht hp => ?_, fun _ ho => absurd ho List.not_mem_nil⟩
  obtain ⟨x, hx⟩ := hasTensor_iff.1 ht
  rw [valueOn, Reading.value?_source _ hp]
  simp only [held, hx, Option.bind_some]
  split
  · rename_i hconst
    obtain ⟨v, hv⟩ := hc.fixed t x hx hconst
    rw [hv]
    exact h.constants (t, v) ((hc.constants t v).2 ⟨x, hx, hconst, hv⟩)
  · rfl

/-- Where the value of a tensor after a batch comes from: training gives a weight the value of its last update. -/
def origin (e : Executable) (mode : RunMode) (t : TensorId) : TensorId :=
  if mode = .train then (lastUpdate e.updates t).getD t else t

/-- What a graph and its program must satisfy for batches to compute the values of the graph. -/
structure Runnable (g : Graph) (e : Executable) (b : Backend) (P : HostTensor → Prop) : Prop extends g.Ready where
  weights : g.UpdatesWeights
  updates : g.KeepsUpdates
  agree : b.OverwritesAs P
  compiled : ∃ l, Executable.Compiled g l e

namespace Runnable

theorem spares (h : Runnable g e b P) : e.SparesConstants := by
  obtain ⟨l, hl⟩ := h.compiled
  exact hl.sparesConstants h.wellFormed h.marked h.weights

theorem update (h : Runnable g e b P) {u w : TensorId} (huw : (u, w) ∈ e.updates) :
    ∃ o op, g.op? o = some op ∧ op.kind = .sgdVarUpdate ∧ op.outputs = [u] ∧ op.inputs.head? = some w := by
  obtain ⟨l, hl⟩ := h.compiled
  obtain ⟨op, hop, hk, hu, hw⟩ := (hl.updates u w).1 huw
  obtain ⟨o, -, ho⟩ := List.mem_filterMap.1 hop
  obtain ⟨out, hout⟩ := h.inferred.output ho
  rw [hout, List.head?_cons, Option.some.injEq] at hu
  exact ⟨o, op, ho, hk, hu ▸ hout, hw⟩

/-- Updated tensors are weights, which no op produces. -/
theorem updated_source (h : Runnable g e b P) {u w : TensorId} (huw : (u, w) ∈ e.updates) : g.producer? w = none := by
  obtain ⟨o, op, ho, hk, -, hw⟩ := h.update huw
  obtain ⟨x, hx, hweight⟩ := h.weights o op w ho hk hw
  rw [producer?, hx, Option.bind_some]
  cases hp : x.producer with
  | none => rfl
  | some p =>
    rw [h.wellFormed.produced hx hp] at hweight
    cases hweight

/-- All phases of a mode run, and leave every visible tensor with its value. -/
theorem run_mode (h : Runnable g e b P) (hr : Loaded b e r) (mode : RunMode)
    (heval : g.Evaluates b r.memory mode)
    (hclass : ∀ o t v, g.Overwrites o t → g.valueOn b r.memory t = some v → P v) :
    ∃ r', (mode.phases.forM runPhase).run r = (.ok (), r') ∧ Same r r' ∧
      ∀ {t}, g.hasTensor t = true → (∀ o op, g.producer? t = some o → g.op? o = some op → op.phase ∈ mode.phases) →
        (∀ q, ¬ g.Overwrites q t) → r'.memory.tensor? t = g.valueOn b r.memory t := by
  obtain ⟨l, hl⟩ := h.compiled
  have hlinked := h.wellFormed.linked
  have hcomplete := order_complete hlinked hl.order
  have hfound : ∀ op ∈ l.filterMap g.op?, g.op? op.id = some op := by
    intro op hop
    obtain ⟨o, -, ho⟩ := List.mem_filterMap.1 hop
    rw [hlinked.opId ho, ho]
  have hrefinable : Refinable g b P (g.valueOn b r.memory) :=
    ⟨hlinked, h.acyclic, h.marked, h.agree, fun {o t v} => hclass o t v⟩
  obtain ⟨r', hrun, hsame, hholds⟩ := run_phases hrefinable hfound
    (fun p _ => by rw [hr.executable]; exact hl.fragment p)
    (fun op hop hp => heval.yields h.acyclic hlinked h.inferred (hfound op hop) hp)
    (mode.select_schedule hlinked hcomplete h.monotone) hr.backend (hr.holds hl)
  refine ⟨r', hrun, hsame, fun {t} ht hphase hno => ?_⟩
  cases hp : g.producer? t with
  | none => exact hholds.source ht hp
  | some o =>
    obtain ⟨op, ho, -⟩ := hlinked.op_of_producer hp
    refine hholds.result hp ?_ fun q _ => hno q
    have hmem : op ∈ mode.select (l.filterMap g.op?) :=
      RunMode.mem_select.2 ⟨List.mem_filterMap.2 ⟨o, hcomplete.all ho, ho⟩, hphase o op hp ho⟩
    rw [List.append_nil, List.mem_reverse, ← hlinked.opId ho]
    exact List.mem_map_of_mem hmem

/-- Steps do not write over visible tensors. -/
theorem not_overwrites (h : Runnable g e b P) {mode : RunMode} (ht : g.Visible mode t) (q : OpId) : ¬ g.Overwrites q t := by
  intro hq
  obtain ⟨op, -, x, -, -, hx, hsome, -, -, hkept⟩ := hq.cases h.marked
  obtain ⟨o, hp⟩ := Option.isSome_iff_exists.1 hsome
  have hp : g.producer? t = some o := producer?_eq_some.2 ⟨x, hx, hp⟩
  obtain ⟨op, ho, -⟩ := h.wellFormed.linked.op_of_producer hp
  exact hkept (ht.2 o op hp ho).2

/-- In training the result of an update is computed, and stays until the weights take it. -/
theorem update_computed (h : Runnable g e b P) {m : DeviceMemory} (heval : g.Evaluates b m .train) {u w : TensorId}
    (huw : (u, w) ∈ e.updates) :
    g.hasTensor u = true ∧ (g.producer? u).isSome = true ∧ (g.valueOn b m u).isSome = true ∧ ∀ q, ¬ g.Overwrites q u := by
  obtain ⟨o, op, ho, hk, hout, -⟩ := h.update huw
  have hmem : u ∈ op.outputs := by simp [hout]
  refine ⟨h.wellFormed.outputs ho hmem, ?_, heval o op u ho (RunMode.mem_phases_train _) hmem,
    fun q => h.updates o op u q ho hk hmem⟩
  rw [h.wellFormed.makes.2 ⟨op, ho, hmem⟩]
  rfl

/-- A batch succeeds, and afterwards every visible tensor has the value of the graph that it is to take. -/
theorem runBatch (h : Runnable g e b P) (hr : Loaded b e r) (mode : RunMode) (heval : g.Evaluates b r.memory mode)
    (hclass : ∀ o t v, g.Overwrites o t → g.valueOn b r.memory t = some v → P v) :
    ∃ r', (Runtime.runBatch mode).run r = (.ok (), r') ∧
      ∀ {t}, g.Visible mode t → r'.memory.tensor? t = g.valueOn b r.memory (origin e mode t) := by
  obtain ⟨r₁, hrun, hsame, hvalue⟩ := h.run_mode hr mode heval hclass
  have hvisible : ∀ {t}, g.Visible mode t → r₁.memory.tensor? t = g.valueOn b r.memory t :=
    fun ht => hvalue ht.1 (fun o op hp ho => (ht.2 o op hp ho).1) (h.not_overwrites ht)
  by_cases hmode : mode = .train
  · subst hmode
    have hupdated : ∀ uw ∈ e.updates, r₁.memory.tensor? uw.1 = g.valueOn b r.memory uw.1 := by
      intro uw huw
      obtain ⟨hhas, -, -, hno⟩ := h.update_computed heval huw
      exact hvalue hhas (fun _ _ _ _ => RunMode.mem_phases_train _) hno
    obtain ⟨r₂, hcommit, -, hmemory⟩ := run_updates (l := e.updates) (r := r₁)
      (fun uw huw => by
        rw [hupdated uw huw]
        exact (h.update_computed heval huw).2.2.1)
      (fun uw huw uw' huw' heq => by
        have hproduced := (h.update_computed heval huw).2.1
        rw [heq, h.updated_source huw'] at hproduced
        cases hproduced)
    refine ⟨{ r₂ with counters := { r₂.counters with batches := r₂.counters.batches + 1 } }, ?_, fun {t} ht => ?_⟩
    · unfold Runtime.runBatch
      refine Stateful.run_bind_ok.2 ⟨(), r₁, hrun, ?_⟩
      simp only [if_true]
      refine Stateful.run_bind_ok.2 ⟨r₁, r₁, rfl, Stateful.run_bind_ok.2 ⟨(), r₂, ?_, rfl⟩⟩
      rw [hsame.2, hr.executable]
      exact hcommit
    · rw [hmemory, origin, if_pos rfl]
      cases hlast : lastUpdate e.updates t with
      | none => exact hvisible ht
      | some u => exact hupdated (u, t) (mem_of_lastUpdate hlast)
  · refine ⟨{ r₁ with counters := { r₁.counters with batches := r₁.counters.batches + 1 } }, ?_, fun {t} ht => ?_⟩
    · unfold Runtime.runBatch
      refine Stateful.run_bind_ok.2 ⟨(), r₁, hrun, ?_⟩
      simp only [if_neg hmode]
      rfl
    · rw [origin, if_neg hmode]
      exact hvisible ht

end Runnable

end Runtime

/-! ## Without writing over operands -/

/-- Marks only decide how steps run. -/
theorem Executable.compile_clearInPlace {n : Nat} {hash : UInt64}
    (h : Executable.compile g n hash = .ok e) : ∃ e₀, Executable.compile g.clearInPlace n hash = .ok e₀ ∧
      e₀.updates = e.updates := by
  unfold Executable.compile at h
  obtain ⟨ops, hops, h⟩ := Outcome.bind_eq_ok.1 h
  obtain ⟨l, hl, hops⟩ := Outcome.bind_eq_ok.1 hops
  cases hops
  obtain ⟨steps, hsteps, h⟩ := Outcome.bind_eq_ok.1 h
  obtain ⟨constants, hconstants, h⟩ := Outcome.bind_eq_ok.1 h
  cases h
  have hops₀ : g.clearInPlace.orderedOps = .ok ((l.filterMap g.op?).map (·.withInPlace false)) := by
    unfold orderedOps
    rw [order_clearInPlace, hl, List.map_filterMap, funext fun o => op?_clearInPlace (g := g) (o := o)]
    rfl
  have hsteps₀ : ((l.filterMap g.op?).map (·.withInPlace false)).mapM (Executable.compileOp g.clearInPlace) =
      .ok (steps.map fun s => ({ s.1 with inPlace := false }, s.2)) := by
    rw [Outcome.mapM_eq_ok] at hsteps ⊢
    rw [List.forall₂_map_left_iff, List.forall₂_map_right_iff]
    refine hsteps.imp fun op s hs => ?_
    obtain ⟨infos, hinfos, hs⟩ := Outcome.bind_eq_ok.1 hs
    obtain ⟨u, hu, hs⟩ := Outcome.bind_eq_ok.1 hs
    cases hs
    exact Outcome.bind_eq_ok.2 ⟨infos, hinfos, Outcome.bind_eq_ok.2 ⟨u, hu, rfl⟩⟩
  refine ⟨_, Outcome.bind_eq_ok.2 ⟨_, hops₀, Outcome.bind_eq_ok.2 ⟨_, hsteps₀,
    Outcome.bind_eq_ok.2 ⟨constants, hconstants, rfl⟩⟩⟩, ?_⟩
  change (steps.map _).filterMap _ = _
  rw [List.filterMap_map]
  rfl

namespace Runtime

/-- The program without marks satisfies what batches need. -/
theorem Runnable.clearInPlace (h : Runnable g e b P) {e₀ : Executable} {n : Nat} {hash : UInt64}
    (he : Executable.compile g.clearInPlace n hash = .ok e₀) : Runnable g.clearInPlace e₀ b P := by
  have hwf := wellFormed_clearInPlace.2 h.wellFormed
  refine ⟨⟨hwf, h.acyclic.clearInPlace, h.inferred.clearInPlace, ?_, markedSafely_clearInPlace g⟩, ?_, ?_, h.agree,
    Executable.compile_ok hwf.linked he⟩
  · intro p q a b hf ha hb
    obtain ⟨-, a₀, ha₀, rfl⟩ := op_of_clearInPlace ha
    obtain ⟨-, b₀, hb₀, rfl⟩ := op_of_clearInPlace hb
    exact h.monotone p q a₀ b₀ (feeds_clearInPlace.1 hf) ha₀ hb₀
  · intro o op w ho hk hw
    obtain ⟨-, op₀, ho₀, rfl⟩ := op_of_clearInPlace ho
    exact h.weights o op₀ w ho₀ hk hw
  · exact fun _ _ _ _ _ _ _ => not_overwrites_clearInPlace

theorem visible_clearInPlace (h : g.Visible mode t) : g.clearInPlace.Visible mode t := by
  refine ⟨h.1, fun o op hp ho => ?_⟩
  obtain ⟨-, op₀, ho₀, rfl⟩ := op_of_clearInPlace ho
  exact h.2 o op₀ hp ho₀

/-- A batch without marks gives the same, also from a memory that agrees only on what is not computed. -/
theorem Runnable.runBatch_clearInPlace (h : Runnable g e b P) {e₀ : Executable} {n : Nat} {hash : UInt64}
    (he : Executable.compile g.clearInPlace n hash = .ok e₀) {r₀ : Runtime} (hr₀ : Loaded b e₀ r₀)
    (hagree : ∀ t, g.hasTensor t = true → g.producer? t = none → r₀.memory.tensor? t = r.memory.tensor? t)
    (mode : RunMode) (heval : g.Evaluates b r.memory mode) :
    ∃ r', (Runtime.runBatch mode).run r₀ = (.ok (), r') ∧
      ∀ {t}, g.Visible mode t → r'.memory.tensor? t = g.valueOn b r.memory (origin e₀ mode t) := by
  have hvalue : g.clearInPlace.valueOn b r₀.memory = g.valueOn b r.memory :=
    valueOn_clearInPlace.trans (valueOn_congr hagree)
  have heval₀ : g.clearInPlace.Evaluates b r₀.memory mode := by
    intro o op t ho hp ht
    obtain ⟨-, op₀, ho₀, rfl⟩ := op_of_clearInPlace ho
    rw [hvalue]
    exact heval o op₀ t ho₀ hp ht
  obtain ⟨r', hrun, hvisible⟩ := (h.clearInPlace he).runBatch hr₀ mode heval₀
    fun _ _ _ hover => absurd hover not_overwrites_clearInPlace
  refine ⟨r', hrun, fun {t} ht => ?_⟩
  rw [hvisible (visible_clearInPlace ht), hvalue]

/-! ## Batches of a loaded program -/

namespace Runnable

/-- A kept result of a batch has its value. -/
theorem produced (h : Runnable g e b P) (heval : g.Evaluates b m mode)
    (hvisible : ∀ {t}, g.Visible mode t → r'.memory.tensor? t = g.valueOn b m (origin e mode t))
    (hp : g.producer? t = some o) (ho : g.op? o = some op) (hphase : op.phase ∈ mode.phases) (hkept : t ∈ g.kept) :
    ∃ v, g.valueOn b m t = some v ∧ r'.memory.tensor? t = some v := by
  have hout : t ∈ op.outputs := by
    obtain ⟨op', ho', hout⟩ := h.wellFormed.linked.op_of_producer hp
    cases ho.symm.trans ho'
    exact hout
  have hseen : g.Visible mode t := by
    refine ⟨h.wellFormed.outputs ho hout, fun o' op' hp' ho' => ?_⟩
    rw [hp, Option.some.injEq] at hp'
    subst hp'
    cases ho.symm.trans ho'
    exact ⟨hphase, hkept⟩
  -- updates only change weights, which are not produced
  have horigin : origin e mode t = t := by
    unfold origin
    split
    · cases hlast : lastUpdate e.updates t with
      | none => rfl
      | some u =>
        have hsource := h.updated_source (mem_of_lastUpdate hlast)
        rw [hp] at hsource
        cases hsource
    · rfl
  obtain ⟨v, hv⟩ := Option.isSome_iff_exists.1 (heval o op t ho hphase hout)
  exact ⟨v, hv, by rw [hvisible hseen, horigin, hv]⟩

/-- A weight that training updates has the value of its last update. -/
theorem updated (h : Runnable g e b P) (heval : g.Evaluates b m .train)
    (hvisible : ∀ {t}, g.Visible .train t → r'.memory.tensor? t = g.valueOn b m (origin e .train t)) {w : TensorId}
    (ho : g.op? o = some op) (hk : op.kind = .sgdVarUpdate) (hw : op.inputs.head? = some w) :
    ∃ o' op' u v, g.op? o' = some op' ∧ op'.kind = .sgdVarUpdate ∧ op'.inputs.head? = some w ∧
      op'.outputs = [u] ∧ g.valueOn b m u = some v ∧ r'.memory.tensor? w = some v := by
  obtain ⟨l, hl⟩ := h.compiled
  obtain ⟨out, hout⟩ := h.inferred.output ho
  have hmem : (out, w) ∈ e.updates := by
    refine (hl.updates out w).2 ⟨op, List.mem_filterMap.2 ⟨o, ?_, ho⟩, hk, by rw [hout]; rfl, hw⟩
    exact (order_complete h.wellFormed.linked hl.order).all ho
  obtain ⟨u, hlast⟩ := lastUpdate_isSome hmem
  obtain ⟨o', op', ho', hk', hout', hw'⟩ := h.update (mem_of_lastUpdate hlast)
  obtain ⟨v, hv⟩ := Option.isSome_iff_exists.1 (h.update_computed heval (mem_of_lastUpdate hlast)).2.2.1
  have hseen : g.Visible .train w := by
    obtain ⟨x, hx, -⟩ := h.weights o op w ho hk hw
    refine ⟨hasTensor_iff.2 ⟨x, hx⟩, fun o op hp => ?_⟩
    rw [h.updated_source hmem] at hp
    cases hp
  refine ⟨o', op', u, v, ho', hk', hw', hout', hv, ?_⟩
  rw [hvisible hseen, origin, if_pos rfl, hlast, Option.getD_some, hv]

end Runnable

/-- In every state that loading, feeding and running a program leads to, a batch on whose memory the ops of the mode
evaluate succeeds; every kept tensor that it produces then has its value; after training every updated weight has the
value of an update of it (of the last one, if there are several) over the memory before the batch; and the program
without marks, in a state with the same values where nothing is computed, leaves the same values. -/
theorem Running.runBatch_refines {n : Nat} {hash : UInt64} (hg : g.Ready) (hu : g.UpdatesWeights)
    (hs : g.KeepsUpdates) (he : Executable.compile g n hash = .ok e) (hb : b.OverwritesAs P) (hr : Running b e r)
    (mode : RunMode) (heval : g.Evaluates b r.memory mode)
    (hclass : ∀ o t v, g.Overwrites o t → g.valueOn b r.memory t = some v → P v) :
    ∃ r', (Runtime.runBatch mode).run r = (.ok (), r') ∧
      (∀ t o op, g.producer? t = some o → g.op? o = some op → op.phase ∈ mode.phases → t ∈ g.kept →
        ∃ v, g.valueOn b r.memory t = some v ∧ r'.memory.tensor? t = some v) ∧
      (mode = .train → ∀ o op w, g.op? o = some op → op.kind = .sgdVarUpdate → op.inputs.head? = some w →
        ∃ o' op' u v, g.op? o' = some op' ∧ op'.kind = .sgdVarUpdate ∧ op'.inputs.head? = some w ∧
          op'.outputs = [u] ∧ g.valueOn b r.memory u = some v ∧ r'.memory.tensor? w = some v) ∧
      ∃ e₀, Executable.compile g.clearInPlace n hash = .ok e₀ ∧ ∀ r₀, Running b e₀ r₀ →
        (∀ t, g.hasTensor t = true → g.producer? t = none → r₀.memory.tensor? t = r.memory.tensor? t) →
        ∃ r₀', (Runtime.runBatch mode).run r₀ = (.ok (), r₀') ∧
          ∀ t, g.Visible mode t → r₀'.memory.tensor? t = r'.memory.tensor? t := by
  have hrun : Runnable g e b P := ⟨hg, hu, hs, hb, Executable.compile_ok hg.wellFormed.linked he⟩
  obtain ⟨r', hbatch, hvisible⟩ := hrun.runBatch (hr.loaded hrun.spares) mode heval hclass
  refine ⟨r', hbatch, fun t o op hp ho hphase hkept => hrun.produced heval hvisible hp ho hphase hkept, ?_, ?_⟩
  · rintro rfl o op w ho hk hw
    exact hrun.updated heval hvisible ho hk hw
  · obtain ⟨e₀, he₀, hupdates⟩ := Executable.compile_clearInPlace he
    refine ⟨e₀, he₀, fun r₀ hr₀ hagree => ?_⟩
    obtain ⟨r₀', hbatch₀, hvisible₀⟩ :=
      hrun.runBatch_clearInPlace he₀ (hr₀.loaded (hrun.clearInPlace he₀).spares) hagree mode heval
    refine ⟨r₀', hbatch₀, fun t ht => ?_⟩
    rw [hvisible₀ ht, hvisible ht, origin, origin, hupdates]

/-! ## Sample programs -/

/-- The graph that calls lead to, with its marks. -/
def marked (calls : List Edit) : Graph :=
  ((markInPlace).run (calls.foldl (fun g e => (e.call.run g).2) Graph.empty)).2

/-- The program of a graph that compiles. -/
def programOf (g : Graph) : Executable :=
  match Executable.compile g 1 0 with
  | .ok e => e
  | .error _ => .withoutOps 0 []

/-- A tensor of one element. -/
def cell (x : Single) : HostTensor := ⟨⟨.float, [1]⟩, .f32 [x]⟩

/-- Gives updated values a one and all other results a zero, in place or not. -/
def stamping : Backend where
  name := "stamping"
  execute kind _ infos := .ok (infos.map fun info => ⟨info, .f32 [if kind = .sgdVarUpdate then .one else .zero]⟩)
  executeInPlace kind _ _ _ info := .ok ⟨info, .f32 [if kind = .sgdVarUpdate then .one else .zero]⟩

theorem stamping_overwritesAs : stamping.OverwritesAs fun _ => True := by
  intro kind x shared rest info y _ h
  cases h
  rfl

/-- Whether an op has one result, with the info that is inferred from its operands. -/
def inferredAt (g : Graph) (op : Op) : Bool :=
  match op.outputs, op.inputs.mapM g.info? with
  | [out], some infos =>
    match op.kind.infer infos with
    | .ok info => g.info? out = some info
    | .error _ => false
  | _, _ => false

/-- The backend that runs beside the operand also when it might write over it. -/
def sparing (b : Backend) : Backend :=
  { b with executeInPlace := fun kind x _ rest info => do
      match ← b.execute kind (x :: rest) [info] with
      | [y] => return y
      | _ => .error .abort }

theorem sparing_overwritesAs (b : Backend) : (sparing b).OverwritesAs fun _ => True := by
  intro kind x shared rest info y _ h
  exact Outcome.bind_eq_ok.2 ⟨[y], h, rfl⟩

theorem ready_of_ops (hw : g.WellFormed) {l : List OpId} (horder : g.order = .ok l)
    (hops : ∀ op ∈ g.ops.values, inferredAt g op = true ∧ (op.inPlace = true → g.mayOverwrite op = true) ∧
      ∀ q ∈ g.ops.values, ∀ t ∈ op.inputs, g.producer? t = some q.id → q.phase.rank ≤ op.phase.rank) : g.Ready := by
  have hmem : ∀ {o op}, g.op? o = some op → op ∈ g.ops.values := fun {o _} ho => Dict.mem_values.2 ⟨o, ho⟩
  refine ⟨hw, (order_complete hw.linked horder).acyclic, fun o op ho => ?_, fun p q a b hf ha hb => ?_,
    fun o op ho => (hops op (hmem ho)).2.1⟩
  · have hat := (hops op (hmem ho)).1
    unfold inferredAt at hat
    split at hat
    · rename_i out infos hout hinfos
      split at hat
      · rename_i info hinfer
        exact ⟨out, infos, info, hout, hinfos, hinfer, of_decide_eq_true hat⟩
      · cases hat
    · cases hat
  · obtain ⟨op, hop, t, ht, hp⟩ := hf
    cases hb.symm.trans hop
    exact (hops b (hmem hb)).2.2 a (hmem ha) t ht (by rw [hw.opId ha]; exact hp)

theorem marked_wellFormed {calls : List Edit} (hcalls : ∀ e ∈ calls, ∀ g, e.Allowed g) {n : Nat}
    (hrun : ((markInPlace).run (calls.foldl (fun g e => (e.call.run g).2) Graph.empty)).1 = .ok n) :
    (marked calls).WellFormed := by
  have hedited : ∀ (calls : List Edit) (g : Graph), (∀ e ∈ calls, ∀ g, e.Allowed g) → Edited Graph.empty g →
      Edited Graph.empty (calls.foldl (fun g e => (e.call.run g).2) g) := by
    intro calls
    induction calls with
    | nil => exact fun _ _ h => h
    | cons e calls ih =>
      exact fun g hcalls h => ih _ (fun e' he' => hcalls e' (List.mem_cons_of_mem _ he')) (.call e h (hcalls e (by simp) g))
  exact ((hedited calls _ hcalls .start).sound .empty).wellFormed.markInPlace (Stateful.eq_ok_of_fst hrun)

/-- One batch of training on a weight: the second op writes over the result of the first. -/
def trained : Graph := marked
  [.addTensor "x" ⟨.float, [1]⟩ .stream none, .addTensor "w" ⟨.float, [1]⟩ .weight none, .addConst "s" (cell .one),
    .addOp (.binary .add) ["x", "w"] ["a"] .forward, .addOp (.unary .neg) ["a"] ["b"] .forward,
    .addOp .sgdVarUpdate ["w", "b", "s", "s", "s"] ["u"] .weightUpdate, .keep "b"]

theorem trained_ready : trained.Ready :=
  ready_of_ops (l := [0, 1, 2]) (marked_wellFormed (n := 1) (by simp [Edit.Allowed]) (by decide)) (by decide) (by decide)

theorem trained_updatesWeights : trained.UpdatesWeights := by
  have hops : ∀ op ∈ trained.ops.values, op.kind = .sgdVarUpdate →
      (op.inputs.head?.bind trained.tensor?).map (·.type) = some .weight := by decide
  intro o op w ho hk hw
  have hop := hops op (Dict.mem_values.2 ⟨o, ho⟩) hk
  rw [hw, Option.bind_some] at hop
  exact Option.map_eq_some_iff.1 hop

theorem trained_keepsUpdates : trained.KeepsUpdates := by
  have hops : ∀ op ∈ trained.ops.values, op.kind = .sgdVarUpdate → ∀ q ∈ trained.ops.values, q.inPlace = true →
      ∀ t ∈ op.outputs, q.inputs.head? ≠ some t := by decide
  rintro o op t q ho hk ht ⟨op', hq, hmark, hhead⟩
  exact hops op (Dict.mem_values.2 ⟨o, ho⟩) hk op' (Dict.mem_values.2 ⟨q, hq⟩) hmark t ht hhead

/-- The program of `trained` with its input and its weight fed. -/
def trainedRun : Runtime :=
  ((load (sparing (.reference "cpu")) (programOf trained)).upload "x" (cell .one)).upload "w" (cell .one)

theorem trainedRun_running : Running (sparing (.reference "cpu")) (programOf trained) trainedRun :=
  .upload (.upload .load "x" (cell .one) (by decide)) "w" (cell .one) (by decide)

theorem Running.runBatch_refines_trained : trained.Overwrites 1 "a" ∧
    ∃ r', (Runtime.runBatch .train).run trainedRun = (.ok (), r') ∧
      (∃ v, trained.valueOn (sparing (.reference "cpu")) trainedRun.memory "b" = some v ∧
        r'.memory.tensor? "b" = some v) ∧
      ∃ u v, trained.valueOn (sparing (.reference "cpu")) trainedRun.memory u = some v ∧
        r'.memory.tensor? "w" = some v := by
  have heval : ∀ op ∈ trained.ops.values, ∀ t ∈ op.outputs,
      (trained.valueOn (sparing (.reference "cpu")) trainedRun.memory t).isSome = true := by decide
  obtain ⟨r', hrun, hproduced, hupdated, -⟩ := Running.runBatch_refines (n := 1) trained_ready trained_updatesWeights
    trained_keepsUpdates (by rfl) (sparing_overwritesAs _) trainedRun_running .train
    (fun o op t ho _ ht => heval op (Dict.mem_values.2 ⟨o, ho⟩) t ht) fun _ _ _ _ _ => trivial
  obtain ⟨o, op, u, v, -, -, -, -, hv, hw⟩ := hupdated rfl 2 _ "w" rfl rfl rfl
  refine ⟨⟨_, rfl, rfl, rfl⟩, r', hrun, ?_, u, v, hv, hw⟩
  exact hproduced "b" 1 _ rfl rfl (by decide) (SortedSet.contains_iff.1 (by decide))

/-- An updated value that another op writes over. -/
def overwrittenUpdate : Graph := marked
  [.addTensor "w" ⟨.float, [1]⟩ .weight none, .addConst "s" (cell .one),
    .addOp .sgdVarUpdate ["w", "s", "s", "s", "s"] ["u"] .weightUpdate,
    .addOp (.unary .neg) ["u"] ["v"] .weightUpdate, .keep "v"]

theorem overwrittenUpdate_ready : overwrittenUpdate.Ready :=
  ready_of_ops (l := [0, 1]) (marked_wellFormed (n := 1) (by simp [Edit.Allowed]) (by decide)) (by decide) (by decide)

/-- A result that is updated like a weight. -/
def updatedResult : Graph := marked
  [.addTensor "x" ⟨.float, [1]⟩ .stream none, .addConst "s" (cell .one), .addOp (.unary .neg) ["x"] ["y"] .forward,
    .addOp .sgdVarUpdate ["y", "x", "s", "s", "s"] ["u"] .weightUpdate, .keep "y"]

theorem updatedResult_ready : updatedResult.Ready :=
  ready_of_ops (l := [0, 1]) (marked_wellFormed (n := 0) (by simp [Edit.Allowed]) (by decide)) (by decide) (by decide)

/-- Both conditions on updates are needed: the first batch fails because an updated value is gone, the second one leaves
a kept result with the value of its update. -/
theorem runBatch_refines_without_conditions : stamping.OverwritesAs (fun _ => True) ∧
    (overwrittenUpdate.Ready ∧ ∃ e r, Executable.compile overwrittenUpdate 1 0 = .ok e ∧ Running stamping e r ∧
      overwrittenUpdate.Evaluates stamping r.memory .train ∧
      ((Runtime.runBatch .train).run r).1 = .error (.error (.state (.updateMissing "u")))) ∧
    updatedResult.Ready ∧ ∃ e r, Executable.compile updatedResult 1 0 = .ok e ∧ Running stamping e r ∧
      updatedResult.Evaluates stamping r.memory .train ∧ ((Runtime.runBatch .train).run r).1 = .ok () ∧
      updatedResult.producer? "y" = some 0 ∧ "y" ∈ updatedResult.kept ∧
      updatedResult.valueOn stamping r.memory "y" = some (cell .zero) ∧
      ((Runtime.runBatch .train).run r).2.memory.tensor? "y" = some (cell .one) := by
  refine ⟨stamping_overwritesAs, ⟨overwrittenUpdate_ready, programOf overwrittenUpdate,
    (load stamping (programOf overwrittenUpdate)).upload "w" (cell .one), by rfl,
    .upload .load "w" (cell .one) (by decide), ?_, by rfl⟩, updatedResult_ready, programOf updatedResult,
    (load stamping (programOf updatedResult)).upload "x" (cell .one), by rfl,
    .upload .load "x" (cell .one) (by decide), ?_, by rfl, by rfl, SortedSet.contains_iff.1 (by decide), by decide,
    by decide⟩
  · have heval : ∀ op ∈ overwrittenUpdate.ops.values, ∀ t ∈ op.outputs, (overwrittenUpdate.valueOn stamping
        ((load stamping (programOf overwrittenUpdate)).upload "w" (cell .one)).memory t).isSome = true := by decide
    exact fun o op t ho _ ht => heval op (Dict.mem_values.2 ⟨o, ho⟩) t ht
  · have heval : ∀ op ∈ updatedResult.ops.values, ∀ t ∈ op.outputs, (updatedResult.valueOn stamping
        ((load stamping (programOf updatedResult)).upload "x" (cell .one)).memory t).isSome = true := by decide
    exact fun o op t ho _ ht => heval op (Dict.mem_values.2 ⟨o, ho⟩) t ht

end Runtime

end TensorGraph
