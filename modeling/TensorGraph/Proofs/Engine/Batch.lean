import TensorGraph.Engine.Runtime
import TensorGraph.Proofs.Engine.Compile
import TensorGraph.Proofs.Graph.InPlace

/-!
A compiled program computes what its graph says, also where ops write over their operands. The invariant of a batch is
that every tensor without a producer has the value it started with, and that every result that no op has written over
since has the value that the graph gives it; what earlier batches left behind is never read. An op finds its operands,
because the only op that may write over a tensor is its only reader.
-/
namespace TensorGraph

open TensorGraph.Graph

variable {g : Graph} {e : Executable} {b : Backend} {o : OpId} {op : Op} {c : CompiledOp} {t : TensorId}
  {ν : TensorId → Option HostTensor} {done : List OpId} {r r' : Runtime}

/-! ## Memory -/

namespace DeviceMemory

variable {m : DeviceMemory}

/-- The tensor that a name stands for. -/
def tensor? (m : DeviceMemory) (t : TensorId) : Option HostTensor := (m.get? t).map (·.tensor)

theorem tensor?_storeIn (id : TensorId) (x : HostTensor) (n : Nat) :
    (m.storeIn id x n).tensor? t = if id = t then some x else m.tensor? t := by
  simp only [tensor?, get?, storeIn, Dict.get?_insert]
  split <;> rfl

theorem tensor?_store (id : TensorId) (x : HostTensor) :
    (m.store id x).tensor? t = if id = t then some x else m.tensor? t := tensor?_storeIn ..

theorem tensor?_share (id : TensorId) (v : DeviceValue) :
    (m.share id v).tensor? t = if id = t then some v.tensor else m.tensor? t := by
  simp only [tensor?, get?, share, Dict.get?_insert]
  split <;> rfl

theorem tensor?_erase (id : TensorId) : (m.erase id).tensor? t = if id = t then none else m.tensor? t := by
  simp only [tensor?, get?, erase, Dict.get?_erase]
  split <;> rfl

end DeviceMemory

namespace Runtime

/-- The same program on the same backend. -/
def Same (r r' : Runtime) : Prop := r'.backend = r.backend ∧ r'.executable = r.executable

theorem Same.refl (r : Runtime) : Same r r := ⟨rfl, rfl⟩

theorem Same.trans {r'' : Runtime} (h : Same r r') (h' : Same r' r'') : Same r r'' :=
  ⟨h'.1.trans h.1, h'.2.trans h.2⟩

theorem tensor?_keep (kind : OpKind) (first : Option DeviceValue) (id : TensorId) (x : HostTensor) :
    (r.keep kind first id x).memory.tensor? t = if id = t then some x else r.memory.tensor? t := by
  unfold keep
  split
  · split
    · exact DeviceMemory.tensor?_storeIn ..
    · exact DeviceMemory.tensor?_store ..
  · exact DeviceMemory.tensor?_store ..

theorem same_keep (kind : OpKind) (first : Option DeviceValue) (id : TensorId) (x : HostTensor) :
    Same r (r.keep kind first id x) := by
  unfold keep
  split
  · split <;> exact ⟨rfl, rfl⟩
  · exact ⟨rfl, rfl⟩

/-- Operands that have their values in memory are found. -/
theorem operands_ok {xs : List HostTensor} : ∀ {l : List TensorId}, (∀ i ∈ l, r.memory.tensor? i = ν i) →
    l.mapM ν = some xs → ∃ vals, l.mapM (r.operand c) = .ok vals ∧ vals.map (·.tensor) = xs := by
  intro l hmem hxs
  rw [mapM_eq_some_iff] at hxs
  induction hxs with
  | nil => exact ⟨[], rfl, rfl⟩
  | @cons i x l xs hi _ ih =>
    obtain ⟨vals, hvals, rfl⟩ := ih fun j hj => hmem j (List.mem_cons_of_mem _ hj)
    obtain ⟨v, hv, rfl⟩ := Option.map_eq_some_iff.1 ((hmem i (by simp)).trans hi)
    refine ⟨v :: vals, ?_, rfl⟩
    rw [Outcome.mapM_eq_ok] at hvals ⊢
    exact .cons (Outcome.orFail_eq_ok.2 hv) hvals

end Runtime

/-! ## Backends that write over operands -/

/-- Writing over a first operand in the class `P` gives what running beside it gives. -/
def Backend.OverwritesAs (b : Backend) (P : HostTensor → Prop) : Prop :=
  ∀ kind x shared rest info y, P x → b.execute kind (x :: rest) [info] = .ok [y] →
    b.executeInPlace kind x shared rest info = .ok y

/-- The values `ν` are what the op makes of its operands. -/
structure Graph.Yields (g : Graph) (b : Backend) (ν : TensorId → Option HostTensor) (op : Op) (out : TensorId)
    (xs : List HostTensor) (info : TensorInfo) (y : HostTensor) : Prop where
  outputs : op.outputs = [out]
  operands : op.inputs.mapM ν = some xs
  resultInfo : g.info? out = some info
  kernel : b.kernel op.kind xs info = some y
  result : ν out = some y

namespace Runtime

/-! ## Single steps -/

section Steps

variable {out : TensorId} {xs : List HostTensor} {info : TensorInfo} {y : HostTensor}

theorem infos_eq (hc : CompiledFrom g op c) (hy : g.Yields b ν op out xs info y) : c.infos = [info] := by
  have hinfos := hc.infos
  rw [hy.outputs, Outcome.mapM_eq_ok] at hinfos
  obtain ⟨i, l, hi, hl, hcons⟩ := List.forall₂_cons_left_iff.1 hinfos
  rw [List.forall₂_nil_left_iff] at hl
  rw [Graph.info, Outcome.orFail_eq_ok, hy.resultInfo, Option.some.injEq] at hi
  rw [hcons, hl, hi]

/-- A step that runs beside its operands gives its result the value of the op and changes no other tensor. -/
theorem run_executeFresh (hc : CompiledFrom g op c) (hy : g.Yields b ν op out xs info y) (hb : r.backend = b)
    (hmem : ∀ i ∈ op.inputs, r.memory.tensor? i = ν i) :
    ∃ r', (executeFresh c).run r = (.ok (), r') ∧ Same r r' ∧
      ∀ t, r'.memory.tensor? t = if out = t then some y else r.memory.tensor? t := by
  obtain ⟨vals, hvals, hxs⟩ := operands_ok (c := c) hmem hy.operands
  have hexec := Backend.kernel_eq_some.1 hy.kernel
  refine ⟨r.keep c.kind vals.head? out y, ?_, same_keep .., fun t => tensor?_keep ..⟩
  unfold executeFresh
  rw [Stateful.run_bind_ok]
  refine ⟨r, r, rfl, ?_⟩
  rw [Stateful.run_bind_ok]
  refine ⟨vals, r, ?_, ?_⟩
  · rw [Stateful.run_lift, hc.inputs, hvals]
  · rw [Stateful.run_bind_ok]
    refine ⟨[y], r, ?_, ?_⟩
    · rw [Stateful.run_liftM, hc.kind, hxs, infos_eq hc hy, hb, hexec]
    · rw [hc.outputs, hy.outputs]
      rfl

/-- Running over a value gives what the op makes of it, whether others hold the value or not. -/
theorem run_overwrite {P : HostTensor → Prop} (hagree : b.OverwritesAs P) (hkind : c.kind = op.kind) (hb : r.backend = b)
    {target : DeviceValue} {rest : List HostTensor} (hP : P target.tensor)
    (hexec : b.execute op.kind (target.tensor :: rest) [info] = .ok [y]) :
    ∃ r', (overwrite c target rest info).run r = (.ok y, r') ∧ Same r r' ∧ r'.memory = r.memory := by
  unfold overwrite
  simp only [Stateful.run_bind, Stateful.run_get]
  split
  · refine ⟨r, ?_, .refl r, rfl⟩
    rw [Stateful.run_bind, Stateful.run_liftM, hkind, hb, hexec]
    rfl
  · refine ⟨{ r with counters := { r.counters with inPlaceOps := r.counters.inPlaceOps + 1 } }, ?_, ⟨rfl, rfl⟩, rfl⟩
    rw [Stateful.run_bind]
    simp only [count, Stateful.run_modify]
    rw [Stateful.run_liftM, hkind, hb, hagree _ _ _ _ _ _ hP hexec]

/-- A step that runs over its first operand uses that one up. -/
theorem run_executeInPlace {P : HostTensor → Prop} (hagree : b.OverwritesAs P) (hc : CompiledFrom g op c)
    (hy : g.Yields b ν op out xs info y) (hb : r.backend = b) (hmem : ∀ i ∈ op.inputs, r.memory.tensor? i = ν i)
    {first : TensorId} {others : List TensorId} (hin : op.inputs = first :: others) (hfirst : first ∉ others)
    (hP : ∀ v, ν first = some v → P v) :
    ∃ r', (executeInPlace c).run r = (.ok (), r') ∧ Same r r' ∧
      ∀ t, r'.memory.tensor? t =
        if out = t then some y else if first = t then none else r.memory.tensor? t := by
  have hoperands := hy.operands
  rw [hin, mapM_eq_some_iff] at hoperands
  obtain ⟨x, rest, hx, hrest, rfl⟩ := List.forall₂_cons_left_iff.1 hoperands
  obtain ⟨target, htarget, rfl⟩ := Option.map_eq_some_iff.1 ((hmem first (by simp [hin])).trans hx)
  have herased : ∀ j ∈ others, ({ r with memory := r.memory.erase first } : Runtime).memory.tensor? j = ν j := by
    intro j hj
    have hne : ¬ first = j := fun e => hfirst (e ▸ hj)
    rw [DeviceMemory.tensor?_erase, if_neg hne]
    exact hmem j (by simp [hin, hj])
  obtain ⟨vals, hvals, rfl⟩ := operands_ok (c := c) herased (mapM_eq_some_iff.2 hrest)
  obtain ⟨r₂, hover, hsame, hmemory⟩ := run_overwrite (r := { r with memory := r.memory.erase first }) hagree hc.kind hb
    (hP _ hx) (Backend.kernel_eq_some.1 hy.kernel)
  refine ⟨r₂.keep c.kind (some target) out y, ?_, hsame.trans (same_keep ..), fun t => ?_⟩
  · unfold executeInPlace
    rw [hc.inputs, hin, hc.outputs, hy.outputs, infos_eq hc hy]
    simp only [Stateful.run_bind, Stateful.run_get, Stateful.run_liftM, Stateful.run_modify, Stateful.run_lift]
    rw [operand, htarget]
    simp only [Outcome.orFail]
    rw [hvals]
    simp only
    rw [hover]
  · rw [tensor?_keep, hmemory, DeviceMemory.tensor?_erase]

end Steps

/-! ## The invariant of a batch -/

/-- Tensors without a producer have their values, and so have the results of the ops of `done` that none of them has
written over. -/
structure Holds (g : Graph) (ν : TensorId → Option HostTensor) (done : List OpId) (m : DeviceMemory) : Prop where
  source : ∀ {t}, g.hasTensor t = true → g.producer? t = none → m.tensor? t = ν t
  result : ∀ {t o}, g.producer? t = some o → o ∈ done → (∀ q ∈ done, ¬ g.Overwrites q t) → m.tensor? t = ν t

/-- What a batch relies on: the graph, the values, and that values of tensors that are written over are in the class
`P` on which the backend may do so. -/
structure Refinable (g : Graph) (b : Backend) (P : HostTensor → Prop) (ν : TensorId → Option HostTensor) : Prop where
  linked : g.Linked
  acyclic : g.Acyclic
  marked : g.MarkedSafely
  agree : b.OverwritesAs P
  class_ : ∀ {o t v}, g.Overwrites o t → ν t = some v → P v

variable {P : HostTensor → Prop}

/-- An op whose turn it is finds all its operands: nobody else may have written over them. -/
theorem Holds.operand (h : Holds g ν done r.memory) (hr : Refinable g b P ν) (ho : g.op? o = some op) (hnot : o ∉ done)
    (hfeeds : ∀ p, g.Feeds p o → p ∈ done) : ∀ i ∈ op.inputs, r.memory.tensor? i = ν i := by
  intro i hi
  cases hp : g.producer? i with
  | none => exact h.source (hasTensor_iff.2 (hr.linked.hasTensor_of_input ho hi)) hp
  | some p =>
    refine h.result hp (hfeeds p ⟨op, ho, i, hi, hp⟩) fun q hq hover => hnot ?_
    rw [hover.reader_unique hr.marked hr.linked ho hi]
    exact hq

/-- The step of an op leaves the value of its result in memory, and changes nothing else but what the op may write
over. -/
theorem run_computes {out : TensorId} {xs : List HostTensor} {info : TensorInfo} {y : HostTensor} (hr : Refinable g b P ν)
    (hb : r.backend = b) (hc : CompiledFrom g op c) (ho : g.op? o = some op) (hy : g.Yields b ν op out xs info y)
    (hmem : ∀ i ∈ op.inputs, r.memory.tensor? i = ν i) :
    ∃ r', (if c.inPlace = true then executeInPlace c else executeFresh c).run r = (.ok (), r') ∧ Same r r' ∧
      r'.memory.tensor? out = some y ∧
      ∀ t, out ≠ t → ¬ g.Overwrites o t → r'.memory.tensor? t = r.memory.tensor? t := by
  by_cases hflag : c.inPlace = true
  · have hflag' : op.inPlace = true := hc.inPlace ▸ hflag
    obtain ⟨first, others, x, hin, -, -, -, hfirst, -⟩ := mayOverwrite_cases (hr.marked o op ho hflag')
    have hover : g.Overwrites o first := ⟨op, ho, hflag', by simp [hin]⟩
    obtain ⟨r', hrun, hsame, hmemory⟩ := run_executeInPlace hr.agree hc hy hb hmem hin hfirst
      fun v hv => hr.class_ hover hv
    refine ⟨r', by rw [if_pos hflag]; exact hrun, hsame, by rw [hmemory, if_pos rfl], fun t ht hno => ?_⟩
    have hne : ¬ first = t := by
      rintro rfl
      exact hno hover
    rw [hmemory, if_neg ht, if_neg hne]
  · obtain ⟨r', hrun, hsame, hmemory⟩ := run_executeFresh hc hy hb hmem
    refine ⟨r', by rw [if_neg hflag]; exact hrun, hsame, by rw [hmemory, if_pos rfl], fun t ht _ => ?_⟩
    rw [hmemory, if_neg ht]

/-- The memory holds one more value. -/
theorem Holds.computed {m m' : DeviceMemory} {out : TensorId} {xs : List HostTensor} {info : TensorInfo} {y : HostTensor}
    (h : Holds g ν done m) (hr : Refinable g b P ν) (ho : g.op? o = some op) (hy : g.Yields b ν op out xs info y)
    (hval : m'.tensor? out = some y) (hother : ∀ t, out ≠ t → ¬ g.Overwrites o t → m'.tensor? t = m.tensor? t) :
    Holds g ν (o :: done) m' := by
  have hproduced : ∀ {t}, g.producer? t = some o ↔ t = out := hr.linked.producer?_iff_of_outputs ho hy.outputs
  refine ⟨fun {t} ht hp => ?_, fun {t p} hp hpd hno => ?_⟩
  · have hne : out ≠ t := by
      rintro rfl
      cases hp.symm.trans (hproduced.2 rfl)
    refine (hother t hne fun hover => ?_).trans (h.source ht hp)
    obtain ⟨-, -, x, -, -, hx, hsome, -⟩ := hover.cases hr.marked
    rw [producer?, hx, Option.bind_some] at hp
    rw [hp] at hsome
    cases hsome
  · by_cases hne : out = t
    · subst hne
      exact hval.trans hy.result.symm
    · refine (hother t hne (hno o List.mem_cons_self)).trans (h.result hp ((List.mem_cons.1 hpd).resolve_left ?_)
        fun q hq => hno q (List.mem_cons_of_mem _ hq))
      rintro rfl
      exact hne (hproduced.1 hp).symm

/-- The step of the invariant. -/
theorem run_execute (hr : Refinable g b P ν) (hb : r.backend = b) (hc : CompiledFrom g op c) (ho : g.op? o = some op)
    (hnot : o ∉ done) (hfeeds : ∀ p, g.Feeds p o → p ∈ done)
    (hy : ∃ out xs info y, g.Yields b ν op out xs info y) (h : Holds g ν done r.memory) :
    ∃ r', (execute c).run r = (.ok (), r') ∧ Same r r' ∧ Holds g ν (o :: done) r'.memory := by
  obtain ⟨out, xs, info, y, hy⟩ := hy
  obtain ⟨r₁, hrun, hsame, hval, hother⟩ := run_computes hr hb hc ho hy (h.operand hr ho hnot hfeeds)
  refine ⟨{ r₁ with counters := { r₁.counters with ops := r₁.counters.ops + 1 } }, ?_, hsame.trans ⟨rfl, rfl⟩,
    h.computed hr ho hy hval hother⟩
  unfold execute
  by_cases hflag : c.inPlace = true
  · rw [if_pos hflag] at hrun
    simp only [hflag, if_true]
    exact Stateful.run_bind_ok.2 ⟨(), r₁, hrun, rfl⟩
  · rw [if_neg hflag] at hrun
    simp only [hflag]
    exact Stateful.run_bind_ok.2 ⟨(), r₁, hrun, rfl⟩

/-- The run of the invariant over steps in the order of a schedule. -/
theorem run_steps (hr : Refinable g b P ν) : ∀ {ops : List Op} {cs : List CompiledOp} {done : List OpId} {r : Runtime},
    List.Forall₂ (CompiledFrom g) ops cs → (∀ op ∈ ops, g.op? op.id = some op) →
    (∀ op ∈ ops, ∃ out xs info y, g.Yields b ν op out xs info y) → Schedule g done (ops.map (·.id)) →
    r.backend = b → Holds g ν done r.memory →
    ∃ r', (cs.forM execute).run r = (.ok (), r') ∧ Same r r' ∧ Holds g ν ((ops.map (·.id)).reverse ++ done) r'.memory
  | [], _, done, r, .nil, _, _, _, _, h => ⟨r, rfl, .refl r, h⟩
  | op :: ops, c :: cs, done, r, .cons hc hcs, hfound, hyields, hsched, hb, h => by
    obtain ⟨hnot, -, hfeeds, hsched⟩ := hsched
    obtain ⟨r₁, hrun, hsame, h₁⟩ :=
      run_execute hr hb hc (hfound op (by simp)) hnot hfeeds (hyields op (by simp)) h
    obtain ⟨r₂, hrun', hsame', h₂⟩ := run_steps hr hcs (fun op' h' => hfound op' (List.mem_cons_of_mem _ h'))
      (fun op' h' => hyields op' (List.mem_cons_of_mem _ h')) hsched (hsame.1.trans hb) h₁
    refine ⟨r₂, ?_, hsame.trans hsame', ?_⟩
    · rw [Stateful.forM_cons]
      exact Stateful.run_bind_ok.2 ⟨(), r₁, hrun, hrun'⟩
    · simpa using h₂

/-- The run of the invariant over phases. -/
theorem run_phases (hr : Refinable g b P ν) {ops : List Op} (hfound : ∀ op ∈ ops, g.op? op.id = some op) :
    ∀ {ps : List Phase} {done : List OpId} {r : Runtime},
    (∀ p ∈ ps, List.Forall₂ (CompiledFrom g) (ops.filter (·.phase = p)) (r.executable.fragment p)) →
    (∀ op ∈ ops, op.phase ∈ ps → ∃ out xs info y, g.Yields b ν op out xs info y) →
    Schedule g done ((ps.flatMap fun p => ops.filter (·.phase = p)).map (·.id)) →
    r.backend = b → Holds g ν done r.memory →
    ∃ r', (ps.forM runPhase).run r = (.ok (), r') ∧ Same r r' ∧
      Holds g ν (((ps.flatMap fun p => ops.filter (·.phase = p)).map (·.id)).reverse ++ done) r'.memory
  | [], done, r, _, _, _, _, h => ⟨r, rfl, .refl r, h⟩
  | p :: ps, done, r, hfragment, hyields, hsched, hb, h => by
    rw [List.flatMap_cons, List.map_append, Schedule.append] at hsched
    obtain ⟨r₁, hrun, hsame, h₁⟩ := run_steps hr (hfragment p (by simp))
      (fun op hop => hfound op (List.mem_filter.1 hop).1)
      (fun op hop => by
        obtain ⟨hmem, hphase⟩ := List.mem_filter.1 hop
        rw [decide_eq_true_eq] at hphase
        exact hyields op hmem (by simp [hphase])) hsched.1 hb h
    let counted := { r₁ with
      counters := { r₁.counters with phases := r₁.counters.phases.insert p ((r₁.counters.phases.get? p).getD 0 + 1) } }
    have hphase : (runPhase p).run r = (.ok (), counted) := by
      unfold runPhase
      refine Stateful.run_bind_ok.2 ⟨r, r, rfl, ?_⟩
      exact Stateful.run_bind_ok.2 ⟨(), r₁, hrun, rfl⟩
    obtain ⟨r₂, hrun', hsame', h₂⟩ := run_phases hr hfound (r := counted)
      (fun q hq => hsame.2 ▸ hfragment q (List.mem_cons_of_mem _ hq))
      (fun op hop hq => hyields op hop (List.mem_cons_of_mem _ hq)) hsched.2 (hsame.1.trans hb) h₁
    refine ⟨r₂, ?_, hsame.trans hsame', ?_⟩
    · rw [Stateful.forM_cons]
      exact Stateful.run_bind_ok.2 ⟨(), counted, hphase, hrun'⟩
    · simpa using h₂

/-! ## Updates -/

/-- The value that a weight has after a list of updates: that of the last one. -/
def lastUpdate : List (TensorId × TensorId) → TensorId → Option TensorId
  | [], _ => none
  | (u, w) :: l, t => (lastUpdate l t).or (if w = t then some u else none)

theorem mem_of_lastUpdate {u : TensorId} : ∀ {l : List (TensorId × TensorId)}, lastUpdate l t = some u → (u, t) ∈ l
  | (u', w) :: l, h => by
    rcases Option.or_eq_some_iff.1 h with h | ⟨-, h⟩
    · exact List.mem_cons_of_mem _ (mem_of_lastUpdate h)
    · split at h
      · rename_i hw
        cases h
        simp [hw]
      · cases h

theorem lastUpdate_isSome {u : TensorId} : ∀ {l : List (TensorId × TensorId)}, (u, t) ∈ l →
    ∃ u', lastUpdate l t = some u'
  | (u', w) :: l, h => by
    cases hlast : lastUpdate l t with
    | some v => exact ⟨v, by simp [lastUpdate, hlast]⟩
    | none =>
      rcases List.mem_cons.1 h with h | h
      · cases h
        exact ⟨u, by simp [lastUpdate, hlast]⟩
      · obtain ⟨v, hv⟩ := lastUpdate_isSome h
        rw [hlast] at hv
        cases hv

/-- Applying updates whose values are there: a weight takes the value of its last update, other tensors keep theirs. -/
theorem run_updates : ∀ {l : List (TensorId × TensorId)} {r : Runtime},
    (∀ uw ∈ l, (r.memory.tensor? uw.1).isSome = true) → (∀ uw ∈ l, ∀ uw' ∈ l, uw.1 ≠ uw'.2) →
    ∃ r', (l.forM fun (updated, weight) => applyUpdate updated weight).run r = (.ok (), r') ∧ Same r r' ∧
      ∀ t, r'.memory.tensor? t = r.memory.tensor? ((lastUpdate l t).getD t)
  | [], r, _, _ => ⟨r, rfl, .refl r, fun _ => rfl⟩
  | (u, w) :: l, r, hsome, hne => by
    obtain ⟨x, hx⟩ := Option.isSome_iff_exists.1 (hsome (u, w) (by simp))
    obtain ⟨v, hv, rfl⟩ := Option.map_eq_some_iff.1 hx
    let shared := { r with memory := r.memory.share w v }
    have hshared : ∀ t, shared.memory.tensor? t = if w = t then some v.tensor else r.memory.tensor? t :=
      fun t => DeviceMemory.tensor?_share ..
    have hupdated : ∀ uw ∈ (u, w) :: l, shared.memory.tensor? uw.1 = r.memory.tensor? uw.1 := by
      intro uw huw
      rw [hshared, if_neg fun e => hne uw huw (u, w) (by simp) e.symm]
    obtain ⟨r', hrun, hsame, hmemory⟩ := run_updates (l := l) (r := shared)
      (fun uw huw => by
        rw [hupdated uw (List.mem_cons_of_mem _ huw)]
        exact hsome uw (List.mem_cons_of_mem _ huw))
      (fun uw huw uw' huw' => hne uw (List.mem_cons_of_mem _ huw) uw' (List.mem_cons_of_mem _ huw'))
    refine ⟨r', ?_, hsame, fun t => ?_⟩
    · rw [Stateful.forM_cons]
      refine Stateful.run_bind_ok.2 ⟨(), shared, ?_, hrun⟩
      simp only [applyUpdate, Stateful.run_bind, Stateful.run_get, hv, Outcome.orFail, Stateful.run_liftM,
        Stateful.run_modify]
      rfl
    · rw [hmemory]
      cases hlast : lastUpdate l t with
      | some u' =>
        simp only [lastUpdate, hlast, Option.some_or, Option.getD_some]
        exact hupdated (u', t) (List.mem_cons_of_mem _ (mem_of_lastUpdate hlast))
      | none =>
        simp only [lastUpdate, hlast, Option.none_or, Option.getD_none, hshared]
        by_cases hw : w = t
        · simp only [hw, if_true, Option.getD_some]
          exact hx.symm
        · simp [hw]

end Runtime

end TensorGraph
