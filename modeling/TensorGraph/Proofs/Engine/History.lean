import TensorGraph.Proofs.Engine.Batch

/-!
What stays fixed while a loaded program is fed and run, whatever fails on the way: its backend, its steps, and the
values of its constants.
-/
namespace TensorGraph

open TensorGraph.Graph

variable {g : Graph} {e : Executable} {b : Backend} {c : CompiledOp} {r : Runtime}

/-- Nothing in a program writes over its constants: no other constant, no step, and no update. -/
structure Executable.SparesConstants (e : Executable) : Prop where
  unique : ∀ kv ∈ e.constants, ∀ kv' ∈ e.constants, kv.1 = kv'.1 → kv = kv'
  outputs : ∀ p, ∀ c ∈ e.fragment p, ∀ kv ∈ e.constants, kv.1 ∉ c.outputs
  inPlace : ∀ p, ∀ c ∈ e.fragment p, c.inPlace = true → ∀ kv ∈ e.constants, c.inputs.head? ≠ some kv.1
  updates : ∀ uw ∈ e.updates, ∀ kv ∈ e.constants, kv.1 ≠ uw.2

namespace Graph

/-- Every update is one of a weight. -/
def UpdatesWeights (g : Graph) : Prop :=
  ∀ o op w, g.op? o = some op → op.kind = .sgdVarUpdate → op.inputs.head? = some w →
    ∃ x, g.tensor? w = some x ∧ x.type = .weight

end Graph

/-- A program compiled from a well-formed graph: constants have no producer, and only results are written over. -/
theorem Executable.Compiled.sparesConstants {l : List OpId} (h : Compiled g l e) (hw : g.WellFormed)
    (hm : g.MarkedSafely) (hu : g.UpdatesWeights) : e.SparesConstants := by
  have hsource : ∀ {t x}, g.tensor? t = some x → x.type = .const → g.producer? t = none := by
    intro t x hx hc
    rw [producer?, hx, Option.bind_some, hw.constantsFixed t x hx hc]
  refine ⟨fun kv hkv kv' hkv' heq => ?_, fun p c hc kv hkv hout => ?_, fun p c hc hflag kv hkv hhead => ?_,
    fun uw huw kv hkv heq => ?_⟩ <;> obtain ⟨x, hx, hconst, hdata⟩ := (h.constants kv.1 kv.2).1 hkv
  · obtain ⟨x', hx', -, hdata'⟩ := (h.constants kv'.1 kv'.2).1 hkv'
    rw [← heq, hx, Option.some.injEq] at hx'
    subst hx'
    rw [hdata, Option.some.injEq] at hdata'
    exact Prod.ext heq hdata'
  · obtain ⟨o, op, ho, -, hfrom⟩ := h.step hc
    rw [hfrom.outputs] at hout
    have hp := hw.makes.2 ⟨op, ho, hout⟩
    rw [hsource hx hconst] at hp
    cases hp
  · obtain ⟨o, op, ho, -, hfrom⟩ := h.step hc
    rw [hfrom.inputs] at hhead
    rw [hfrom.inPlace] at hflag
    obtain ⟨first, others, y, hin, hy, hp, -⟩ := mayOverwrite_cases (hm o op ho hflag)
    rw [hin, List.head?_cons, Option.some.injEq] at hhead
    subst hhead
    cases hx.symm.trans hy
    rw [hw.constantsFixed _ x hx hconst] at hp
    cases hp
  · obtain ⟨op, hop, hk, -, hhead⟩ := (h.updates uw.1 uw.2).1 huw
    obtain ⟨o, -, ho⟩ := List.mem_filterMap.1 hop
    obtain ⟨y, hy, hweight⟩ := hu o op uw.2 ho hk hhead
    rw [← heq, hx, Option.some.injEq] at hy
    subst hy
    rw [hconst] at hweight
    cases hweight

namespace Runtime

/-- A program on its backend with its constants in memory. -/
structure Loaded (b : Backend) (e : Executable) (r : Runtime) : Prop where
  backend : r.backend = b
  executable : r.executable = e
  constants : ∀ kv ∈ e.constants, r.memory.tensor? kv.1 = some kv.2

namespace Loaded

theorem upload (h : Loaded b e r) {id : TensorId} (x : HostTensor) (hid : ∀ kv ∈ e.constants, kv.1 ≠ id) :
    Loaded b e (r.upload id x) := by
  refine ⟨h.backend, h.executable, fun kv hkv => ?_⟩
  rw [Runtime.upload, DeviceMemory.tensor?_store, if_neg fun heq => hid kv hkv heq.symm]
  exact h.constants kv hkv

theorem keep (h : Loaded b e r) (kind : OpKind) (first : Option DeviceValue) {id : TensorId} (x : HostTensor)
    (hid : ∀ kv ∈ e.constants, kv.1 ≠ id) : Loaded b e (r.keep kind first id x) := by
  obtain ⟨hb, he⟩ := same_keep (r := r) kind first id x
  refine ⟨hb.trans h.backend, he.trans h.executable, fun kv hkv => ?_⟩
  rw [tensor?_keep, if_neg fun heq => hid kv hkv heq.symm]
  exact h.constants kv hkv

theorem keep_all (kind : OpKind) (first : Option DeviceValue) : ∀ {l : List (TensorId × HostTensor)} {r : Runtime},
    (∀ ix ∈ l, ∀ kv ∈ e.constants, kv.1 ≠ ix.1) → Loaded b e r →
    Loaded b e (l.foldl (fun r (id, value) => r.keep kind first id value) r)
  | [], _, _, h => h
  | ix :: l, _, hid, h =>
    keep_all (l := l) kind first (fun jx hjx => hid jx (List.mem_cons_of_mem _ hjx)) (h.keep kind first ix.2 (hid ix (by simp)))

theorem count (f : Counters → Counters) : Stateful.Keeps (Loaded b e) (Runtime.count f) :=
  .modify fun _ h => ⟨h.backend, h.executable, h.constants⟩

theorem executeFresh (hout : ∀ kv ∈ e.constants, kv.1 ∉ c.outputs) :
    Stateful.Keeps (Loaded b e) (executeFresh c) := by
  refine .get_bind fun r _ => .bind (.lift _) fun inputs => .bind (.liftM _) fun results => ?_
  have hkeep : Stateful.Keeps (Loaded b e) (modify fun r : Runtime =>
      (c.outputs.zip results).foldl (fun r (id, value) => r.keep c.kind inputs.head? id value) r) := by
    refine .modify fun s hs => keep_all c.kind inputs.head? (fun ix hix kv hkv heq => ?_) hs
    exact hout kv hkv (heq ▸ (List.of_mem_zip hix).1)
  simp only [ne_eq, ite_not]
  split
  · exact hkeep
  · exact .bind (.fail _) fun _ => hkeep

theorem overwrite (target : DeviceValue) (rest : List HostTensor) (info : TensorInfo) :
    Stateful.Keeps (Loaded b e) (overwrite c target rest info) := by
  refine .get_bind fun r _ => ?_
  split
  · exact .bind (.liftM _) fun _ => .liftM _
  · exact .bind (count _) fun _ => .liftM _

theorem executeInPlace (hout : ∀ kv ∈ e.constants, kv.1 ∉ c.outputs)
    (hfirst : ∀ kv ∈ e.constants, c.inputs.head? ≠ some kv.1) : Stateful.Keeps (Loaded b e) (executeInPlace c) := by
  unfold Runtime.executeInPlace
  split
  · rename_i first others output info hin hcout hinfos
    rw [hcout] at hout
    rw [hin] at hfirst
    refine .get_bind fun r _ => .bind (.liftM _) fun target => .bind (.modify fun s hs => ?_) fun _ =>
      .get_bind fun r' _ => .bind (.lift _) fun rest =>
      .bind (overwrite _ _ _) fun result => .modify fun s hs => ?_
    · refine ⟨hs.backend, hs.executable, fun kv hkv => ?_⟩
      rw [DeviceMemory.tensor?_erase, if_neg fun heq => hfirst kv hkv (by rw [List.head?_cons, heq])]
      exact hs.constants kv hkv
    · exact hs.keep _ _ _ fun kv hkv heq => hout kv hkv (by simp [heq])
  · exact .fail _

theorem applyUpdate {updated weight : TensorId} (hw : ∀ kv ∈ e.constants, kv.1 ≠ weight) :
    Stateful.Keeps (Loaded b e) (applyUpdate updated weight) := by
  refine .get_bind fun r _ => .bind (.liftM _) fun value => .modify fun s hs => ?_
  refine ⟨hs.backend, hs.executable, fun kv hkv => ?_⟩
  rw [DeviceMemory.tensor?_share, if_neg fun heq => hw kv hkv heq.symm]
  exact hs.constants kv hkv

theorem execute {p : Phase} (he : e.SparesConstants) (hc : c ∈ e.fragment p) :
    Stateful.Keeps (Loaded b e) (execute c) := by
  unfold Runtime.execute
  split
  · rename_i hflag
    exact .bind (executeInPlace (he.outputs p c hc) (he.inPlace p c hc hflag)) fun _ => count _
  · exact .bind (executeFresh (he.outputs p c hc)) fun _ => count _

theorem runPhase (he : e.SparesConstants) (p : Phase) : Stateful.Keeps (Loaded b e) (runPhase p) := by
  refine .get_bind fun r hr => .bind (.forM fun c hc => ?_) fun _ => count _
  rw [hr.executable] at hc
  exact execute he hc

/-- No batch, complete or not, changes what is loaded. -/
theorem runBatch (he : e.SparesConstants) (mode : RunMode) : Stateful.Keeps (Loaded b e) (runBatch mode) := by
  refine .bind (.forM fun p _ => runPhase he p) fun _ => ?_
  split
  · refine .get_bind fun r hr => .bind (.forM fun uw huw => ?_) fun _ => count _
    rw [hr.executable] at huw
    exact applyUpdate (he.updates uw huw)
  · exact count _

/-- A freshly loaded program. -/
theorem load (he : e.SparesConstants) (b : Backend) : Loaded b e (Runtime.load b e) := by
  refine ⟨rfl, rfl, fun kv hkv => ?_⟩
  have hstored : ∀ (l : List (TensorId × HostTensor)) (m : DeviceMemory), (∀ kv' ∈ l, kv.1 = kv'.1 → kv = kv') →
      kv ∈ l ∨ m.tensor? kv.1 = some kv.2 →
      (l.foldl (fun m (id, value) => m.store id value) m).tensor? kv.1 = some kv.2 := by
    intro l
    induction l with
    | nil => exact fun m _ h => h.resolve_left List.not_mem_nil
    | cons a l ih =>
      intro m hunique h
      refine ih (m.store a.1 a.2) (fun kv' hkv' => hunique kv' (List.mem_cons_of_mem _ hkv')) ?_
      rw [DeviceMemory.tensor?_store]
      by_cases ha : a.1 = kv.1
      · rw [if_pos ha, hunique a (by simp) ha.symm]
        exact .inr rfl
      · rw [if_neg ha]
        refine h.imp_left fun hmem => (List.mem_cons.1 hmem).resolve_left ?_
        rintro rfl
        exact ha rfl
  exact hstored e.constants {} (he.unique kv hkv) (.inl hkv)

end Loaded

/-- The states of a program that is loaded, then fed and run any number of times, in any order and any modes. A failed
batch leaves what it computed until then. -/
inductive Running (b : Backend) (e : Executable) : Runtime → Prop
  | load : Running b e (load b e)
  | upload {r : Runtime} (h : Running b e r) (id : TensorId) (x : HostTensor) (hid : ∀ kv ∈ e.constants, kv.1 ≠ id) :
      Running b e (r.upload id x)
  | runBatch {r : Runtime} (h : Running b e r) (mode : RunMode) : Running b e ((runBatch mode).run r).2

theorem Running.loaded (he : e.SparesConstants) (h : Running b e r) : Loaded b e r := by
  induction h with
  | load => exact .load he b
  | upload h id x hid ih => exact ih.upload x hid
  | runBatch h mode ih => exact Loaded.runBatch he mode _ ih

end Runtime

end TensorGraph
