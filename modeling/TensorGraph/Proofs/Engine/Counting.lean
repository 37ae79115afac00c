import TensorGraph.Engine.Runtime
import TensorGraph.Proofs.Stateful

/-!
Counts do not matter for what a program computes. Two loaded programs that differ in their counts only run every batch
alike, and differ in their counts only after it.
-/
namespace TensorGraph

namespace Runtime

variable {r r' : Runtime}

/-- The same program with the same values on the device, whatever has been counted. -/
def Twins (r r' : Runtime) : Prop := ∃ c, r' = { r with counters := c }

namespace Twins

theorem download (h : Twins r r') (id : TensorId) : r'.download id = r.download id := by
  obtain ⟨c, rfl⟩ := h
  rfl

theorem counted (h : Twins r r') (c : Counters) : Twins r { r' with counters := c } := by
  obtain ⟨_, rfl⟩ := h
  exact ⟨c, rfl⟩

/-- Twins are run on alike if their program, their backend and their memory are. -/
theorem get_bind {α : Type} {f : Runtime → RuntimeM α}
    (hf : ∀ r c, Stateful.Alike Twins (f r) (f { r with counters := c })) : Stateful.Alike Twins (get >>= f) (get >>= f) := by
  refine .get_bind ?_
  rintro r _ ⟨c, rfl⟩
  exact hf r c

theorem edit {f : Runtime → Runtime} (hf : ∀ r c, f { r with counters := c } = { f r with counters := c }) :
    Stateful.Alike Twins (modify f : RuntimeM PUnit) (modify f) := by
  refine .modify ?_
  rintro r _ ⟨c, rfl⟩
  exact ⟨c, hf r c⟩

theorem count (f : Counters → Counters) : Stateful.Alike Twins (Runtime.count f) (Runtime.count f) := by
  refine .modify ?_
  rintro r _ ⟨c, rfl⟩
  exact ⟨f c, rfl⟩

theorem keep_counters (kind : OpKind) (first : Option DeviceValue) (id : TensorId) (result : HostTensor) (r : Runtime)
    (c : Counters) :
    ({ r with counters := c } : Runtime).keep kind first id result = { r.keep kind first id result with counters := c } := by
  unfold keep
  cases first with
  | none => rfl
  | some x =>
    simp only
    split <;> rfl

theorem keep_all_counters (kind : OpKind) (first : Option DeviceValue) (c : Counters) :
    ∀ (l : List (TensorId × HostTensor)) (r : Runtime),
    l.foldl (fun r (id, value) => r.keep kind first id value) { r with counters := c } =
      { l.foldl (fun r (id, value) => r.keep kind first id value) r with counters := c }
  | [], _ => rfl
  | (id, value) :: l, r => by
    rw [List.foldl_cons, List.foldl_cons]
    simp only [keep_counters]
    exact keep_all_counters kind first c l _

/-! ## Running -/

theorem executeFresh (op : CompiledOp) : Stateful.Alike Twins (executeFresh op) (executeFresh op) := by
  refine get_bind fun r c => .bind (.lift _) fun inputs => .bind (.liftM _) fun results => ?_
  have hkeep : Stateful.Alike Twins (modify fun r : Runtime =>
      (op.outputs.zip results).foldl (fun r (id, value) => r.keep op.kind inputs.head? id value) r) (modify _) :=
    edit fun r c => keep_all_counters op.kind inputs.head? c (op.outputs.zip results) r
  simp only [ne_eq, ite_not]
  split
  · exact hkeep
  · exact .bind (.fail _) fun _ => hkeep

theorem overwrite (op : CompiledOp) (target : DeviceValue) (rest : List HostTensor) (info : TensorInfo) :
    Stateful.Alike Twins (overwrite op target rest info) (overwrite op target rest info) := by
  refine get_bind fun r c => ?_
  simp only
  split
  · exact .bind (.liftM _) fun _ => .liftM _
  · exact .bind (count _) fun _ => .liftM _

theorem executeInPlace (op : CompiledOp) : Stateful.Alike Twins (executeInPlace op) (executeInPlace op) := by
  unfold Runtime.executeInPlace
  split
  · exact get_bind fun r c => .bind (.liftM _) fun target => .bind (edit fun _ _ => rfl) fun _ =>
      get_bind fun r c => .bind (.lift _) fun rest => .bind (overwrite _ _ _ _) fun result =>
        edit fun r c => keep_counters _ _ _ _ r c
  · exact .fail _

theorem execute (op : CompiledOp) : Stateful.Alike Twins (execute op) (execute op) := by
  unfold Runtime.execute
  split
  · exact .bind (executeInPlace op) fun _ => count _
  · exact .bind (executeFresh op) fun _ => count _

theorem runPhase (p : Phase) : Stateful.Alike Twins (runPhase p) (runPhase p) :=
  get_bind fun _ _ => .bind (.forM fun op _ => execute op) fun _ => count _

theorem applyUpdate (updated weight : TensorId) :
    Stateful.Alike Twins (applyUpdate updated weight) (applyUpdate updated weight) :=
  get_bind fun _ _ => .bind (.liftM _) fun _ => edit fun _ _ => rfl

/-- A batch does not depend on counts. -/
theorem runBatch (mode : RunMode) : Stateful.Alike Twins (runBatch mode) (runBatch mode) := by
  refine .bind (.forM fun p _ => runPhase p) fun _ => ?_
  split
  · exact get_bind fun _ _ => .bind (.forM fun uw _ => applyUpdate uw.1 uw.2) fun _ => count _
  · exact count _

end Twins

end Runtime

end TensorGraph
