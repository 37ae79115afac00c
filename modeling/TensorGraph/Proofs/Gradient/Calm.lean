import TensorGraph.Proofs.Gradient.Emission

/-!
Gradient rules never add updates of weights. All rules for kinds are like that; rules that are registered by name must
be.
-/
namespace TensorGraph

open TensorGraph.Graph

/-- All updates that are there after a call were there before it. -/
def Calm {α : Type} (x : GradM α) : Prop := ∀ s a s', x.run s = (.ok a, s') →
  ∀ o op, s'.graph.op? o = some op → op.kind = .sgdVarUpdate → s.graph.op? o = some op

namespace Calm

variable {α β : Type}

protected theorem pure (a : α) : Calm (pure a) := by
  intro s a' s' hrun o op ho _
  cases hrun
  exact ho

protected theorem liftM (o : Outcome α) : Calm (liftM o : GradM α) := by
  intro s a s' hrun o op ho _
  rw [Stateful.run_liftM, Prod.mk.injEq] at hrun
  exact hrun.2 ▸ ho

protected theorem lift (o : Outcome α) : Calm (Stateful.lift o : GradM α) := Calm.liftM o

protected theorem get : Calm (get : GradM Synthesis) := by
  intro s a s' hrun o op ho _
  cases hrun
  exact ho

protected theorem bind {x : GradM α} {f : α → GradM β} (hx : Calm x) (hf : ∀ a, Calm (f a)) : Calm (x >>= f) := by
  intro s b s' hrun o op ho hk
  obtain ⟨a, s₁, hrun₁, hrun₂⟩ := Stateful.run_bind_ok.1 hrun
  exact hx s a s₁ hrun₁ o op (hf a s₁ b s' hrun₂ o op ho hk) hk

protected theorem mapM {f : α → GradM β} (hf : ∀ a, Calm (f a)) : ∀ l : List α, Calm (l.mapM f)
  | [] => .pure []
  | a :: l => by
    rw [List.mapM_cons]
    exact (hf a).bind fun _ => (Calm.mapM hf l).bind fun _ => .pure _

theorem shape (c : GradCall) (i : Nat) : Calm (c.shape i) :=
  .bind .get fun _ => .bind (.liftM _) fun _ => .bind (.liftM _) fun _ => .pure _

theorem addFresh {owner : Op} {kind : OpKind} {inputs : List TensorId} {base : TensorId} (hk : kind ≠ .sgdVarUpdate) :
    Calm (GradM.addFresh owner kind inputs base) := by
  intro s t s' hrun o op ho hop
  obtain ⟨output, s₁, hcall, hrun⟩ := Stateful.run_bind_ok.1 hrun
  obtain ⟨g₁, hchange, rfl⟩ := GradM.run_onGraph_ok hcall
  have htemp := Stateful.run_change_ok.1 hchange
  obtain ⟨_, s₂, hadd, hrun⟩ := Stateful.run_bind_ok.1 hrun
  cases hrun
  obtain ⟨id, s₃, hcall, hadd⟩ := Stateful.run_bind_ok.1 hadd
  obtain ⟨g₂, hadded, rfl⟩ := GradM.run_onGraph_ok hcall
  obtain ⟨output', info, -, rfl, ha⟩ := Graph.addOp_ok (Stateful.run_change_ok.1 hadded)
  cases hadd
  obtain ⟨n, hsnd⟩ := tempId_snd (g := s.graph) (gradId base)
  rw [Except.ok.injEq] at htemp
  have hops : g₁.op? o = s.graph.op? o := by
    rw [htemp] at hsnd
    simp only at hsnd
    rw [hsnd]
    rfl
  rw [op?_modifyOp, ha.op?_eq] at ho
  split at ho
  · rename_i heq
    rw [if_pos heq.symm] at ho
    cases ho
    exact absurd hop hk
  · rename_i hne
    rw [if_neg (Ne.symm hne)] at ho
    exact hops ▸ ho

theorem emit (c : GradCall) {kind : OpKind} (inputs : List TensorId) (hk : kind ≠ .sgdVarUpdate) :
    Calm (c.emit kind inputs) := .bind (.liftM _) fun _ => addFresh hk

theorem operand (c : GradCall) (i : Nat) {x : GradM TensorId} (hx : Calm x) : Calm (c.operand i x) := by
  unfold GradCall.operand
  split
  · exact hx.bind fun _ => .pure _
  · exact .pure _

theorem only (c : GradCall) {kind : OpKind} (inputs : List TensorId) (hk : kind ≠ .sgdVarUpdate) :
    Calm (c.only kind inputs) := (operand c 0 (emit c inputs hk)).bind fun _ => .pure _

theorem summed (c : GradCall) (i : Nat) : Calm (c.summed i) :=
  operand c i ((shape c i).bind fun _ => emit c _ nofun)

theorem pair {x y : GradM (Option TensorId)} (hx : Calm x) (hy : Calm y) :
    Calm (x >>= fun a => y >>= fun b => pure [a, b]) := hx.bind fun _ => hy.bind fun _ => .pure _

end Calm

namespace GradRule

open Calm

/-- A rule never adds updates. -/
def Calm (rule : GradRule) : Prop := ∀ c, TensorGraph.Calm (rule c)

theorem calm_unary {f : Unary} {rule : GradRule} (h : unary? f = some rule) : rule.Calm := by
  intro c
  cases f with
  | sign | ceil | floor => cases h
  | neg | scale factor =>
    cases h
    exact only c _ nofun
  | square | abs =>
    cases h
    exact .bind (.liftM _) fun _ =>
      .bind (operand c 0 (.bind (emit c _ nofun) fun _ => emit c _ nofun)) fun _ => .pure _
  | reciprocal | log | clip min max | sqrt | exp | relu | sigmoid | tanh =>
    cases h
    exact .bind (.liftM _) fun _ => only c _ nofun

theorem calm_binary (f : Binary) : (binary f).Calm := by
  intro c
  cases f with
  | add => exact pair (summed c 0) (summed c 1)
  | sub => exact pair (summed c 0) (operand c 1 (.bind (shape c 1) fun _ => emit c _ nofun))
  | mul =>
    exact pair (operand c 0 (.bind (shape c 0) fun _ => .bind (.liftM _) fun _ => emit c _ nofun))
      (operand c 1 (.bind (shape c 1) fun _ => .bind (.liftM _) fun _ => emit c _ nofun))
  | div =>
    exact .bind (.liftM _) fun _ => .bind (.liftM _) fun _ =>
      pair (operand c 0 (.bind (shape c 0) fun _ => emit c _ nofun))
        (operand c 1 (.bind (shape c 1) fun _ => emit c _ nofun))

theorem calm_matMul : matMul.Calm := fun c =>
  .bind (.liftM _) fun _ => .bind (.liftM _) fun _ =>
    pair (operand c 0 (.bind (emit c _ nofun) fun _ => emit c _ nofun))
      (operand c 1 (.bind (emit c _ nofun) fun _ => emit c _ nofun))

theorem calm_concat (axis : Int) : (concat axis).Calm := by
  intro c
  have hfrom : ∀ axis count i offset, TensorGraph.Calm (concatFrom c axis count i offset) := by
    intro axis count
    induction count with
    | zero => exact fun _ _ => .pure _
    | succ count ih =>
      intro i offset
      exact .bind (shape c i) fun _ => .bind (.liftM _) fun _ => .bind (.liftM _) fun _ =>
        .bind (operand c i (emit c _ nofun)) fun _ => .bind (ih _ _) fun _ => .pure _
  exact .bind (shape c 0) fun _ => .bind (.liftM _) fun _ => hfrom _ _ 0 0

theorem calm_pad (pads : List Int) : (pad pads).Calm := by
  intro c
  refine .bind (shape c 0) fun shape => ?_
  have hcut : TensorGraph.Calm (do
      let starts := pads.take shape.length
      let ends ← Stateful.lift ((List.zipWith (· + ·) starts shape).mapM Word.int)
      c.only (.slice starts ends ((List.range shape.length).map Int.ofNat)) [c.incoming]) :=
    .bind (.lift _) fun _ => only c _ nofun
  by_cases hlen : pads.length < shape.length
  · simp only [hlen, if_true]
    exact .bind (.lift _) fun _ => hcut
  · simp only [hlen, if_false]
    exact hcut

/-- The rules for kinds are calm. -/
theorem calm_ofKind {kind : OpKind} {rule : GradRule} (h : ofKind? kind = some rule) : rule.Calm := by
  unfold ofKind? at h
  split at h
  · cases h
    exact fun c => only c _ nofun
  · exact calm_unary h
  · cases h
    exact fun c => .bind (.liftM _) fun _ => only c _ nofun
  · cases h
    exact calm_binary _
  · cases h
    exact calm_matMul
  · cases h
    exact fun c => .mapM (summed c) _
  · cases h
    rename_i axes keepDims
    refine fun c => .bind (shape c 0) fun _ => ?_
    cases keepDims with
    | true => exact .bind (.pure _) fun _ => only c _ nofun
    | false => exact .bind (.lift _) fun _ => only c _ nofun
  · cases h
    exact fun c => .bind (shape c 0) fun _ => only c _ nofun
  · cases h
    exact fun c => only c _ nofun
  · cases h
    exact fun c => .bind (shape c 0) fun _ => .bind (.liftM _) fun _ => only c _ nofun
  · cases h
    exact calm_pad _
  · cases h
    exact calm_concat _
  · cases h
    exact fun c => .bind (shape c 0) fun _ => .bind (.liftM _) fun _ =>
      .bind (operand c 0 (emit c _ nofun)) fun _ => .pure _
  · cases h
    exact fun c => .bind (.liftM _) fun _ => .bind (operand c 0 (emit c _ nofun)) fun _ =>
      .bind (operand c 2 (emit c _ nofun)) fun _ => .pure _
  · cases h

end GradRule

end TensorGraph
