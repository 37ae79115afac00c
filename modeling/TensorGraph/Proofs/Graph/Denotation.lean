import TensorGraph.Proofs.Graph.Reach

/-!
What a graph computes. Given what runs an op on values and the values of the tensors that no op produces, every
tensor has a value by recursion over the ops it depends on. On a graph without cycles the recursion is deep enough,
so the values are the one solution of the equations of the ops.
-/
namespace TensorGraph

namespace Graph

variable {V : Type} {g g' : Graph} {t : TensorId}

/-- How values come about: what an op makes of the values of its operands, given the info of its result, and the
values of the tensors that no op produces. -/
structure Reading (V : Type) where
  run : OpKind → List V → TensorInfo → Option V
  source : TensorId → Option V

namespace Reading

/-- What an op makes of the values that `ν` gives to its operands. -/
def apply (r : Reading V) (g : Graph) (ν : TensorId → Option V) (op : Op) (t : TensorId) : Option V :=
  (op.inputs.mapM ν).bind fun xs => (g.info? t).bind (r.run op.kind xs)

/-- The value of a tensor, by recursion over the ops that it depends on, at most `fuel` of them in a row. -/
def evalAt (r : Reading V) (g : Graph) : Nat → TensorId → Option V
  | 0, _ => none
  | fuel + 1, t =>
    match g.producer? t with
    | none => r.source t
    | some o => (g.op? o).bind fun op => r.apply g (evalAt r g fuel) op t

/-- The value of a tensor. No chain of ops is longer than there are ops. -/
def value? (r : Reading V) (g : Graph) (t : TensorId) : Option V := r.evalAt g (g.ops.size + 1) t

/-- Values that satisfy the equations of all ops, each of which has one. -/
structure Solves (r : Reading V) (g : Graph) (ν : TensorId → Option V) : Prop where
  source : ∀ {t}, g.hasTensor t = true → g.producer? t = none → ν t = r.source t
  op : ∀ {t o op}, g.producer? t = some o → g.op? o = some op →
    ∃ y, ν t = some y ∧ r.apply g ν op t = some y

theorem apply_congr {r : Reading V} {ν μ : TensorId → Option V} {op : Op} (h : ∀ i ∈ op.inputs, ν i = μ i) :
    r.apply g ν op t = r.apply g μ op t := by
  unfold apply
  rw [mapM_congr_of_mem h]

/-- Deep enough for a tensor: deeper than the op that produces it. -/
def Deep (g : Graph) (fuel : Nat) (t : TensorId) : Prop := 0 < fuel ∧ ∀ o, g.producer? t = some o → g.depth o + 1 < fuel

theorem deep_input (ha : g.Acyclic) (hl : g.Linked) {fuel : Nat} {o : OpId} {op : Op} {i : TensorId}
    (h : Deep g (fuel + 1) t) (hp : g.producer? t = some o) (ho : g.op? o = some op) (hi : i ∈ op.inputs) :
    Deep g fuel i := by
  have hlt := h.2 o hp
  refine ⟨by omega, fun p hpi => ?_⟩
  have := ha.depth_lt hl ⟨op, ho, i, hi, hpi⟩
  omega

theorem deep_size (ha : g.Acyclic) (hl : g.Linked) (t : TensorId) : Deep g (g.ops.size + 1) t := by
  refine ⟨Nat.succ_pos _, fun o hp => ?_⟩
  obtain ⟨op, ho, -⟩ := hl.op_of_producer hp
  have := ha.depth_lt_size ho
  omega

/-- More depth than needed does not change a value. -/
theorem evalAt_eq (r : Reading V) (ha : g.Acyclic) (hl : g.Linked) :
    ∀ {m n : Nat} {t : TensorId}, Deep g m t → Deep g n t → r.evalAt g m t = r.evalAt g n t
  | 0, _, _, hm, _ => absurd hm.1 (Nat.lt_irrefl 0)
  | _, 0, _, _, hn => absurd hn.1 (Nat.lt_irrefl 0)
  | m + 1, n + 1, t, hm, hn => by
    unfold evalAt
    cases hp : g.producer? t with
    | none => rfl
    | some o =>
      cases ho : g.op? o with
      | none => simp only [ho, Option.bind_none]
      | some op =>
        simp only [ho, Option.bind_some]
        refine apply_congr fun i hi => ?_
        exact evalAt_eq r ha hl (deep_input ha hl hm hp ho hi) (deep_input ha hl hn hp ho hi)

/-- Values only depend on those of the tensors that no op produces. -/
theorem value?_congr {run : OpKind → List V → TensorInfo → Option V} {a a' : TensorId → Option V}
    (h : ∀ t, g.producer? t = none → a t = a' t) : value? ⟨run, a⟩ g = value? ⟨run, a'⟩ g := by
  have hind : ∀ n t, evalAt ⟨run, a⟩ g n t = evalAt ⟨run, a'⟩ g n t := by
    intro n
    induction n with
    | zero => exact fun _ => rfl
    | succ n ih =>
      intro t
      unfold evalAt
      split
      · rename_i hp
        exact h t hp
      · rw [funext ih]
        rfl
  exact funext fun t => hind _ t

theorem value?_source (r : Reading V) (h : g.producer? t = none) : r.value? g t = r.source t := by
  unfold value? evalAt
  rw [h]

/-- The equation of an op. -/
theorem value?_op (r : Reading V) (ha : g.Acyclic) (hl : g.Linked) {o : OpId} {op : Op}
    (hp : g.producer? t = some o) (ho : g.op? o = some op) :
    r.value? g t = r.apply g (r.value? g) op t := by
  unfold value?
  rw [evalAt, hp]
  simp only [ho, Option.bind_some]
  refine apply_congr fun i hi => evalAt_eq r ha hl ?_ (deep_size ha hl i)
  exact deep_input ha hl (deep_size ha hl t) hp ho hi

/-- The values solve the equations if every op has one. -/
theorem solves_value? (r : Reading V) (ha : g.Acyclic) (hl : g.Linked)
    (hev : ∀ {o op t}, g.op? o = some op → t ∈ op.outputs → (r.value? g t).isSome = true) :
    r.Solves g (r.value? g) := by
  refine ⟨fun _ hp => value?_source r hp, fun {t o op} hp ho => ?_⟩
  have hout : t ∈ op.outputs := by
    obtain ⟨op', ho', hout⟩ := hl.op_of_producer hp
    cases ho.symm.trans ho'
    exact hout
  obtain ⟨y, hy⟩ := Option.isSome_iff_exists.1 (hev ho hout)
  exact ⟨y, hy, (value?_op r ha hl hp ho).symm.trans hy⟩

/-- There is only one solution. -/
theorem Solves.value?_eq {r : Reading V} {ν : TensorId → Option V} (h : r.Solves g ν) (ha : g.Acyclic)
    (hl : g.Linked) (ht : g.hasTensor t = true) : r.value? g t = ν t := by
  have hind : ∀ n t, g.hasTensor t = true → Deep g n t → r.value? g t = ν t := by
    intro n
    induction n with
    | zero => exact fun t _ hd => absurd hd.1 (Nat.lt_irrefl 0)
    | succ n ih =>
      intro t ht hd
      cases hp : g.producer? t with
      | none => rw [value?_source r hp, h.source ht hp]
      | some o =>
        obtain ⟨op, ho, -⟩ := hl.op_of_producer hp
        obtain ⟨y, hy, hyop⟩ := h.op hp ho
        rw [value?_op r ha hl hp ho, hy, ← hyop]
        refine apply_congr fun i hi => ih i ?_ (deep_input ha hl hd hp ho hi)
        exact hasTensor_iff.2 (hl.hasTensor_of_input ho hi)
  exact hind _ t ht (deep_size ha hl t)

end Reading

end Graph

end TensorGraph
