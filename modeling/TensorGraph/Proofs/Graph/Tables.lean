import Mathlib.Tactic
import TensorGraph.Graph.Edit
import TensorGraph.Proofs.Collection
import TensorGraph.Proofs.Stateful

/-!
The tables of a graph: ops list their operands and results by name, tensors list their producer and their
consumers. `Linked` says that the two agree. Each change of a graph is described by what the look-ups `op?` and
`tensor?` find after it, and all later proofs go through these descriptions.
-/
namespace TensorGraph

theorem Op.eq_of_output {op : Op} {output t : TensorId} (h : op.outputs = [output]) (ht : op.output = .ok t) :
    t = output := by
  rw [Op.output, Outcome.promised_eq_ok, h] at ht
  exact (Option.some.inj ht).symm

namespace Graph

variable {g g' : Graph} {o : OpId} {t : TensorId}

/-! ## Look-ups -/

theorem mem_consumers : o ∈ g.consumers t ↔ ∃ x, g.tensor? t = some x ∧ o ∈ x.consumers := by
  unfold consumers
  cases g.tensor? t with
  | none => simp
  | some x => simp [SortedSet.mem_toList]

theorem producer?_eq_some : g.producer? t = some o ↔ ∃ x, g.tensor? t = some x ∧ x.producer = some o :=
  Option.bind_eq_some_iff

theorem hasTensor_iff : g.hasTensor t = true ↔ ∃ x, g.tensor? t = some x := Dict.contains_iff

theorem hasTensor_eq_false_iff : g.hasTensor t = false ↔ g.tensor? t = none := by
  rw [← Bool.not_eq_true, hasTensor_iff, Option.eq_none_iff_forall_ne_some]
  exact not_exists

theorem info?_eq_some {i : TensorInfo} : g.info? t = some i ↔ ∃ x, g.tensor? t = some x ∧ x.info = i :=
  Option.map_eq_some_iff

theorem info_eq_ok {i : TensorInfo} : g.info t = .ok i ↔ ∃ x, g.tensor? t = some x ∧ x.info = i := by
  rw [info, Outcome.orFail_eq_ok, info?_eq_some]

@[simp] theorem tensor?_modifyTensor (id : TensorId) (f : Tensor → Tensor) :
    (g.modifyTensor id f).tensor? t = if id = t then (g.tensor? t).map f else g.tensor? t :=
  Dict.get?_modify ..

@[simp] theorem op?_modifyTensor (id : TensorId) (f : Tensor → Tensor) :
    (g.modifyTensor id f).op? o = g.op? o := rfl

@[simp] theorem op?_modifyOp (id : OpId) (f : Op → Op) :
    (g.modifyOp id f).op? o = if id = o then (g.op? o).map f else g.op? o :=
  Dict.get?_modify ..

@[simp] theorem tensor?_modifyOp (id : OpId) (f : Op → Op) : (g.modifyOp id f).tensor? t = g.tensor? t := rfl

theorem foldl_modifyTensor (f : Tensor → Tensor) : ∀ (l : List TensorId) (g : Graph),
    l.foldl (fun g i => g.modifyTensor i f) g =
      { g with tensors := l.foldl (fun d i => d.modify i f) g.tensors }
  | [], _ => rfl
  | i :: l, g => by rw [List.foldl_cons, foldl_modifyTensor f l]; rfl

theorem foldl_modifyOp (f : Op → Op) : ∀ (l : List OpId) (g : Graph),
    l.foldl (fun g i => g.modifyOp i f) g = { g with ops := l.foldl (fun d i => d.modify i f) g.ops }
  | [], _ => rfl
  | i :: l, g => by rw [List.foldl_cons, foldl_modifyOp f l]; rfl

theorem foldl_eraseTensor : ∀ (l : List TensorId) (g : Graph),
    l.foldl (fun g i => { g with tensors := g.tensors.erase i }) g =
      { g with tensors := l.foldl Dict.erase g.tensors }
  | [], _ => rfl
  | i :: l, g => by rw [List.foldl_cons, foldl_eraseTensor l]; rfl

/-! ## Agreement of the tables -/

/-- Ops and tensors stand under their own names, and what tensors say of their producers and consumers is what ops
say of their results and operands. -/
structure Linked (g : Graph) : Prop where
  opId : ∀ {o op}, g.op? o = some op → op.id = o
  tensorId : ∀ {t x}, g.tensor? t = some x → x.id = t
  reads : ∀ {o t}, o ∈ g.consumers t ↔ ∃ op, g.op? o = some op ∧ t ∈ op.inputs
  makes : ∀ {o t}, g.producer? t = some o ↔ ∃ op, g.op? o = some op ∧ t ∈ op.outputs

namespace Linked

theorem hasTensor_of_input (h : g.Linked) {op : Op} (ho : g.op? o = some op) (ht : t ∈ op.inputs) :
    ∃ x, g.tensor? t = some x := by
  obtain ⟨x, hx, -⟩ := mem_consumers.1 (h.reads.2 ⟨op, ho, ht⟩)
  exact ⟨x, hx⟩

theorem hasTensor_of_output (h : g.Linked) {op : Op} (ho : g.op? o = some op) (ht : t ∈ op.outputs) :
    ∃ x, g.tensor? t = some x ∧ x.producer = some o :=
  producer?_eq_some.1 (h.makes.2 ⟨op, ho, ht⟩)

/-- What an op mentions is a tensor. -/
theorem hasTensor_of_mentioned (h : g.Linked) {op : Op} (ho : g.op? o = some op) (ht : t ∈ op.inputs ∨ t ∈ op.outputs) :
    ∃ x, g.tensor? t = some x := by
  rcases ht with ht | ht
  · exact h.hasTensor_of_input ho ht
  · obtain ⟨x, hx, -⟩ := h.hasTensor_of_output ho ht
    exact ⟨x, hx⟩

/-- No op mentions what is no tensor. -/
theorem not_mentioned (h : g.Linked) (ht : g.tensor? t = none) {op : Op} (ho : g.op? o = some op) :
    ¬ (t ∈ op.inputs ∨ t ∈ op.outputs) := fun hmem => by
  obtain ⟨x, hx⟩ := h.hasTensor_of_mentioned ho hmem
  cases ht.symm.trans hx

theorem mem_inputs (h : g.Linked) {op : Op} {x : Tensor} (ho : g.op? o = some op) (ht : g.tensor? t = some x) :
    o ∈ x.consumers ↔ t ∈ op.inputs := by
  have hr : o ∈ g.consumers t ↔ _ := h.reads
  simp only [mem_consumers, ho, ht, Option.some.injEq, exists_eq_left'] at hr
  exact hr

theorem mem_outputs (h : g.Linked) {op : Op} {x : Tensor} (ho : g.op? o = some op) (ht : g.tensor? t = some x) :
    x.producer = some o ↔ t ∈ op.outputs := by
  have hr : g.producer? t = some o ↔ _ := h.makes
  simp only [producer?_eq_some, ho, ht, Option.some.injEq, exists_eq_left'] at hr
  exact hr

theorem op_of_producer (h : g.Linked) (hp : g.producer? t = some o) :
    ∃ op, g.op? o = some op ∧ t ∈ op.outputs := h.makes.1 hp

/-- An op with one output produces that, and nothing else. -/
theorem producer?_iff_of_outputs (h : g.Linked) {op : Op} {output : TensorId} (ho : g.op? o = some op)
    (hout : op.outputs = [output]) : g.producer? t = some o ↔ t = output := by
  rw [h.makes]
  constructor
  · rintro ⟨op', ho', ht⟩
    cases ho.symm.trans ho'
    rwa [hout, List.mem_singleton] at ht
  · rintro rfl
    exact ⟨op, ho, hout ▸ List.mem_singleton_self t⟩

/-- Two ops that produce the same tensor are one. -/
theorem producer_unique (h : g.Linked) {o' : OpId} {op op' : Op} (ho : g.op? o = some op)
    (ho' : g.op? o' = some op') (ht : t ∈ op.outputs) (ht' : t ∈ op'.outputs) : o = o' := by
  have h1 := h.makes.2 ⟨op, ho, ht⟩
  have h2 := h.makes.2 ⟨op', ho', ht'⟩
  rw [h1] at h2
  exact Option.some.inj h2

end Linked

end Graph

end TensorGraph
