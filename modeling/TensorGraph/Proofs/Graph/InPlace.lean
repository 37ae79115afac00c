import TensorGraph.Graph.InPlace
import TensorGraph.Proofs.Graph.Meaning
import TensorGraph.Proofs.Graph.Order

/-!
Marks for writing over operands. An op is marked only if it alone reads its first operand, and marks change nothing but
themselves: neither the tables of a graph, nor its order, nor its values.
-/
namespace TensorGraph

/-- The op with another mark. -/
def Op.withInPlace (op : Op) (mark : Bool) : Op := { op with inPlace := mark }

namespace Graph

variable {g g' : Graph} {o : OpId} {op : Op} {t : TensorId}

/-! ## Marked ops -/

/-- Every op that is marked may write over its first operand. -/
def MarkedSafely (g : Graph) : Prop := ∀ o op, g.op? o = some op → op.inPlace = true → g.mayOverwrite op = true

/-- The op `o` writes over `t`. -/
def Overwrites (g : Graph) (o : OpId) (t : TensorId) : Prop :=
  ∃ op, g.op? o = some op ∧ op.inPlace = true ∧ op.inputs.head? = some t

theorem mayOverwrite_cases (h : g.mayOverwrite op = true) :
    ∃ first others x, op.inputs = first :: others ∧ g.tensor? first = some x ∧ x.producer.isSome = true ∧
      x.consumers.size = 1 ∧ first ∉ others ∧ first ∉ g.kept := by
  unfold mayOverwrite at h
  split at h
  · cases h
  · rename_i first others hin
    split at h
    · cases h
    · rename_i x hx
      simp only [Bool.and_eq_true, beq_iff_eq, Bool.not_eq_true', List.contains_eq_mem, decide_eq_false_iff_not] at h
      obtain ⟨⟨⟨⟨⟨-, hp⟩, hc⟩, hothers⟩, hkept⟩, -⟩ := h
      refine ⟨first, others, x, hin, hx, hp, hc, hothers, fun hmem => ?_⟩
      rw [isKept, SortedSet.contains_iff.2 hmem] at hkept
      cases hkept

theorem Overwrites.cases (h : g.Overwrites o t) (hflags : g.MarkedSafely) :
    ∃ op others x, g.op? o = some op ∧ op.inputs = t :: others ∧ g.tensor? t = some x ∧ x.producer.isSome = true ∧
      x.consumers.size = 1 ∧ t ∉ others ∧ t ∉ g.kept := by
  obtain ⟨op, ho, hmark, hhead⟩ := h
  obtain ⟨first, others, x, hin, hx, hp, hc, hothers, hkept⟩ := mayOverwrite_cases (hflags o op ho hmark)
  rw [hin, List.head?_cons, Option.some.injEq] at hhead
  subst hhead
  exact ⟨op, others, x, ho, hin, hx, hp, hc, hothers, hkept⟩

/-- What is written over is a result, and none that is kept. -/
theorem Overwrites.result (h : g.Overwrites o t) (hflags : g.MarkedSafely) :
    (g.producer? t).isSome = true ∧ t ∉ g.kept := by
  obtain ⟨_, _, x, -, -, hx, hp, -, -, hkept⟩ := h.cases hflags
  rw [producer?, hx]
  exact ⟨hp, hkept⟩

/-- The only reader of a tensor that is written over is the op that does it. -/
theorem Overwrites.reader_unique (h : g.Overwrites o t) (hflags : g.MarkedSafely) (hl : g.Linked) {q : OpId} {op' : Op}
    (hq : g.op? q = some op') (hread : t ∈ op'.inputs) : q = o := by
  obtain ⟨op, others, x, ho, hin, hx, -, hc, -⟩ := h.cases hflags
  have hqc : q ∈ x.consumers.toList := (hl.mem_inputs hq hx).2 hread
  have hoc : o ∈ x.consumers.toList := (hl.mem_inputs ho hx).2 (by simp [hin])
  obtain ⟨a, ha⟩ := List.length_eq_one_iff.1 hc
  rw [ha, List.mem_singleton] at hqc hoc
  rw [hqc, hoc]

/-! ## Marking -/

theorem mayOverwrite_congr (htensors : g'.tensors = g.tensors) (hkept : g'.kept = g.kept) {op' : Op}
    (hin : op'.inputs = op.inputs) (hout : op'.outputs = op.outputs) : g'.mayOverwrite op' = g.mayOverwrite op := by
  have htensor : g'.tensor? = g.tensor? := by
    funext t
    rw [tensor?, tensor?, htensors]
  have hinfo : g'.info? = g.info? := by
    funext t
    rw [info?, info?, htensor]
  unfold mayOverwrite isKept
  rw [hin, hout, htensor, hinfo, hkept]

/-- What marking does: the chosen ops, which may all write over their first operand, are marked. -/
theorem markInPlace_ok {n : Nat} (hrun : (markInPlace).run g = (.ok n, g')) : ∃ chosen : List Op,
    (∀ op ∈ chosen, (∃ o, g.op? o = some op) ∧ g.mayOverwrite op = true) ∧
      g' = { g with ops := (chosen.map (·.id)).foldl (fun d i => d.modify i (·.withInPlace true)) g.ops } := by
  unfold markInPlace at hrun
  replace hrun := Stateful.of_get_bind hrun
  obtain ⟨ops, _, hops, hrun⟩ := Stateful.run_bind_ok.1 hrun
  rw [Stateful.run_lift, Prod.mk.injEq] at hops
  obtain ⟨hops, rfl⟩ := hops
  obtain ⟨_, _, hset, hrun⟩ := Stateful.run_bind_ok.1 hrun
  cases hrun
  cases hset
  refine ⟨ops.filter g.inPlaceCandidate, fun op hop => ?_, ?_⟩
  · obtain ⟨hop, hcand⟩ := List.mem_filter.1 hop
    obtain ⟨l, -, hl⟩ := Outcome.bind_eq_ok.1 hops
    cases hl
    obtain ⟨o, -, ho⟩ := List.mem_filterMap.1 hop
    simp only [inPlaceCandidate, Bool.and_eq_true] at hcand
    exact ⟨⟨o, ho⟩, hcand.2⟩
  · rw [← foldl_modifyOp, List.foldl_map]
    rfl

/-- Marking leaves all marks safe. -/
theorem MarkedSafely.markInPlace (h : g.MarkedSafely) (hl : g.Linked) {n : Nat}
    (hrun : (Graph.markInPlace).run g = (.ok n, g')) : g'.MarkedSafely := by
  obtain ⟨chosen, hchosen, rfl⟩ := markInPlace_ok hrun
  intro o op ho hmark
  have hidem : ∀ op : Op, (op.withInPlace true).withInPlace true = op.withInPlace true := fun _ => rfl
  rw [op?, Dict.get?_foldl_modify hidem] at ho
  split at ho
  · rename_i hmem
    obtain ⟨op₀, hop₀, rfl⟩ := List.mem_map.1 hmem
    obtain ⟨⟨q, hq⟩, hmay⟩ := hchosen op₀ hop₀
    have hid := hl.opId hq
    subst hid
    obtain ⟨op₁, ho₁, rfl⟩ := Option.map_eq_some_iff.1 ho
    cases hq.symm.trans ho₁
    exact (mayOverwrite_congr rfl rfl rfl rfl).trans hmay
  · exact (mayOverwrite_congr rfl rfl rfl rfl).trans (h o op ho hmark)

/-! ## Clearing the marks -/

/-- The graph with no op marked. -/
def clearInPlace (g : Graph) : Graph := { g with ops := g.ops.map fun _ op => op.withInPlace false }

theorem op?_clearInPlace : g.clearInPlace.op? o = (g.op? o).map (·.withInPlace false) :=
  Dict.get?_map ..

/-- An op of the cleared graph is one of the graph, but for its mark. -/
theorem op_of_clearInPlace (h : g.clearInPlace.op? o = some op) :
    op.inPlace = false ∧ ∃ op₀, g.op? o = some op₀ ∧ op = op₀.withInPlace false := by
  rw [op?_clearInPlace] at h
  obtain ⟨op₀, ho, rfl⟩ := Option.map_eq_some_iff.1 h
  exact ⟨rfl, op₀, ho, rfl⟩

theorem exists_op_clearInPlace {p : Op → Prop} (hp : ∀ op, p (op.withInPlace false) ↔ p op) :
    (∃ op, g.clearInPlace.op? o = some op ∧ p op) ↔ ∃ op, g.op? o = some op ∧ p op := by
  constructor
  · rintro ⟨op, ho, h⟩
    obtain ⟨-, op₀, ho₀, rfl⟩ := op_of_clearInPlace ho
    exact ⟨op₀, ho₀, (hp op₀).1 h⟩
  · rintro ⟨op, ho, h⟩
    exact ⟨_, by rw [op?_clearInPlace, ho]; rfl, (hp op).2 h⟩

theorem op?_clearInPlace_of (h : g.op? o = some op) : g.clearInPlace.op? o = some (op.withInPlace false) := by
  rw [op?_clearInPlace, h]
  rfl

/-- Marks are no part of being well-formed. -/
theorem wellFormed_clearInPlace : g.clearInPlace.WellFormed ↔ g.WellFormed := by
  have hreads : ∀ {o t}, (∃ op, g.clearInPlace.op? o = some op ∧ t ∈ op.inputs) ↔
      ∃ op, g.op? o = some op ∧ t ∈ op.inputs :=
    fun {o t} => exists_op_clearInPlace (p := fun op => t ∈ op.inputs) fun _ => Iff.rfl
  have hmakes : ∀ {o t}, (∃ op, g.clearInPlace.op? o = some op ∧ t ∈ op.outputs) ↔
      ∃ op, g.op? o = some op ∧ t ∈ op.outputs :=
    fun {o t} => exists_op_clearInPlace (p := fun op => t ∈ op.outputs) fun _ => Iff.rfl
  constructor
  · intro h
    refine ⟨fun ho => ?_, h.tensorId, fun ho => h.opBound (op?_clearInPlace_of ho),
      fun ho ht => h.inputs (op?_clearInPlace_of ho) ht, fun ho ht => h.outputs (op?_clearInPlace_of ho) ht,
      h.reads.trans hreads, h.makes.trans hmakes, h.produced, h.streams⟩
    have hid := h.opId (op?_clearInPlace_of ho)
    exact hid
  · intro h
    refine ⟨fun ho => ?_, h.tensorId, fun ho => ?_, fun ho ht => ?_, fun ho ht => ?_, h.reads.trans hreads.symm,
      h.makes.trans hmakes.symm, h.produced, h.streams⟩ <;> obtain ⟨-, op₀, ho₀, rfl⟩ := op_of_clearInPlace ho
    · exact (h.opId ho₀ : op₀.id = _)
    · exact h.opBound ho₀
    · exact h.inputs ho₀ ht
    · exact h.outputs ho₀ ht

/-- Marking changes nothing but marks. -/
theorem clearInPlace_markInPlace {n : Nat} (hrun : (markInPlace).run g = (.ok n, g')) :
    g'.clearInPlace = g.clearInPlace := by
  obtain ⟨chosen, -, rfl⟩ := markInPlace_ok hrun
  have hidem : ∀ op : Op, (op.withInPlace true).withInPlace true = op.withInPlace true := fun _ => rfl
  unfold clearInPlace
  congr 1
  refine Dict.ext_get? fun k => ?_
  rw [Dict.get?_map, Dict.get?_map, Dict.get?_foldl_modify hidem]
  split
  · rw [Option.map_map]
    rfl
  · rfl

theorem WellFormed.markInPlace (h : g.WellFormed) {n : Nat} (hrun : (Graph.markInPlace).run g = (.ok n, g')) :
    g'.WellFormed := by
  rw [← wellFormed_clearInPlace, clearInPlace_markInPlace hrun, wellFormed_clearInPlace]
  exact h

theorem feeds_clearInPlace {p q : OpId} : g.clearInPlace.Feeds p q ↔ g.Feeds p q :=
  exists_op_clearInPlace (p := fun op => ∃ t ∈ op.inputs, g.producer? t = some p) fun _ => Iff.rfl

theorem Acyclic.clearInPlace (h : g.Acyclic) : g.clearInPlace.Acyclic :=
  h.of_feeds fun hf => .single (feeds_clearInPlace.1 hf)

theorem Inferred.clearInPlace (h : g.Inferred) : g.clearInPlace.Inferred := by
  intro o op ho
  obtain ⟨-, op₀, ho₀, rfl⟩ := op_of_clearInPlace ho
  exact h o op₀ ho₀

theorem not_overwrites_clearInPlace : ¬ g.clearInPlace.Overwrites o t := by
  rintro ⟨op, ho, hmark, -⟩
  rw [(op_of_clearInPlace ho).1] at hmark
  cases hmark

theorem markedSafely_clearInPlace (g : Graph) : g.clearInPlace.MarkedSafely := by
  intro o op ho hmark
  rw [(op_of_clearInPlace ho).1] at hmark
  cases hmark

/-- Marks do not change values. -/
theorem Reading.value?_clearInPlace {V : Type} (r : Reading V) : r.value? g.clearInPlace = r.value? g := by
  have hsize : g.clearInPlace.ops.size = g.ops.size := List.length_map ..
  have hind : ∀ n t, r.evalAt g.clearInPlace n t = r.evalAt g n t := by
    intro n
    induction n with
    | zero => exact fun _ => rfl
    | succ n ih =>
      intro t
      have hproducer : g.clearInPlace.producer? t = g.producer? t := rfl
      unfold evalAt
      rw [hproducer]
      cases g.producer? t with
      | none => rfl
      | some o =>
        simp only [op?_clearInPlace]
        cases g.op? o with
        | none => rfl
        | some op =>
          have hinputs : op.inputs.mapM (r.evalAt g.clearInPlace n) = op.inputs.mapM (r.evalAt g n) :=
            mapM_congr_of_mem fun i _ => ih i
          simp only [Option.map_some, Option.bind_some, apply, Op.withInPlace, hinputs]
          rfl
  funext t
  rw [value?, hsize, hind]
  rfl

/-- Marks do not change the order. -/
theorem order_clearInPlace (g : Graph) : g.clearInPlace.order = g.order := by
  refine order_congr (fun o => ?_) rfl
  rw [op?_clearInPlace, Option.map_map]
  rfl

end Graph

end TensorGraph
