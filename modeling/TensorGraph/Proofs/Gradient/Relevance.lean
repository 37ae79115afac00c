import TensorGraph.Gradient.Synthesis
import TensorGraph.Proofs.Graph.Reach

/-!
The ops between weights and losses. The searches that find them come to everything, so what a relevant op reads either
comes from a relevant op, or from no weight at all.
-/
namespace TensorGraph

namespace Graph

variable {g : Graph} {o : OpId} {t : TensorId}

/-! ## Ops that depend on weights -/

theorem mem_forwardReaders :
    o ∈ g.forwardReaders t ↔ o ∈ g.consumers t ∧ ∃ op, g.op? o = some op ∧ op.phase = .forward := by
  rw [forwardReaders, List.mem_filter]
  cases g.op? o <;> simp

/-- The ops that depend on a weight are forward ops. With what reads a weight they are closed under being read by
forward ops. -/
theorem opsFromWeights_closed (g : Graph) : (∀ o ∈ g.opsFromWeights, ∃ op, g.op? o = some op ∧ op.phase = .forward) ∧
    (∀ t ∈ g.weights, ∀ o ∈ g.forwardReaders t, o ∈ g.opsFromWeights) ∧
      ∀ p ∈ g.opsFromWeights, ∀ op, g.op? p = some op → ∀ t ∈ op.outputs, ∀ o ∈ g.forwardReaders t,
        o ∈ g.opsFromWeights := by
  have hforward : ∀ {ids : List TensorId}, ∀ o ∈ ids.flatMap g.forwardReaders,
      ∃ op, g.op? o = some op ∧ op.phase = .forward := by
    intro ids o ho
    obtain ⟨t, -, ho⟩ := List.mem_flatMap.1 ho
    exact (mem_forwardReaders.1 ho).2
  have hop : ∀ {ids : List TensorId}, ∀ o ∈ ids.flatMap g.forwardReaders, ∃ op, g.op? o = some op := by
    intro ids o ho
    obtain ⟨op, hop, -⟩ := hforward o ho
    exact ⟨op, hop⟩
  obtain ⟨hstart, hclosed⟩ : (∀ o ∈ g.weights.flatMap g.forwardReaders, o ∈ g.opsFromWeights) ∧ _ :=
    reach_closed hop fun _ => hop
  refine ⟨reachFrom_all (fun _ _ => hforward) hforward fun o ho => absurd ho (SortedSet.not_mem_empty o), ?_, ?_⟩
  · exact fun t ht o ho => hstart o (List.mem_flatMap.2 ⟨t, ht, ho⟩)
  · intro p hp op hop t ht o ho
    refine hclosed p hp o ?_
    rw [hop, Option.map_some, Option.getD_some]
    exact List.mem_flatMap.2 ⟨t, ht, ho⟩

end Graph

namespace Synthesis

open TensorGraph.Graph

variable {g : Graph} {losses : List Loss} {relevant : SortedSet OpId} {o : OpId} {op : Op} {t : TensorId}

/-- Relevant ops are forward ops of the graph. -/
theorem op_of_relevant (h : o ∈ relevantOps g losses) : ∃ op, g.op? o = some op ∧ op.phase = .forward :=
  (opsFromWeights_closed g).1 o (SortedSet.mem_filter.1 h).1

theorem needsGrad_iff : needsGrad g relevant t = true ↔
    ∃ x, g.tensor? t = some x ∧ (x.type = .weight ∨ ∃ o ∈ relevant, x.producer = some o) := by
  unfold needsGrad
  cases g.tensor? t with
  | none => simp
  | some x => cases hp : x.producer <;> simp [hp, SortedSet.contains_iff]

theorem mem_weights (hl : g.Linked) : t ∈ g.weights ↔ ∃ x, g.tensor? t = some x ∧ x.type = .weight := by
  simp only [weights, idsOfType, List.mem_map, List.mem_filter, Dict.mem_values, decide_eq_true_eq]
  constructor
  · rintro ⟨x, ⟨⟨t', hx⟩, hw⟩, rfl⟩
    have hid : x.id = t' := hl.tensorId hx
    exact ⟨x, hid ▸ hx, hw⟩
  · rintro ⟨x, hx, hw⟩
    exact ⟨x, ⟨⟨t, hx⟩, hw⟩, hl.tensorId hx⟩

/-- Something that holds of tensors without producer, weights apart, that forward ops take from their operands to
their results, and that holds of whatever else forward ops read. -/
structure Spreads (g : Graph) (Z : TensorId → Prop) : Prop where
  source : ∀ {t x}, g.tensor? t = some x → x.producer = none → x.type ≠ .weight → Z t
  forward : ∀ {t o op}, g.producer? t = some o → g.op? o = some op → op.phase = .forward →
    (∀ i ∈ op.inputs, Z i) → Z t
  other : ∀ {t o op q}, g.producer? t = some o → g.op? o = some op → op.phase ≠ .forward →
    q ∈ g.forwardReaders t → Z t

namespace Spreads

variable {Z : TensorId → Prop} (h : Spreads g Z) (hl : g.Linked)

include h hl

/-- It holds of what a forward op reads, a weight apart, if it holds of what the producer of that reads. -/
theorem of_read {q : OpId} (hq : q ∈ g.forwardReaders t) (hweight : t ∉ g.weights)
    (hproducer : ∀ {o op}, g.producer? t = some o → g.op? o = some op → op.phase = .forward → ∀ i ∈ op.inputs, Z i) :
    Z t := by
  obtain ⟨x, hx, -⟩ := mem_consumers.1 (mem_forwardReaders.1 hq).1
  cases hp : x.producer with
  | none => exact h.source hx hp fun hw => hweight ((mem_weights hl).2 ⟨x, hx, hw⟩)
  | some o =>
    have hpo : g.producer? t = some o := producer?_eq_some.2 ⟨x, hx, hp⟩
    obtain ⟨op, hop, -⟩ := hl.op_of_producer hpo
    by_cases hphase : op.phase = .forward
    · exact h.forward hpo hop hphase (hproducer hpo hop hphase)
    · exact h.other hpo hop hphase hq

theorem of_not_fromWeights (ha : g.Acyclic) (n : Nat) : ∀ {o : OpId} {op : Op}, g.depth o = n → g.op? o = some op →
    op.phase = .forward → o ∉ g.opsFromWeights → ∀ i ∈ op.inputs, Z i := by
  obtain ⟨-, hweight, hclosed⟩ := opsFromWeights_closed g
  induction n using Nat.strong_induction_on with
  | _ n ih =>
    intro o op hn hop hphase hnot i hi
    have hreads : o ∈ g.forwardReaders i := mem_forwardReaders.2 ⟨hl.reads.2 ⟨op, hop, hi⟩, op, hop, hphase⟩
    refine h.of_read hl hreads (fun hw => hnot (hweight i hw o hreads)) fun {p pop} hp hpop hpphase => ?_
    refine ih (g.depth p) (hn ▸ ha.depth_lt hl ⟨op, hop, i, hi, hp⟩) rfl hpop hpphase fun hfrom => ?_
    obtain ⟨pop', hpop', hout⟩ := hl.op_of_producer hp
    exact hnot (hclosed p hfrom pop' hpop' i hout o hreads)

/-- Weights stand at the start of every path on which it can fail, so it holds of whatever a relevant op reads that
needs no gradient. -/
theorem of_not_needsGrad (ha : g.Acyclic) (ho : o ∈ relevantOps g losses) (hop : g.op? o = some op)
    (ht : t ∈ op.inputs) (hneeds : needsGrad g (relevantOps g losses) t = false) : Z t := by
  obtain ⟨op', hop', hphase⟩ := op_of_relevant ho
  cases hop.symm.trans hop'
  rw [← Bool.not_eq_true, needsGrad_iff] at hneeds
  have hreads : o ∈ g.forwardReaders t := mem_forwardReaders.2 ⟨hl.reads.2 ⟨op, hop, ht⟩, op, hop, hphase⟩
  refine h.of_read hl hreads (fun hw => hneeds ?_) fun {p pop} hp hpop hpphase => ?_
  · obtain ⟨x, hx, hw⟩ := (mem_weights hl).1 hw
    exact ⟨x, hx, .inl hw⟩
  · refine h.of_not_fromWeights hl ha _ rfl hpop hpphase fun hfrom => hneeds ?_
    -- the producer leads to a loss as the relevant op does
    have hto := opsTo_closed hl (SortedSet.contains_iff.1 (SortedSet.mem_filter.1 ho).2) hop ht hp
    obtain ⟨x, hx, hxp⟩ := producer?_eq_some.1 hp
    exact ⟨x, hx, .inr ⟨p, SortedSet.mem_filter.2 ⟨hfrom, SortedSet.contains_iff.2 hto⟩, hxp⟩⟩

end Spreads

end Synthesis

end TensorGraph
