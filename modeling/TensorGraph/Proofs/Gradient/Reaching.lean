import TensorGraph.Proofs.Gradient.Degree
import TensorGraph.Proofs.Gradient.Accumulation

/-!
Which tensors a loss depends on. A path of forward ops, each entered at an operand that gradients are passed back to,
leads from a tensor to the first operand of a loss. All ops on a path from a weight are among those that are visited,
so the two searches that find these ops miss none.
-/
namespace TensorGraph

/-- The loss is computed in a graph from what it says. -/
def Loss.Attached (loss : Loss) (g : Graph) : Prop :=
  ∃ o op, g.producer? loss.output = some o ∧ g.op? o = some op ∧ op.inputs = loss.inputs

theorem Loss.attached_iff {loss : Loss} {g : Graph} : loss.Attached g ↔
    ((g.producer? loss.output).bind g.op?).map (·.inputs) = some loss.inputs := by
  simp only [Loss.Attached, Option.map_eq_some_iff, Option.bind_eq_some_iff]
  constructor
  · rintro ⟨o, op, ho, hop, hin⟩
    exact ⟨op, ⟨o, ho, hop⟩, hin⟩
  · rintro ⟨op, ⟨o, ho, hop⟩, hin⟩
    exact ⟨o, op, ho, hop, hin⟩

instance (loss : Loss) (g : Graph) : Decidable (loss.Attached g) := decidable_of_iff _ Loss.attached_iff.symm

namespace Graph

variable {G g : Graph} {t u v : TensorId} {o : OpId} {op : Op} {k : Nat} {losses : List Loss}

/-- Every op has one result, and as many operands as its kind takes. -/
def Arranged (g : Graph) : Prop :=
  ∀ o op, g.op? o = some op → (∃ output, op.outputs = [output]) ∧ op.kind.Takes op.inputs.length

theorem Inferred.arranged (h : g.Inferred) : g.Arranged := by
  intro o op ho
  obtain ⟨output, infos, info, hout, hinfos, hinfer, -⟩ := h o op ho
  exact ⟨⟨output, hout⟩, infos, info, hinfer, (mapM_eq_some_iff.1 hinfos).length_eq.symm⟩

/-- A forward op passes the gradient for its result `u` back to its operand `t`. -/
structure PassesTo (g : Graph) (o : OpId) (t u : TensorId) : Prop where
  found : ∃ op k, g.op? o = some op ∧ op.phase = .forward ∧ op.inputs[k]? = some t ∧ op.kind.passesBack k = true ∧
    u ∈ op.outputs

/-- Ops pass the gradient for `u` back to `t`, none or more of them in a row. -/
inductive Reaches (g : Graph) (u : TensorId) : TensorId → Prop
  | refl : Reaches g u u
  | step {o : OpId} {t v : TensorId} (hpass : g.PassesTo o t v) (h : Reaches g u v) : Reaches g u t

/-- The gradient of a loss comes back to a tensor. -/
def Reached (g : Graph) (losses : List Loss) (t : TensorId) : Prop :=
  ∃ loss ∈ losses, ∃ target, loss.inputs.head? = some target ∧ g.Reaches target t

theorem Reached.step (h : g.Reached losses u) (hpass : g.PassesTo o t u) : g.Reached losses t := by
  obtain ⟨loss, hloss, target, htarget, hreaches⟩ := h
  exact ⟨loss, hloss, target, htarget, .step hpass hreaches⟩

/-- What is reached is the first operand of a loss, or an op passes a gradient back to it. -/
theorem Reached.cases (h : g.Reached losses t) : (∃ loss ∈ losses, loss.inputs.head? = some t) ∨
    ∃ o u, g.PassesTo o t u ∧ g.Reached losses u := by
  obtain ⟨loss, hloss, target, htarget, hreaches⟩ := h
  cases hreaches with
  | refl => exact .inl ⟨loss, hloss, htarget⟩
  | step hpass hreaches => exact .inr ⟨_, _, hpass, loss, hloss, target, htarget, hreaches⟩

theorem PassesTo.feeds (h : g.PassesTo o t u) {p : OpId} (hp : g.producer? t = some p) : g.Feeds p o := by
  obtain ⟨op, k, ho, -, ht, -⟩ := h.found
  exact ⟨op, ho, t, List.mem_of_getElem? ht, hp⟩

theorem PassesTo.producer? (h : g.PassesTo o t u) (hl : g.Linked) : g.producer? u = some o := by
  obtain ⟨op, k, ho, -, -, -, hu⟩ := h.found
  exact hl.makes.2 ⟨op, ho, hu⟩

/-! ## Relevance -/

/-- What reaches a tensor, the tensor depends on. -/
theorem Reaches.mem_opsTo (h : g.Reaches v u) (hl : g.Linked) {ids : List TensorId} (hv : v ∈ ids)
    (hp : g.producer? u = some o) : o ∈ g.opsTo ids := by
  induction h generalizing o with
  | refl => exact producer_mem_opsTo hl hv hp
  | step hpass _ ih =>
    obtain ⟨op, k, ho, -, ht, -, -⟩ := hpass.found
    exact opsTo_closed hl (ih (hpass.producer? hl)) ho (List.mem_of_getElem? ht) hp

/-- The ops that feed one of a list that is read from the last op to the first stand in it. -/
theorem Backward.mem_of_feeds {p : OpId → Bool} {q : OpId} : ∀ {l : List OpId}, g.Backward p l → q ∈ l →
    g.Feeds o q → p o = true → o ∈ l
  | _ :: _, h, hq, hfeeds, ho => by
    rcases List.mem_cons.1 hq with rfl | hq
    · exact List.mem_cons_of_mem _ (h.1 o hfeeds ho)
    · exact List.mem_cons_of_mem _ (Backward.mem_of_feeds h.2 hq hfeeds ho)

end Graph

namespace Synthesis

open TensorGraph.Graph

variable {G : Graph} {losses : List Loss} {t u : TensorId} {o : OpId}

/-- An op that passes a gradient of a loss back to a tensor that needs one is relevant. -/
theorem mem_relevantOps (hl : G.Linked) (hpass : G.PassesTo o t u) (hreached : G.Reached losses u)
    (hneeds : needsGrad G (relevantOps G losses) t = true) : o ∈ relevantOps G losses := by
  obtain ⟨loss, hloss, target, htarget, hreaches⟩ := hreached
  obtain ⟨op, k, hop, hphase, ht, -⟩ := hpass.found
  have hreads : o ∈ G.forwardReaders t :=
    mem_forwardReaders.2 ⟨hl.reads.2 ⟨op, hop, List.mem_of_getElem? ht⟩, op, hop, hphase⟩
  refine SortedSet.mem_filter.2 ⟨?_, SortedSet.contains_iff.2 ?_⟩
  · obtain ⟨-, hweight, hclosed⟩ := opsFromWeights_closed G
    obtain ⟨x, hx, htype | ⟨p, hp, hxp⟩⟩ := needsGrad_iff.1 hneeds
    · exact hweight t ((mem_weights hl).2 ⟨x, hx, htype⟩) o hreads
    · obtain ⟨pop, hpop, hout⟩ := hl.op_of_producer (producer?_eq_some.2 ⟨x, hx, hxp⟩)
      exact hclosed p (SortedSet.mem_filter.1 hp).1 pop hpop t hout o hreads
  · exact hreaches.mem_opsTo hl (List.mem_flatMap.2 ⟨loss, hloss, List.mem_of_head? htarget⟩) (hpass.producer? hl)

end Synthesis

end TensorGraph
