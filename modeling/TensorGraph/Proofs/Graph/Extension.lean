import TensorGraph.Proofs.Graph.Denotation
import TensorGraph.Proofs.Gradient.Emission

/-!
Graphs that grow: ops are added under fresh names, and what was there before keeps its producer and its info. The values of
tensors that were there stay, and the result of a new op is what its kernel makes of the values of its operands.
-/
namespace TensorGraph

namespace Graph

variable {V : Type} {g g' g'' : Graph} {t : TensorId} {kind : OpKind} {inputs : List TensorId} {info : TensorInfo}

/-- All tensors and ops of `g` are in `g'`, computed in the same way. -/
structure PartOf (g g' : Graph) : Prop where
  op : ∀ {o op}, g.op? o = some op → g'.op? o = some op
  producer : ∀ {t x}, g.tensor? t = some x → g'.producer? t = g.producer? t
  info : ∀ {t i}, g.info? t = some i → g'.info? t = some i

namespace PartOf

theorem refl (g : Graph) : g.PartOf g := ⟨id, fun _ => rfl, id⟩

theorem found (h : g.PartOf g') (ht : ∃ x, g.tensor? t = some x) : ∃ x, g'.tensor? t = some x := by
  obtain ⟨x, hx⟩ := ht
  obtain ⟨x', hx', -⟩ := info?_eq_some.1 (h.info (info?_eq_some.2 ⟨x, hx, rfl⟩))
  exact ⟨x', hx'⟩

theorem trans (h : g.PartOf g') (h' : g'.PartOf g'') : g.PartOf g'' := by
  refine ⟨fun ho => h'.op (h.op ho), fun {t x} hx => ?_, fun hi => h'.info (h.info hi)⟩
  obtain ⟨x', hx'⟩ := h.found ⟨x, hx⟩
  exact (h'.producer hx').trans (h.producer hx)

/-- There are at least as many ops. -/
theorem size_le (h : g.PartOf g') : g.ops.size ≤ g'.ops.size := by
  have hsub : g.ops.keys ⊆ g'.ops.keys := by
    intro o ho
    obtain ⟨op, hop⟩ := Dict.mem_keys.1 ho
    exact Dict.mem_keys.2 ⟨op, h.op hop⟩
  have hle := (List.subperm_of_subset g.ops.nodup_keys hsub).length_le
  rwa [Dict.keys, Dict.keys, List.length_map, List.length_map] at hle

theorem evalAt_eq (h : g.PartOf g') (hl : g.Linked) (r : Reading V) : ∀ {n : Nat} {t : TensorId},
    (∃ x, g.tensor? t = some x) → r.evalAt g' n t = r.evalAt g n t
  | 0, _, _ => rfl
  | n + 1, t, ⟨x, hx⟩ => by
    unfold Reading.evalAt
    rw [h.producer hx]
    cases hp : g.producer? t with
    | none => rfl
    | some o =>
      obtain ⟨op, ho, -⟩ := hl.op_of_producer hp
      have hinfo : g.info? t = some x.info := info?_eq_some.2 ⟨x, hx, rfl⟩
      simp only [ho, h.op ho, Option.bind_some, Reading.apply, hinfo, h.info hinfo]
      rw [mapM_congr_of_mem fun i hi => h.evalAt_eq hl r (hl.hasTensor_of_input ho hi)]

/-- What was there has the same value as before. -/
theorem value?_eq (h : g.PartOf g') (hl : g.Linked) (ha : g.Acyclic) (r : Reading V) (ht : ∃ x, g.tensor? t = some x) :
    r.value? g' t = r.value? g t := by
  have hdeep := Reading.deep_size ha hl t
  have hle := h.size_le
  rw [Reading.value?, h.evalAt_eq hl r ht]
  exact Reading.evalAt_eq r ha hl ⟨Nat.succ_pos _, fun o hp => (hdeep.2 o hp).trans_le (Nat.succ_le_succ hle)⟩ hdeep

end PartOf

namespace Added

variable {output : TensorId} (ha : Added g kind inputs output info g')

include ha

theorem input_found (ht : t ∈ inputs) : ∃ x, g.tensor? t = some x := by
  obtain ⟨infos, hinfos, -⟩ := ha.infers
  obtain ⟨i, -, hi⟩ := exists_of_forall₂ (Outcome.mapM_eq_ok.1 hinfos) t ht
  obtain ⟨x, hx, -⟩ := info_eq_ok.1 hi
  exact ⟨x, hx⟩

theorem producer_output : g'.producer? output = some g.nextOp := by
  obtain ⟨x, hx, hp, -⟩ := ha.result
  exact producer?_eq_some.2 ⟨x, hx, hp⟩

theorem info_output : g'.info? output = some info := by
  obtain ⟨x, hx, -, hi, -⟩ := ha.result
  exact info?_eq_some.2 ⟨x, hx, hi⟩

/-- An op is added under a fresh name. -/
theorem partOf (hn : g.Numbered) (hfresh : g.tensor? output = none) : g.PartOf g' := by
  have hne : ∀ {t x}, g.tensor? t = some x → t ≠ output := by
    rintro t x hx rfl
    rw [hfresh] at hx
    cases hx
  refine ⟨fun {o op} ho => ?_, fun {t x} hx => ?_, fun {t i} hi => ?_⟩
  · rw [ha.others o (Nat.ne_of_lt (hn o op ho)), ho]
  · obtain ⟨x', hx', -, -, hproducer⟩ := ha.lookup (hne hx) hx
    rw [producer?, producer?, hx', hx, Option.bind_some, Option.bind_some, hproducer]
  · obtain ⟨x, hx, rfl⟩ := info?_eq_some.1 hi
    obtain ⟨x', hx', -, hinfo, -⟩ := ha.lookup (hne hx) hx
    exact info?_eq_some.2 ⟨x', hx', hinfo⟩

/-- No op reads the result of the new one, so there is no new cycle. -/
theorem acyclic (hl : g.Linked) (hn : g.Numbered) (hfresh : g.tensor? output = none) (hacyclic : g.Acyclic) :
    g'.Acyclic := by
  have hpart := ha.partOf hn hfresh
  obtain ⟨new, hnew, -, hinputs, -⟩ := ha.found
  have hfeeds : ∀ {p q}, g'.Feeds p q → p ≠ g.nextOp ∧ (q ≠ g.nextOp → g.Feeds p q) := by
    rintro p q ⟨op, hop, t, ht, hp⟩
    have hx : ∃ x, g.tensor? t = some x := by
      by_cases hq : q = g.nextOp
      · subst hq
        cases hnew.symm.trans hop
        exact ha.input_found (hinputs ▸ ht)
      · rw [ha.others q hq] at hop
        exact hl.hasTensor_of_input hop ht
    obtain ⟨x, hx⟩ := hx
    rw [hpart.producer hx] at hp
    obtain ⟨op', ho', -⟩ := hl.op_of_producer hp
    exact ⟨Nat.ne_of_lt (hn p op' ho'), fun hq => ⟨op, (ha.others q hq).symm.trans hop, t, ht, hp⟩⟩
  -- a chain of feeds that does not end in the new op does not pass through it
  have hchain : ∀ {p q}, Relation.TransGen g'.Feeds p q → q ≠ g.nextOp → Relation.TransGen g.Feeds p q := by
    intro p q hpq
    induction hpq with
    | single h => exact fun hq => .single ((hfeeds h).2 hq)
    | tail _ h ih => exact fun hq => (ih (hfeeds h).1).tail ((hfeeds h).2 hq)
  intro o ho
  obtain ⟨q, hoq, -⟩ := Relation.TransGen.head'_iff.1 ho
  exact hacyclic o (hchain ho (hfeeds hoq).1)

end Added

/-- A tensor is the result of an op of the given kind on the given operands, with the info that is inferred. -/
structure Made (g : Graph) (kind : OpKind) (inputs : List TensorId) (t : TensorId) : Prop where
  producer : ∃ o op, g.producer? t = some o ∧ g.op? o = some op ∧ op.kind = kind ∧ op.inputs = inputs
  infers : ∃ infos info, inputs.mapM g.info? = some infos ∧ kind.infer infos = .ok info ∧ g.info? t = some info

namespace Made

theorem found (h : g.Made kind inputs t) : ∃ x, g.tensor? t = some x := by
  obtain ⟨-, i, -, -, hi⟩ := h.infers
  obtain ⟨x, hx, -⟩ := info?_eq_some.1 hi
  exact ⟨x, hx⟩

theorem partOf (h : g.Made kind inputs t) (hpart : g.PartOf g') : g'.Made kind inputs t := by
  obtain ⟨x, hx⟩ := h.found
  obtain ⟨o, op, hp, ho, hop⟩ := h.producer
  obtain ⟨infos, i, hinfos, hinfer, hi⟩ := h.infers
  refine ⟨⟨o, op, (hpart.producer hx).trans hp, hpart.op ho, hop⟩, infos, i, ?_, hinfer, hpart.info hi⟩
  rw [mapM_eq_some_iff] at hinfos ⊢
  exact hinfos.imp fun _ _ => hpart.info

/-- The value of the result is what the op makes of the values of the operands. -/
theorem value?_eq (h : g.Made kind inputs t) (hl : g.Linked) (ha : g.Acyclic) (r : Reading V) : r.value? g t =
    (inputs.mapM (r.value? g)).bind fun xs => (g.info? t).bind (r.run kind xs) := by
  obtain ⟨o, op, hp, ho, rfl, rfl⟩ := h.producer
  exact Reading.value?_op r ha hl hp ho

theorem of_added {output : TensorId} (ha : Added g kind inputs output info g') (hpart : g.PartOf g') :
    g'.Made kind inputs output := by
  obtain ⟨op, hop, hkind, hinputs, -⟩ := ha.found
  obtain ⟨infos, hinfos, hinfer⟩ := ha.infers
  have hread := Outcome.mapM_eq_ok.1 hinfos
  refine ⟨⟨_, op, ha.producer_output, hop, hkind, hinputs⟩, infos, info, mapM_eq_some_iff.2 (hread.imp ?_), hinfer,
    ha.info_output⟩
  intro t i hi
  rw [Graph.info, Outcome.orFail_eq_ok] at hi
  exact hpart.info hi

end Made

end Graph

end TensorGraph
