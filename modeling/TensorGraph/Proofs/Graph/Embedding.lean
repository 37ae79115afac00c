import TensorGraph.Proofs.Graph.Denotation
import TensorGraph.Proofs.Graph.Linked

/-!
Graphs within larger ones. A graph that grows, with tensors renamed on the way, still contains the equations of its
earlier ops, so values that satisfy the later graph satisfy the earlier one when read through the renaming.
-/
namespace TensorGraph

namespace Graph

variable {V : Type} {g g' : Graph} {t : TensorId} {φ ψ : TensorId → TensorId}

/-- Every op of `g` stands in `g'` under the same number, with its tensors renamed by `φ`. -/
structure Embeds (φ : TensorId → TensorId) (g g' : Graph) : Prop where
  op : ∀ {t o op}, g.producer? t = some o → g.op? o = some op → ∃ op', g'.producer? (φ t) = some o ∧
    g'.op? o = some op' ∧ op'.kind = op.kind ∧ op'.inputs = op.inputs.map φ ∧ op'.outputs = op.outputs.map φ ∧
    g'.info? (φ t) = g.info? t

namespace Embeds

theorem refl (g : Graph) : Embeds id g g :=
  ⟨fun hp ho => ⟨_, hp, ho, rfl, (List.map_id _).symm, (List.map_id _).symm, rfl⟩⟩

theorem trans {g'' : Graph} (h : Embeds φ g g') (h' : Embeds ψ g' g'') : Embeds (ψ ∘ φ) g g'' := by
  refine ⟨fun {t o op} hp ho => ?_⟩
  obtain ⟨op', hp', ho', hk', hin', hout', hi'⟩ := h.op hp ho
  obtain ⟨op'', hp'', ho'', hk'', hin'', hout'', hi''⟩ := h'.op hp' ho'
  refine ⟨op'', hp'', ho'', hk''.trans hk', ?_, ?_, hi''.trans hi'⟩
  · rw [hin'', hin', List.map_map]
  · rw [hout'', hout', List.map_map]

end Embeds

/-- Renaming a tensor. -/
theorem Renamed.embeds {old new : TensorId} {x : Tensor} (hr : Renamed g old new x g') :
    Embeds (fun i => if i = old then new else i) g g' := by
  refine ⟨fun {t o op} hp ho => ?_⟩
  obtain ⟨y, hy, hyp⟩ := producer?_eq_some.1 hp
  refine ⟨rename old new op, producer?_eq_some.2 ⟨_, hr.tensor?_later hy, hyp⟩, ?_, rfl, rfl, rfl, hr.info?_later hy⟩
  rw [hr.op?_eq, ho]
  rfl

/-! ## Values that satisfy a graph -/

namespace Reading

/-- Values that are as the reading says where no op computes them, and satisfy the equations of all ops. -/
structure Fits (r : Reading V) (g : Graph) (ν : TensorId → Option V) : Prop where
  source : ∀ {t v}, r.source t = some v → ν t = some v
  op : ∀ {t o op}, g.producer? t = some o → g.op? o = some op → ∃ y, ν t = some y ∧ r.apply g ν op t = some y

theorem Fits.pull {r : Reading V} {ν : TensorId → Option V} (h : r.Fits g' ν) (he : Embeds φ g g')
    (hφ : ∀ t v, r.source t = some v → φ t = t) : r.Fits g (ν ∘ φ) := by
  refine ⟨fun {t v} hs => ?_, fun {t o op} hp ho => ?_⟩
  · rw [Function.comp, hφ t v hs]
    exact h.source hs
  · obtain ⟨op', hp', ho', hk, hin, -, hi⟩ := he.op hp ho
    obtain ⟨y, hy, happly⟩ := h.op hp' ho'
    refine ⟨y, hy, ?_⟩
    rw [← happly]
    unfold apply
    rw [hk, hin, hi, List.mapM_map]

/-- More depth does not change a value that is there. -/
theorem evalAt_mono (r : Reading V) : ∀ {n : Nat} {t : TensorId} {v : V}, r.evalAt g n t = some v →
    r.evalAt g (n + 1) t = some v
  | n + 1, t, v, h => by
    rw [evalAt] at h ⊢
    cases hp : g.producer? t with
    | none =>
      simp only [hp] at h ⊢
      exact h
    | some o =>
      simp only [hp] at h ⊢
      obtain ⟨op, ho, h⟩ := Option.bind_eq_some_iff.1 h
      obtain ⟨xs, hxs, h⟩ := Option.bind_eq_some_iff.1 h
      refine Option.bind_eq_some_iff.2 ⟨op, ho, Option.bind_eq_some_iff.2 ⟨xs, ?_, h⟩⟩
      rw [mapM_eq_some_iff] at hxs ⊢
      exact hxs.imp fun i x hi => evalAt_mono r hi

/-- The values of a graph all of whose ops have one satisfy it. -/
theorem fits_value? (r : Reading V) (hl : g.Linked) (hsource : ∀ t v, r.source t = some v → g.producer? t = none)
    (hev : ∀ {o op t}, g.op? o = some op → t ∈ op.outputs → (r.value? g t).isSome = true) :
    r.Fits g (r.value? g) := by
  refine ⟨fun {t v} hs => ?_, fun {t o op} hp ho => ?_⟩
  · rw [value?_source r (hsource t v hs), hs]
  · obtain ⟨op', ho', hout⟩ := hl.op_of_producer hp
    cases ho.symm.trans ho'
    obtain ⟨y, hy⟩ := Option.isSome_iff_exists.1 (hev ho hout)
    refine ⟨y, hy, ?_⟩
    unfold value? at hy
    rw [evalAt, hp] at hy
    simp only [ho, Option.bind_some] at hy
    obtain ⟨xs, hxs, hy⟩ := Option.bind_eq_some_iff.1 hy
    refine Option.bind_eq_some_iff.2 ⟨xs, ?_, hy⟩
    rw [mapM_eq_some_iff] at hxs ⊢
    exact hxs.imp fun i x hi => evalAt_mono r hi

end Reading

end Graph

end TensorGraph
