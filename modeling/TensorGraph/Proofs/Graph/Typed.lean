import TensorGraph.Proofs.Session.Steady

/-!
Graphs whose infos are right: each result has the info that is inferred from the operands, and the gradient of a
function of one element gets an incoming gradient and a saved value of the same shape. The second is needed to put
plain ops in the place of such a gradient: plain ops stretch their operands where gradients do not.
-/
namespace TensorGraph

namespace Graph

variable {g g' : Graph} {o : OpId} {op new : Op} {t output : TensorId} {info : TensorInfo}

theorem mapM_info_eq_ok {l : List TensorId} {infos : List TensorInfo} :
    l.mapM g.info = .ok infos ↔ l.mapM g.info? = some infos := by
  rw [Outcome.mapM_eq_ok, mapM_eq_some_iff]
  have hone : (fun t i => g.info t = .ok i) = fun t i => g.info? t = some i := by
    funext t i
    rw [Graph.info, Outcome.orFail_eq_ok]
  rw [hone]

/-- The gradients of functions of one element get two operands of one shape. -/
def Matched (g : Graph) : Prop := ∀ o op f i j, g.op? o = some op → op.kind = .unaryGrad f →
  op.inputs.mapM g.info? = some [i, j] → j.shape = i.shape

/-- All infos are right. -/
structure Typed (g : Graph) : Prop where
  inferred : g.Inferred
  matched : g.Matched

namespace Typed

theorem empty : Graph.empty.Typed := by
  refine ⟨fun _ _ ho => ?_, fun _ _ _ _ _ ho => ?_⟩ <;> contradiction

/-- Whether infos are right depends on the infos of the operands and results of ops. -/
theorem of_infos (h : g.Typed) (hop : ∀ {o op'}, g'.op? o = some op' → ∃ op, g.op? o = some op ∧
    op'.kind = op.kind ∧ op'.inputs.mapM g'.info? = op.inputs.mapM g.info? ∧
    op'.outputs.mapM g'.info? = op.outputs.mapM g.info?) : g'.Typed := by
  constructor
  · intro o op' ho'
    obtain ⟨op, ho, hk, hin, hout⟩ := hop ho'
    obtain ⟨output, infos, info, houtput, hinfos, hinfer, hinfo⟩ := h.inferred o op ho
    have hresult : op.outputs.mapM g.info? = some [info] := by
      rw [houtput, mapM_eq_some_iff]
      exact .cons hinfo .nil
    rw [hresult, mapM_eq_some_iff] at hout
    obtain ⟨output', l, hinfo', hl, heq⟩ := List.forall₂_cons_right_iff.1 hout
    rw [List.forall₂_nil_right_iff] at hl
    subst hl
    exact ⟨output', infos, info, heq, hin.trans hinfos, hk ▸ hinfer, hinfo'⟩
  · intro o op' f i j ho' hk' hinfos
    obtain ⟨op, ho, hk, hin, -⟩ := hop ho'
    exact h.matched o op f i j ho (hk.symm.trans hk') (hin.symm.trans hinfos)

/-- The ops are those of another graph, under the names that `ψ` gives to tensors. -/
theorem follows (h : g.Typed) {ψ : TensorId → TensorId} (hop : ∀ {o op'}, g'.op? o = some op' →
    ∃ op, g.op? o = some op ∧ op'.kind = op.kind ∧ op'.inputs = op.inputs.map ψ ∧ op'.outputs = op.outputs.map ψ ∧
      ∀ t, t ∈ op.inputs ∨ t ∈ op.outputs → g'.info? (ψ t) = g.info? t) : g'.Typed := by
  refine h.of_infos fun {o op'} ho' => ?_
  obtain ⟨op, ho, hk, hin, hout, hinfo⟩ := hop ho'
  refine ⟨op, ho, hk, ?_, ?_⟩
  · rw [hin, List.mapM_map]
    exact mapM_congr_of_mem fun t ht => hinfo t (.inl ht)
  · rw [hout, List.mapM_map]
    exact mapM_congr_of_mem fun t ht => hinfo t (.inr ht)

/-- Fewer ops, with the tensors that they had. -/
theorem of_ops (h : g.Typed) (hop : ∀ {o op}, g'.op? o = some op → g.op? o = some op)
    (hinfo : ∀ {o op t}, g'.op? o = some op → t ∈ op.inputs ∨ t ∈ op.outputs → g'.info? t = g.info? t) : g'.Typed :=
  h.follows (ψ := id) fun {_ op} ho =>
    ⟨op, hop ho, rfl, (List.map_id _).symm, (List.map_id _).symm, fun _ ht => hinfo ho ht⟩

/-- All ops read another tensor of the same info. -/
theorem bypassed (h : g.Typed) {old new : TensorId} (hb : Bypassed g old new g') (hinfo : g.info? new = g.info? old) :
    g'.Typed := by
  refine h.of_infos fun {o op'} ho' => ?_
  obtain ⟨op, ho, rfl⟩ := hb.op_of ho'
  rw [funext hb.info?_eq]
  exact ⟨op, ho, rfl, mapM_substitute hinfo op.inputs, rfl⟩

/-- A tensor gets another name. -/
theorem renamed (h : g.Typed) (hl : g.Linked) {old new : TensorId} {x : Tensor} (hr : Renamed g old new x g') :
    g'.Typed := by
  refine h.follows (ψ := fun i => if i = old then new else i) fun {o op'} ho' => ?_
  rw [hr.op?_eq] at ho'
  obtain ⟨op, ho, rfl⟩ := Option.map_eq_some_iff.1 ho'
  refine ⟨op, ho, rfl, rfl, rfl, fun t ht => ?_⟩
  obtain ⟨y, hy⟩ := hl.hasTensor_of_mentioned ho ht
  exact hr.info?_later hy

/-- An op is added; if its result was there before, it keeps its info. -/
theorem enters (h : g.Typed) (hs : g.Sound) (he : Enters g new output info g')
    (hsame : ∀ i, g.info? output = some i → i = info)
    (hnew : ∀ f i j, new.kind = .unaryGrad f → new.inputs.mapM g.info? = some [i, j] → j.shape = i.shape) :
    g'.Typed := by
  have hkeep : ∀ {t i}, g.info? t = some i → g'.info? t = some i := by
    intro t i hi
    by_cases ht : t = output
    · subst ht
      rw [he.info?_output, hsame i hi]
    · exact he.info?_of hi ht
  obtain ⟨infos, hinfos, hinfer⟩ := he.added.infers
  rw [mapM_info_eq_ok] at hinfos
  have hinputs : new.inputs.mapM g'.info? = some infos := by
    rw [mapM_eq_some_iff] at hinfos ⊢
    exact hinfos.imp fun _ _ => hkeep
  have hold : ∀ {o op}, g.op? o = some op → ∀ t, t ∈ op.inputs ∨ t ∈ op.outputs → g'.info? t = g.info? t := by
    intro o op ho t ht
    obtain ⟨x, hx⟩ := hs.linked.hasTensor_of_mentioned ho ht
    have hi : g.info? t = some x.info := info?_eq_some.2 ⟨x, hx, rfl⟩
    rw [hi]
    exact hkeep hi
  constructor
  · intro o op ho
    rcases he.op_cases ho with ⟨-, rfl⟩ | ⟨-, ho⟩
    · exact ⟨output, infos, info, he.outputs, hinputs, hinfer, he.info?_output⟩
    · obtain ⟨out, infos, info, hout, hinfos, hinfer, hinfo⟩ := h.inferred o op ho
      refine ⟨out, infos, info, hout, ?_, hinfer, (hold ho out (.inr (by simp [hout]))).trans hinfo⟩
      rw [← hinfos]
      exact mapM_congr_of_mem fun t ht => hold ho t (.inl ht)
  · intro o op f i j ho hk hij
    rcases he.op_cases ho with ⟨-, rfl⟩ | ⟨-, ho⟩
    · rw [hinputs] at hij
      exact hnew f i j hk (hinfos.trans hij)
    · rw [mapM_congr_of_mem fun t ht => hold ho t (.inl ht)] at hij
      exact h.matched o op f i j ho hk hij

/-- An op is added under a new name, and is no gradient of a function of one element. -/
theorem enters_new (h : g.Typed) (hs : g.Sound) (he : Enters g new output info g') (hfresh : g.tensor? output = none)
    (hkind : ∀ f, new.kind ≠ .unaryGrad f) : g'.Typed := by
  refine h.enters hs he (fun i hi => ?_) fun f _ _ hk => absurd hk (hkind f)
  rw [info?, hfresh] at hi
  cases hi

end Typed

end Graph

end TensorGraph
