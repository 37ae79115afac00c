import TensorGraph.Kernel.Backend
import TensorGraph.Proofs.Graph.Denotation
import TensorGraph.Proofs.Graph.WellFormed

/-!
The meaning of a graph on a backend, and the three ways to simplify a graph without changing it: restrict it to fewer
ops and tensors, let consumers read an equal tensor, and put a constant in the place of an op. Each keeps the values
that solve the equations of the ops, so it keeps what the graph computes.
-/
namespace TensorGraph

namespace Backend

variable {b : Backend}

/-- What a simplification relies on: results have the infos that were asked for, and an identity copies. -/
structure Lawful (b : Backend) : Prop where
  info : ∀ {kind xs info ys}, b.execute kind xs [info] = .ok ys → ∃ y, ys = [y] ∧ y.info = info
  identity : ∀ {x info y}, b.execute .identity [x] [info] = .ok [y] → y.data = x.data

/-- The result of an op that has one, if it runs. -/
def kernel (b : Backend) (kind : OpKind) (xs : List HostTensor) (info : TensorInfo) : Option HostTensor :=
  match b.execute kind xs [info] with
  | .ok [y] => some y
  | _ => none

theorem kernel_eq_some {kind : OpKind} {xs : List HostTensor} {info : TensorInfo} {y : HostTensor} :
    b.kernel kind xs info = some y ↔ b.execute kind xs [info] = .ok [y] := by
  unfold kernel
  split
  · rename_i h
    simp [h]
  · rename_i h
    simp only [false_iff, reduceCtorEq]
    exact fun e => h y e

theorem Lawful.kernel_info (h : b.Lawful) {kind : OpKind} {xs : List HostTensor} {info : TensorInfo} {y : HostTensor}
    (hy : b.kernel kind xs info = some y) : y.info = info := by
  obtain ⟨y', hy', hinfo⟩ := h.info (kernel_eq_some.1 hy)
  cases hy'
  exact hinfo

theorem Lawful.kernel_identity (h : b.Lawful) {x y : HostTensor} (hy : b.kernel .identity [x] x.info = some y) :
    y = x := by
  have hinfo := h.kernel_info hy
  have hdata := h.identity (kernel_eq_some.1 hy)
  cases x
  cases y
  simp_all

theorem runPlan_info {inputs : List HostTensor} {output : TensorInfo} {y : HostTensor} :
    ∀ {plan : Kernel.Plan Double}, runPlan inputs output plan = .ok y → y.info = output
  | .relabel, h => by
    obtain ⟨x, -, h⟩ := Outcome.bind_eq_ok.1 h
    cases h
    rfl
  | .move pool fill sources, h => by
    obtain ⟨data, -, h⟩ := Outcome.bind_eq_ok.1 h
    obtain ⟨srcs, -, h⟩ := Outcome.bind_eq_ok.1 h
    obtain ⟨taken, -, h⟩ := Outcome.bind_eq_ok.1 h
    cases h
    rfl
  | .values result, h => by
    obtain ⟨values, -, h⟩ := Outcome.bind_eq_ok.1 h
    cases h
    rfl

theorem run_ok {kind : OpKind} {inputs : List HostTensor} {output : TensorInfo} {y : HostTensor}
    (h : run kind inputs output = .ok y) :
    ∃ plan, Kernel.plan kind (inputs.map operand) output = .ok plan ∧ runPlan inputs output plan = .ok y := by
  unfold run at h
  obtain ⟨plan, hplan, h⟩ := Outcome.bind_eq_ok.1 h
  obtain ⟨result, hresult, h⟩ := Outcome.bind_eq_ok.1 h
  obtain ⟨n, -, h⟩ := Outcome.bind_eq_ok.1 h
  split at h
  · cases h
  · cases h
    exact ⟨plan, hplan, hresult⟩

theorem reference_lawful (name : String) : (reference name).Lawful := by
  have hexecute : ∀ {kind xs info ys}, (reference name).execute kind xs [info] = .ok ys →
      ∃ y, ys = [y] ∧ run kind xs info = .ok y := by
    intro kind xs info ys h
    obtain ⟨y, hy, h⟩ := Outcome.bind_eq_ok.1 h
    cases h
    exact ⟨y, rfl, hy⟩
  refine ⟨fun {kind xs info ys} h => ?_, fun {x info y} h => ?_⟩
  · obtain ⟨y, rfl, hy⟩ := hexecute h
    obtain ⟨plan, -, hplan⟩ := run_ok hy
    exact ⟨y, rfl, runPlan_info hplan⟩
  · obtain ⟨y', hy', hrun⟩ := hexecute h
    cases hy'
    obtain ⟨plan, hplan, hrun⟩ := run_ok hrun
    -- an identity only gives its operand another info
    have hrelabel : plan = .relabel := by
      obtain ⟨x', -, hplan⟩ := Outcome.bind_eq_ok.1 hplan
      obtain ⟨n, -, hplan⟩ := Outcome.bind_eq_ok.1 hplan
      split at hplan
      · cases hplan
      · cases hplan
        rfl
    subst hrelabel
    cases hrun
    rfl

end Backend

namespace Graph

variable {g g' : Graph} {o : OpId} {t : TensorId} {b : Backend} {a ν : TensorId → Option HostTensor}

/-! ## Inferred infos -/

/-- Every op has one result, with the info that is inferred from its operands. -/
def Inferred (g : Graph) : Prop :=
  ∀ o op, g.op? o = some op → ∃ output infos info, op.outputs = [output] ∧
    op.inputs.mapM g.info? = some infos ∧ op.kind.infer infos = .ok info ∧ g.info? output = some info

theorem Inferred.output (h : g.Inferred) {op : Op} (ho : g.op? o = some op) : ∃ output, op.outputs = [output] := by
  obtain ⟨output, -, -, hout, -⟩ := h o op ho
  exact ⟨output, hout⟩

/-- An identity has one operand, with the info of its result. -/
theorem Inferred.identity (h : g.Inferred) {op : Op} (ho : g.op? o = some op) (hk : op.kind = .identity) :
    ∃ x out info, op.inputs = [x] ∧ op.outputs = [out] ∧ g.info? x = some info ∧ g.info? out = some info := by
  obtain ⟨out, infos, info, hout, hinfos, hinfer, hinfo⟩ := h o op ho
  rw [hk] at hinfer
  rw [mapM_eq_some_iff] at hinfos
  match infos, hinfer with
  | [i], hinfer =>
    cases hinfer
    obtain ⟨x, l, hx, hl, hin⟩ := List.forall₂_cons_right_iff.1 hinfos
    rw [List.forall₂_nil_right_iff] at hl
    subst hl
    exact ⟨x, out, info, hin, hout, hx, hinfo⟩
  | [], hinfer => cases hinfer
  | _ :: _ :: _, hinfer => cases hinfer

/-! ## Values -/

/-- The value that a tensor has by itself: a constant its data, an input of the graph what it is fed. A value of
another info than that of the tensor is none. -/
def fed (g : Graph) (a : TensorId → Option HostTensor) (t : TensorId) : Option HostTensor :=
  (g.tensor? t).bind fun x =>
    (match x.type with
    | .const => x.data
    | .actGrad => none
    | .stream | .weight | .optimizerStream => a t).filter (·.info = x.info)

/-- Ops run on a backend, inputs are fed. -/
def reading (b : Backend) (a : TensorId → Option HostTensor) (g : Graph) : Reading HostTensor where
  run := b.kernel
  source := g.fed a

/-- The value of a tensor when the ops run on `b` and the inputs are fed by `a`. -/
def value? (g : Graph) (b : Backend) (a : TensorId → Option HostTensor) (t : TensorId) : Option HostTensor :=
  (reading b a g).value? g t

theorem fed_info {v : HostTensor} (h : g.fed a t = some v) : g.info? t = some v.info := by
  obtain ⟨x, hx, h⟩ := Option.bind_eq_some_iff.1 h
  obtain ⟨-, hinfo⟩ := Option.filter_eq_some_iff.1 h
  simp only [decide_eq_true_eq] at hinfo
  rw [info?, hx, Option.map_some, hinfo]

theorem fed_congr (h : (g'.tensor? t).map bare = (g.tensor? t).map bare) : g'.fed a t = g.fed a t := by
  unfold fed
  cases hx : g.tensor? t with
  | none =>
    rw [hx, Option.map_none, Option.map_eq_none_iff] at h
    rw [h]
  | some x =>
    obtain ⟨x', hx', hsame⟩ := lookup_of_bare h hx
    simp only [hx', Option.bind_some, hsame.info, hsame.type, hsame.data]

/-- The values `ν` are what the graph computes: its tables agree, it has no cycle, its infos are the inferred ones
and `ν` solves the equations of its ops. -/
structure Means (g : Graph) (b : Backend) (a ν : TensorId → Option HostTensor) : Prop where
  linked : g.Linked
  constants : g.ConstantsFixed
  acyclic : g.Acyclic
  inferred : g.Inferred
  solves : (reading b a g).Solves g ν

theorem Means.value?_eq (h : g.Means b a ν) (ht : g.hasTensor t = true) : g.value? b a t = ν t :=
  h.solves.value?_eq h.acyclic h.linked ht

/-- Values have the infos of their tensors. -/
theorem Means.info (h : g.Means b a ν) (hb : b.Lawful) (ht : g.hasTensor t = true) {v : HostTensor}
    (hv : ν t = some v) : g.info? t = some v.info := by
  cases hp : g.producer? t with
  | none => exact fed_info ((h.solves.source ht hp).symm.trans hv)
  | some o =>
    obtain ⟨op, ho, -⟩ := h.linked.op_of_producer hp
    obtain ⟨y, hy, hyop⟩ := h.solves.op hp ho
    cases hy.symm.trans hv
    obtain ⟨xs, -, hrun⟩ := Option.bind_eq_some_iff.1 hyop
    obtain ⟨info, hinfo, hrun⟩ := Option.bind_eq_some_iff.1 hrun
    rw [hb.kernel_info hrun, hinfo]

theorem ConstantsFixed.of_bare (h : g.ConstantsFixed) (hsame : (g'.tensor? t).map bare = (g.tensor? t).map bare)
    {x' : Tensor} (hx' : g'.tensor? t = some x') (ht : x'.type = .const) : x'.producer = none := by
  obtain ⟨x, hx, halike⟩ := lookup_of_bare hsame.symm hx'
  exact halike.producer.symm.trans (h t x hx (halike.type.trans ht))

theorem Inferred.of_infos (h : g.Inferred) (hop : ∀ {o op'}, g'.op? o = some op' → ∃ op, g.op? o = some op ∧
      op'.kind = op.kind ∧ op'.outputs = op.outputs ∧ op'.inputs.mapM g'.info? = op.inputs.mapM g.info? ∧
      ∀ t ∈ op.outputs, g'.info? t = g.info? t) : g'.Inferred := by
  intro o op' ho'
  obtain ⟨op, ho, hk, hout, hin, hinfo⟩ := hop ho'
  obtain ⟨output, infos, info, houtput, hinfos, hinfer, hout_info⟩ := h o op ho
  refine ⟨output, infos, info, hout.trans houtput, hin.trans hinfos, hk ▸ hinfer, ?_⟩
  rw [hinfo output (by simp [houtput]), hout_info]

/-! ## Restricting -/

/-- A graph with fewer ops and tensors that are otherwise the same. -/
structure Restricts (g g' : Graph) : Prop where
  linked : g'.Linked
  op : ∀ {o op}, g'.op? o = some op → g.op? o = some op
  tensor : ∀ {t x}, g'.tensor? t = some x → (g'.tensor? t).map bare = (g.tensor? t).map bare

namespace Restricts

/-- A tensor of the smaller graph is one of the larger. -/
theorem lookup (h : Restricts g g') {x' : Tensor} (hx' : g'.tensor? t = some x') :
    ∃ x, g.tensor? t = some x ∧ Alike x x' := lookup_of_bare (h.tensor hx').symm hx'

theorem refl (h : g.Linked) : Restricts g g := ⟨h, fun ho => ho, fun _ => rfl⟩

theorem trans {g'' : Graph} (h : Restricts g g') (h' : Restricts g' g'') : Restricts g g'' := by
  refine ⟨h'.linked, fun ho => h.op (h'.op ho), fun {t x} hx => ?_⟩
  obtain ⟨x', hx', -⟩ := Option.map_eq_some_iff.1 ((h'.tensor hx).symm.trans (by rw [hx]; rfl))
  exact (h'.tensor hx).trans (h.tensor hx')

theorem tensor_of_has (h : Restricts g g') (ht : g'.hasTensor t = true) :
    (g'.tensor? t).map bare = (g.tensor? t).map bare := by
  obtain ⟨x, hx⟩ := hasTensor_iff.1 ht
  exact h.tensor hx

theorem has_of_producer (hp : g.producer? t = some o) : g.hasTensor t = true := by
  obtain ⟨x, hx, -⟩ := producer?_eq_some.1 hp
  exact hasTensor_iff.2 ⟨x, hx⟩

theorem feeds (h : Restricts g g') {p q : OpId} (hf : g'.Feeds p q) : g.Feeds p q := by
  obtain ⟨op, ho, t, ht, hp⟩ := hf
  exact ⟨op, h.op ho, t, ht, (producer?_congr (h.tensor_of_has (has_of_producer hp))).symm.trans hp⟩

/-- A restricted graph computes the same values. -/
theorem means (h : Restricts g g') (hm : g.Means b a ν) : g'.Means b a ν := by
  have hinfo : ∀ {o op t}, g'.op? o = some op → (t ∈ op.inputs ∨ t ∈ op.outputs) → g'.info? t = g.info? t := by
    intro o op t ho ht
    refine info?_congr (h.tensor_of_has ?_)
    rcases ht with ht | ht
    · exact hasTensor_iff.2 (h.linked.hasTensor_of_input ho ht)
    · exact has_of_producer (h.linked.makes.2 ⟨op, ho, ht⟩)
  have hproducer : ∀ {t o}, g'.producer? t = some o → g.producer? t = some o := by
    intro t o hp
    rw [← producer?_congr (h.tensor_of_has (has_of_producer hp)), hp]
  refine ⟨h.linked, fun t x hx => hm.constants.of_bare (h.tensor hx) hx, hm.acyclic.of_feeds ?_, hm.inferred.of_infos ?_, ⟨?_, ?_⟩⟩
  · exact fun hf => .single (h.feeds hf)
  · intro o op ho
    refine ⟨op, h.op ho, rfl, rfl, ?_, fun t ht => hinfo ho (.inr ht)⟩
    exact mapM_congr_of_mem fun t ht => hinfo ho (.inl ht)
  · intro t ht hp
    have hsame := h.tensor_of_has ht
    rw [hm.solves.source ((hasTensor_congr hsame).symm.trans ht) ((producer?_congr hsame).symm.trans hp)]
    exact (fed_congr hsame).symm
  · intro t o op hp ho
    obtain ⟨y, hy, hyop⟩ := hm.solves.op (hproducer hp) (h.op ho)
    refine ⟨y, hy, ?_⟩
    rw [← hyop]
    unfold Reading.apply
    rw [info?_congr (h.tensor_of_has (has_of_producer hp))]
    rfl

end Restricts

/-! ## Rewiring -/

/-- Letting all consumers of a tensor read another with the same info and the same value changes nothing, if what is
read now was needed for what was read before. -/
theorem Means.rewire (hm : g.Means b a ν) {old new : TensorId} (hb : Bypassed g old new g')
    (hinfo : g.info? new = g.info? old) (hν : ν new = ν old)
    (hfeeds : ∀ {p}, g.producer? new = some p → ∃ o, g.producer? old = some o ∧ g.Feeds p o) :
    g'.Means b a ν := by
  refine ⟨hb.linked, fun t x => hm.constants.of_bare (hb.bare_eq t), hm.acyclic.of_feeds ?_, hm.inferred.of_infos ?_,
    ⟨?_, ?_⟩⟩
  · rintro p q ⟨op', ho', t, ht, hp⟩
    obtain ⟨op, ho, rfl⟩ := hb.op_of ho'
    rw [hb.producer?_eq] at hp
    rcases mem_substitute.1 ht with ⟨ht, -⟩ | ⟨rfl, hold⟩
    · exact .single ⟨op, ho, t, ht, hp⟩
    · obtain ⟨o, hold', hpo⟩ := hfeeds hp
      exact .tail (.single hpo) ⟨op, ho, old, hold, hold'⟩
  · intro o op' ho'
    obtain ⟨op, ho, rfl⟩ := hb.op_of ho'
    refine ⟨op, ho, rfl, rfl, ?_, fun t _ => hb.info?_eq t⟩
    rw [funext hb.info?_eq]
    exact mapM_substitute hinfo op.inputs
  · intro t ht hp
    rw [hm.solves.source ((hasTensor_congr (hb.bare_eq t)).symm.trans ht) ((hb.producer?_eq t).symm.trans hp)]
    exact (fed_congr (hb.bare_eq t)).symm
  · intro t o op' hp ho'
    obtain ⟨op, ho, rfl⟩ := hb.op_of ho'
    obtain ⟨y, hy, hyop⟩ := hm.solves.op ((hb.producer?_eq t).symm.trans hp) ho
    refine ⟨y, hy, ?_⟩
    rw [← hyop]
    unfold Reading.apply
    rw [hb.info?_eq]
    change ((substitute old new op.inputs).mapM ν).bind _ = _
    rw [mapM_substitute hν]
    rfl

/-! ## Folding -/

/-- Putting a constant in the place of an op whose result has that value. -/
theorem Means.fold (hm : g.Means b a ν) {op : Op} {output : TensorId} {y : HostTensor} (hf : Folded g op output y g')
    (hy : ν output = some y) : g'.Means b a ν := by
  have hinv : ∀ {o op'}, g'.op? o = some op' → g.op? o = some op' := fun ho => (hf.op?_eq_some.1 ho).2
  have hconstants : g'.ConstantsFixed := by
    intro t z hz hzt
    rcases hf.lookup hz with ⟨-, -, hnone⟩ | ⟨hne, -⟩
    · exact hnone
    · exact hm.constants.of_bare (hf.bare_eq t hne) hz hzt
  refine ⟨hf.linked, hconstants, hm.acyclic.of_feeds ?_, hm.inferred.of_infos ?_, ⟨?_, ?_⟩⟩
  · rintro p q ⟨op', ho', t, ht, hp⟩
    exact .single ⟨op', hinv ho', t, ht, (hf.producer?_eq_some hp).2⟩
  · intro o op' ho'
    refine ⟨op', hinv ho', rfl, rfl, ?_, fun t _ => hf.info?_eq t⟩
    rw [funext hf.info?_eq]
  · intro t ht hp
    by_cases hto : t = output
    · subst hto
      obtain ⟨x', hx', hinfo, htype, hdata, -⟩ := hf.constant
      rw [hy]
      change _ = g'.fed a t
      simp [fed, hx', htype, hdata, hinfo, Option.filter_some]
    · rw [hm.solves.source ((hf.hasTensor_eq t).symm.trans ht) ((producer?_congr (hf.bare_eq t hto)).symm.trans hp)]
      exact (fed_congr (hf.bare_eq t hto)).symm
  · intro t o op' hp ho'
    obtain ⟨z, hz, hzop⟩ := hm.solves.op (hf.producer?_eq_some hp).2 (hinv ho')
    refine ⟨z, hz, ?_⟩
    rw [← hzop]
    unfold Reading.apply
    rw [hf.info?_eq]
    rfl

end Graph

end TensorGraph
