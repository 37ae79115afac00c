import TensorGraph.Proofs.Graph.Tables

/-!
What each change of a graph does to its look-ups. Later proofs use these descriptions and never open a change
itself.
-/
namespace TensorGraph

namespace Graph

variable {g g' : Graph} {o : OpId} {t : TensorId}

/-! ## Tensors but for their consumers -/

/-- A tensor without regard to the ops that consume it. -/
def bare (x : Tensor) : Tensor := { x with consumers := .empty }

/-- Two tensors that differ at most in their consumers. -/
structure Alike (x y : Tensor) : Prop where
  id : x.id = y.id
  info : x.info = y.info
  type : x.type = y.type
  data : x.data = y.data
  producer : x.producer = y.producer

theorem lookup_of_bare (h : (g'.tensor? t).map bare = (g.tensor? t).map bare) {x : Tensor} (hx : g.tensor? t = some x) :
    ∃ x', g'.tensor? t = some x' ∧ Alike x' x := by
  rw [hx, Option.map_some] at h
  obtain ⟨x', hx', heq⟩ := Option.map_eq_some_iff.1 h
  have hfields : ∀ {β : Type} (p : Tensor → β), p (bare x') = p (bare x) := fun p => congrArg p heq
  exact ⟨x', hx', hfields Tensor.id, hfields Tensor.info, hfields Tensor.type, hfields Tensor.data,
    hfields Tensor.producer⟩

theorem info?_congr (h : (g'.tensor? t).map bare = (g.tensor? t).map bare) : g'.info? t = g.info? t := by
  have hinfo : ∀ x : Option Tensor, x.map (·.info) = (x.map bare).map (·.info) := by
    intro x
    cases x <;> rfl
  rw [info?, info?, hinfo, h, ← hinfo]

theorem producer?_congr (h : (g'.tensor? t).map bare = (g.tensor? t).map bare) : g'.producer? t = g.producer? t := by
  have hproducer : ∀ x : Option Tensor, x.bind (·.producer) = (x.map bare).bind (·.producer) := by
    intro x
    cases x <;> rfl
  rw [producer?, producer?, hproducer, h, ← hproducer]

theorem hasTensor_congr (h : (g'.tensor? t).map bare = (g.tensor? t).map bare) : g'.hasTensor t = g.hasTensor t := by
  rw [Bool.eq_iff_iff, hasTensor_iff, hasTensor_iff, ← Option.isSome_iff_exists, ← Option.isSome_iff_exists,
    ← Option.isSome_map (f := bare), h, Option.isSome_map]

/-! ## Adding -/

theorem addTensor_ok {id : TensorId} {info : TensorInfo} {type : TensorType} {data : Option HostTensor}
    (h : g.addTensor id info type data = .ok g') :
    g.tensor? id = none ∧
      g' = { g with
        streams := if type = .stream then g.streams ++ [id] else g.streams
        tensors := g.tensors.insert id { id, info, type, data } } := by
  unfold addTensor at h
  split at h
  · cases h
  · rename_i hid
    cases h
    rw [Bool.not_eq_true] at hid
    exact ⟨hasTensor_eq_false_iff.1 hid, rfl⟩

theorem tensor?_addTensor {id : TensorId} {info : TensorInfo} {type : TensorType} {data : Option HostTensor}
    (h : g.addTensor id info type data = .ok g') (t : TensorId) :
    g'.tensor? t = if id = t then some { id, info, type, data } else g.tensor? t := by
  obtain ⟨-, rfl⟩ := addTensor_ok h
  exact Dict.get?_insert ..

/-- A new tensor is neither produced nor consumed. -/
theorem addTensor_uses {id : TensorId} {info : TensorInfo} {type : TensorType} {data : Option HostTensor}
    (h : g.addTensor id info type data = .ok g') (t : TensorId) :
    g'.producer? t = g.producer? t ∧ g'.consumers t = g.consumers t := by
  have hnew := (addTensor_ok h).1
  rw [producer?, consumers, tensor?_addTensor h, producer?, consumers]
  split
  · rename_i ht
    rw [← ht, hnew]
    exact ⟨rfl, rfl⟩
  · exact ⟨rfl, rfl⟩

/-- What is known of a graph `g'` that came from `g` by adding an op. -/
structure AddedOp (g : Graph) (kind : OpKind) (inputs : List TensorId) (output : TensorId) (phase : Phase)
    (info : TensorInfo) (g' : Graph) : Prop where
  infers : ∃ infos, inputs.mapM g.info = .ok infos ∧ kind.infer infos = .ok info
  free : g.isFree output = true
  op?_eq : ∀ o, g'.op? o =
    if o = g.nextOp then
      some { id := g.nextOp, kind, name := output, inputs, outputs := [output], phase }
    else g.op? o
  tensor?_eq : ∀ t, g'.tensor? t =
    let read := (g.tensor? t).map fun x =>
      if t ∈ inputs then { x with consumers := x.consumers.insert g.nextOp } else x
    if t = output then
      some { read.getD { id := output, info, type := .actGrad } with info, producer := some g.nextOp }
    else read
  streams_eq : g'.streams = g.streams
  outputs_eq : g'.outputs = g.outputs
  kept_eq : g'.kept = g.kept
  nextOp_eq : g'.nextOp = g.nextOp + 1
  nextTemp_eq : g'.nextTemp = g.nextTemp

theorem tensor?_produce (op : OpId) (id : TensorId) (info : TensorInfo) :
    (g.produce op id info).tensor? t =
      if t = id then some { (g.tensor? t).getD { id, info, type := .actGrad } with info, producer := some op }
      else g.tensor? t := by
  unfold produce
  split
  · rename_i hid
    by_cases ht : t = id
    · subst ht
      simp only [tensor?, Dict.get?_insert] at hid ⊢
      simp [hid]
    · have ht' : ¬ id = t := fun e => ht e.symm
      simp [tensor?, Dict.get?_insert, ht, ht']
  · rename_i x hid
    by_cases ht : t = id
    · subst ht
      simp [hid]
    · have ht' : ¬ id = t := fun e => ht e.symm
      simp [ht, ht']

theorem produce_frame (op : OpId) (id : TensorId) (info : TensorInfo) :
    g.produce op id info = { g with tensors := (g.produce op id info).tensors } := by
  unfold produce
  split <;> rfl

/-- Adding an op succeeds only with one name for its result, which is inferred from its operands. -/
theorem addOp_ok {kind : OpKind} {inputs outputs : List TensorId} {phase : Phase} {id : OpId}
    (h : g.addOp kind inputs outputs phase = .ok (id, g')) :
    ∃ output info, outputs = [output] ∧ id = g.nextOp ∧ AddedOp g kind inputs output phase info g' := by
  unfold addOp at h
  obtain ⟨infos, hinfos, h⟩ := Outcome.bind_eq_ok.1 h
  obtain ⟨info, hinfo, h⟩ := Outcome.bind_eq_ok.1 h
  match outputs, h with
  | [], h => cases h
  | _ :: _ :: _, h => cases h
  | [output], h =>
    simp only at h
    split at h
    · cases h
    · rename_i hfree
      rw [Bool.not_eq_false] at hfree
      simp only [pure, Except.pure, Except.ok.injEq, Prod.mk.injEq] at h
      obtain ⟨rfl, rfl⟩ := h
      refine ⟨output, info, rfl, rfl, ⟨infos, hinfos, hinfo⟩, hfree, fun o => ?_, fun t => ?_, ?_, ?_, ?_, ?_, ?_⟩
      · rw [produce_frame, foldl_modifyTensor]
        simp only [op?, Dict.get?_insert]
        by_cases ho : o = g.nextOp
        · simp [ho]
        · have ho' : ¬ g.nextOp = o := fun e => ho e.symm
          simp [ho, ho']
      · have hread := Dict.get?_foldl_modify (f := fun x : Tensor => { x with consumers := x.consumers.insert g.nextOp })
          (fun x => by simp [SortedSet.insert_of_mem (SortedSet.mem_insert.2 (.inl rfl))]) t inputs g.tensors
        change (produce _ _ _ _).tensor? t = _
        rw [tensor?_produce, foldl_modifyTensor]
        simp only [tensor?, hread]
        by_cases hti : t ∈ inputs <;> simp [hti]
      all_goals
        rw [produce_frame, foldl_modifyTensor]

/-- An op is added under a new name if the info of its result can be inferred. -/
theorem addOp_of_infers {kind : OpKind} {inputs : List TensorId} {output : TensorId} {known : List TensorInfo}
    {info : TensorInfo} (hknown : inputs.mapM g.info = .ok known) (hinfer : kind.infer known = .ok info)
    (hfree : g.tensor? output = none) (phase : Phase) :
    ∃ g', g.addOp kind inputs [output] phase = .ok (g.nextOp, g') ∧
      AddedOp g kind inputs output phase info g' := by
  have hadd : ∃ g', g.addOp kind inputs [output] phase = .ok (g.nextOp, g') := by
    have hisFree : g.isFree output = true := by
      rw [isFree, hfree]
    rw [addOp, hknown]
    simp only [bind, Except.bind, hinfer, hisFree]
    exact ⟨_, rfl⟩
  obtain ⟨g', hadd⟩ := hadd
  obtain ⟨output', info', houtput, -, hadded⟩ := addOp_ok hadd
  obtain rfl := List.singleton_inj.1 houtput
  obtain ⟨known', hknown', hinfer'⟩ := hadded.infers
  rw [hknown] at hknown'
  cases hknown'
  rw [hinfer] at hinfer'
  cases hinfer'
  exact ⟨g', hadd, hadded⟩

theorem isFree_iff : g.isFree t = true ↔ ∀ x, g.tensor? t = some x → x.producer = none ∧ x.type = .actGrad := by
  unfold isFree
  split
  · rename_i h
    simp [h]
  · rename_i x h
    simp [h]

theorem isFree_eq_false_iff : g.isFree t = false ↔
    ∃ x, g.tensor? t = some x ∧ (x.type ≠ .actGrad ∨ x.producer ≠ none) := by
  rw [← Bool.not_eq_true, isFree_iff, not_forall]
  refine exists_congr fun x => ?_
  rw [Classical.not_imp, not_and_or, or_comm]

namespace AddedOp

variable {kind : OpKind} {inputs : List TensorId} {output : TensorId} {phase : Phase} {info : TensorInfo}

theorem hasTensor_of_input (h : AddedOp g kind inputs output phase info g') (ht : t ∈ inputs) :
    ∃ x, g.tensor? t = some x := by
  obtain ⟨infos, hinfos, -⟩ := h.infers
  have hall := Outcome.mapM_eq_ok.1 hinfos
  clear h hinfos
  induction hall with
  | nil => cases ht
  | cons hi _ ih =>
    rcases List.mem_cons.1 ht with rfl | ht
    · obtain ⟨x, hx, -⟩ := info_eq_ok.1 hi
      exact ⟨x, hx⟩
    · exact ih ht

/-- A tensor that was there, with its new consumer and producer. -/
theorem tensor?_of_some (h : AddedOp g kind inputs output phase info g') {x : Tensor} (hx : g.tensor? t = some x) :
    g'.tensor? t = some { x with
      info := if t = output then info else x.info
      producer := if t = output then some g.nextOp else x.producer
      consumers := if t ∈ inputs then x.consumers.insert g.nextOp else x.consumers } := by
  rw [h.tensor?_eq, hx]
  by_cases ht : t = output <;> by_cases hin : t ∈ inputs <;> simp_all

/-- A tensor that was not there is the new result. -/
theorem tensor?_of_none (h : AddedOp g kind inputs output phase info g') (hx : g.tensor? t = none) :
    g'.tensor? t = if t = output then
      some { id := output, info, type := .actGrad, producer := some g.nextOp } else none := by
  rw [h.tensor?_eq, hx]
  rfl

/-- A tensor after adding an op is an old one, with its new consumer and producer, or the new result. -/
theorem lookup (h : AddedOp g kind inputs output phase info g') {x' : Tensor} (hx' : g'.tensor? t = some x') :
    (∃ x, g.tensor? t = some x ∧
      x' = { x with
        info := if t = output then info else x.info
        producer := if t = output then some g.nextOp else x.producer
        consumers := if t ∈ inputs then x.consumers.insert g.nextOp else x.consumers }) ∨
    (g.tensor? t = none ∧ t = output ∧ t ∉ inputs ∧
      x' = { id := output, info, type := .actGrad, producer := some g.nextOp }) := by
  cases hx : g.tensor? t with
  | some x => exact .inl ⟨x, rfl, Option.some.inj (hx'.symm.trans (h.tensor?_of_some hx))⟩
  | none =>
    rw [h.tensor?_of_none hx] at hx'
    split at hx'
    · rename_i ht
      refine .inr ⟨rfl, ht, fun hin => ?_, (Option.some.inj hx').symm⟩
      obtain ⟨x, hsome⟩ := h.hasTensor_of_input hin
      rw [hx] at hsome
      cases hsome
    · cases hx'

theorem producer?_output (h : AddedOp g kind inputs output phase info g') : g.producer? output = none := by
  rw [producer?, Option.bind_eq_none_iff]
  exact fun x hx => (isFree_iff.1 h.free x hx).1

theorem producer?_eq (h : AddedOp g kind inputs output phase info g') (t : TensorId) :
    g'.producer? t = if t = output then some g.nextOp else g.producer? t := by
  cases hx : g.tensor? t with
  | some x =>
    rw [producer?, h.tensor?_of_some hx, producer?, hx]
    rfl
  | none =>
    rw [producer?, h.tensor?_of_none hx, producer?, hx]
    split <;> rfl

theorem mem_consumers (h : AddedOp g kind inputs output phase info g') :
    o ∈ g'.consumers t ↔ o ∈ g.consumers t ∨ o = g.nextOp ∧ t ∈ inputs := by
  rw [Graph.mem_consumers, Graph.mem_consumers]
  constructor
  · rintro ⟨x', hx', ho⟩
    obtain ⟨x, hx, rfl⟩ | ⟨-, -, -, rfl⟩ := h.lookup hx'
    · by_cases hin : t ∈ inputs
      · simp only [hin, if_true, SortedSet.mem_insert] at ho
        exact ho.symm.imp (fun ho => ⟨x, hx, ho⟩) fun ho => ⟨ho, hin⟩
      · simp only [hin, if_false] at ho
        exact .inl ⟨x, hx, ho⟩
    · exact absurd ho (SortedSet.not_mem_empty o)
  · rintro (⟨x, hx, ho⟩ | ⟨rfl, hin⟩)
    · exact ⟨_, h.tensor?_of_some hx, by by_cases hin : t ∈ inputs <;> simp [hin, ho, SortedSet.mem_insert]⟩
    · obtain ⟨x, hx⟩ := h.hasTensor_of_input hin
      exact ⟨_, h.tensor?_of_some hx, by simp [hin, SortedSet.mem_insert]⟩

/-- The new op is the producer of its result and of nothing else. -/
theorem makes (h : AddedOp g kind inputs output phase info g') (hnew : g.op? g.nextOp = none)
    (hmakes : ∀ {o t}, g.producer? t = some o ↔ ∃ op, g.op? o = some op ∧ t ∈ op.outputs) :
    g'.producer? t = some o ↔ ∃ op, g'.op? o = some op ∧ t ∈ op.outputs := by
  rw [h.producer?_eq, h.op?_eq]
  by_cases ho : o = g.nextOp
  · simp only [if_pos ho, Option.some.injEq, exists_eq_left', List.mem_singleton]
    by_cases ht : t = output
    · simp [ht, ho]
    · rw [if_neg ht, hmakes, ho, hnew]
      simp [ht]
  · rw [if_neg ho, ← hmakes]
    by_cases ht : t = output
    · have ho' : ¬ g.nextOp = o := fun e => ho e.symm
      rw [if_pos ht, ht, h.producer?_output]
      simp [ho']
    · rw [if_neg ht]

end AddedOp

/-! ## Removing -/

theorem tensor?_disconnect (op : Op) : (g.disconnect op).tensor? t = (g.tensor? t).map fun x =>
    { x with
      consumers := if t ∈ op.inputs then x.consumers.erase op.id else x.consumers
      producer := if t ∈ op.outputs then none else x.producer } := by
  have hread := Dict.get?_foldl_modify (f := fun x : Tensor => { x with consumers := x.consumers.erase op.id })
    (fun x => by simp [SortedSet.erase_of_not_mem (s := x.consumers.erase op.id) (k := op.id)
      (by simp [SortedSet.mem_erase])]) t op.inputs g.tensors
  have hmade := Dict.get?_foldl_modify (f := fun x : Tensor => { x with producer := none }) (fun _ => rfl) t op.outputs
    (op.inputs.foldl (fun d i => d.modify i fun x => { x with consumers := x.consumers.erase op.id }) g.tensors)
  unfold disconnect
  simp only [foldl_modifyTensor, tensor?, hmade, hread]
  cases g.tensors.get? t with
  | none => simp
  | some x => by_cases hi : t ∈ op.inputs <;> by_cases ho : t ∈ op.outputs <;> simp [hi, ho]

theorem disconnect_frame (op : Op) : g.disconnect op = { g with tensors := (g.disconnect op).tensors } := by
  unfold disconnect
  simp only [foldl_modifyTensor]

/-- What is known of a graph `g'` that came from `g` by removing an op, with its results if `erased`. -/
structure DroppedOp (g : Graph) (id : OpId) (op : Op) (erased : Bool) (g' : Graph) : Prop where
  found : g.op? id = some op
  op?_eq : ∀ o, g'.op? o = if o = id then none else g.op? o
  tensor?_eq : ∀ t, g'.tensor? t =
    if erased ∧ t ∈ op.outputs then none
    else (g.tensor? t).map fun x =>
      { x with
        consumers := if t ∈ op.inputs then x.consumers.erase op.id else x.consumers
        producer := if t ∈ op.outputs then none else x.producer }
  frame : g' = { g with ops := g'.ops, tensors := g'.tensors }

theorem detachOp_ok {id : OpId} {op : Op} (h : g.detachOp id = .ok (op, g')) : DroppedOp g id op false g' := by
  unfold detachOp at h
  obtain ⟨op', hop, h⟩ := Outcome.bind_eq_ok.1 h
  rw [Outcome.orFail_eq_ok] at hop
  simp only [pure, Except.pure, Except.ok.injEq, Prod.mk.injEq] at h
  obtain ⟨rfl, rfl⟩ := h
  refine ⟨hop, fun o => ?_, fun t => ?_, ?_⟩
  · rw [disconnect_frame]
    simp only [op?, Dict.get?_erase]
    by_cases ho : o = id
    · simp [ho]
    · have ho' : ¬ id = o := fun e => ho e.symm
      simp [ho, ho']
  · rw [tensor?_disconnect]
    rfl
  · rw [disconnect_frame]

theorem eraseOp_ok {id : OpId} {op : Op} (h : g.eraseOp id = .ok (op, g')) :
    DroppedOp g id op true g' ∧ g.consumedOutput? op = none := by
  unfold eraseOp at h
  split at h
  · cases h
  · rename_i hnone
    obtain ⟨⟨op', d⟩, hd, h⟩ := Outcome.bind_eq_ok.1 h
    have hdrop := detachOp_ok hd
    simp only [pure, Except.pure, Except.ok.injEq, Prod.mk.injEq] at h
    obtain ⟨rfl, rfl⟩ := h
    rw [hdrop.found, Option.bind_some] at hnone
    refine ⟨⟨hdrop.found, fun o => ?_, fun t => ?_, ?_⟩, hnone⟩
    · rw [foldl_eraseTensor]
      exact hdrop.op?_eq o
    · rw [foldl_eraseTensor]
      have ht := hdrop.tensor?_eq t
      simp only [tensor?, Dict.get?_foldl_erase] at ht ⊢
      by_cases hmem : t ∈ op'.outputs <;> simp [ht, hmem]
    · rw [foldl_eraseTensor, hdrop.frame]

namespace DroppedOp

variable {id : OpId} {op : Op} {erased : Bool}

theorem op?_eq_some (hd : DroppedOp g id op erased g') {op' : Op} :
    g'.op? o = some op' ↔ o ≠ id ∧ g.op? o = some op' := by
  rw [hd.op?_eq]
  by_cases ho : o = id <;> simp [ho]

/-- A tensor that is still there, without the op among its consumers and as its producer. -/
theorem lookup (hd : DroppedOp g id op erased g') {x' : Tensor} (hx' : g'.tensor? t = some x') :
    ∃ x, g.tensor? t = some x ∧ x' = { x with
      consumers := if t ∈ op.inputs then x.consumers.erase op.id else x.consumers
      producer := if t ∈ op.outputs then none else x.producer } := by
  rw [hd.tensor?_eq] at hx'
  split at hx'
  · cases hx'
  · obtain ⟨x, hx, hxx⟩ := Option.map_eq_some_iff.1 hx'
    exact ⟨x, hx, hxx.symm⟩

theorem bare_eq (hd : DroppedOp g id op erased g') (hout : t ∉ op.outputs) :
    (g'.tensor? t).map bare = (g.tensor? t).map bare := by
  rw [hd.tensor?_eq, if_neg fun hc => hout hc.2, Option.map_map]
  simp only [hout, if_false]
  rfl

/-- An op that is only detached leaves the infos of its results. -/
theorem info?_eq (hd : DroppedOp g id op false g') (t : TensorId) : g'.info? t = g.info? t := by
  rw [info?, info?, hd.tensor?_eq, if_neg (by simp), Option.map_map]
  rfl

theorem producer?_eq (hd : DroppedOp g id op erased g') (t : TensorId) :
    g'.producer? t = if t ∈ op.outputs then none else g.producer? t := by
  by_cases hout : t ∈ op.outputs
  · rw [if_pos hout, producer?, Option.bind_eq_none_iff]
    intro x' hx'
    obtain ⟨x, -, rfl⟩ := hd.lookup hx'
    exact if_pos hout
  · rw [if_neg hout, producer?_congr (hd.bare_eq hout)]

theorem mem_consumers (hd : DroppedOp g id op erased g') :
    o ∈ g'.consumers t ↔
      ¬ (erased = true ∧ t ∈ op.outputs) ∧ o ∈ g.consumers t ∧ ¬ (o = op.id ∧ t ∈ op.inputs) := by
  rw [Graph.mem_consumers, Graph.mem_consumers, hd.tensor?_eq]
  by_cases hgone : erased = true ∧ t ∈ op.outputs
  · simp [hgone]
  · rw [if_neg hgone]
    cases g.tensor? t with
    | none => simp
    | some x => by_cases hin : t ∈ op.inputs <;> simp [hgone, hin, SortedSet.mem_erase]

/-- The op was the producer of its results and of nothing else. -/
theorem makes (hd : DroppedOp g id op erased g')
    (hmakes : ∀ {o t}, g.producer? t = some o ↔ ∃ op, g.op? o = some op ∧ t ∈ op.outputs) :
    g'.producer? t = some o ↔ ∃ op, g'.op? o = some op ∧ t ∈ op.outputs := by
  simp only [hd.producer?_eq, hd.op?_eq_some]
  by_cases hout : t ∈ op.outputs
  · rw [if_pos hout]
    refine ⟨nofun, fun ⟨op', ⟨hne, ho⟩, ht⟩ => absurd ?_ hne⟩
    exact Option.some.inj ((hmakes.2 ⟨op', ho, ht⟩).symm.trans (hmakes.2 ⟨op, hd.found, hout⟩))
  · rw [if_neg hout, hmakes]
    refine exists_congr fun op' => ⟨fun ⟨ho, ht⟩ => ⟨⟨?_, ho⟩, ht⟩, fun ⟨⟨_, ho⟩, ht⟩ => ⟨ho, ht⟩⟩
    rintro rfl
    cases ho.symm.trans hd.found
    exact hout ht

end DroppedOp

theorem consumedOutput?_eq_none {op : Op} :
    g.consumedOutput? op = none ↔ ∀ t ∈ op.outputs, ∀ o ∈ g.consumers t, o = op.id := by
  simp [consumedOutput?]

theorem removeTensor_ok {id : TensorId} {x : Tensor} (h : g.removeTensor id = .ok (x, g')) :
    g.tensor? id = some x ∧ x.producer = none ∧ (∀ o, o ∉ x.consumers) ∧
      g' = { g with streams := g.streams.filter (· ≠ id), tensors := g.tensors.erase id } := by
  unfold removeTensor at h
  split at h
  · cases h
  · rename_i y hy
    split at h
    · cases h
    · rename_i hcond
      rw [not_or, Bool.not_eq_true, Option.isSome_eq_false_iff, Option.isNone_iff_eq_none,
        SortedSet.isEmpty_eq_false_iff] at hcond
      simp only [Except.ok.injEq, Prod.mk.injEq] at h
      obtain ⟨rfl, rfl⟩ := h
      exact ⟨hy, hcond.1, fun o ho => hcond.2 ⟨o, ho⟩, rfl⟩

theorem tensor?_removeTensor {id : TensorId} {x : Tensor} (h : g.removeTensor id = .ok (x, g')) (t : TensorId) :
    g'.tensor? t = if id = t then none else g.tensor? t := by
  obtain ⟨-, -, -, rfl⟩ := removeTensor_ok h
  exact Dict.get?_erase ..

/-- A tensor is removed that is neither produced nor consumed. -/
theorem removeTensor_uses {id : TensorId} {x : Tensor} (h : g.removeTensor id = .ok (x, g')) (t : TensorId) :
    g'.producer? t = g.producer? t ∧ g'.consumers t = g.consumers t := by
  obtain ⟨hx, hp, hc, -⟩ := removeTensor_ok h
  rw [producer?, consumers, tensor?_removeTensor h, producer?, consumers]
  split
  · rename_i ht
    have hnone : x.consumers.toList = [] := List.eq_nil_iff_forall_not_mem.2 fun o ho => hc o (SortedSet.mem_toList.1 ho)
    rw [← ht, hx]
    simp [hp, hnone]
  · exact ⟨rfl, rfl⟩

/-! ## Changing names and uses -/

theorem mem_substitute {old new : TensorId} {l : List TensorId} :
    t ∈ substitute old new l ↔ t ∈ l ∧ t ≠ old ∨ t = new ∧ old ∈ l := by
  simp only [substitute, List.mem_map]
  constructor
  · rintro ⟨i, hi, rfl⟩
    by_cases h : i = old
    · subst h
      simp [hi]
    · simp [h, hi]
  · rintro (⟨ht, hne⟩ | ⟨rfl, hold⟩)
    · exact ⟨t, ht, if_neg hne⟩
    · exact ⟨old, hold, if_pos rfl⟩

theorem mem_substitute_new {old new : TensorId} {l : List TensorId} (hnew : new ∉ l) :
    new ∈ substitute old new l ↔ old ∈ l := by
  rw [mem_substitute]
  constructor
  · rintro (⟨h, -⟩ | ⟨-, h⟩)
    · exact absurd h hnew
    · exact h
  · exact fun h => .inr ⟨rfl, h⟩

theorem mem_substitute_other {old new : TensorId} {l : List TensorId} (hold : t ≠ old) (hnew : t ≠ new) :
    t ∈ substitute old new l ↔ t ∈ l := by
  simp [mem_substitute, hold, hnew]

theorem substitute_of_not_mem {old new : TensorId} {l : List TensorId} (h : old ∉ l) : substitute old new l = l := by
  rw [substitute, List.map_congr_left (g := id), List.map_id]
  intro i hi
  have hne : i ≠ old := fun e => h (e ▸ hi)
  exact if_neg hne

/-- An op that reads `new` where it read `old`. -/
def rewire (old new : TensorId) (op : Op) : Op := { op with inputs := substitute old new op.inputs }

theorem rewire_of_not_mem {old new : TensorId} {op : Op} (h : old ∉ op.inputs) : rewire old new op = op := by
  rw [rewire, substitute_of_not_mem h]

/-- What is known of a graph `g'` that came from `g` by letting the ops of `l` read `new` for `old`. -/
structure Rewired (g : Graph) (l : List OpId) (old new : TensorId) (g' : Graph) : Prop where
  op?_eq : ∀ o, g'.op? o = (g.op? o).map fun op => if o ∈ l then rewire old new op else op
  bare_eq : ∀ t, (g'.tensor? t).map bare = (g.tensor? t).map bare
  frame : g' = { g with ops := g'.ops, tensors := g'.tensors }

/-- What an op reads for `old` is no longer consumed by it under that name, but as `new`, if that is there. -/
theorem replaceInput_ok {op : Op} (ho : g.op? o = some op) (old new : TensorId) :
    ∃ g', g.replaceInput o old new = .ok g' ∧ Rewired g [o] old new g' ∧
      ∀ {p t}, p ∈ g'.consumers t ↔
        p ∈ g.consumers t ∧ ¬ (p = o ∧ t = old) ∨ (p = o ∧ t = new) ∧ ∃ x, g.tensor? t = some x := by
  unfold replaceInput
  rw [ho]
  have htensor : ∀ t, (((g.modifyOp o fun op => { op with inputs := substitute old new op.inputs }).modifyTensor old
      fun t => { t with consumers := t.consumers.erase o }).modifyTensor new
      fun t => { t with consumers := t.consumers.insert o }).tensor? t =
      (g.tensor? t).map fun x =>
        let unread := if t = old then x.consumers.erase o else x.consumers
        { x with consumers := if t = new then unread.insert o else unread } := by
    intro t
    simp only [tensor?_modifyTensor, tensor?_modifyOp, eq_comm (a := new) (b := t), eq_comm (a := old) (b := t)]
    cases g.tensor? t with
    | none => simp
    | some x => split <;> split <;> rfl
  refine ⟨_, rfl, ⟨fun o' => ?_, fun t => ?_, rfl⟩, fun {p t} => ?_⟩
  · simp only [op?_modifyTensor, op?_modifyOp, List.mem_singleton, eq_comm (a := o)]
    by_cases h : o' = o
    · simp only [h, if_true]
      rfl
    · simp [h]
  · rw [htensor, Option.map_map]
    rfl
  · rw [mem_consumers, mem_consumers, htensor]
    cases g.tensor? t with
    | none => simp
    | some x =>
      have herased : p ∈ (if t = old then x.consumers.erase o else x.consumers) ↔
          p ∈ x.consumers ∧ ¬ (p = o ∧ t = old) := by
        split <;> simp_all [SortedSet.mem_erase]
      have hinserted : ∀ s : SortedSet OpId, p ∈ (if t = new then s.insert o else s) ↔ p ∈ s ∨ p = o ∧ t = new := by
        intro s
        split <;> simp_all [SortedSet.mem_insert, or_comm]
      simp only [Option.map_some, Option.some.injEq, exists_eq_left', hinserted, herased, exists_eq', and_true]

/-- An op with another name for one of its tensors. -/
def rename (old new : TensorId) (op : Op) : Op :=
  { op with
    inputs := substitute old new op.inputs
    outputs := substitute old new op.outputs
    name := if old ∈ op.outputs ∧ op.name = old then new else op.name }

/-- What is known of a graph `g'` that came from `g` by giving the tensor `x` the name `new`. -/
structure Renamed (g : Graph) (old new : TensorId) (x : Tensor) (g' : Graph) : Prop where
  found : g.tensor? old = some x
  free : g.tensor? new = none
  op?_eq : ∀ o, g'.op? o = (g.op? o).map (rename old new)
  tensor?_eq : ∀ t, g'.tensor? t =
    if t = new then some { x with id := new } else if t = old then none else g.tensor? t
  streams_eq : g'.streams = substitute old new g.streams
  outputs_eq : g'.outputs = substitute old new g.outputs
  kept_eq : g'.kept = if g.isKept old then (g.kept.erase old).insert new else g.kept
  nextOp_eq : g'.nextOp = g.nextOp
  nextTemp_eq : g'.nextTemp = g.nextTemp

namespace Renamed

variable {old new : TensorId} {x : Tensor}

/-- The new name is the name of no tensor. -/
theorem ne_new (hr : Renamed g old new x g') {y : Tensor} (hy : g.tensor? t = some y) : t ≠ new := by
  rintro rfl
  cases hr.free.symm.trans hy

theorem tensor?_other (hr : Renamed g old new x g') {y : Tensor} (hy : g.tensor? t = some y) (ht : t ≠ old) :
    g'.tensor? t = some y := by
  rw [hr.tensor?_eq, if_neg (hr.ne_new hy), if_neg ht, hy]

/-- A tensor that was there stands under its later name with all that it says. -/
theorem tensor?_later (hr : Renamed g old new x g') {y : Tensor} (hy : g.tensor? t = some y) :
    g'.tensor? (if t = old then new else t) = some { y with id := if t = old then new else y.id } := by
  by_cases ht : t = old
  · subst ht
    cases hr.found.symm.trans hy
    rw [if_pos rfl, if_pos rfl, hr.tensor?_eq, if_pos rfl]
  · rw [if_neg ht, if_neg ht, hr.tensor?_other hy ht]

theorem info?_later (hr : Renamed g old new x g') {y : Tensor} (hy : g.tensor? t = some y) :
    g'.info? (if t = old then new else t) = g.info? t := by
  rw [info?, hr.tensor?_later hy, info?, hy]
  rfl

theorem producer?_eq (hr : Renamed g old new x g') (t : TensorId) :
    g'.producer? t = if t = new then g.producer? old else if t = old then none else g.producer? t := by
  rw [producer?, hr.tensor?_eq, producer?, hr.found, producer?]
  split
  · rfl
  · split <;> rfl

theorem consumers_eq (hr : Renamed g old new x g') (t : TensorId) :
    g'.consumers t = if t = new then g.consumers old else if t = old then [] else g.consumers t := by
  rw [consumers, hr.tensor?_eq, consumers, hr.found, consumers]
  split
  · rfl
  · split <;> rfl

end Renamed

/-- Who names a tensor once `new` stands for `old`: who named `old` names `new`, and nobody names `old`. -/
theorem exists_mem_substitute {old new : TensorId} {names : Op → List TensorId}
    (hnew : ∀ {op}, g.op? o = some op → new ∉ names op) :
    (∃ op, g.op? o = some op ∧ t ∈ substitute old new (names op)) ↔
      if t = new then ∃ op, g.op? o = some op ∧ old ∈ names op
      else t ≠ old ∧ ∃ op, g.op? o = some op ∧ t ∈ names op := by
  by_cases htn : t = new
  · rw [if_pos htn, htn]
    exact exists_congr fun op => and_congr_right fun ho => mem_substitute_new (hnew ho)
  · rw [if_neg htn]
    by_cases hto : t = old
    · refine ⟨fun ⟨op, _, ht⟩ => ?_, fun ⟨hne, _⟩ => absurd hto hne⟩
      rcases mem_substitute.1 ht with ⟨-, hne⟩ | ⟨heq, -⟩
      · exact absurd hto hne
      · exact absurd heq htn
    · simp [mem_substitute_other hto htn, hto]

theorem substitute_substitute {old new : TensorId} (hne : old ≠ new) (l : List TensorId) :
    substitute old new (substitute old new l) = substitute old new l := by
  refine substitute_of_not_mem fun h => ?_
  rcases mem_substitute.1 h with ⟨-, h⟩ | ⟨h, -⟩
  · exact h rfl
  · exact hne h

theorem renameTensor_ok {old new : TensorId} (hl : g.Linked) (h : g.renameTensor old new = .ok g') :
    ∃ x, Renamed g old new x g' := by
  unfold renameTensor at h
  split at h
  · cases h
  · rename_i hnew
    rw [Bool.not_eq_true, hasTensor_eq_false_iff] at hnew
    split at h
    · cases h
    · rename_i x hx
      have hne : old ≠ new := by
        rintro rfl
        rw [hx] at hnew
        cases hnew
      simp only [Except.ok.injEq] at h
      subst h
      refine ⟨x, hx, hnew, fun o => ?_, fun t => ?_, rfl, rfl, rfl, ?_, ?_⟩
      · have hread := Dict.get?_foldl_modify (f := fun op : Op => { op with inputs := substitute old new op.inputs })
          (fun op => by rw [substitute_substitute hne]) o x.consumers.toList
        simp only [foldl_modifyOp, op?, hread]
        cases hop : g.op? o with
        | none => cases x.producer <;> simp_all [op?, modifyOp, Dict.get?_modify]
        | some op =>
          have hin : o ∈ x.consumers.toList ↔ old ∈ op.inputs := hl.mem_inputs hop hx
          have hout : x.producer = some o ↔ old ∈ op.outputs := hl.mem_outputs hop hx
          have hrest : ∀ ops : Dict OpId Op, ops.get? o = some { op with
                outputs := substitute old new op.outputs
                name := if old ∈ op.outputs ∧ op.name = old then new else op.name } →
              (if o ∈ x.consumers.toList
                then (ops.get? o).map fun op => { op with inputs := substitute old new op.inputs }
                else ops.get? o) = (g.op? o).map (rename old new) := by
            intro ops hops
            rw [hops, hop]
            by_cases hc : old ∈ op.inputs
            · simp [hin, hc, rename]
            · simp [hin, hc, rename, substitute_of_not_mem hc]
          cases hp : x.producer with
          | none =>
            have hold : old ∉ op.outputs := fun h => by simp [hout.2 h] at hp
            exact hrest g.ops (hop.trans (by simp [hold, substitute_of_not_mem hold]))
          | some p =>
            refine hrest (g.modifyOp p _).ops ((op?_modifyOp (g := g) p _).trans ?_)
            by_cases hpo : p = o
            · simp [hop, hpo, hout.1 (hpo ▸ hp)]
            · have hold : old ∉ op.outputs := fun h => hpo (Option.some.inj (hp.symm.trans (hout.2 h)))
              simp [hop, hpo, hold, substitute_of_not_mem hold]
      · simp only [tensor?, Dict.get?_insert, Dict.get?_erase, eq_comm (a := new), eq_comm (a := old)]
      · rw [foldl_modifyOp]
        cases x.producer <;> rfl
      · rw [foldl_modifyOp]
        cases x.producer <;> rfl

theorem makeConst_ok {id : TensorId} {value : HostTensor} (h : g.makeConst id value = .ok g') :
    ∃ x, g.tensor? id = some x ∧ x.producer = none ∧ x.info = value.info ∧
      g' = g.modifyTensor id fun t => { t with type := .const, data := some value } := by
  unfold makeConst at h
  split at h
  · cases h
  · rename_i x hx
    split at h
    · cases h
    · rename_i hp
      split at h
      · cases h
      · rename_i hinfo
        cases h
        rw [Bool.not_eq_true, Option.isSome_eq_false_iff, Option.isNone_iff_eq_none] at hp
        exact ⟨x, hx, hp, not_not.1 hinfo, rfl⟩

/-! ## Fresh names -/

theorem tempId_snd (base : String) : ∃ n, (g.tempId base).2 = { g with nextTemp := n } := ⟨_, rfl⟩

/-- A fresh name starts with a letter that no other name of a gradient starts with. -/
theorem tempId_head (base : String) : (g.tempId base).1.toList.head? = some 't' := by
  have hcandidate : ∀ n : Nat, s!"t{n}__{base}".toList.head? = some 't' := by
    intro n
    simp [toString]
  have hmem : ∀ c ∈ (List.range (g.tensors.size + 1)).map fun i => (g.nextTemp + i, s!"t{g.nextTemp + i}__{base}"),
      c.2.toList.head? = some 't' := by
    intro c hc
    obtain ⟨i, -, rfl⟩ := List.mem_map.1 hc
    exact hcandidate _
  simp only [tempId, tempName]
  cases hfound : ((List.range (g.tensors.size + 1)).map fun i =>
      (g.nextTemp + i, s!"t{g.nextTemp + i}__{base}")).find? fun c => !g.hasTensor c.2 with
  | none => exact hcandidate _
  | some c => exact hmem c (List.mem_of_find?_eq_some hfound)

theorem repr_injective {m n : Nat} (h : m.repr = n.repr) : m = n := by
  have hdigits : Nat.toDigits 10 m = Nat.toDigits 10 n := by rw [← Nat.toList_repr, ← Nat.toList_repr, h]
  rw [← Nat.ofDigitChars_toDigits (b := 10) (n := m) (by decide) (by decide), hdigits,
    Nat.ofDigitChars_toDigits (by decide) (by decide)]

/-- A fresh name is the name of no tensor. Among the names that are tried there are more than tensors, and no two of
them are the same. -/
theorem tempId_fresh (base : String) : g.tensor? (g.tempId base).1 = none := by
  let candidate := fun i => (g.nextTemp + i, s!"t{g.nextTemp + i}__{base}")
  have hinj : Function.Injective fun i => (candidate i).2 := by
    intro i j h
    simp only [candidate, toString, String.append_left_inj, String.append_right_inj] at h
    have := repr_injective h
    omega
  have hfound : ((List.range (g.tensors.size + 1)).map candidate |>.find? fun c => !g.hasTensor c.2).isSome := by
    obtain ⟨i, hi, hfree⟩ := g.tensors.exists_free hinj
    have hfree : g.hasTensor (candidate i).2 = false := hfree
    exact List.find?_isSome.2 ⟨_, List.mem_map_of_mem hi, by rw [hfree, Bool.not_false]⟩
  obtain ⟨c, hc⟩ := Option.isSome_iff_exists.1 hfound
  have hfree := List.find?_some hc
  have hname : (g.tempId base).1 = c.2 := by
    simp only [tempId, tempName]
    rw [hc]
    rfl
  rw [hname, ← hasTensor_eq_false_iff]
  simpa using hfree

end Graph

end TensorGraph
