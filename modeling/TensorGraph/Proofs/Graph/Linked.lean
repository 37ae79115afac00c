import TensorGraph.Proofs.Graph.Effect

/-!
Every change of a graph keeps its tables in step. Replacing all uses of a tensor never stops half-way on a graph
whose tables agree, so it is described as one change as well.
-/
namespace TensorGraph

namespace Graph

variable {g g' : Graph} {o : OpId} {t : TensorId}

namespace Linked

/-- A change of tensors that leaves their names, producers and consumers. -/
theorem of_uses (h : g.Linked) (hop : ∀ o, g'.op? o = g.op? o) (hid : ∀ {t x}, g'.tensor? t = some x → x.id = t)
    (huses : ∀ t, g'.producer? t = g.producer? t ∧ g'.consumers t = g.consumers t) : g'.Linked := by
  refine ⟨fun ho => h.opId (hop _ ▸ ho), hid, fun {o t} => ?_, fun {o t} => ?_⟩
  · rw [(huses t).2, hop]
    exact h.reads
  · rw [(huses t).1, hop]
    exact h.makes

/-- The tables of a graph are read off its look-ups alone. -/
theorem of_lookups (h : g.Linked) (hop : ∀ o, g'.op? o = g.op? o) (ht : ∀ t, g'.tensor? t = g.tensor? t) :
    g'.Linked :=
  h.of_uses hop (fun {t x} hx => h.tensorId (ht t ▸ hx))
    fun t => ⟨by rw [producer?, ht, producer?], by rw [consumers, ht, consumers]⟩

theorem empty : Graph.empty.Linked := by
  have hop : ∀ o, Graph.empty.op? o = none := fun _ => rfl
  have ht : ∀ t, Graph.empty.tensor? t = none := fun _ => rfl
  refine ⟨nofun, nofun, fun {o t} => ?_, fun {o t} => ?_⟩
  · simp [mem_consumers, hop, ht]
  · simp [producer?_eq_some, hop, ht]

/-- A change of a tensor that leaves its producer and its consumers. -/
theorem modifyTensor (h : g.Linked) (id : TensorId) {f : Tensor → Tensor} (hid : ∀ x, (f x).id = x.id)
    (hp : ∀ x, (f x).producer = x.producer) (hc : ∀ x, (f x).consumers = x.consumers) :
    (g.modifyTensor id f).Linked := by
  refine h.of_uses (fun o => op?_modifyTensor id f) (fun {t x'} hx' => ?_) fun t => ?_
  · rw [tensor?_modifyTensor] at hx'
    split at hx'
    · obtain ⟨x, hx, rfl⟩ := Option.map_eq_some_iff.1 hx'
      exact (hid x).trans (h.tensorId hx)
    · exact h.tensorId hx'
  · rw [producer?, consumers, tensor?_modifyTensor, producer?, consumers]
    split
    · cases g.tensor? t with
      | none => exact ⟨rfl, rfl⟩
      | some x => simp [hp, hc]
    · exact ⟨rfl, rfl⟩

/-- A change of an op that leaves its operands and results. -/
theorem modifyOp (h : g.Linked) (id : OpId) {f : Op → Op} (hid : ∀ op, (f op).id = op.id)
    (hin : ∀ op, (f op).inputs = op.inputs) (hout : ∀ op, (f op).outputs = op.outputs) :
    (g.modifyOp id f).Linked := by
  have hlook : ∀ {o} {P : Op → Prop}, (∀ op, P (f op) ↔ P op) →
      ((∃ op, (g.modifyOp id f).op? o = some op ∧ P op) ↔ ∃ op, g.op? o = some op ∧ P op) := by
    intro o P hP
    rw [op?_modifyOp]
    cases g.op? o with
    | none => simp
    | some op => by_cases ho : id = o <;> simp [ho, hP]
  refine ⟨fun {o op} ho => ?_, h.tensorId, fun {o t} => ?_, fun {o t} => ?_⟩
  · rw [op?_modifyOp] at ho
    split at ho
    · obtain ⟨op', ho', rfl⟩ := Option.map_eq_some_iff.1 ho
      exact (hid op').trans (h.opId ho')
    · exact h.opId ho
  · exact h.reads.trans (hlook fun op => by rw [hin]).symm
  · exact h.makes.trans (hlook fun op => by rw [hout]).symm

theorem addTensor (h : g.Linked) {id : TensorId} {info : TensorInfo} {type : TensorType} {data : Option HostTensor}
    (hadd : g.addTensor id info type data = .ok g') : g'.Linked := by
  have hop : ∀ o, g'.op? o = g.op? o := by
    obtain ⟨-, rfl⟩ := addTensor_ok hadd
    exact fun _ => rfl
  refine h.of_uses hop (fun {t x} hx => ?_) (addTensor_uses hadd)
  rw [tensor?_addTensor hadd] at hx
  split at hx
  · rename_i hid
    cases hx
    exact hid
  · exact h.tensorId hx

theorem mem_consumers_iff (h : g.Linked) {x : Tensor} (hx : g.tensor? t = some x) :
    o ∈ x.consumers ↔ ∃ op, g.op? o = some op ∧ t ∈ op.inputs := by
  rw [← h.reads, mem_consumers]
  simp [hx]

theorem producer_iff (h : g.Linked) {x : Tensor} (hx : g.tensor? t = some x) :
    x.producer = some o ↔ ∃ op, g.op? o = some op ∧ t ∈ op.outputs := by
  rw [← h.makes, producer?_eq_some]
  simp [hx]

/-- Adding an op under a number that no op has yet. -/
theorem addOp (h : g.Linked) (hnew : g.op? g.nextOp = none) {kind : OpKind} {inputs : List TensorId}
    {output : TensorId} {phase : Phase} {info : TensorInfo} (ha : AddedOp g kind inputs output phase info g') :
    g'.Linked := by
  refine ⟨fun {o op} ho => ?_, fun {t x'} hx' => ?_, fun {o t} => ?_, ha.makes hnew h.makes⟩
  · rw [ha.op?_eq] at ho
    split at ho
    · rename_i heq
      cases ho
      exact heq.symm
    · exact h.opId ho
  · obtain ⟨x, hx, rfl⟩ | ⟨-, rfl, -, rfl⟩ := ha.lookup hx'
    · have hid := h.tensorId hx
      exact hid
    · rfl
  · rw [ha.mem_consumers, ha.op?_eq, h.reads]
    by_cases ho : o = g.nextOp
    · simp [ho, hnew]
    · simp [ho]

/-- Removing an op. Its results may go with it only if no other op consumes them. -/
theorem dropOp (h : g.Linked) {id : OpId} {op : Op} {erased : Bool} (hd : DroppedOp g id op erased g')
    (hfree : erased = true → ∀ t ∈ op.outputs, ∀ o ∈ g.consumers t, o = op.id) : g'.Linked := by
  have hid : op.id = id := h.opId hd.found
  refine ⟨fun ho => h.opId (hd.op?_eq_some.1 ho).2, fun {t x'} hx' => ?_, fun {o t} => ?_, hd.makes h.makes⟩
  · obtain ⟨x, hx, rfl⟩ := hd.lookup hx'
    have hid := h.tensorId hx
    exact hid
  · simp only [hd.mem_consumers, hd.op?_eq_some, h.reads, hid]
    constructor
    · rintro ⟨-, ⟨op', ho, ht⟩, hself⟩
      refine ⟨op', ⟨?_, ho⟩, ht⟩
      rintro rfl
      cases ho.symm.trans hd.found
      exact hself ⟨rfl, ht⟩
    · rintro ⟨op', ⟨hne, ho⟩, ht⟩
      refine ⟨fun ⟨he, hout⟩ => hne ?_, ⟨op', ho, ht⟩, fun hself => hne hself.1⟩
      exact (hfree he t hout o (h.reads.2 ⟨op', ho, ht⟩)).trans hid

theorem removeTensor (h : g.Linked) {id : TensorId} {x : Tensor} (hr : g.removeTensor id = .ok (x, g')) :
    g'.Linked := by
  have hop : ∀ o, g'.op? o = g.op? o := by
    obtain ⟨-, -, -, rfl⟩ := removeTensor_ok hr
    exact fun _ => rfl
  refine h.of_uses hop (fun {t y} hy => ?_) (removeTensor_uses hr)
  rw [tensor?_removeTensor hr] at hy
  split at hy
  · cases hy
  · exact h.tensorId hy

/-- Rewiring one op that reads `old`, to a tensor that is there. -/
theorem replaceInput (h : g.Linked) {op : Op} {old new : TensorId} (ho : g.op? o = some op)
    (hold : old ∈ op.inputs) (hnew : ∃ x, g.tensor? new = some x) :
    ∃ g', g.replaceInput o old new = .ok g' ∧ Rewired g [o] old new g' ∧ g'.Linked := by
  obtain ⟨g', hrun, hr, hconsumers⟩ := replaceInput_ok ho old new
  have hop : ∀ p, g'.op? p = if p = o then some (rewire old new op) else g.op? p := by
    intro p
    rw [hr.op?_eq]
    by_cases hp : p = o
    · simp [hp, ho]
    · simp [hp]
  refine ⟨g', hrun, hr, fun {p op'} hop' => ?_, fun {t x'} hx' => ?_, fun {p t} => ?_, fun {p t} => ?_⟩
  · rw [hop] at hop'
    split at hop'
    · rename_i heq
      cases hop'
      have hid := h.opId ho
      exact hid.trans heq.symm
    · exact h.opId hop'
  · obtain ⟨x, hx, hsame⟩ := lookup_of_bare (hr.bare_eq t).symm hx'
    exact hsame.id.symm.trans (h.tensorId hx)
  · rw [hconsumers, hop]
    by_cases hp : p = o
    · have hread : p ∈ g.consumers t ↔ t ∈ op.inputs := by rw [h.reads, hp, ho]; simp
      rw [if_pos hp, hread]
      simp only [Option.some.injEq, exists_eq_left', rewire, mem_substitute, hp, true_and, hold, and_true]
      refine or_congr_right (and_iff_left_of_imp ?_)
      rintro rfl
      exact hnew
    · simp [hp, h.reads]
  · rw [producer?_congr (hr.bare_eq t), h.makes, hop]
    by_cases hp : p = o
    · simp [hp, ho, rewire]
    · simp [hp]

/-- Giving a tensor another name. -/
theorem rename (h : g.Linked) {old new : TensorId} {x : Tensor} (hr : Renamed g old new x g') : g'.Linked := by
  have hop : ∀ {o op'}, g'.op? o = some op' ↔ ∃ op, g.op? o = some op ∧ Graph.rename old new op = op' := by
    intro o op'
    rw [hr.op?_eq, Option.map_eq_some_iff]
  refine ⟨fun {o op'} ho' => ?_, fun {t y} hy => ?_, fun {o t} => ?_, fun {o t} => ?_⟩
  · obtain ⟨op, ho, rfl⟩ := hop.1 ho'
    have hid := h.opId ho
    exact hid
  · rw [hr.tensor?_eq] at hy
    split at hy
    · rename_i htn
      cases hy
      exact htn.symm
    · split at hy
      · cases hy
      · exact h.tensorId hy
  · have hread : (∃ op', g'.op? o = some op' ∧ t ∈ op'.inputs) ↔
        ∃ op, g.op? o = some op ∧ t ∈ substitute old new op.inputs := by
      rw [hr.op?_eq]
      cases g.op? o <;> simp [Graph.rename]
    rw [hread, exists_mem_substitute fun ho ht => h.not_mentioned hr.free ho (.inl ht), hr.consumers_eq]
    split
    · exact h.reads
    · split
      · simp_all
      · simp_all [h.reads]
  · have hmade : (∃ op', g'.op? o = some op' ∧ t ∈ op'.outputs) ↔
        ∃ op, g.op? o = some op ∧ t ∈ substitute old new op.outputs := by
      rw [hr.op?_eq]
      cases g.op? o <;> simp [Graph.rename]
    rw [hmade, exists_mem_substitute fun ho ht => h.not_mentioned hr.free ho (.inr ht), hr.producer?_eq]
    split
    · exact h.makes
    · split
      · simp_all
      · simp_all [h.makes]

end Linked

/-! ## Replacing all uses -/

/-- Rewiring op after op: every op of the list reads `old`, so every step succeeds. -/
theorem rewireAll (old new : TensorId) : ∀ (l : List OpId) (g : Graph), g.Linked →
    (∃ x, g.tensor? new = some x) → l.Nodup → (∀ o ∈ l, ∃ op, g.op? o = some op ∧ old ∈ op.inputs) →
    ∃ g', (l.forM fun op => Stateful.change fun g => do return ((), ← g.replaceInput op old new)).run g =
      (.ok (), g') ∧ Rewired g l old new g' ∧ g'.Linked
  | [], g, hl, _, _, _ => by
    refine ⟨g, rfl, ⟨fun o => ?_, fun _ => rfl, rfl⟩, hl⟩
    cases g.op? o <;> simp
  | a :: l, g, hl, hnew, hnodup, hread => by
    obtain ⟨op, ho, hold⟩ := hread a (by simp)
    obtain ⟨g₁, hrun, hr, hl₁⟩ := hl.replaceInput ho hold hnew
    rw [List.nodup_cons] at hnodup
    have hnew₁ : ∃ x, g₁.tensor? new = some x := by
      obtain ⟨x, hx⟩ := hnew
      obtain ⟨x₁, hx₁, -⟩ := lookup_of_bare (hr.bare_eq new) hx
      exact ⟨x₁, hx₁⟩
    obtain ⟨g', hrun', hr', hl'⟩ := rewireAll old new l g₁ hl₁ hnew₁ hnodup.2 (by
      intro o hol
      obtain ⟨op', ho', hold'⟩ := hread o (List.mem_cons_of_mem _ hol)
      have hne : o ≠ a := fun e => hnodup.1 (e ▸ hol)
      exact ⟨op', by rw [hr.op?_eq, ho']; simp [hne], hold'⟩)
    refine ⟨g', ?_, ⟨fun o => ?_, fun t => (hr'.bare_eq t).trans (hr.bare_eq t), ?_⟩, hl'⟩
    · rw [Stateful.forM_cons, Stateful.run_bind_ok]
      refine ⟨(), g₁, ?_, hrun'⟩
      rw [Stateful.run_change_ok, hrun]
      rfl
    · rw [hr'.op?_eq, hr.op?_eq]
      cases g.op? o with
      | none => rfl
      | some op' =>
        by_cases hoa : o = a
        · subst hoa
          simp [hnodup.1]
        · simp [hoa]
    · rw [hr'.frame, hr.frame]

/-- What is known of a graph `g'` that came from `g` by letting every op read `new` for `old`. -/
structure Bypassed (g : Graph) (old new : TensorId) (g' : Graph) : Prop where
  linked : g'.Linked
  op?_eq : ∀ o, g'.op? o = (g.op? o).map (rewire old new)
  bare_eq : ∀ t, (g'.tensor? t).map bare = (g.tensor? t).map bare
  frame : g' = { g with ops := g'.ops, tensors := g'.tensors }

namespace Bypassed

variable {old new : TensorId}

theorem op_of (hb : Bypassed g old new g') {op' : Op} (ho' : g'.op? o = some op') :
    ∃ op, g.op? o = some op ∧ rewire old new op = op' := by
  rw [hb.op?_eq] at ho'
  exact Option.map_eq_some_iff.1 ho'

/-- A tensor that is there was there before. -/
theorem lookup (hb : Bypassed g old new g') {x' : Tensor} (hx' : g'.tensor? t = some x') :
    ∃ x, g.tensor? t = some x ∧ Alike x x' := lookup_of_bare (hb.bare_eq t).symm hx'

theorem info?_eq (hb : Bypassed g old new g') (t : TensorId) : g'.info? t = g.info? t := info?_congr (hb.bare_eq t)

theorem producer?_eq (hb : Bypassed g old new g') (t : TensorId) : g'.producer? t = g.producer? t :=
  producer?_congr (hb.bare_eq t)

end Bypassed

/-- What is known of a graph `g'` that came from `g` by putting the constant `y` in the place of an op, whose only
result had the info of the constant. -/
structure Folded (g : Graph) (op : Op) (output : TensorId) (y : HostTensor) (g' : Graph) : Prop where
  linked : g'.Linked
  found : g.op? op.id = some op
  op?_eq : ∀ o, g'.op? o = if o = op.id then none else g.op? o
  bare_eq : ∀ t, t ≠ output → (g'.tensor? t).map bare = (g.tensor? t).map bare
  place : ∃ x, g.tensor? output = some x ∧ x.info = y.info
  constant : ∃ x', g'.tensor? output = some x' ∧ x'.info = y.info ∧ x'.type = .const ∧ x'.data = some y ∧
    x'.producer = none
  frame : g' = { g with ops := g'.ops, tensors := g'.tensors }

namespace Folded

variable {op op' : Op} {output : TensorId} {y : HostTensor}

theorem op?_eq_some (hf : Folded g op output y g') : g'.op? o = some op' ↔ o ≠ op.id ∧ g.op? o = some op' := by
  rw [hf.op?_eq]
  by_cases ho : o = op.id <;> simp [ho]

theorem info?_eq (hf : Folded g op output y g') (t : TensorId) : g'.info? t = g.info? t := by
  by_cases ht : t = output
  · subst ht
    obtain ⟨x, hx, hinfo⟩ := hf.place
    obtain ⟨x', hx', hinfo', -⟩ := hf.constant
    rw [info?_eq_some.2 ⟨x', hx', rfl⟩, info?_eq_some.2 ⟨x, hx, rfl⟩, hinfo, hinfo']
  · exact info?_congr (hf.bare_eq t ht)

theorem hasTensor_eq (hf : Folded g op output y g') (t : TensorId) : g'.hasTensor t = g.hasTensor t := by
  by_cases ht : t = output
  · subst ht
    obtain ⟨x, hx, -⟩ := hf.place
    obtain ⟨x', hx', -⟩ := hf.constant
    rw [hasTensor_iff.2 ⟨x, hx⟩, hasTensor_iff.2 ⟨x', hx'⟩]
  · exact hasTensor_congr (hf.bare_eq t ht)

/-- A tensor is the constant, or it was there before. -/
theorem lookup (hf : Folded g op output y g') {x' : Tensor} (hx' : g'.tensor? t = some x') :
    t = output ∧ x'.type = .const ∧ x'.producer = none ∨ t ≠ output ∧ ∃ x, g.tensor? t = some x ∧ Alike x x' := by
  by_cases ht : t = output
  · subst ht
    obtain ⟨x'', hx'', -, htype, -, hnone⟩ := hf.constant
    cases hx'.symm.trans hx''
    exact .inl ⟨rfl, htype, hnone⟩
  · exact .inr ⟨ht, lookup_of_bare (hf.bare_eq t ht).symm hx'⟩

/-- Nothing produces the constant. -/
theorem producer?_eq_some (hf : Folded g op output y g') (hp : g'.producer? t = some o) :
    t ≠ output ∧ g.producer? t = some o := by
  obtain ⟨x', hx', hxp⟩ := Graph.producer?_eq_some.1 hp
  rcases hf.lookup hx' with ⟨-, -, hnone⟩ | ⟨hne, x, hx, halike⟩
  · rw [hnone] at hxp
    cases hxp
  · exact ⟨hne, Graph.producer?_eq_some.2 ⟨x, hx, halike.producer.trans hxp⟩⟩

end Folded

/-- An op is taken out, and its only result becomes a constant. -/
theorem Linked.folded (h : g.Linked) {op : Op} {output : TensorId} {y : HostTensor} {g₁ : Graph}
    (hd : DroppedOp g op.id op false g₁) (hout : op.outputs = [output]) (hm : g₁.makeConst output y = .ok g') :
    Folded g op output y g' := by
  have hl := h.dropOp hd nofun
  obtain ⟨x₁, hx₁, -, hinfo, rfl⟩ := makeConst_ok hm
  obtain ⟨x, hx, heq⟩ := hd.lookup hx₁
  refine ⟨hl.modifyTensor output (fun _ => rfl) (fun _ => rfl) (fun _ => rfl), hd.found, hd.op?_eq, fun t ht => ?_,
    ⟨x, hx, ?_⟩, ?_, by rw [Graph.modifyTensor, hd.frame]⟩
  · have hnot : t ∉ op.outputs := by simp [hout, ht]
    rw [tensor?_modifyTensor, if_neg (Ne.symm ht)]
    exact hd.bare_eq hnot
  · rw [← hinfo, heq]
  · rw [tensor?_modifyTensor, if_pos rfl, hx₁]
    exact ⟨_, rfl, hinfo, rfl, rfl, by simp [heq, hout]⟩

/-- What the ops read does not change, in a respect in which `new` is as `old`. -/
theorem mapM_substitute {β : Type} {f : TensorId → Option β} {old new : TensorId} (h : f new = f old) (l : List TensorId) :
    (substitute old new l).mapM f = l.mapM f := by
  rw [substitute, List.mapM_map]
  refine mapM_congr_of_mem fun i _ => ?_
  by_cases hi : i = old
  · simp [hi, h]
  · simp [hi]

/-- On a graph whose tables agree, replacing all uses of a tensor by one that is there succeeds, and then every op
reads `new` where it read `old`. -/
theorem Linked.replaceAllUses (h : g.Linked) (old : TensorId) {new : TensorId} (hnew : ∃ x, g.tensor? new = some x) :
    ∃ g', (Graph.replaceAllUses old new).run g = (.ok (), g') ∧ Bypassed g old new g' := by
  have hnodup : (g.consumers old).Nodup := by
    unfold consumers
    cases g.tensor? old with
    | none => simp
    | some x => exact x.consumers.nodup_toList
  obtain ⟨g', hrun, hr, hl⟩ := rewireAll old new (g.consumers old) g h hnew hnodup
    fun o ho => h.reads.1 ho
  refine ⟨g', ?_, hl, fun o => ?_, hr.bare_eq, hr.frame⟩
  · unfold Graph.replaceAllUses
    rw [Stateful.run_bind_ok]
    refine ⟨g, g, rfl, ?_⟩
    rw [if_pos (hasTensor_iff.2 hnew)]
    exact hrun
  · rw [hr.op?_eq]
    cases ho : g.op? o with
    | none => rfl
    | some op =>
      by_cases hold : old ∈ op.inputs
      · have hmem : o ∈ g.consumers old := h.reads.2 ⟨op, ho, hold⟩
        simp [hmem]
      · simp [rewire_of_not_mem hold]

/-- Replacing all uses by a tensor that is not there changes nothing. -/
theorem replaceAllUses_none {old new : TensorId} (hnew : g.tensor? new = none) :
    (Graph.replaceAllUses old new).run g = (.error (.error (.graph (.noTensor new))), g) := by
  unfold Graph.replaceAllUses
  rw [Stateful.run_bind]
  simp [hasTensor_eq_false_iff.2 hnew]

end Graph

end TensorGraph
