import TensorGraph.Proofs.Gradient.Trace
import TensorGraph.Proofs.Kernel.Scaling

/-!
The scaling of losses cancels. Every gradient is proportional to it, and the update of a weight divides by it again.
Tensors have degrees in the scaling that go along with every step of a synthesis, and values follow degrees.
-/
namespace TensorGraph

open TensorGraph.Graph

/-! ## Names -/

theorem Sgd.head_ids {t : TensorId} (h : t ∈ Sgd.ids) : t.toList.head? = some 'l' ∨ t.toList.head? = some 'w' := by
  simp only [ids, List.mem_cons, List.not_mem_nil, or_false] at h
  rcases h with rfl | rfl | rfl
  · exact .inl rfl
  · exact .inr rfl
  · exact .inl rfl

theorem gradId_not_mem (t : TensorId) : gradId t ∉ Sgd.ids := fun hmem => by
  have hhead := Sgd.head_ids hmem
  rw [head_gradId] at hhead
  simp at hhead

theorem updatedId_not_mem (t : TensorId) : updatedId t ∉ Sgd.ids := fun hmem => by
  have hhead := Sgd.head_ids hmem
  rw [head_updatedId] at hhead
  simp at hhead

/-! ## Tensors that are in place -/

namespace Graph

variable {G g g' : Graph} {t output : TensorId} {kind : OpKind} {inputs : List TensorId} {info : TensorInfo}

/-- No op that is added produces the tensor. -/
def Placed (g : Graph) (t : TensorId) : Prop := g.isFree t = false ∨ t ∈ Sgd.ids

theorem placed_of_producer {o : OpId} (h : g.producer? t = some o) : g.Placed t := by
  obtain ⟨x, hx, hxp⟩ := producer?_eq_some.1 h
  exact .inl (isFree_eq_false_iff.2 ⟨x, hx, .inr (by rw [hxp]; exact nofun)⟩)

theorem Grows.placed (h : Grows G g) (ht : G.Placed t) : g.Placed t := by
  refine ht.imp_left fun hfree => ?_
  obtain ⟨x, hx, hcase⟩ := isFree_eq_false_iff.1 hfree
  obtain ⟨x', hx', htype, hkeep, -⟩ := h.tensors hx
  refine isFree_eq_false_iff.2 ⟨x', hx', ?_⟩
  rw [htype, (hkeep hcase).2]
  exact hcase

theorem Added.placed (ha : Added g kind inputs output info g') (hout : output ∉ Sgd.ids) (ht : g.Placed t) :
    t ≠ output ∧ g'.Placed t := by
  have hne : t ≠ output := by
    rintro rfl
    rcases ht with hfree | hid
    · rw [ha.free] at hfree
      cases hfree
    · exact hout hid
  refine ⟨hne, ht.imp_left fun hfree => ?_⟩
  obtain ⟨x, hx, hcase⟩ := isFree_eq_false_iff.1 hfree
  obtain ⟨x', hx', htype, -, hproducer⟩ := ha.lookup hne hx
  refine isFree_eq_false_iff.2 ⟨x', hx', ?_⟩
  rw [htype, hproducer]
  exact hcase

/-- Before gradients are added, nothing depends on the scaling of losses: it is given, no op reads it, and what ops read
is in place. -/
structure Unscaled (G : Graph) : Prop where
  scaling : ∃ x, G.tensor? Sgd.lossScalingId = some x ∧ x.type ≠ .actGrad ∧ x.type ≠ .weight
  unread : ∀ o op, G.op? o = some op → Sgd.lossScalingId ∉ op.inputs
  reads : ∀ o op, G.op? o = some op → ∀ i ∈ op.inputs, G.isFree i = false

end Graph

/-! ## Degrees of a whole graph -/

namespace Synthesis

variable {R : TensorInfo → TensorInfo → Prop} {G : Graph} {D : TensorId → Bool} {s s' : Synthesis} {losses : List Loss}
  {t : TensorId} {kind : OpKind} {inputs : List TensorId} {output : TensorId} {info : TensorInfo} {d : Bool}

/-- Degrees that go with all ops of the graph. What was there at the start is of degree zero, apart from the scaling of
losses, and gradients are of degree one. -/
structure Marked (G : Graph) (D : TensorId → Bool) (s : Synthesis) : Prop where
  start : ∀ {t}, G.Placed t → D t = decide (t = Sgd.lossScalingId)
  ops : ∀ {o op}, s.graph.op? o = some op → ∃ d, op.kind.Graded (op.inputs.map D) d ∧ ∀ t ∈ op.outputs, D t = d
  reads : ∀ {o op}, s.graph.op? o = some op → ∀ i ∈ op.inputs, s.graph.Placed i
  waits : ∀ {t p}, (t, p) ∈ s.waiting → D p = true
  made : ∀ {t o}, G.producer? (gradId t) = none → s.graph.producer? (gradId t) = some o → D (gradId t) = true

namespace Marked

theorem of_start (hG : G.WellFormed) (h : G.Unscaled) :
    Marked G (fun t => decide (t = Sgd.lossScalingId)) { graph := G } := by
  refine ⟨fun _ => rfl, fun {o op} ho => ⟨false, .fixed fun d hd => ?_, fun t ht => ?_⟩, fun ho i hi =>
    .inl (h.reads _ _ ho i hi), nofun, fun hnone hsome => ?_⟩
  · obtain ⟨i, hi, rfl⟩ := List.mem_map.1 hd
    exact decide_eq_false fun heq => h.unread o op ho (heq ▸ hi)
  · refine decide_eq_false ?_
    rintro rfl
    obtain ⟨x, hx, hne, -⟩ := h.scaling
    obtain ⟨y, hy, hyp⟩ := producer?_eq_some.1 (hG.linked.makes.2 ⟨op, ho, ht⟩)
    cases hx.symm.trans hy
    exact hne (hG.produced hx hyp)
  · rw [hnone] at hsome
    cases hsome

/-- An op is added whose degree follows from those of its operands. -/
theorem added (h : Marked G D s) (hs : Grown R G s) (ha : Added s.graph kind inputs output info s'.graph)
    (hd : kind.Graded (inputs.map D) d) (hin : ∀ i ∈ inputs, s.graph.Placed i) (hout : output ∉ Sgd.ids)
    (hname : ∀ t, output = gradId t → d = true) (hw : ∀ e ∈ s'.waiting, e ∈ s.waiting) :
    Marked G (Function.update D output d) s' := by
  have hsame : ∀ {t}, s.graph.Placed t → Function.update D output d t = D t := fun ht =>
    Function.update_of_ne (ha.placed hout ht).1 _ _
  have hmap : ∀ {l : List TensorId}, (∀ i ∈ l, s.graph.Placed i) → l.map (Function.update D output d) = l.map D :=
    fun hl => List.map_congr_left fun i hi => hsame (hl i hi)
  obtain ⟨op, hop, hkind, hinputs, houtputs⟩ := ha.found
  have hcases : ∀ {o op'}, s'.graph.op? o = some op' → op' = op ∨ s.graph.op? o = some op' := by
    intro o op' ho
    by_cases heq : o = s.graph.nextOp
    · subst heq
      exact .inl (Option.some.inj (ho.symm.trans hop))
    · exact .inr (ha.others o heq ▸ ho)
  refine ⟨fun ht => (hsame (hs.grows.placed ht)).trans (h.start ht), fun {o op'} ho => ?_, fun {o op'} ho i hi => ?_,
    fun {t p} hp => ?_, fun {t o} hnone hsome => ?_⟩
  · rcases hcases ho with rfl | ho
    · refine ⟨d, by rw [hkind, hinputs, hmap hin]; exact hd, fun t ht => ?_⟩
      rw [houtputs, List.mem_singleton] at ht
      rw [ht, Function.update_self]
    · obtain ⟨d', hd', houts⟩ := h.ops ho
      refine ⟨d', by rw [hmap (h.reads ho)]; exact hd', fun t ht => ?_⟩
      rw [hsame (placed_of_producer (hs.grows.linked.makes.2 ⟨op', ho, ht⟩))]
      exact houts t ht
  · rcases hcases ho with rfl | ho
    · exact (ha.placed hout (hin i (hinputs ▸ hi))).2
    · exact (ha.placed hout (h.reads ho i hi)).2
  · obtain ⟨-, ⟨o, ho⟩, -⟩ := hs.waits (hw _ hp)
    rw [hsame (placed_of_producer ho)]
    exact h.waits (hw _ hp)
  · by_cases heq : gradId t = output
    · rw [heq, Function.update_self]
      exact hname t heq.symm
    · rw [Function.update_of_ne heq]
      have hbare : s'.graph.producer? (gradId t) = s.graph.producer? (gradId t) := producer?_congr (ha.bare_eq _ heq)
      exact h.made hnone (hbare ▸ hsome)

/-- A gradient gets its name. -/
theorem renamed {old : TensorId} {x : Tensor} (h : Marked G D s) (hs : Grown R G s)
    (hr : Renamed s.graph old (gradId t) x s'.graph) (hw : s.waiting.Perm ((t, old) :: s'.waiting)) :
    Marked G (Function.update D (gradId t) true) s' := by
  have hold : (t, old) ∈ s.waiting := hw.mem_iff.2 List.mem_cons_self
  -- what the graph has does not have the new name
  have hhas : ∀ {i}, (∃ y, s.graph.tensor? i = some y) → i ≠ gradId t := by
    rintro i ⟨y, hy⟩
    exact hr.ne_new hy
  have hplaced : ∀ {i}, s.graph.Placed i → i ≠ gradId t := by
    rintro i (hfree | hmem)
    · obtain ⟨y, hy, -⟩ := isFree_eq_false_iff.1 hfree
      exact hhas ⟨y, hy⟩
    · rintro rfl
      exact gradId_not_mem t hmem
  have hmark : ∀ {i}, (∃ y, s.graph.tensor? i = some y) →
      Function.update D (gradId t) true (if i = old then gradId t else i) = D i := by
    intro i hi
    split
    · rename_i heq
      rw [Function.update_self, heq, h.waits hold]
    · exact Function.update_of_ne (hhas hi) _ _
  have hmap : ∀ {l : List TensorId}, (∀ i ∈ l, ∃ y, s.graph.tensor? i = some y) →
      (substitute old (gradId t) l).map (Function.update D (gradId t) true) = l.map D := by
    intro l hl
    rw [substitute, List.map_map]
    exact List.map_congr_left fun i hi => hmark (hl i hi)
  refine ⟨fun {i} hi => ?_, fun {o op'} ho => ?_, fun {o op'} ho i hi => ?_, fun {t' p} hp => ?_, fun {t' o} hnone hsome => ?_⟩
  · rw [Function.update_of_ne (hplaced (hs.grows.placed hi))]
    exact h.start hi
  · rw [hr.op?_eq] at ho
    obtain ⟨op, hop, rfl⟩ := Option.map_eq_some_iff.1 ho
    obtain ⟨d, hd, houts⟩ := h.ops hop
    refine ⟨d, ?_, fun u hu => ?_⟩
    · change op.kind.Graded ((substitute old (gradId t) op.inputs).map _) d
      rw [hmap fun i hi => hs.grows.linked.hasTensor_of_input hop hi]
      exact hd
    · obtain ⟨i, hi, rfl⟩ := List.mem_map.1 hu
      obtain ⟨y, hy, -⟩ := hs.grows.linked.hasTensor_of_output hop hi
      rw [hmark ⟨y, hy⟩]
      exact houts i hi
  · rw [hr.op?_eq] at ho
    obtain ⟨op, hop, rfl⟩ := Option.map_eq_some_iff.1 ho
    rcases mem_substitute.1 hi with ⟨hi, hne⟩ | ⟨rfl, -⟩
    · refine (h.reads hop i hi).imp_left fun hfree => ?_
      obtain ⟨y, hy, hcase⟩ := isFree_eq_false_iff.1 hfree
      exact isFree_eq_false_iff.2 ⟨y, by rw [hr.tensor?_eq, if_neg (hhas ⟨y, hy⟩), if_neg hne, hy], hcase⟩
    · obtain ⟨-, ⟨o', ho'⟩, -⟩ := hs.waits hold
      obtain ⟨y, hy, hyp⟩ := producer?_eq_some.1 ho'
      cases hr.found.symm.trans hy
      have hnew := hr.tensor?_eq (gradId t)
      rw [if_pos rfl] at hnew
      exact placed_of_producer (producer?_eq_some.2 ⟨_, hnew, hyp⟩)
  · have hp' := hw.mem_iff.2 (List.mem_cons_of_mem _ hp)
    obtain ⟨-, ⟨o, ho⟩, -⟩ := hs.waits hp'
    rw [Function.update_of_ne (hplaced (placed_of_producer ho))]
    exact h.waits hp'
  · by_cases heq : gradId t' = gradId t
    · rw [heq, Function.update_self]
    · rw [Function.update_of_ne heq]
      obtain ⟨y, hy, hyp⟩ := producer?_eq_some.1 hsome
      rw [hr.tensor?_eq, if_neg heq] at hy
      split at hy
      · cases hy
      · exact h.made hnone (producer?_eq_some.2 ⟨y, hy, hyp⟩)

end Marked

/-! ## Degrees after every step -/

/-- The degrees of some tensors are those of the graph. -/
def Agrees (D : TensorId → Bool) (g : Graph) (E : Degrees) : Prop := ∀ e ∈ E, D e.1 = e.2 ∧ g.Placed e.1

/-- The ops that a rule adds have degrees that go with those of the graph. -/
theorem Marked.derives {owner : Op} {E E' : Degrees} (hids : ∀ id ∈ Sgd.ids, G.hasTensor id = true)
    (hd : Derives owner E s E' s') (h : Marked G D s) (hs : Grown R G s) (hE : Agrees D s.graph E) :
    ∃ D', Marked G D' s' ∧ Agrees D' s'.graph E' ∧ s'.waiting = s.waiting := by
  induction hd generalizing D with
  | nil => exact ⟨D, h, hE, rfl⟩
  | @cons E E' kind inputs ds base t d s s₁ s' hadd hds hd hl ih =>
    obtain ⟨hfresh, hpartials, info, ha⟩ := GradM.addFresh_ok hs.grows.linked hs.grows.numbered hadd
    have hwaiting : s₁.waiting = s.waiting := by rw [waiting, waiting, hpartials]
    obtain ⟨hs₁, -⟩ := hs.added (l := []) ha (hwaiting ▸ .refl _)
    have hout : t ∉ Sgd.ids := fun hmem => by
      obtain ⟨x, hx⟩ := hasTensor_iff.1 (hs.grows.hasTensor (hids t hmem))
      rw [hfresh] at hx
      cases hx
    have hin : ∀ i ∈ inputs, s.graph.Placed i := by
      intro i hi
      obtain ⟨d', -, hmem⟩ := exists_of_forall₂ hds i hi
      exact (hE _ hmem).2
    have hmap : ds = inputs.map D := eq_map_of_forall₂ (hds.imp fun i d hmem => (hE _ hmem).1.symm)
    have hmarked := h.added hs ha (hmap ▸ hd) hin hout (fun t' ht' => absurd ht' (GradM.addFresh_ne_gradId hadd t')) fun e he => hwaiting ▸ he
    have hE₁ : Agrees (Function.update D t d) s₁.graph ((t, d) :: E) := by
      intro e he
      rcases List.mem_cons.1 he with rfl | he
      · obtain ⟨x, hx, hxp, -⟩ := ha.result
        exact ⟨Function.update_self .., placed_of_producer (producer?_eq_some.2 ⟨x, hx, hxp⟩)⟩
      · obtain ⟨hne, hplaced⟩ := ha.placed hout (hE e he).2
        exact ⟨(Function.update_of_ne hne _ _).trans (hE e he).1, hplaced⟩
    obtain ⟨D', hD', hE', hwaiting'⟩ := ih hmarked hs₁ hE₁
    exact ⟨D', hD', hE', hwaiting'.trans hwaiting⟩

/-- Gradients start to wait, or do not wait any more. -/
theorem Marked.noted (h : Marked G D s) (hg : s'.graph = s.graph)
    (hw : ∀ {t p}, (t, p) ∈ s'.waiting → (t, p) ∈ s.waiting ∨ D p = true) : Marked G D s' :=
  ⟨h.start, fun ho => h.ops (hg ▸ ho), fun ho i hi => hg ▸ h.reads (hg ▸ ho) i hi,
    fun hp => (hw hp).elim h.waits id, fun hnone hsome => h.made hnone (hg ▸ hsome)⟩

/-- What an op of the start reads is of degree zero. -/
theorem Marked.input (h : Marked G D s) (hunscaled : G.Unscaled) {o : OpId} {op : Op} (ho : G.op? o = some op)
    {i : TensorId} (hi : i ∈ op.inputs) : D i = false := by
  rw [h.start (.inl (hunscaled.reads o op ho i hi)), decide_eq_false_iff_not]
  rintro rfl
  exact hunscaled.unread o op ho hi

/-- What an op of the start gives is of degree zero. -/
theorem Marked.produced (h : Marked G D s) (hG : G.WellFormed) (hunscaled : G.Unscaled) {o : OpId}
    (hp : G.producer? t = some o) : D t = false := by
  rw [h.start (placed_of_producer hp), decide_eq_false_iff_not]
  rintro rfl
  obtain ⟨x, hx, hne, -⟩ := hunscaled.scaling
  obtain ⟨y, hy, hyp⟩ := producer?_eq_some.1 hp
  cases hx.symm.trans hy
  exact hne (hG.produced hx hyp)

/-- The operands of a gradient of a loss. -/
theorem graded_gradKind {loss : Loss} {infos : List TensorInfo} {n : Nat} (hlen : infos.length = n + 1)
    (hinfer : loss.gradKind.infer infos = .ok info) :
    loss.gradKind.Graded (List.replicate n false ++ [true]) true := by
  cases loss with
  | nll probs labels output reduction ignored =>
    obtain ⟨⟨a, b, c⟩, hoperands, -⟩ := Outcome.bind_eq_ok.1 hinfer
    rw [OpKind.operand3_ok hoperands] at hlen
    obtain rfl : n = 2 := (Nat.succ.inj hlen).symm
    exact .nll reduction ignored
  | l1 x output lambda reduction =>
    obtain ⟨⟨a, b⟩, hoperands, -⟩ := Outcome.bind_eq_ok.1 hinfer
    rw [OpKind.operand2_ok hoperands] at hlen
    obtain rfl : n = 1 := (Nat.succ.inj hlen).symm
    exact .l1 lambda reduction

/-- The scaling of losses is the one setting of degree one. -/
theorem Marked.setting (h : Marked G D s) {id : TensorId} (hid : id ∈ Sgd.ids) :
    D id = decide (id = Sgd.lossScalingId) := h.start (.inr hid)

/-- The gradient of a loss reads the operands of the loss and the scaling. -/
theorem Marked.seeded (hunscaled : G.Unscaled) (hids : ∀ id ∈ Sgd.ids, G.hasTensor id = true) (h : Marked G D s)
    (hs : Grown R G s) {loss : Loss} {o : OpId} {lossOp owner : Op} {target p : TensorId} {s₁ : Synthesis}
    (hop : G.op? o = some lossOp)
    (hadd : (GradM.addFresh owner loss.gradKind (lossOp.inputs ++ [Sgd.lossScalingId]) target).run s = (.ok p, s₁)) :
    ∃ D', Marked G D' (s₁.note target ⟨o, 0, p⟩) := by
  obtain ⟨-, -, info, ha⟩ := GradM.addFresh_ok hs.grows.linked hs.grows.numbered hadd
  obtain ⟨infos, hinfos, hinfer⟩ := ha.infers
  have hlen : infos.length = lossOp.inputs.length + 1 := by
    rw [← (Outcome.mapM_eq_ok.1 hinfos).length_eq, List.length_append, List.length_singleton]
  have hscaling : Sgd.lossScalingId ∈ Sgd.ids := by simp [Sgd.ids]
  have hE : Agrees D s.graph (lossOp.inputs.map (·, false) ++ [(Sgd.lossScalingId, true)]) := by
    intro e he
    rcases List.mem_append.1 he with he | he
    · obtain ⟨i, hi, rfl⟩ := List.mem_map.1 he
      exact ⟨h.input hunscaled hop hi, hs.grows.placed (.inl (hunscaled.reads _ _ hop _ hi))⟩
    · obtain rfl := List.mem_singleton.1 he
      exact ⟨(h.setting hscaling).trans (decide_eq_true rfl), .inr hscaling⟩
  have hds : List.Forall₂ (fun i d => (i, d) ∈ lossOp.inputs.map (·, false) ++ [(Sgd.lossScalingId, true)])
      (lossOp.inputs ++ [Sgd.lossScalingId]) (List.replicate lossOp.inputs.length false ++ [true]) := by
    refine List.rel_append (forall₂_replicate fun i hi => ?_) (.cons ?_ .nil)
    · exact List.mem_append_left _ (List.mem_map.2 ⟨i, hi, rfl⟩)
    · exact List.mem_append_right _ (List.mem_singleton_self _)
  obtain ⟨D', hD', hE', hwaiting⟩ := h.derives hids (.cons hadd hds (graded_gradKind hlen hinfer) (.nil _ _)) hs hE
  refine ⟨D', hD'.noted rfl fun {t p'} hp => ?_⟩
  rcases List.mem_cons.1 ((waiting_note s₁ target ⟨o, 0, p⟩).mem_iff.1 hp) with heq | hp
  · cases heq
    exact .inr (hE' _ List.mem_cons_self).1
  · exact .inl hp

/-- The gradients for a tensor and their sum have one degree. -/
theorem Marked.settled (hG : G.Linked) (h : Marked G D s) (hs : Grown R G s) {owner : Op} {result : Option TensorId}
    (hrun : (settle t owner).run s = (.ok result, s')) : ∃ D', Marked G D' s' := by
  obtain ⟨hpartials, hsettled⟩ := settle_ok hs.grows.linked hs.grows.numbered hrun
  obtain ⟨-, -, hwaiting, -⟩ := hsettled.grown hG hs hpartials
  have hsub : ∀ e ∈ s'.waiting, e ∈ s.waiting := fun e he => hwaiting.mem_iff.2 (List.mem_append_right _ he)
  cases hsettled with
  | none hl hg => exact ⟨D, h.noted hg fun hp => .inl (hsub _ hp)⟩
  | @single one x hl hr =>
    rw [hl, List.map_singleton, List.singleton_append] at hwaiting
    exact ⟨_, h.renamed hs hr hwaiting⟩
  | @several many info hl hlen ha =>
    have hwaits : ∀ i ∈ many.map (·.tensor), (t, i) ∈ s.waiting := by
      intro i hi
      obtain ⟨q, hq, rfl⟩ := List.mem_map.1 hi
      exact hwaiting.mem_iff.2 (List.mem_append_left _ (List.mem_map.2 ⟨q, hl.mem_iff.1 hq, rfl⟩))
    refine ⟨_, h.added hs ha (.sum ?_ fun d hd => ?_) (fun i hi => ?_) (gradId_not_mem t) (fun _ _ => rfl) hsub⟩
    · rw [ne_eq, List.map_eq_nil_iff, List.map_eq_nil_iff]
      rintro rfl
      cases hlen
    · obtain ⟨i, hi, rfl⟩ := List.mem_map.1 hd
      exact h.waits (hwaits i hi)
    · obtain ⟨-, ⟨o, ho⟩, -⟩ := hs.waits (hwaits i hi)
      exact placed_of_producer ho

/-- A rule is linear in the gradient for the result of its op, which is the only tensor of degree one that it reads. -/
theorem Marked.visited (hG : G.WellFormed) (hunscaled : G.Unscaled) (hids : ∀ id ∈ Sgd.ids, G.hasTensor id = true)
    (hR : Passes R G losses) (h : Marked G D s) {s₀ s₁ : Synthesis} {o : OpId} {op : Op} {incoming : TensorId}
    {gradients : List (Option TensorId)} (hs : Grown R G s₀) (ho : o ∈ relevantOps G losses)
    (hop : s₀.graph.op? o = some op)
    (hv : Visits .empty (relevantOps G losses) s₀ op t s incoming gradients s₁) :
    ∃ D', Marked G D' (noteAll op.id (op.inputs.zip gradients) 0 s₁) := by
  obtain ⟨hgraph, hperm⟩ := waiting_noteAll op.id (op.inputs.zip gradients) 0 s₁
  obtain ⟨hgrown, hfinal, -⟩ := hv.all hG hR hs ho hop hgraph hperm
  obtain ⟨op₀, hop₀, -⟩ := op_of_relevant ho
  obtain ⟨op', hop', -, hin, hout⟩ := hs.grows.ops hop₀
  cases hop.symm.trans hop'
  obtain ⟨-, hsettled⟩ := settle_ok hs.grows.linked hs.grows.numbered hv.settle
  obtain rfl := hsettled.name_eq
  obtain ⟨rule, hofKind, hrun⟩ := hv.rule_ofKind
  obtain ⟨E', hE', hanswers⟩ := GradRule.linear_ofKind hofKind _ rfl _ s gradients s₁ (GradCall.knows_known _) trivial hrun
  have hE : Agrees D s.graph (GradCall.known ⟨op, op.inputs.map (needsGrad s.graph (relevantOps G losses)), gradId t⟩) := by
    intro e he
    rcases List.mem_cons.1 he with rfl | he
    · obtain ⟨q, hq⟩ := hfinal.produced
      exact ⟨h.made hfinal.fresh hq, placed_of_producer hq⟩
    · obtain ⟨i, hi, rfl⟩ := List.mem_map.1 he
      rcases List.mem_append.1 hi with hi | hi
      · exact ⟨h.input hunscaled hop₀ (hin ▸ hi),
          hgrown.grows.placed (.inl (hunscaled.reads _ _ hop₀ _ (hin ▸ hi)))⟩
      · have hproducer : G.producer? i = some o := hG.linked.makes.2 ⟨op₀, hop₀, hout ▸ hi⟩
        exact ⟨h.produced hG hunscaled hproducer, hgrown.grows.placed (placed_of_producer hproducer)⟩
  obtain ⟨D', hD', hagrees, hwaiting⟩ := h.derives hids hE' hgrown hE
  refine ⟨D', hD'.noted hgraph fun {i p} hp => ?_⟩
  rcases List.mem_append.1 (hperm.mem_iff.1 hp) with hp | hp
  · obtain ⟨k, -, hp⟩ := mem_given hp
    exact .inr (hagrees _ (hanswers.2 p (List.mem_of_getElem? hp))).1
  · exact .inl hp

/-- Of what the update of a weight reads, the gradient and the scaling are of degree one. -/
theorem Marked.update_inputs (hunscaled : G.Unscaled) (h : Marked G D s) (hs : Grown R G s) {weight : TensorId}
    (hweight : ∃ x, G.tensor? weight = some x ∧ x.type = .weight) (hfinal : Final R G s weight) :
    (updateInputs weight).map D = [false, true, false, false, true] ∧
      ∀ i ∈ updateInputs weight, s.graph.Placed i := by
  obtain ⟨x, hx, htype⟩ := hweight
  have hplaced : G.Placed weight := .inl (isFree_eq_false_iff.2 ⟨x, hx, .inl (by rw [htype]; decide)⟩)
  have hne : weight ≠ Sgd.lossScalingId := by
    rintro rfl
    obtain ⟨y, hy, -, hne⟩ := hunscaled.scaling
    cases hx.symm.trans hy
    exact hne htype
  obtain ⟨o, ho⟩ := hfinal.produced
  constructor
  · simp only [updateInputs, List.map_cons, List.map_nil]
    rw [h.start hplaced, decide_eq_false hne, h.made hfinal.fresh ho, h.setting (by simp [Sgd.ids]),
      h.setting (by simp [Sgd.ids]), h.setting (by simp [Sgd.ids])]
    rfl
  · intro i hi
    rw [updateInputs, List.mem_cons, List.mem_cons] at hi
    rcases hi with rfl | rfl | hi
    · exact hs.grows.placed hplaced
    · exact placed_of_producer ho
    · exact .inr hi

/-- Every step keeps to degrees. -/
theorem Marked.step (hG : G.WellFormed) (hunscaled : G.Unscaled) (hids : ∀ id ∈ Sgd.ids, G.hasTensor id = true)
    (hR : Passes R G losses) (hstep : Step R G losses s s') (h : Marked G D s) : ∃ D', Marked G D' s' := by
  cases hstep with
  | seed hs ho hop htarget hneeds hadd => exact h.seeded hunscaled hids hs hop hadd
  | settle hs hrun => exact h.settled hG.linked hs hrun
  | visit hs ho hop hv => exact h.visited hG hunscaled hids hR hs ho hop hv
  | @update weight info g place hs hweight hfinal ha =>
    obtain ⟨hadded, -⟩ := hs.updated ha rfl
    obtain ⟨hmap, hin⟩ := h.update_inputs hunscaled hs hweight hfinal
    have hmarked : Marked G (Function.update D (updatedId weight) false) { s with graph := _ } :=
      h.added hs hadded (by rw [hmap]; exact .update) hin (updatedId_not_mem weight)
        (fun t ht => absurd ht (updatedId_ne_gradId weight t)) fun e he => he
    exact ⟨_, hmarked⟩

theorem Marked.steps (hG : G.WellFormed) (hunscaled : G.Unscaled) (hids : ∀ id ∈ Sgd.ids, G.hasTensor id = true)
    (hR : Passes R G losses) (hsteps : Steps R G losses s s') (h : Marked G D s) : ∃ D', Marked G D' s' := by
  induction hsteps with
  | refl => exact ⟨D, h⟩
  | tail _ hstep ih =>
    obtain ⟨D₁, h₁⟩ := ih
    exact h₁.step hG hunscaled hids hR hstep

/-- An update is of degree zero. -/
theorem Marked.updated (h : Marked G D s) {weight : TensorId} (hu : Updated R G s weight) : D (updatedId weight) = false := by
  obtain ⟨o, op, hop, hkind, hin, hout⟩ := hu.op
  obtain ⟨d, hd, houts⟩ := h.ops hop
  rw [houts (updatedId weight) (by rw [hout]; exact List.mem_singleton_self _)]
  rw [hkind, hin] at hd
  generalize hds : (updateInputs weight).map D = ds at hd
  cases hd with
  | fixed => rfl
  | first hkind => cases hkind
  | update => rfl

end Synthesis

/-! ## Values -/

section Values

variable {R : Type} [Field R] [LinearOrder R] {f : Functions R} {c : R}

/-- An op on numbers whose operands are multiplied by their degrees. -/
theorem Kernel.toOption_exact (hzero : f.ofSingle .zero = 0) (hc : c ≠ 0) {kind : OpKind} {ds : List Bool} {d : Bool}
    (hd : kind.Graded ds d) {xs : List (Operand R)} (hlen : ds.length = xs.length) (output : TensorInfo) :
    (@exact R f.scalar kind (List.zipWith (Operand.scaled (c * ·)) ds xs) output).toOption =
      (@exact R f.scalar kind xs output).toOption.map (Operand.scaled (c * ·) d) := by
  rw [@exact_graded R f.scalar _ (scaling_mul hzero hc) kind ds d hd xs hlen output]
  cases @exact R f.scalar kind xs output <;> rfl

omit [Field R] [LinearOrder R] in
theorem mapM_scaled {σ : R → R} {D : TensorId → Bool} {ν ν' : TensorId → Option (Operand R)}
    (h : ∀ i, ν' i = (ν i).map (Operand.scaled σ (D i))) : ∀ inputs : List TensorId,
    inputs.mapM ν' = (inputs.mapM ν).map (List.zipWith (Operand.scaled σ) (inputs.map D))
  | [] => rfl
  | i :: inputs => by
    rw [List.mapM_cons, List.mapM_cons, h, mapM_scaled h inputs]
    cases ν i <;> cases inputs.mapM ν <;> rfl

/-- Values go with degrees: what is of degree one is multiplied as the scaling of losses is. -/
theorem Synthesis.Marked.evalAt {Q : TensorInfo → TensorInfo → Prop} {G : Graph} {D : TensorId → Bool} {s : Synthesis}
    (h : Marked G D s) (hs : Grown Q G s) (hzero : f.ofSingle .zero = 0) (hc : c ≠ 0)
    {a b : TensorId → Option (Operand R)}
    (hab : ∀ t, b t = (a t).map (Operand.scaled (c * ·) (decide (t = Sgd.lossScalingId)))) : ∀ (n : Nat) (t : TensorId),
    (s.graph.numeric f b).evalAt s.graph n t =
      ((s.graph.numeric f a).evalAt s.graph n t).map (Operand.scaled (c * ·) (D t))
  | 0, _ => rfl
  | n + 1, t => by
    unfold Reading.evalAt
    cases hp : s.graph.producer? t with
    | none =>
      simp only [numeric]
      cases hx : s.graph.tensor? t with
      | none => rfl
      | some x =>
        simp only [Option.bind_some]
        split
        · rfl
        · rename_i hne
          obtain ⟨y, hy⟩ := hasTensor_iff.1 (hs.grows.types hx hne)
          obtain ⟨x', hx', htype, -⟩ := hs.grows.tensors hy
          cases hx.symm.trans hx'
          have hplaced : G.Placed t := .inl (isFree_eq_false_iff.2 ⟨y, hy, .inl (htype ▸ hne)⟩)
          rw [hab, h.start hplaced]
    | some o =>
      obtain ⟨op, ho, hout⟩ := hs.grows.linked.op_of_producer hp
      obtain ⟨d, hd, houts⟩ := h.ops ho
      simp only [ho, Option.bind_some, Reading.apply]
      rw [mapM_scaled (h.evalAt hs hzero hc hab n), houts t hout]
      cases hxs : op.inputs.mapM ((s.graph.numeric f a).evalAt s.graph n) with
      | none => rfl
      | some xs =>
        cases s.graph.info? t with
        | none => rfl
        | some info =>
          have hlen : (op.inputs.map D).length = xs.length := by
            rw [List.length_map, (mapM_eq_some_iff.1 hxs).length_eq]
          exact Kernel.toOption_exact hzero hc hd hlen info

/-- What a graph computes from `a` with the given scaling of losses. -/
def Graph.valueScaled (g : Graph) (f : Functions R) (a : TensorId → Option (Operand R)) (scaling : Operand R) :
    TensorId → Option (Operand R) :=
  (g.numeric f (Function.update a Sgd.lossScalingId (some scaling))).value? g

end Values

/-- The scaling of losses cancels: gradients are proportional to it, and updates of weights do not depend on it. -/
theorem synthesizeGradients_scale {R : Type} [Field R] [LinearOrder R] {f : Functions R} (hzero : f.ofSingle .zero = 0)
    {losses : List Loss} {b b' : Build} {summary : GradSummary} (hG : b.graph.WellFormed) (hunscaled : b.graph.Unscaled)
    (hlosses : ∀ loss ∈ losses, ∃ o, b.graph.producer? loss.output = some o)
    (hrun : (synthesizeGradients .empty losses).run b = (.ok summary, b'))
    (a : TensorId → Option (Operand R)) (info : TensorInfo) {x y : R} (hx : x ≠ 0) (hy : y ≠ 0) :
    (∀ t o, b.graph.producer? (gradId t) = none → b'.graph.producer? (gradId t) = some o →
      b'.graph.valueScaled f a ⟨info, [y]⟩ (gradId t) =
        (b'.graph.valueScaled f a ⟨info, [x]⟩ (gradId t)).map (Operand.map (y / x * ·))) ∧
    ∀ w ∈ summary.updated, b'.graph.valueScaled f a ⟨info, [y]⟩ (updatedId w) =
      b'.graph.valueScaled f a ⟨info, [x]⟩ (updatedId w) := by
  obtain ⟨hids, s', hgraph, -, hrun⟩ := synthesizeGradients_run hrun
  have hR := Synthesis.passes_true hG losses
  obtain ⟨hsteps, hgrown, -, hupdated⟩ := Synthesis.run_steps hG hR hids hlosses hrun
  obtain ⟨D, hD⟩ := (Synthesis.Marked.of_start hG hunscaled).steps hG hunscaled hids hR hsteps
  have hvalues : ∀ t, b'.graph.valueScaled f a ⟨info, [y]⟩ t =
      (b'.graph.valueScaled f a ⟨info, [x]⟩ t).map (Operand.scaled (y / x * ·) (D t)) := by
    intro t
    rw [hgraph]
    refine hD.evalAt hgrown hzero (div_ne_zero hy hx) (fun t => ?_) _ t
    by_cases ht : t = Sgd.lossScalingId
    · subst ht
      rw [Function.update_self, Function.update_self, decide_eq_true rfl, Option.map_some, Operand.scaled_true]
      simp [Operand.map, div_mul_cancel₀ y hx]
    · have hid : Operand.scaled (y / x * ·) false = id := funext (Operand.scaled_false _)
      rw [Function.update_of_ne ht, Function.update_of_ne ht, decide_eq_false ht, hid, Option.map_id_fun, id]
  refine ⟨fun t o hnone hsome => ?_, fun w hw => ?_⟩
  · rw [hvalues, hD.made hnone (hgraph ▸ hsome)]
    rfl
  · have hid : Operand.scaled (y / x * ·) false = id := funext (Operand.scaled_false _)
    rw [hvalues, hD.updated (hupdated w hw), hid, Option.map_id_fun, id]

/-! ## Graphs at which it can be seen -/

/-- Numbers for which the functions that are not algebraic do nothing. -/
def plainFunctions : Functions ℚ := ⟨id, id, id, id, id, id, fun x => if x = .one then 1 else 0, fun _ => 0⟩

/-- Two weights, one of them negated: twice the scaling gives twice the gradients, and the same weights. -/
theorem synthesizeGradients_scale_opposed :
    let value := fun scaling : ℚ => Opposed.built.2.graph.valueScaled plainFunctions Opposed.fed ⟨.scalar .float, [scaling]⟩
    Opposed.built.1 = .ok ⟨3, ["v", "w"]⟩ ∧ (value 1 (gradId "w")).map (·.values) = some [1, -1] ∧
      value 2 (gradId "w") = (value 1 (gradId "w")).map (Operand.map (2 / 1 * ·)) ∧
      value 2 (updatedId "w") = value 1 (updatedId "w") := by
  obtain ⟨hrun, hnone, hgrad, -, hlosses, -⟩ := Opposed.built_facts
  have hvalue : (Opposed.built.2.graph.valueScaled plainFunctions Opposed.fed ⟨.scalar .float, [1]⟩ (gradId "w")).map
      (·.values) = some [1, -1] := by decide +kernel
  obtain ⟨hunread, hreads⟩ : (∀ op ∈ Opposed.graph.ops.values, Sgd.lossScalingId ∉ op.inputs) ∧
      ∀ op ∈ Opposed.graph.ops.values, ∀ i ∈ op.inputs, Opposed.graph.isFree i = false := by decide +kernel
  have hunscaled : Opposed.graph.Unscaled := by
    refine ⟨⟨_, rfl, by decide, by decide⟩, fun o op ho => ?_, fun o op ho => ?_⟩
    · exact hunread op (Dict.mem_values.2 ⟨o, ho⟩)
    · exact hreads op (Dict.mem_values.2 ⟨o, ho⟩)
  have hsynthesis : (synthesizeGradients .empty Opposed.losses).run ⟨Opposed.graph, []⟩ =
      (.ok ⟨3, ["v", "w"]⟩, Opposed.built.2) := Stateful.eq_ok_of_fst hrun
  obtain ⟨hgrads, hupdates⟩ := synthesizeGradients_scale (f := plainFunctions) (by decide) Opposed.wellFormed hunscaled
    (fun loss hloss => Option.isSome_iff_exists.1 (hlosses loss hloss)) hsynthesis Opposed.fed
    (.scalar .float) (x := 1) (y := 2) (by decide) (by decide)
  exact ⟨hrun, hvalue, hgrads "w" 5 hnone hgrad, hupdates "w" (by simp)⟩

/-- A weight is multiplied with the scaling of losses. -/
def Squared.graph : Graph :=
  ([.addTensor "w" ⟨.float, [1]⟩ .weight none, .addTensor Sgd.learningRateId (.scalar .float) .optimizerStream none,
    .addTensor Sgd.weightDecayId (.scalar .float) .optimizerStream none,
    .addTensor Sgd.lossScalingId (.scalar .float) .optimizerStream none,
    .addOp (.binary .mul) ["w", Sgd.lossScalingId] ["y"] .forward,
    .addOp (.l1 .one .sum) ["y"] ["l"] .loss] : List Graph.Edit).foldl (fun g e => (e.call.run g).2) .empty

theorem Squared.wellFormed : Squared.graph.WellFormed := by
  have h : Edited Graph.empty Squared.graph :=
    .call _ (.call _ (.call _ (.call _ (.call _ (.call _ .start trivial) trivial) trivial) trivial) trivial) trivial
  exact (h.sound .empty).wellFormed

/-- The graph with the gradients. -/
def Squared.built : Outcome GradSummary × Build :=
  (synthesizeGradients .empty [.l1 "y" "l" .one .sum]).run ⟨Squared.graph, []⟩

/-- The weight is three, and every setting is one. -/
def Squared.fed (t : TensorId) : Option (Operand ℚ) :=
  some (if t = "w" then ⟨⟨.float, [1]⟩, [3]⟩ else ⟨.scalar .float, [1]⟩)

/-- Where an op reads the scaling of losses, twice the scaling gives four times the gradient and another weight. -/
theorem synthesizeGradients_squares :
    let value := fun (scaling : ℚ) t =>
      (Squared.built.2.graph.valueScaled plainFunctions Squared.fed ⟨.scalar .float, [scaling]⟩ t).map (·.values)
    Squared.graph.WellFormed ∧ Squared.built.1 = .ok ⟨2, ["w"]⟩ ∧
      value 1 (gradId "w") = some [1] ∧ value 2 (gradId "w") = some [4] ∧
      value 1 (updatedId "w") = some [-1] ∧ value 2 (updatedId "w") = some [-2] :=
  ⟨Squared.wellFormed, by decide +kernel⟩

end TensorGraph
