import TensorGraph.Proofs.Gradient.Calm
import TensorGraph.Proofs.Gradient.Shapes
import TensorGraph.Proofs.Gradient.Sweep

/-!
A synthesis of gradients keeps what graphs of sessions have in common. Its ops are of the backward pass, and belong to
forward ops or to losses; a sum of gradients that belongs to a loss has the gradient of the loss among its summands.
Where no extent is below zero, all gradients have the shapes of what they are gradients for, and all infos stay right.
-/
namespace TensorGraph

open TensorGraph.Graph

namespace Graph

variable {g g' g'' : Graph} {o : OpId} {op new : Op} {output : TensorId} {info : TensorInfo}

/-- Ops that have a number stay as they are. -/
structure Extends (g g' : Graph) : Prop where
  nextOp_le : g.nextOp ≤ g'.nextOp
  ops : ∀ o, o < g.nextOp → g'.op? o = g.op? o

namespace Extends

theorem refl (g : Graph) : Extends g g := ⟨Nat.le_refl _, fun _ _ => rfl⟩

theorem trans (h : Extends g g') (h' : Extends g' g'') : Extends g g'' :=
  ⟨h.nextOp_le.trans h'.nextOp_le, fun o ho => (h'.ops o (ho.trans_le h.nextOp_le)).trans (h.ops o ho)⟩

theorem op? (h : Extends g g') (hs : g.Sound) (ho : g.op? o = some op) : g'.op? o = some op :=
  (h.ops o (hs.opBound ho)).trans ho

end Extends

theorem capped_weightUpdate (g : Graph) : g.Capped .weightUpdate := by
  intro o op _
  cases op.phase <;> decide

theorem Enters.extends (he : Enters g new output info g') : Extends g g' where
  nextOp_le := Nat.le.intro he.added.nextOp_eq.symm
  ops o ho := he.added.others o (Nat.ne_of_lt ho)

end Graph

theorem Loss.isLossGrad_gradKind (loss : Loss) : loss.gradKind.isLossGrad = true := by
  cases loss <;> rfl

/-- The rules of a registry give results of ops that they add, with the shapes of the operands, and add no updates. -/
def GradRegistry.Fitting (rules : GradRegistry) : Prop :=
  ∀ {kind rule}, rules.rule? kind = some rule → rule.Lawful ∧ rule.Suited kind ∧ rule.Calm

theorem GradRegistry.fitting_empty : GradRegistry.Fitting .empty := by
  intro kind rule hrule
  rw [GradRegistry.rule?_empty] at hrule
  exact ⟨GradRule.lawful_ofKind hrule, GradRule.suited_ofKind hrule, GradRule.calm_ofKind hrule⟩

/-! ## Gradients that wait -/

/-- A gradient that waits is the result of an op of the backward pass. If the op that it belongs to is no forward op,
then it is the gradient of a loss that reads whatever that op reads. -/
def Partial.Stands (p : Partial) (g : Graph) : Prop :=
  p.op < g.nextOp ∧ ∃ e grad, g.op? e = some grad ∧ grad.outputs = [p.tensor] ∧ grad.phase = .backward ∧
    ∀ f, g.op? p.op = some f → f.phase = .forward ∨ grad.kind.isLossGrad = true ∧ f.inputs ⊆ grad.inputs

namespace Partial.Stands

variable {p : Partial} {g g' : Graph}

theorem extends_ (h : p.Stands g) (hs : g.Sound) (he : Extends g g') : p.Stands g' := by
  obtain ⟨hlt, e, grad, hgrad, hout, hphase, hcase⟩ := h
  refine ⟨hlt.trans_le he.nextOp_le, e, grad, he.op? hs hgrad, hout, hphase, fun f hf => hcase f ?_⟩
  rwa [he.ops p.op hlt] at hf

theorem renamed (h : p.Stands g) {old new : TensorId} {x : Tensor} (hr : Renamed g old new x g')
    (hne : p.tensor ≠ old) : p.Stands g' := by
  obtain ⟨hlt, e, grad, hgrad, hout, hphase, hcase⟩ := h
  refine ⟨hr.nextOp_eq ▸ hlt, e, rename old new grad, by rw [hr.op?_eq, hgrad]; rfl, ?_, hphase, fun f hf => ?_⟩
  · change substitute old new grad.outputs = _
    rw [hout, substitute, List.map_singleton, if_neg hne]
  · rw [hr.op?_eq] at hf
    obtain ⟨f', hf', rfl⟩ := Option.map_eq_some_iff.1 hf
    exact (hcase f' hf').imp_right fun h => ⟨h.1, List.map_subset _ h.2⟩

/-- What waits is not produced later than in the backward pass. -/
theorem below (h : p.Stands g) (hl : g.Linked) : g.Below .backward p.tensor := by
  obtain ⟨-, e, grad, hgrad, hout, hphase, -⟩ := h
  intro o op hp ho
  cases hp.symm.trans ((hl.producer?_iff_of_outputs hgrad hout).2 rfl)
  cases ho.symm.trans hgrad
  rw [hphase]

end Partial.Stands

namespace Synthesis

variable {s s' : Synthesis} {t : TensorId} {p : Partial}

theorem mem_of_erase {t' : TensorId} (h : s'.partials = s.partials.erase t) (hp : p ∈ (s'.partials.get? t').getD []) :
    p ∈ (s.partials.get? t').getD [] := by
  rw [h, Dict.get?_erase] at hp
  split at hp
  · cases hp
  · exact hp

theorem mem_of_note {t' : TensorId} {q : Partial} (hp : p ∈ ((s.note t q).partials.get? t').getD []) :
    p ∈ (s.partials.get? t').getD [] ∨ p = q := by
  rw [note, Dict.get?_insert] at hp
  split at hp
  · rename_i heq
    rw [Option.getD_some, List.mem_append, List.mem_singleton] at hp
    exact heq ▸ hp
  · exact .inl hp

theorem mem_of_noteAll (id : OpId) : ∀ (l : List (TensorId × Option TensorId)) (k : Nat) {s : Synthesis} {p : Partial},
    p ∈ ((noteAll id l k s).partials.get? t).getD [] →
      p ∈ (s.partials.get? t).getD [] ∨ ∃ i k', (i, some p.tensor) ∈ l ∧ p = ⟨id, k', p.tensor⟩
  | [], _, _, _, hp => .inl hp
  | (i, none) :: l, k, _, _, hp => by
    rcases mem_of_noteAll id l (k + 1) hp with hp | ⟨i', k', hmem, heq⟩
    · exact .inl hp
    · exact .inr ⟨i', k', List.mem_cons_of_mem _ hmem, heq⟩
  | (i, some q) :: l, k, s, p, hp => by
    rcases mem_of_noteAll id l (k + 1) (s := s.note i ⟨id, k, q⟩) hp with hp | ⟨i', k', hmem, heq⟩
    · rcases mem_of_note hp with hp | rfl
      · exact .inl hp
      · exact .inr ⟨i, k, List.mem_cons_self, rfl⟩
    · exact .inr ⟨i', k', List.mem_cons_of_mem _ hmem, heq⟩

end Synthesis

/-! ## The ops of rules -/

/-- Ops are added that belong to a forward op. -/
theorem Emits.steady {owner : Op} {l : List TensorId} {s s' : Synthesis} (he : Emits owner l s s')
    (h : s.graph.Steady none) (hc : s.graph.Capped .backward)
    (howner : ∃ op, s.graph.op? owner.id = some op ∧ op.phase = .forward) :
    s'.graph.Steady none ∧ s'.graph.Capped .backward ∧ Extends s.graph s'.graph ∧ s'.partials = s.partials ∧
      ∀ p ∈ l, ∃ e grad, s'.graph.op? e = some grad ∧ grad.outputs = [p] ∧ grad.phase = .backward := by
  induction he with
  | nil s => exact ⟨h, hc, .refl _, rfl, nofun⟩
  | @cons kind inputs base t l s s₁ s' hadd hl ih =>
    obtain ⟨hfresh, hpartials, op, info, hop, he⟩ := GradM.addFresh_enters h.sound hadd
    obtain ⟨fop, hfop, hforward⟩ := howner
    have hsteady : s₁.graph.Steady none := by
      refine h.enters he hfresh (fun i _ => ?_) fun f hf => ?_
      · rw [hop.phase]
        exact hc.below i
      · rw [hop.forwardOp, Option.some.injEq] at hf
        subst hf
        refine ⟨h.sound.opBound hfop, fun f hf => .inl ?_⟩
        cases hfop.symm.trans hf
        exact hforward
    have hcapped : s₁.graph.Capped .backward := hc.enters he (by rw [hop.phase])
    obtain ⟨hsteady', hcapped', hextends, hpartials', hmade⟩ := ih hsteady hcapped ⟨fop, he.op?_of h.sound hfop, hforward⟩
    refine ⟨hsteady', hcapped', he.extends.trans hextends, hpartials'.trans hpartials, fun p hp => ?_⟩
    rcases List.mem_cons.1 hp with rfl | hp
    · exact ⟨_, op, hextends.op? hsteady.sound he.found, he.outputs, hop.phase⟩
    · exact hmade p hp

/-- Ops are added beside one of the graph, none of them an update. -/
theorem Emits.redraws {owner : Op} {l : List TensorId} {s s' : Synthesis} (he : Emits owner l s s')
    (hs : s.graph.Sound) (howner : ∃ op, s.graph.op? owner.id = some op ∧ op.virtualGraph = owner.virtualGraph)
    (hcalm : ∀ o op, s'.graph.op? o = some op → op.kind = .sgdVarUpdate → s.graph.op? o = some op) :
    Redraws s.graph s'.graph := by
  have hgrows : KeepsSources s.graph s'.graph ∧ (∀ {V}, s.graph.Drafted V → s'.graph.Drafted V) ∧
      ∀ {t i}, s.graph.info? t = some i → s'.graph.info? t = some i := by
    clear hcalm
    induction he with
    | nil s => exact ⟨.refl _, id, id⟩
    | @cons kind inputs base t l s s₁ s' hadd hl ih =>
      obtain ⟨hfresh, -, op, info, hop, he⟩ := GradM.addFresh_enters hs hadd
      obtain ⟨place, hplace, hsame⟩ := howner
      obtain ⟨hsources, hdrafted, hinfo⟩ := ih he.sound ⟨place, he.op?_of hs hplace, hsame⟩
      refine ⟨he.keepsSources.trans hsources, fun hg => hdrafted (he.drafted hg ⟨hop.unmarked, fun v hv => ?_⟩),
        fun hi => hinfo (he.info?_of hi ?_)⟩
      · exact (hg _ place hplace).2 v (hsame.trans (hop.virtualGraph.symm.trans hv))
      · rintro rfl
        rw [info?, hfresh] at hi
        cases hi
  obtain ⟨hsources, hdrafted, hinfo⟩ := hgrows
  refine ⟨hsources, fun hg => hg.of_ops hsources (ψ := id) (fun {o op} ho hk => ?_) fun _ _ => rfl, hdrafted⟩
  have hop := hcalm o op ho hk
  refine ⟨op, hop, hk, (List.map_id _).symm, (List.map_id _).symm, fun u hu => ?_⟩
  obtain ⟨x, hx, -⟩ := hs.linked.hasTensor_of_output hop hu
  rw [id, hinfo (info?_eq_some.2 ⟨x, hx, rfl⟩), info?_eq_some.2 ⟨x, hx, rfl⟩]

namespace Synthesis

variable {C : Prop} {G : Graph} {relevant : SortedSet OpId} {s s' : Synthesis} {t : TensorId} {p : Partial} {op : Op}

/-! ## The invariant -/

/-- What a synthesis keeps. That infos are right, and that gradients have the shapes of what they are for, is kept
where `C` holds. -/
structure Upkeep (C : Prop) (G : Graph) (relevant : SortedSet OpId) (s : Synthesis) : Prop where
  grown : Grown (fun i j => C → SameShape i j) G s
  steady : s.graph.Steady none
  typed : C → s.graph.Typed
  redraws : Redraws G s.graph
  stands : ∀ {t p}, p ∈ (s.partials.get? t).getD [] → p.Stands s.graph
  forward : ∀ o ∈ relevant, ∃ op, s.graph.op? o = some op ∧ op.phase = .forward

namespace Upkeep

theorem forward_extends (h : Upkeep C G relevant s) {g : Graph} (he : Extends s.graph g) :
    ∀ o ∈ relevant, ∃ op, g.op? o = some op ∧ op.phase = .forward := by
  intro o ho
  obtain ⟨op, hop, hphase⟩ := h.forward o ho
  exact ⟨op, he.op? h.steady.sound hop, hphase⟩

/-- A single gradient takes another name, and does not wait any more. -/
theorem renamed (h : Upkeep C G relevant s) {one : Partial} {new : TensorId} {x : Tensor} {g : Graph}
    (hone : (s.partials.get? t).getD [] = [one]) (hr : Renamed s.graph one.tensor new x g)
    (hs : s' = { s with graph := g, partials := s.partials.erase t })
    (hgrown : Grown (fun i j => C → SameShape i j) G s') : Upkeep C G relevant s' := by
  subst hs
  have hw := waiting_perm s t
  rw [hone] at hw
  have hnodup := (hw.map Prod.snd).nodup_iff.1 h.grown.nodup
  have hgrad : x.type = .actGrad := by
    obtain ⟨-, ⟨o, ho⟩, -⟩ := h.grown.waits (hw.mem_iff.2 (List.mem_append_left _ (List.mem_singleton_self _)))
    obtain ⟨y, hy, hp⟩ := producer?_eq_some.1 ho
    cases hr.found.symm.trans hy
    exact h.steady.sound.produced hy hp
  refine ⟨hgrown, h.steady.renamed hr, fun hC => (h.typed hC).renamed h.steady.sound.linked hr,
    h.redraws.trans (.renamed h.steady.sound.linked hr hgrad), fun {t' p} hp => ?_, fun o ho => ?_⟩
  · refine (h.stands (mem_of_erase rfl hp)).renamed hr fun heq => ?_
    -- each gradient waits once
    exact (List.nodup_cons.1 hnodup).1 (List.mem_map.2 ⟨_, mem_waiting hp, heq⟩)
  · obtain ⟨op, hop, hphase⟩ := h.forward o ho
    exact ⟨rename one.tensor new op, by rw [hr.op?_eq, hop]; rfl, hphase⟩

/-- A sum of gradients that belongs to a forward op, or to that of one of the gradients, belongs where it stands. -/
theorem belongs_of_sum (h : Upkeep C G relevant s) {owner : Op} (hfound : s.graph.op? owner.id = some owner)
    (howner : owner.phase = .forward ∨ ∃ p ∈ (s.partials.get? t).getD [], p.op = owner.id) (hkind : op.kind = .sum)
    {many : List Partial} (hperm : many.Perm ((s.partials.get? t).getD [])) (hlen : 2 ≤ many.length)
    (hin : op.inputs = many.map (·.tensor)) :
    owner.phase = .forward ∨ s.graph.Covers owner op := by
  rcases howner with hphase | ⟨p, hp, heq⟩
  · exact .inl hphase
  · obtain ⟨-, e, grad, hgrad, hout, -, hcase⟩ := h.stands hp
    refine (hcase owner (heq ▸ hfound)).imp_right fun ⟨hloss, hreads⟩ => ?_
    have hread : p.tensor ∈ op.inputs := by
      rw [hin]
      exact List.mem_map.2 ⟨p, hperm.mem_iff.2 hp, rfl⟩
    exact .sum hkind (by rw [hin, List.length_map]; exact hlen) hgrad hloss hreads
      (by rw [hout]; exact List.mem_singleton_self _) hread

/-- The gradients for a tensor become one. The op that the sum belongs to is a forward op, or that of one of the
gradients. -/
theorem settle (h : Upkeep C G relevant s) (hG : G.Linked) {owner : Op} {result : Option TensorId}
    (hfound : s.graph.op? owner.id = some owner)
    (howner : owner.phase = .forward ∨ ∃ p ∈ (s.partials.get? t).getD [], p.op = owner.id)
    (hrun : (settle t owner).run s = (.ok result, s')) :
    Upkeep C G relevant s' ∧ (s.graph.Capped .backward → s'.graph.Capped .backward) ∧
      ∃ op, s'.graph.op? owner.id = some op ∧ op.virtualGraph = owner.virtualGraph := by
  obtain ⟨hpartials, hsettled⟩ := settle_ok h.grown.grows.linked h.grown.grows.numbered hrun
  obtain ⟨hgrown, -⟩ := hsettled.grown hG h.grown hpartials
  rcases settle_cases hrun with ⟨hnil, rfl, rfl⟩ | ⟨rfl, ⟨one, g', hone, hrename, rfl⟩ | ⟨many, hperm, hlen, hadd⟩⟩
  · exact ⟨⟨hgrown, h.steady, h.typed, h.redraws, fun hp => h.stands (mem_of_erase hpartials hp), h.forward⟩, id,
      owner, hfound, rfl⟩
  · obtain ⟨x, hr⟩ := renameTensor_ok h.steady.sound.linked hrename
    refine ⟨h.renamed hone hr rfl hgrown, fun hc o op ho => ?_, rename one.tensor (gradId t) owner,
      by rw [hr.op?_eq, hfound]; rfl, rfl⟩
    rw [hr.op?_eq] at ho
    obtain ⟨op', ho', rfl⟩ := Option.map_eq_some_iff.1 ho
    exact hc o op' ho'
  · obtain ⟨-, op, info, hop, he⟩ :=
      GradM.addOp_enters (s := { s with partials := s.partials.erase t }) h.steady.sound hadd
    have hfresh := h.steady.tensor?_of_free he.added.free
    have hsteady : s'.graph.Steady none := by
      refine h.steady.enters he hfresh (fun i hi => ?_) fun f hf => ?_
      · rw [hop.inputs] at hi
        obtain ⟨p, hp, rfl⟩ := List.mem_map.1 hi
        rw [hop.phase]
        exact (h.stands (hperm.mem_iff.1 hp)).below h.steady.sound.linked
      · rw [hop.forwardOp, Option.some.injEq] at hf
        subst hf
        refine ⟨h.steady.sound.opBound hfound, fun f hf => ?_⟩
        cases hf.symm.trans hfound
        exact h.belongs_of_sum hfound howner hop.kind hperm hlen hop.inputs
    refine ⟨⟨hgrown, hsteady, fun hC => ?_, h.redraws.trans ?_, fun hp => ?_, h.forward_extends he.extends⟩, fun hc => ?_,
      owner, he.op?_of h.steady.sound hfound, rfl⟩
    · exact (h.typed hC).enters_new h.steady.sound he hfresh fun f hk => by
        rw [hop.kind] at hk
        cases hk
    · refine he.redraws h.steady.sound hop.unmarked (fun v hv => ⟨_, owner, hfound, hop.virtualGraph.symm.trans hv⟩) ?_
      rw [hop.kind]
      nofun
    · exact (h.stands (mem_of_erase hpartials hp)).extends_ h.steady.sound he.extends
    · exact hc.enters he (by rw [hop.phase])

/-- What the gradients for a tensor become has its shape. -/
theorem shape_of_settle (h : Upkeep C G relevant s) (hC : C) {i : TensorInfo} (hi : G.info? t = some i) {owner : Op}
    {name : TensorId} (hrun : (Synthesis.settle t owner).run s = (.ok (some name), s')) :
    s'.graph.HasShape name i.shape := by
  have hwaits : ∀ p ∈ (s.partials.get? t).getD [], s.graph.HasShape p.tensor i.shape := by
    intro p hp
    obtain ⟨-, -, i', j, hi', hj, hshape⟩ := h.grown.waits (mem_waiting hp)
    cases hi.symm.trans hi'
    exact ⟨j, hj, hshape hC⟩
  obtain ⟨-, hsettled⟩ := settle_ok h.grown.grows.linked h.grown.grows.numbered hrun
  cases hsettled with
  | @single one x hl hr =>
    obtain ⟨j, hj, hshape⟩ := hwaits one (by rw [hl]; exact List.mem_singleton_self one)
    refine ⟨j, ?_, hshape⟩
    rw [← hj, info?, info?, hr.tensor?_eq, if_pos rfl, hr.found]
    rfl
  | @several many info hl hlen ha =>
    obtain ⟨infos, hinfos, hinfer⟩ := ha.infers
    obtain ⟨x, hx, -, hinfo, -⟩ := ha.result
    refine ⟨info, info?_eq_some.2 ⟨x, hx, hinfo⟩, OpKind.infer_sum hinfer fun j hj => ?_⟩
    rw [mapM_info_eq_ok, List.mapM_map, mapM_eq_some_iff] at hinfos
    obtain ⟨p, hp, hpj⟩ := exists_of_forall₂ hinfos.flip j hj
    obtain ⟨j', hj', hshape⟩ := hwaits p (hl.mem_iff.1 hp)
    cases hj'.symm.trans hpj
    exact hshape

end Upkeep

/-! ## Starts -/

/-- A graph to which gradients can be added: where `C` holds, all infos are right and no extent is below zero. -/
structure Basis (C : Prop) (G : Graph) (relevant : SortedSet OpId) : Prop where
  steady : G.Steady none
  typed : C → G.Typed
  sized : C → ∀ {t i}, G.info? t = some i → i.shape.Sized
  forward : ∀ o ∈ relevant, ∃ op, G.op? o = some op ∧ op.phase = .forward

namespace Basis

variable {g : Graph}

theorem lt_nextOp (hG : Basis C G relevant) : ∀ o ∈ relevant, o < G.nextOp := by
  intro o ho
  obtain ⟨op, hop, -⟩ := hG.forward o ho
  exact hG.steady.sound.opBound hop

/-- Tensors keep their infos, since all computed ones have producers. -/
theorem info?_of (hG : Basis C G relevant) (h : Grows G g) {i : TensorInfo} (hi : G.info? t = some i) :
    g.info? t = some i := by
  obtain ⟨x, hx, -⟩ := info?_eq_some.1 hi
  rw [h.info?_eq hx ?_, hi]
  by_cases htype : x.type = .actGrad
  · obtain ⟨o, ho⟩ := hG.steady.producer_of_computed hx htype
    exact .inr (by rw [ho]; nofun)
  · exact .inl htype

/-- Only tensors of the start need gradients. -/
theorem needsGrad_of (hG : Basis C G relevant) (h : Grows G g) (ht : needsGrad g relevant t = true) :
    needsGrad G relevant t = true := by
  have hhas : G.hasTensor t = true := by
    obtain ⟨x, hx, hweight | ⟨o, ho, hp⟩⟩ := needsGrad_iff.1 ht
    · exact h.types hx (by rw [hweight]; nofun)
    · obtain ⟨op, hop, -⟩ := hG.forward o ho
      obtain ⟨op', hop', -, -, hout⟩ := h.ops hop
      have hmade := (h.linked.mem_outputs hop' hx).1 hp
      obtain ⟨y, hy, -⟩ := hG.steady.sound.linked.hasTensor_of_output hop (hout ▸ hmade)
      exact hasTensor_iff.2 ⟨y, hy⟩
  rwa [h.needsGrad_eq hG.lt_nextOp hhas] at ht

/-- Nothing waits at the start. -/
theorem upkeep (hG : Basis C G relevant) : Upkeep C G relevant { graph := G } where
  grown := ⟨.refl hG.steady.sound.linked fun _ _ => hG.steady.sound.opBound, nofun, .nil⟩
  steady := hG.steady
  typed := hG.typed
  redraws := .refl G
  stands := nofun
  forward := hG.forward

end Basis

namespace Upkeep

theorem startFrom (hG : Basis C G relevant) (h : Upkeep C G relevant s) (hc : s.graph.Capped .backward) {loss : Loss}
    (hrun : (startFrom relevant loss).run s = (.ok (), s')) :
    Upkeep C G relevant s' ∧ s'.graph.Capped .backward := by
  obtain ⟨o, owner, target, ho, howner, htarget, ⟨-, rfl⟩ | ⟨hneeds, p, s₁, hadd, rfl⟩⟩ := startFrom_ok hrun
  · exact ⟨h, hc⟩
  obtain ⟨hfresh, hpartials, op, info, hop, he⟩ := GradM.addFresh_enters h.steady.sound hadd
  have hid : owner.id = o := h.steady.sound.linked.opId howner
  have hkind : op.kind.isLossGrad = true := by
    rw [hop.kind]
    exact loss.isLossGrad_gradKind
  have hreads : owner.inputs ⊆ op.inputs := by
    rw [hop.inputs]
    exact List.subset_append_left ..
  refine ⟨⟨?_, ?_, fun hC => ?_, h.redraws.trans ?_, fun {t q} hq => ?_, h.forward_extends he.extends⟩,
    hc.enters he (by rw [hop.phase])⟩
  · have hgraph : (s₁.note target ⟨o, 0, p⟩).graph = s₁.graph := rfl
    refine (h.grown.noted (m := [(target, p)]) (.cons hadd (.nil s₁)) hgraph (waiting_note s₁ target ⟨o, 0, p⟩) (.refl _)
      fun {t q} hmem => ?_).1
    cases List.mem_singleton.1 hmem
    have ha := he.added
    rw [hop.kind, hop.inputs] at ha
    obtain ⟨i, hi, hi'⟩ := seed_info h.grown.grows (hG.needsGrad_of h.grown.grows hneeds) htarget ha
    exact ⟨i, i, hi, hi', fun _ => rfl⟩
  · refine h.steady.enters he hfresh (fun i _ => ?_) fun f hf => ?_
    · rw [hop.phase]
      exact hc.below i
    · rw [hop.forwardOp, hid, Option.some.injEq] at hf
      subst hf
      refine ⟨h.steady.sound.opBound howner, fun f hf => .inr (.grad hkind ?_)⟩
      cases howner.symm.trans hf
      exact hreads
  · refine (h.typed hC).enters_new h.steady.sound he hfresh fun f hk => ?_
    rw [hk] at hkind
    cases hkind
  · refine he.redraws h.steady.sound hop.unmarked (fun v hv => ⟨o, owner, howner, hop.virtualGraph.symm.trans hv⟩)
      fun hk => ?_
    rw [hk] at hkind
    cases hkind
  · rcases mem_of_note hq with hq | rfl
    · rw [hpartials] at hq
      exact (h.stands hq).extends_ h.steady.sound he.extends
    · refine ⟨(h.steady.sound.opBound howner).trans_le he.extends.nextOp_le, _, op, he.found, he.outputs, hop.phase,
        fun f hf => .inr ⟨hkind, ?_⟩⟩
      cases (he.op?_of h.steady.sound howner).symm.trans hf
      exact hreads

theorem starts (hG : Basis C G relevant) {losses : List Loss} (h : Upkeep C G relevant s)
    (hc : s.graph.Capped .backward) (hrun : (losses.forM (Synthesis.startFrom relevant)).run s = (.ok (), s')) :
    Upkeep C G relevant s' ∧ s'.graph.Capped .backward :=
  Stateful.run_forM_keeps (fun s => Upkeep C G relevant s ∧ s.graph.Capped .backward)
    (fun _ _ _ _ hs hstart => hs.1.startFrom hG hs.2 hstart) ⟨h, hc⟩ hrun

/-! ## Visits -/

/-- The rule for an op of the start may rely on the infos of the start. -/
theorem faces (hG : Basis C G relevant) (h : Upkeep C G relevant s) (hC : C) {o : OpId} {op₀ : Op}
    (hop₀ : G.op? o = some op₀) (hkind : op.kind = op₀.kind) (hin : op.inputs = op₀.inputs)
    (hout : op.outputs = op₀.outputs) (needs : List Bool) {incoming : TensorId}
    (hincoming : ∀ {t i}, op.output = .ok t → G.info? t = some i → s.graph.HasShape incoming i.shape) :
    ∃ is out, ({ op, needs, incoming } : GradCall).Faces is out s.graph := by
  obtain ⟨output, is, out, houtput, his, hinfer, hinfo⟩ := (hG.typed hC).inferred o op₀ hop₀
  have hall := mapM_eq_some_iff.1 his
  have hresult : op.output = .ok output := by rw [Op.output, hout, houtput]; rfl
  refine ⟨is, out, h.steady.sound.linked, fun _ _ => h.steady.sound.opBound, ?_, fun {t} ht => ?_, hkind ▸ hinfer,
    fun i hi => ?_,
    hincoming hresult hinfo⟩
  · rw [hin, mapM_eq_some_iff]
    exact hall.imp fun _ _ => hG.info?_of h.grown.grows
  · cases hresult.symm.trans ht
    exact hG.info?_of h.grown.grows hinfo
  · obtain ⟨t, -, ht⟩ := exists_of_forall₂ hall.flip i hi
    exact hG.sized hC ht

/-- Where infos are right, a rule for an op of the start keeps them right, and gives gradients of the right shapes. -/
theorem suits (hG : Basis C G relevant) (h : Upkeep C G relevant s) (hC : C) {o : OpId} {op₀ : Op}
    (hop₀ : G.op? o = some op₀) (hkind : op.kind = op₀.kind) (hin : op.inputs = op₀.inputs)
    (hout : op.outputs = op₀.outputs) {needs : List Bool} {incoming : TensorId}
    (hincoming : ∀ {t i}, op.output = .ok t → G.info? t = some i → s.graph.HasShape incoming i.shape)
    {rule : GradRule} (hrule : rule.Suited op.kind) {gradients : List (Option TensorId)}
    (hrun : (rule { op, needs, incoming }).run s = (.ok gradients, s')) :
    s'.graph.Typed ∧ ∀ {k : Nat} {i p x}, op.inputs[k]? = some i → gradients[k]? = some (some p) → G.info? i = some x →
      s'.graph.HasShape p x.shape := by
  obtain ⟨is, out, hfaces⟩ := h.faces hG hC hop₀ hkind hin hout needs hincoming
  obtain ⟨-, -, hstays, hsuits⟩ := hrule _ is out rfl s gradients s' hfaces trivial hrun
  have htyped := hstays (fun g => g.Sound ∧ g.Typed) @GradM.keeps_typed ⟨h.steady.sound, h.typed hC⟩
  refine ⟨htyped.2, fun {k i p x} hi hp hx => ?_⟩
  obtain ⟨x', hx', hshape⟩ := hsuits k p hp
  have hinfo := hfaces.info_input (k := k) (t := i) (by rw [Op.input, hi]; rfl)
  rw [hG.info?_of h.grown.grows hx, ← Nat.zero_add k, hx', Option.some.injEq] at hinfo
  exact hinfo ▸ hshape

/-- The ops of a rule are added, and the gradients that it gives start to wait. -/
theorem visits (hG : Basis C G relevant) {rules : GradRegistry} (hrules : rules.Fitting)
    (h : Upkeep C G relevant s) (hc : s.graph.Capped .backward) {o : OpId} (ho : o ∈ relevant)
    (hop : s.graph.op? o = some op) {s₁ s₂ : Synthesis} {incoming : TensorId}
    {gradients : List (Option TensorId)} (hv : Visits rules relevant s op t s₁ incoming gradients s₂) :
    Upkeep C G relevant (noteAll op.id (op.inputs.zip gradients) 0 s₂) ∧ s₂.graph.Capped .backward := by
  obtain ⟨op₀, hop₀, -⟩ := hG.forward o ho
  obtain ⟨op', hop', hkind, hin, hout⟩ := h.grown.grows.ops hop₀
  cases hop.symm.trans hop'
  have hid : op.id = o := h.steady.sound.linked.opId hop
  have hforward : op.phase = .forward := by
    obtain ⟨op', hop', hphase⟩ := h.forward o ho
    cases hop.symm.trans hop'
    exact hphase
  obtain ⟨h₁, hc₁, hplace⟩ := h.settle hG.steady.sound.linked (hid.symm ▸ hop) (.inl hforward) hv.settle
  obtain ⟨rule, hrule, hrun⟩ := hv.rule
  obtain ⟨hlawful, hsuited, hcalm⟩ := hrules hrule
  obtain ⟨l, hemits, hsub, -⟩ := hlawful _ s₁ gradients s₂ hrun
  obtain ⟨hsteady, hcapped, hextends, hpartials, hmade⟩ :=
    hemits.steady h₁.steady (hc₁ hc) (hid.symm ▸ h₁.forward o ho)
  have hincoming : C → ∀ {t' i}, op.output = .ok t' → G.info? t' = some i → s₁.graph.HasShape incoming i.shape := by
    intro hC t' i ht' hi
    cases hv.output.symm.trans ht'
    exact h.shape_of_settle hC hi hv.settle
  have hshapes := fun hC => h₁.suits hG hC hop₀ hkind hin hout (hincoming hC) hsuited hrun
  have hgiven : ∀ {p}, some p ∈ gradients → p ∈ l := fun hp =>
    hsub.subset (List.mem_flatMap.2 ⟨_, hp, Option.mem_toList.2 rfl⟩)
  obtain ⟨hgraph, hwaiting⟩ := waiting_noteAll op.id (op.inputs.zip gradients) 0 s₂
  refine ⟨⟨?_, hgraph ▸ hsteady, fun hC => hgraph ▸ (hshapes hC).1, ?_, fun {t' p} hp => ?_, ?_⟩, hcapped⟩
  · refine (h₁.grown.noted hemits hgraph hwaiting ((given_sublist _ _).trans hsub) fun {i p} hmem => ?_).1
    obtain ⟨k, hi, hp⟩ := mem_given hmem
    obtain ⟨x, hx⟩ := hG.steady.sound.linked.hasTensor_of_input hop₀ (hin ▸ List.mem_of_getElem? hi)
    have hxi := info?_eq_some.2 ⟨x, hx, rfl⟩
    obtain ⟨e, grad, hgrad, hgout, -⟩ := hmade p (hgiven (List.mem_of_getElem? hp))
    obtain ⟨y, hy, -⟩ := hsteady.sound.linked.hasTensor_of_output hgrad (t := p) (by simp [hgout])
    have hyi := info?_eq_some.2 ⟨y, hy, rfl⟩
    refine ⟨x.info, y.info, hxi, hyi, fun hC => ?_⟩
    obtain ⟨j, hj, hshape⟩ := (hshapes hC).2 hi hp hxi
    cases hyi.symm.trans hj
    exact hshape
  · rw [hgraph]
    exact h₁.redraws.trans (hemits.redraws h₁.steady.sound hplace (hcalm _ s₁ gradients s₂ hrun))
  · rw [hgraph]
    rcases mem_of_noteAll op.id _ 0 hp with hp | ⟨i, k, hmem, heq⟩
    · rw [hpartials] at hp
      exact (h₁.stands hp).extends_ h₁.steady.sound hextends
    · obtain ⟨e, grad, hgrad, hgout, hphase⟩ := hmade p.tensor (hgiven (List.of_mem_zip hmem).2)
      obtain ⟨fop, hfop, hforward⟩ := h₁.forward_extends hextends o ho
      rw [heq]
      refine ⟨hid ▸ hsteady.sound.opBound hfop, e, grad, hgrad, hgout, hphase, fun f hf => .inl ?_⟩
      rw [hid] at hf
      cases hfop.symm.trans hf
      exact hforward
  · rw [hgraph]
    exact h₁.forward_extends hextends

theorem visit (hG : Basis C G relevant) {rules : GradRegistry} (hrules : rules.Fitting) (h : Upkeep C G relevant s)
    (hc : s.graph.Capped .backward) {o : OpId} (ho : o ∈ relevant)
    (hrun : (visit rules relevant o).run s = (.ok (), s')) : Upkeep C G relevant s' ∧ s'.graph.Capped .backward := by
  obtain ⟨op, hop, hphase⟩ := h.forward o ho
  rw [visit_run hop] at hrun
  have hid : op.id = o := h.steady.sound.linked.opId hop
  rcases stepBack_ok hrun with ⟨t, -, hsettle⟩ | ⟨t, s₁, incoming, gradients, s₂, hvisits, hgraph, -, rfl⟩
  · obtain ⟨h₁, hc₁, -⟩ := h.settle hG.steady.sound.linked (hid.symm ▸ hop) (.inl hphase) hsettle
    exact ⟨h₁, hc₁ hc⟩
  · obtain ⟨h₁, hc₁⟩ := h.visits hG hrules hc ho hop hvisits
    exact ⟨h₁, hgraph ▸ hc₁⟩

/-! ## Updates -/

theorem update (hG : Basis C G relevant) (h : Upkeep C G relevant s) {weight : TensorId} {result : Option TensorId}
    (hweight : ∃ x, G.tensor? weight = some x ∧ x.type = .weight) (hrun : (update weight).run s = (.ok result, s')) : Upkeep C G relevant s' := by
  rcases update_cases hrun with ⟨rfl, rfl, -⟩ | ⟨rfl, first, template, s₁, info, g₁, hmem, htemplate, hsettle, ha, rfl⟩
  · exact h
  have hid : template.id = first.op := h.steady.sound.linked.opId htemplate
  obtain ⟨h₁, -, place, hplace, hsame⟩ := h.settle hG.steady.sound.linked (hid.symm ▸ htemplate)
    (.inr ⟨first, hmem, hid.symm⟩) hsettle
  have he := Enters.of_addedOp h₁.steady.sound ha (f := fun op => { op with virtualGraph := template.virtualGraph })
    (fun _ => rfl) (fun _ => rfl) (fun _ => rfl) fun _ => rfl
  have hfresh := h₁.steady.tensor?_of_free he.added.free
  obtain ⟨-, hgrown, -⟩ := h₁.grown.updated ha rfl
  refine ⟨hgrown,
    h₁.steady.enters he hfresh (fun i _ => (capped_weightUpdate _).below i) nofun, fun hC => ?_,
    h₁.redraws.trans (he.redraws h₁.steady.sound rfl (fun v hv => ⟨_, place, hplace, hsame.trans hv⟩) fun _ => ?_),
    fun hp => ?_, h₁.forward_extends he.extends⟩
  · exact (h₁.typed hC).enters_new h₁.steady.sound he hfresh fun f hk => by cases hk
  · obtain ⟨x, hx, htype⟩ := hweight
    obtain ⟨⟨x', hx', hgiven⟩, -⟩ := h₁.redraws.sources.stays hx (by rw [htype]; nofun) (by rw [htype]; nofun)
    obtain ⟨infos, hinfos, hinfer⟩ := he.added.infers
    rw [mapM_info_eq_ok, mapM_eq_some_iff] at hinfos
    obtain ⟨i, l', hi, -, rfl⟩ := List.forall₂_cons_left_iff.1 hinfos
    have hsame' := OpKind.infer_sgdVarUpdate hinfer
    rw [List.head?_cons, Option.some.injEq] at hsame'
    rw [info?_eq_some.2 ⟨x', hx', rfl⟩, Option.some.injEq] at hi
    exact ⟨weight, x', rfl, hx', (type_eq_of_given hgiven).trans htype, hsame'.symm.trans hi.symm⟩
  · exact (h₁.stands hp).extends_ h₁.steady.sound he.extends

theorem updates (hG : Basis C G relevant) : ∀ {weights : List TensorId} {s s' : Synthesis}
    {results : List (Option TensorId)}, (∀ w ∈ weights, ∃ x, G.tensor? w = some x ∧ x.type = .weight) →
    Upkeep C G relevant s → (weights.mapM Synthesis.update).run s = (.ok results, s') → Upkeep C G relevant s'
  | [], s, s', results, _, h, hrun => by
    cases hrun
    exact h
  | weight :: weights, s, s', results, hweights, h, hrun => by
    rw [List.mapM_cons] at hrun
    obtain ⟨result, s₁, hfirst, hrun⟩ := Stateful.run_bind_ok.1 hrun
    obtain ⟨rest, s₂, hrest, hrun⟩ := Stateful.run_bind_ok.1 hrun
    cases hrun
    exact updates hG (fun w hw => hweights w (List.mem_cons_of_mem _ hw))
      (h.update hG (hweights weight List.mem_cons_self) hfirst) hrest

end Upkeep

/-! ## The whole synthesis -/

/-- A synthesis keeps graphs of sessions what they are. Where no extent is below zero, infos stay right. -/
theorem run_upkeep {rules : GradRegistry} (hrules : rules.Fitting) {losses : List Loss}
    (hG : Basis C G (relevantOps G losses)) (hc : G.Capped .backward) {updated : List TensorId}
    (hrun : (run rules losses).run { graph := G } = (.ok updated, s')) : Upkeep C G (relevantOps G losses) s' := by
  obtain ⟨s₁, s₂, order, results, hstarts, -, hsweep, hupdates, rfl⟩ := run_parts hrun
  obtain ⟨h₁, hc₁⟩ := hG.upkeep.starts hG hc hstarts
  obtain ⟨h₂, -⟩ := Stateful.run_forM_keeps
    (fun s => Upkeep C G (relevantOps G losses) s ∧ s.graph.Capped .backward)
    (fun o ho _ _ hs hvisit => hs.1.visit hG hrules hs.2 (SortedSet.contains_iff.1 (List.mem_filter.1 ho).2) hvisit)
    ⟨h₁, hc₁⟩ hsweep
  refine h₂.updates hG (fun w hw => ?_) hupdates
  obtain ⟨x', hx', htype⟩ := (mem_weights h₂.steady.sound.linked).1 hw
  obtain ⟨x, hx, hsame⟩ := h₂.redraws.sources.origin hx' (by rw [htype]; rfl)
  exact ⟨x, hx, hsame.trans htype⟩

end Synthesis

end TensorGraph
