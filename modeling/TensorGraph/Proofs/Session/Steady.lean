import TensorGraph.Proofs.Gradient.Emission
import TensorGraph.Proofs.Graph.Meaning
import TensorGraph.Proofs.Graph.Sources

/-!
What the graphs of sessions have in common, whatever has been added to them or simplified: tables that agree, one
result for each op, a producer for each computed tensor, phases that only go forward, and gradients of losses that
depend on all that their losses depend on. Each change of a graph keeps this; while an op is being replaced, its result
may stand without a producer.
-/
namespace TensorGraph

/-- Whether the op is the gradient of a loss. -/
def OpKind.isLossGrad : OpKind → Bool
  | nllGrad _ _ | l1Grad _ _ => true
  | _ => false

namespace Graph

variable {g g' : Graph} {o : OpId} {op new : Op} {t output : TensorId} {info : TensorInfo} {φ : Phase}
  {hole : Option TensorId}

/-! ## Adding an op -/

/-- The op `op` was added under the next number, with `output` for its result. -/
structure Enters (g : Graph) (op : Op) (output : TensorId) (info : TensorInfo) (g' : Graph) : Prop where
  added : Added g op.kind op.inputs output info g'
  found : g'.op? g.nextOp = some op
  outputs : op.outputs = [output]
  sound : g'.Sound
  kept : g'.kept = g.kept
  streams : g'.streams = g.streams

namespace Enters

theorem of_addedOp {kind : OpKind} {inputs : List TensorId} {g₁ : Graph} (hs : g.Sound)
    (ha : AddedOp g kind inputs output φ info g₁) {f : Op → Op} (hid : ∀ op, (f op).id = op.id)
    (hk : ∀ op, (f op).kind = op.kind) (hin : ∀ op, (f op).inputs = op.inputs)
    (hout : ∀ op, (f op).outputs = op.outputs) :
    Enters g (f { id := g.nextOp, kind, name := output, inputs, outputs := [output], phase := φ }) output info
      (g₁.modifyOp g.nextOp f) where
  added := by
    rw [hk, hin]
    exact .of_addedOp hs.linked (fun _ _ => hs.opBound) ha hid hk hin hout
  found := by
    rw [op?_modifyOp, if_pos rfl, ha.op?_eq, if_pos rfl]
    rfl
  outputs := hout _
  sound := (hs.addOp ha).modifyOp g.nextOp hid hin hout
  kept := ha.kept_eq
  streams := ha.streams_eq

/-- The number of the next fresh name does not matter. -/
theorem of_nextTemp {n : Nat} (h : Enters { g with nextTemp := n } op output info g') : Enters g op output info g' :=
  ⟨⟨h.added.infers, h.added.free, h.added.found, h.added.others, h.added.bare_eq, h.added.result, h.added.nextOp_eq,
    h.added.linked⟩, h.found, h.outputs, h.sound, h.kept, h.streams⟩

/-- An op of the new graph is the new one, or was there before. -/
theorem op_cases (h : Enters g new output info g') (ho : g'.op? o = some op) :
    o = g.nextOp ∧ op = new ∨ o ≠ g.nextOp ∧ g.op? o = some op := by
  by_cases hne : o = g.nextOp
  · subst hne
    rw [h.found] at ho
    exact .inl ⟨rfl, (Option.some.inj ho).symm⟩
  · rw [h.added.others o hne] at ho
    exact .inr ⟨hne, ho⟩

theorem op?_of (h : Enters g new output info g') (hs : g.Sound) (ho : g.op? o = some op) : g'.op? o = some op := by
  rw [h.added.others o (Nat.ne_of_lt (hs.opBound ho)), ho]

/-- A tensor of the new graph is the result of the new op, or was there before. -/
theorem tensor_cases (h : Enters g new output info g') {x' : Tensor} (hx' : g'.tensor? t = some x') :
    t = output ∧ x'.producer = some g.nextOp ∧ x'.type = .actGrad ∧ x'.info = info ∨
      t ≠ output ∧ ∃ x, g.tensor? t = some x ∧ x'.type = x.type ∧ x'.producer = x.producer ∧ x'.info = x.info := by
  by_cases ht : t = output
  · obtain ⟨y, hy, hp, hi, htype⟩ := h.added.result
    rw [← ht, hx', Option.some.injEq] at hy
    subst hy
    exact .inl ⟨ht, hp, htype, hi⟩
  · obtain ⟨x, hx, hsame⟩ := lookup_of_bare (h.added.bare_eq t ht).symm hx'
    exact .inr ⟨ht, x, hx, hsame.type.symm, hsame.producer.symm, hsame.info.symm⟩

theorem producer_cases (h : Enters g new output info g') (hp : g'.producer? t = some o) :
    t = output ∧ o = g.nextOp ∨ t ≠ output ∧ g.producer? t = some o := by
  obtain ⟨x', hx', hxp⟩ := producer?_eq_some.1 hp
  rcases h.tensor_cases hx' with ⟨ht, hnext, -⟩ | ⟨ht, x, hx, -, hproducer, -⟩
  · exact .inl ⟨ht, Option.some.inj (hxp.symm.trans hnext)⟩
  · exact .inr ⟨ht, producer?_eq_some.2 ⟨x, hx, hproducer.symm.trans hxp⟩⟩

/-- Tensors that were there before keep their infos, the result apart. -/
theorem info?_of (h : Enters g new output info g') {i : TensorInfo} (hi : g.info? t = some i) (ht : t ≠ output) :
    g'.info? t = some i := by
  rw [← hi]
  exact info?_congr (h.added.bare_eq t ht)

theorem info?_output (h : Enters g new output info g') : g'.info? output = some info := by
  obtain ⟨x, hx, -, hi, -⟩ := h.added.result
  exact info?_eq_some.2 ⟨x, hx, hi⟩

theorem keepsSources (h : Enters g new output info g') : KeepsSources g g' := by
  refine .of_streams (fun t ht => h.streams ▸ ht)
    (fun {t x} hx htype _ => ⟨given_of_bare (h.added.bare_eq t ?_) hx, fun hk => h.kept ▸ hk⟩) (fun {t x'} hx' hheld => ?_)
    fun {t x'} hx' hconst => ?_
  · rintro rfl
    exact htype (isFree_iff.1 h.added.free x hx).2
  · rcases h.tensor_cases hx' with ⟨-, -, hgrad, -⟩ | ⟨-, x, hx, hsame, -⟩
    · rw [hgrad] at hheld
      cases hheld
    · exact ⟨x, hx, hsame.symm⟩
  · rcases h.tensor_cases hx' with ⟨-, -, hgrad, -⟩ | ⟨ht, -⟩
    · rw [hgrad] at hconst
      cases hconst
    · exact given_of_bare (h.added.bare_eq t ht).symm hx'

/-- An op that is added is no update, or one of a weight. -/
theorem updating (h : Enters g new output info g') (hs : g.Sound) (hg : g.Updating) (hnew : new.kind = .sgdVarUpdate →
    ∃ w x, new.inputs.head? = some w ∧ g.tensor? w = some x ∧ x.type = .weight ∧ info = x.info) : g'.Updating := by
  have hstays : ∀ {w x}, g.tensor? w = some x → x.type = .weight →
      ∃ x', g'.tensor? w = some x' ∧ x'.type = .weight ∧ x'.info = x.info := by
    intro w x hx htype
    obtain ⟨⟨x', hx', hgiven⟩, -⟩ := h.keepsSources.stays hx (by rw [htype]; nofun) (by rw [htype]; nofun)
    exact ⟨x', hx', (type_eq_of_given hgiven).trans htype, info_eq_of_given hgiven⟩
  intro o op ho hk
  rcases h.op_cases ho with ⟨-, rfl⟩ | ⟨-, ho⟩
  · obtain ⟨w, x, hw, hx, htype, hinfo⟩ := hnew hk
    obtain ⟨x', hx', htype', hinfo'⟩ := hstays hx htype
    exact ⟨w, x', output, hw, hx', htype', h.outputs, by rw [h.info?_output, hinfo, hinfo']⟩
  · obtain ⟨w, x, u, hw, hx, htype, hu, hi⟩ := hg o op ho hk
    obtain ⟨x', hx', htype', hinfo'⟩ := hstays hx htype
    refine ⟨w, x', u, hw, hx', htype', hu, hinfo'.symm ▸ h.info?_of hi ?_⟩
    rintro rfl
    obtain ⟨y, hy, hp⟩ := hs.linked.hasTensor_of_output ho (t := u) (by simp [hu])
    rw [(isFree_iff.1 h.added.free y hy).1] at hp
    cases hp

theorem drafted {V : Int → Prop} (h : Enters g new output info g') (hg : g.Drafted V)
    (hnew : new.inPlace = false ∧ ∀ v, new.virtualGraph = some v → V v) : g'.Drafted V := by
  intro o op ho
  rcases h.op_cases ho with ⟨-, rfl⟩ | ⟨-, ho⟩
  · exact hnew
  · exact hg o op ho

/-- An op that is added is not marked, and names a virtual graph only if an op of the graph does. -/
theorem redraws (h : Enters g new output info g') (hs : g.Sound) (hmark : new.inPlace = false)
    (hplace : ∀ v, new.virtualGraph = some v → ∃ o op, g.op? o = some op ∧ op.virtualGraph = some v)
    (hupdate : new.kind = .sgdVarUpdate →
      ∃ w x, new.inputs.head? = some w ∧ g.tensor? w = some x ∧ x.type = .weight ∧ info = x.info) : Redraws g g' := by
  refine ⟨h.keepsSources, fun hg => h.updating hs hg hupdate, fun hg => h.drafted hg ⟨hmark, fun v hv => ?_⟩⟩
  obtain ⟨o, op, ho, hop⟩ := hplace v hv
  exact (hg o op ho).2 v hop

end Enters

/-! ## Phases -/

/-- The producer of a tensor, if it has one, is not of a later phase than `φ`. -/
def Below (g : Graph) (φ : Phase) (t : TensorId) : Prop :=
  ∀ p op, g.producer? t = some p → g.op? p = some op → op.phase.rank ≤ φ.rank

/-- The ops that read a tensor are not of an earlier phase than `φ`. -/
def Above (g : Graph) (φ : Phase) (t : TensorId) : Prop :=
  ∀ o op, g.op? o = some op → t ∈ op.inputs → φ.rank ≤ op.phase.rank

/-- No op reads what an op of a later phase produces. -/
def Phased (g : Graph) : Prop := ∀ o op, g.op? o = some op → ∀ t ∈ op.inputs, g.Below op.phase t

/-- All ops are of the phase `φ` or an earlier one. -/
def Capped (g : Graph) (φ : Phase) : Prop := ∀ o op, g.op? o = some op → op.phase.rank ≤ φ.rank

theorem Capped.below (h : g.Capped φ) (t : TensorId) : g.Below φ t := fun p op _ ho => h p op ho

theorem Capped.enters (h : g.Capped φ) (he : Enters g new output info g') (hnew : new.phase.rank ≤ φ.rank) :
    g'.Capped φ := by
  intro o op ho
  rcases he.op_cases ho with ⟨-, rfl⟩ | ⟨-, ho⟩
  · exact hnew
  · exact h o op ho

theorem Linked.above_of_none (h : g.Linked) (ht : g.tensor? t = none) : g.Above φ t := by
  intro o op ho hin
  exact absurd (.inl hin) (h.not_mentioned ht ho)

theorem Below.enters (h : g.Below φ t) (he : Enters g new output info g')
    (hnew : t = output → new.phase.rank ≤ φ.rank) : g'.Below φ t := by
  intro p op hp ho
  rcases he.producer_cases hp with ⟨ht, rfl⟩ | ⟨ht, hp⟩
  · rw [he.found, Option.some.injEq] at ho
    exact ho ▸ hnew ht
  · rcases he.op_cases ho with ⟨rfl, rfl⟩ | ⟨-, ho⟩
    · -- the new op produces its result and nothing else
      obtain ⟨x', hx', hxp⟩ := producer?_eq_some.1 (he.added.keeps hp).1
      have hmem := (he.added.linked.mem_outputs he.found hx').1 hxp
      rw [he.outputs, List.mem_singleton] at hmem
      exact hnew hmem
    · exact h p op hp ho

namespace Phased

theorem enters (h : g.Phased) (he : Enters g new output info g') (hin : ∀ i ∈ new.inputs, g.Below new.phase i)
    (hout : g.Above new.phase output) : g'.Phased := by
  intro o op ho i hi
  rcases he.op_cases ho with ⟨-, rfl⟩ | ⟨-, ho⟩
  · exact (hin i hi).enters he fun _ => Nat.le_refl _
  · exact (h o op ho i hi).enters he fun heq => hout o op ho (heq ▸ hi)

end Phased

/-! ## Gradients of losses -/

/-- The values of a tensor are not computed. -/
def Known (g : Graph) (t : TensorId) : Prop := ∀ x, g.tensor? t = some x → x.type ≠ .actGrad

/-- Whatever `f` depends on, `op` depends on too: it is the gradient of a loss and reads what `f` reads, or it is a sum
and such a gradient is one of its summands. Where that gradient has become a constant, `f` reads nothing that is
computed. -/
inductive Covers (g : Graph) (f op : Op) : Prop
  | grad (kind : op.kind.isLossGrad = true) (reads : f.inputs ⊆ op.inputs)
  | sum (kind : op.kind = .sum) (several : 2 ≤ op.inputs.length) {e : OpId} {grad : Op} {t : TensorId}
      (found : g.op? e = some grad) (gradKind : grad.kind.isLossGrad = true) (reads : f.inputs ⊆ grad.inputs)
      (made : t ∈ grad.outputs) (read : t ∈ op.inputs)
  | known (kind : op.kind = .sum) (several : 2 ≤ op.inputs.length) (reads : ∀ t ∈ f.inputs, g.Known t)

/-- An op belongs to an op that was there before it. If that is no forward op, then it depends on whatever that op
depends on. -/
def Tied (g : Graph) : Prop := ∀ o op f, g.op? o = some op → op.forwardOp = some f →
  f < o ∧ ∀ fop, g.op? f = some fop → fop.phase = .forward ∨ g.Covers fop op

theorem Covers.kind {f : Op} (h : g.Covers f op) :
    op.kind.isLossGrad = true ∨ op.kind = .sum ∧ 2 ≤ op.inputs.length := by
  cases h with
  | grad kind _ => exact .inl kind
  | sum kind several _ _ _ _ _ => exact .inr ⟨kind, several⟩
  | known kind several _ => exact .inr ⟨kind, several⟩

/-- The gradient of a loss that is summed in `op` is still there, under the names that `ψ` gives to tensors, or it
was computed from known tensors. -/
def GradStays (ψ : TensorId → TensorId) (g g' : Graph) (op : Op) : Prop :=
  ∀ e grad t, g.op? e = some grad → grad.kind.isLossGrad = true → t ∈ grad.outputs → t ∈ op.inputs →
    (∃ grad', g'.op? e = some grad' ∧ grad'.kind = grad.kind ∧ grad'.inputs = grad.inputs.map ψ ∧
      ψ t ∈ grad'.outputs) ∨ ∀ i ∈ grad.inputs, g'.Known (ψ i)

theorem Covers.map {f f' op' : Op} {ψ : TensorId → TensorId} (h : g.Covers f op) (hk : op'.kind = op.kind)
    (hin : op'.inputs = op.inputs.map ψ) (hf : f'.inputs = f.inputs.map ψ) (hgrad : GradStays ψ g g' op)
    (hknown : ∀ t ∈ f.inputs, g.Known t → g'.Known (ψ t)) : g'.Covers f' op' := by
  cases h with
  | grad kind reads => exact .grad (hk ▸ kind) (hf ▸ hin ▸ List.map_subset ψ reads)
  | @sum kind several e grad t found gradKind reads made read =>
    have hlen : 2 ≤ op'.inputs.length := by
      rw [hin, List.length_map]
      exact several
    rcases hgrad e grad t found gradKind made read with ⟨grad', found', kind', hin', made'⟩ | hall
    · exact .sum (hk.trans kind) hlen found' (kind' ▸ gradKind) (hf ▸ hin' ▸ List.map_subset ψ reads) made'
        (hin ▸ List.mem_map_of_mem read)
    · refine .known (hk.trans kind) hlen fun t' ht' => ?_
      rw [hf] at ht'
      obtain ⟨i, hi, rfl⟩ := List.mem_map.1 ht'
      exact hall i (reads hi)
  | known kind several reads =>
    refine .known (hk.trans kind) (by rw [hin, List.length_map]; exact several) fun t' ht' => ?_
    rw [hf] at ht'
    obtain ⟨i, hi, rfl⟩ := List.mem_map.1 ht'
    exact hknown i hi (reads i hi)

/-- Each op of `g'` is one of `g`, under the names that `ψ` gives to tensors. -/
def Follows (ψ : TensorId → TensorId) (g g' : Graph) : Prop := ∀ o op', g'.op? o = some op' →
  ∃ op, g.op? o = some op ∧ op'.kind = op.kind ∧ op'.phase = op.phase ∧ op'.forwardOp = op.forwardOp ∧
    op'.inputs = op.inputs.map ψ

theorem Tied.follows (h : g.Tied) {ψ : TensorId → TensorId} (hf : Follows ψ g g')
    (hgrad : ∀ o op op', g.op? o = some op → g'.op? o = some op' → GradStays ψ g g' op)
    (hknown : ∀ o op t, g.op? o = some op → t ∈ op.inputs → g.Known t → g'.Known (ψ t)) : g'.Tied := by
  intro o op' f ho' hfwd
  obtain ⟨op, ho, hk, -, hforward, hin⟩ := hf o op' ho'
  obtain ⟨hlt, hcase⟩ := h o op f ho (hforward.symm.trans hfwd)
  refine ⟨hlt, fun fop' hfop' => ?_⟩
  obtain ⟨fop, hfop, -, hphase, -, hfin⟩ := hf f fop' hfop'
  rw [hphase]
  exact (hcase fop hfop).imp_right fun hc => hc.map hk hin hfin (hgrad o op op' ho ho') fun t ht =>
    hknown f fop t hfop ht

theorem Tied.enters (h : g.Tied) (hs : g.Sound) (he : Enters g new output info g')
    (hnew : ∀ f, new.forwardOp = some f → f < g.nextOp ∧
      ∀ fop, g.op? f = some fop → fop.phase = .forward ∨ g.Covers fop new) : g'.Tied := by
  have hcovers : ∀ {f fop op}, g.op? f = some fop → g.Covers fop op → g'.Covers fop op := by
    intro f fop op hf hc
    refine hc.map rfl (List.map_id _).symm (List.map_id _).symm (fun e grad t he' _ hmade _ => ?_) fun t ht hknown x' hx' => ?_
    · exact .inl ⟨grad, he.op?_of hs he', rfl, (List.map_id _).symm, hmade⟩
    · -- what the new op produces was not known before, if it was there at all
      obtain ⟨x, hx⟩ := hs.linked.hasTensor_of_input hf ht
      rcases he.tensor_cases hx' with ⟨rfl, -⟩ | ⟨-, y, hy, htype, -⟩
      · exact absurd (isFree_iff.1 he.added.free x hx).2 (hknown x hx)
      · exact htype ▸ hknown y hy
  intro o op f ho hf
  rcases he.op_cases ho with ⟨rfl, rfl⟩ | ⟨-, ho⟩
  · obtain ⟨hlt, hcase⟩ := hnew f hf
    refine ⟨hlt, fun fop hfop => ?_⟩
    rw [he.added.others f (Nat.ne_of_lt hlt)] at hfop
    exact (hcase fop hfop).imp_right (hcovers hfop)
  · obtain ⟨hlt, hcase⟩ := h o op f ho hf
    refine ⟨hlt, fun fop hfop => ?_⟩
    rw [he.added.others f (Nat.ne_of_lt (hlt.trans (hs.opBound ho)))] at hfop
    exact (hcase fop hfop).imp_right (hcovers hfop)

/-! ## The invariant -/

/-- A graph of a session; only the tensor `hole`, if there is one, may be computed and have no producer. -/
structure Steady (hole : Option TensorId) (g : Graph) : Prop where
  sound : g.Sound
  single : ∀ {o op}, g.op? o = some op → ∃ t, op.outputs = [t]
  computed : ∀ {t x}, g.tensor? t = some x → x.type = .actGrad → x.producer = none → hole = some t
  phased : g.Phased
  tied : g.Tied

namespace Steady

theorem empty : Graph.empty.Steady none := by
  refine ⟨.empty, ?_, ?_, fun _ _ ho => ?_, fun _ _ _ ho => ?_⟩ <;> intros <;> contradiction

theorem producer_of_computed (h : g.Steady none) {x : Tensor} (hx : g.tensor? t = some x) (htype : x.type = .actGrad) :
    ∃ o, x.producer = some o := by
  cases hp : x.producer with
  | none => cases h.computed hx htype hp
  | some o => exact ⟨o, rfl⟩

/-- Where all computed tensors have producers, only new names are free. -/
theorem tensor?_of_free (h : g.Steady none) (hfree : g.isFree t = true) : g.tensor? t = none := by
  cases hx : g.tensor? t with
  | none => rfl
  | some x =>
    obtain ⟨hnone, htype⟩ := isFree_iff.1 hfree x hx
    cases h.computed hx htype hnone

/-- A graph whose ops are those of another, under other names of tensors, and read nothing later than they did. -/
theorem of_follows {hole' : Option TensorId} (h : g.Steady hole) (hs : g'.Sound) {ψ : TensorId → TensorId}
    (hf : Follows ψ g g') (hsingle : ∀ {o op'}, g'.op? o = some op' → ∃ t, op'.outputs = [t])
    (hcomputed : ∀ {t x}, g'.tensor? t = some x → x.type = .actGrad → x.producer = none → hole' = some t)
    (hbelow : ∀ {o op i p pop}, g.op? o = some op → i ∈ op.inputs → g'.producer? (ψ i) = some p → g.op? p = some pop →
      pop.phase.rank ≤ op.phase.rank)
    (hgrad : ∀ {o op op'}, g.op? o = some op → g'.op? o = some op' → GradStays ψ g g' op)
    (hknown : ∀ {o op t}, g.op? o = some op → t ∈ op.inputs → g.Known t → g'.Known (ψ t)) : g'.Steady hole' := by
  refine ⟨hs, hsingle, hcomputed, fun o op' ho' i hi p pop' hp hpop' => ?_,
    h.tied.follows hf (fun _ _ _ => hgrad) fun _ _ _ => hknown⟩
  obtain ⟨op, ho, -, hphase, -, hin⟩ := hf o op' ho'
  obtain ⟨pop, hpop, -, hpphase, -⟩ := hf p pop' hpop'
  rw [hin] at hi
  obtain ⟨j, hj, rfl⟩ := List.mem_map.1 hi
  rw [hphase, hpphase]
  exact hbelow ho hj hp hpop

/-! ## Each change -/

/-- An op is added under a new name. -/
theorem enters (h : g.Steady hole) (he : Enters g new output info g') (hfresh : g.tensor? output = none)
    (hin : ∀ i ∈ new.inputs, g.Below new.phase i)
    (hnew : ∀ f, new.forwardOp = some f → f < g.nextOp ∧
      ∀ fop, g.op? f = some fop → fop.phase = .forward ∨ g.Covers fop new) : g'.Steady hole := by
  refine ⟨he.sound, fun {o op} ho => ?_, fun {t x'} hx' htype hnone => ?_,
    h.phased.enters he hin (h.sound.linked.above_of_none hfresh), h.tied.enters h.sound he hnew⟩
  · rcases he.op_cases ho with ⟨-, rfl⟩ | ⟨-, ho⟩
    · exact ⟨output, he.outputs⟩
    · exact h.single ho
  · rcases he.tensor_cases hx' with ⟨-, hp, -⟩ | ⟨-, x, hx, ht, hp, -⟩
    · rw [hp] at hnone
      cases hnone
    · exact h.computed hx (ht.symm.trans htype) (hp.symm.trans hnone)

/-- An op is added that produces the tensor without a producer. -/
theorem fills (h : g.Steady (some output)) (he : Enters g new output info g')
    (hin : ∀ i ∈ new.inputs, g.Below new.phase i) (hout : g.Above new.phase output)
    (hnew : ∀ f, new.forwardOp = some f → f < g.nextOp ∧
      ∀ fop, g.op? f = some fop → fop.phase = .forward ∨ g.Covers fop new) : g'.Steady none := by
  refine ⟨he.sound, fun {o op} ho => ?_, fun {t x'} hx' htype hnone => ?_, h.phased.enters he hin hout,
    h.tied.enters h.sound he hnew⟩
  · rcases he.op_cases ho with ⟨-, rfl⟩ | ⟨-, ho⟩
    · exact ⟨output, he.outputs⟩
    · exact h.single ho
  · rcases he.tensor_cases hx' with ⟨-, hp, -⟩ | ⟨hne, x, hx, ht, hp, -⟩
    · rw [hp] at hnone
      cases hnone
    · exact absurd (Option.some.inj (h.computed hx (ht.symm.trans htype) (hp.symm.trans hnone))) (Ne.symm hne)

/-- Ops and tensors are removed; tensors that are read keep their producers, because the tables agree. -/
theorem restricts (h : g.Steady hole) (hr : Restricts g g') (hs : g'.Sound) : g'.Steady hole := by
  have htensor : ∀ {t x'}, g'.tensor? t = some x' →
      ∃ x, g.tensor? t = some x ∧ x'.type = x.type ∧ x'.producer = x.producer := by
    intro t x' hx'
    obtain ⟨x, hx, hsame⟩ := hr.lookup hx'
    exact ⟨x, hx, hsame.type.symm, hsame.producer.symm⟩
  refine h.of_follows (ψ := id) hs (fun o op' ho' => ⟨op', hr.op ho', rfl, rfl, rfl, (List.map_id _).symm⟩)
    (fun ho' => h.single (hr.op ho')) (fun {t x'} hx' htype hnone => ?_) (fun {o op i p pop} ho hi hp hpop => ?_)
    (fun {o op op'} ho ho' e grad t hgrad hk hmade hread => .inl ?_) (fun _ _ hknown x' hx' => ?_)
  · obtain ⟨x, hx, ht, hp⟩ := htensor hx'
    exact h.computed hx (ht.symm.trans htype) (hp.symm.trans hnone)
  · obtain ⟨x', hx', hxp⟩ := producer?_eq_some.1 hp
    obtain ⟨x, hx, -, hproducer⟩ := htensor hx'
    exact h.phased o op ho i hi p pop (producer?_eq_some.2 ⟨x, hx, hproducer.symm.trans hxp⟩) hpop
  · cases (hr.op ho').symm.trans ho
    obtain ⟨x', hx'⟩ := hr.linked.hasTensor_of_input ho' hread
    obtain ⟨x, hx, -, hproducer⟩ := htensor hx'
    have hmaker := (h.sound.linked.mem_outputs hgrad hx).2 hmade
    obtain ⟨grad', hgrad', hmade'⟩ :=
      hr.linked.op_of_producer (producer?_eq_some.2 ⟨x', hx', hproducer.trans hmaker⟩)
    cases (hr.op hgrad').symm.trans hgrad
    exact ⟨grad, hgrad', rfl, (List.map_id _).symm, hmade'⟩
  · obtain ⟨x, hx, ht, -⟩ := htensor hx'
    exact ht ▸ hknown x hx

/-- An op is taken out, and its result stays behind. -/
theorem detaches (h : g.Steady none) (hd : DroppedOp g op.id op false g') (hout : op.outputs = [output])
    (hkind : op.kind.isLossGrad = false) : g'.Steady (some output) ∧ g'.Above op.phase output := by
  have hop : ∀ {o op'}, g'.op? o = some op' ↔ o ≠ op.id ∧ g.op? o = some op' := hd.op?_eq_some
  have htensor : ∀ {t x'}, g'.tensor? t = some x' → ∃ x, g.tensor? t = some x ∧ x'.type = x.type ∧
      x'.producer = if t = output then none else x.producer := by
    intro t x' hx'
    obtain ⟨x, hx, rfl⟩ := hd.lookup hx'
    exact ⟨x, hx, rfl, by simp [hout]⟩
  constructor
  · refine h.of_follows (ψ := id) (h.sound.dropOp hd nofun)
      (fun o op' ho' => ⟨op', (hop.1 ho').2, rfl, rfl, rfl, (List.map_id _).symm⟩) (fun ho' => h.single (hop.1 ho').2)
      (fun {t x'} hx' htype hnone => ?_) (fun {o op i p pop} ho hi hp hpop => ?_)
      (fun _ _ e grad t hgrad hk hmade hread => .inl ?_) (fun _ _ hknown x' hx' => ?_)
    · obtain ⟨x, hx, ht, hp⟩ := htensor hx'
      by_cases hto : t = output
      · rw [hto]
      · rw [if_neg hto] at hp
        cases h.computed hx (ht.symm.trans htype) (hp.symm.trans hnone)
    · obtain ⟨x', hx', hxp⟩ := producer?_eq_some.1 hp
      obtain ⟨x, hx, -, hproducer⟩ := htensor hx'
      rw [hxp] at hproducer
      split at hproducer
      · cases hproducer
      · exact h.phased o op ho i hi p pop (producer?_eq_some.2 ⟨x, hx, hproducer.symm⟩) hpop
    · have hne : e ≠ op.id := by
        rintro rfl
        cases hd.found.symm.trans hgrad
        rw [hkind] at hk
        cases hk
      exact ⟨grad, hop.2 ⟨hne, hgrad⟩, rfl, (List.map_id _).symm, hmade⟩
    · obtain ⟨x, hx, ht, -⟩ := htensor hx'
      exact ht ▸ hknown x hx
  · intro o reader ho hi
    obtain ⟨-, ho⟩ := hop.1 ho
    have hproducer := (h.sound.linked.producer?_iff_of_outputs hd.found hout).2 rfl
    exact h.phased o reader ho output hi op.id op hproducer hd.found

/-- An op on constants is taken out, and its result becomes a constant. -/
theorem folds (h : g.Steady none) {y : HostTensor} (hf : Folded g op output y g') (hs : g'.Sound)
    (hconst : ∀ i ∈ op.inputs, ∃ x, g.tensor? i = some x ∧ x.type = .const) : g'.Steady none := by
  refine h.of_follows (ψ := id) hs
    (fun o op' ho' => ⟨op', (hf.op?_eq_some.1 ho').2, rfl, rfl, rfl, (List.map_id _).symm⟩)
    (fun ho' => h.single (hf.op?_eq_some.1 ho').2) (fun {t x'} hx' htype hnone => ?_)
    (fun {o reader i p pop} ho hi hp hpop => h.phased o reader ho i hi p pop (hf.producer?_eq_some hp).2 hpop)
    (fun _ _ e grad t hgrad hk hmade hread => ?_) (fun _ _ hknown x' hx' => ?_)
  · rcases hf.lookup hx' with ⟨-, hc, -⟩ | ⟨-, x, hx, halike⟩
    · rw [hc] at htype
      cases htype
    · exact h.computed hx (halike.type.trans htype) (halike.producer.trans hnone)
  · by_cases hne : e = op.id
    · -- the folded op itself: all that it read is known
      subst hne
      cases hf.found.symm.trans hgrad
      refine .inr fun i hi x' hx' => ?_
      rcases hf.lookup hx' with ⟨-, hc, -⟩ | ⟨-, z, hz, halike⟩
      · rw [hc]
        nofun
      · obtain ⟨x, hx, hc⟩ := hconst i hi
        cases hx.symm.trans hz
        rw [← halike.type, hc]
        nofun
    · exact .inl ⟨grad, hf.op?_eq_some.2 ⟨hne, hgrad⟩, rfl, (List.map_id _).symm, hmade⟩
  · rcases hf.lookup hx' with ⟨-, hc, -⟩ | ⟨-, x, hx, halike⟩
    · rw [hc]
      nofun
    · exact halike.type ▸ hknown x hx

/-- All ops that read the result of an identity read its operand instead. -/
theorem rewires (h : g.Steady none) {old new : TensorId} (ho : g.op? op.id = some op) (hkind : op.kind = .identity)
    (hin : new ∈ op.inputs) (hout : op.outputs = [old]) (hb : Bypassed g old new g') : g'.Steady none := by
  have hold := (h.sound.linked.producer?_iff_of_outputs ho hout).2 rfl
  refine h.of_follows (ψ := fun i => if i = old then new else i) (h.sound.bypassed hb) (fun o op' ho' => ?_)
    (fun {o op'} ho' => ?_) (fun {t x'} hx' htype hnone => ?_) (fun {o reader i p pop} hr hi hp hpop => ?_)
    (fun {o reader reader'} hr _ e grad t hgrad hk hmade hread => .inl ?_) (fun _ _ hknown x' hx' => ?_)
  · obtain ⟨op, ho, rfl⟩ := hb.op_of ho'
    exact ⟨op, ho, rfl, rfl, rfl, rfl⟩
  · obtain ⟨op, ho, rfl⟩ := hb.op_of ho'
    obtain ⟨t, ht⟩ := h.single ho
    exact ⟨t, ht⟩
  · obtain ⟨x, hx, hsame⟩ := hb.lookup hx'
    exact h.computed hx (hsame.type.trans htype) (hsame.producer.trans hnone)
  · rw [hb.producer?_eq] at hp
    split at hp
    · -- the operand is not later than the identity, and the identity is not later than the reader
      rename_i heq
      have hfirst := h.phased op.id op ho new hin p pop hp hpop
      have hsecond := h.phased o reader hr i hi op.id op (heq ▸ hold) ho
      exact hfirst.trans hsecond
    · exact h.phased o reader hr i hi p pop hp hpop
  · have hne : t ≠ old := by
      rintro rfl
      cases h.sound.linked.producer_unique hgrad ho hmade (by rw [hout]; exact List.mem_singleton_self t)
      cases ho.symm.trans hgrad
      rw [hkind] at hk
      cases hk
    refine ⟨rewire old new grad, by rw [hb.op?_eq, hgrad]; rfl, rfl, rfl, ?_⟩
    simp only [hne, if_false]
    exact hmade
  · obtain ⟨x, hx, hsame⟩ := hb.lookup hx'
    split at hx
    · rename_i heq
      obtain ⟨y, hy, hyp⟩ := producer?_eq_some.1 hold
      exact absurd (h.sound.produced hy hyp) (hknown y (heq ▸ hy))
    · exact hsame.type ▸ hknown x hx

/-- A tensor gets another name. -/
theorem renamed (h : g.Steady none) {old new : TensorId} {x : Tensor} (hr : Renamed g old new x g') :
    g'.Steady none := by
  have hops : ∀ {o op'}, g'.op? o = some op' → ∃ op, g.op? o = some op ∧ rename old new op = op' := by
    intro o op' ho'
    rw [hr.op?_eq] at ho'
    exact Option.map_eq_some_iff.1 ho'
  refine h.of_follows (ψ := fun i => if i = old then new else i) (h.sound.rename hr) (fun o op' ho' => ?_)
    (fun {o op'} ho' => ?_) (fun {t y} hy htype hnone => ?_) (fun {o op i p pop} ho hi hp hpop => ?_)
    (fun {o op op'} ho _ e grad t hgrad hk hmade hread => .inl ?_) (fun {o op t} ho hi hknown y' hy' => ?_)
  · obtain ⟨op, ho, rfl⟩ := hops ho'
    exact ⟨op, ho, rfl, rfl, rfl, rfl⟩
  · obtain ⟨op, ho, rfl⟩ := hops ho'
    obtain ⟨t, ht⟩ := h.single ho
    exact ⟨_, by rw [rename, ht]; rfl⟩
  · rw [hr.tensor?_eq] at hy
    split at hy
    · cases hy
      cases h.computed hr.found htype hnone
    · split at hy
      · cases hy
      · cases h.computed hy htype hnone
  · obtain ⟨y, hy⟩ := h.sound.linked.hasTensor_of_input ho hi
    obtain ⟨y', hy', hyp⟩ := producer?_eq_some.1 hp
    cases (hr.tensor?_later hy).symm.trans hy'
    exact h.phased o op ho i hi p pop (producer?_eq_some.2 ⟨y, hy, hyp⟩) hpop
  · refine ⟨rename old new grad, by rw [hr.op?_eq, hgrad]; rfl, rfl, rfl, ?_⟩
    exact List.mem_map_of_mem hmade
  · obtain ⟨y, hy⟩ := h.sound.linked.hasTensor_of_input ho hi
    cases (hr.tensor?_later hy).symm.trans hy'
    exact hknown y hy

/-- A tensor is added that is not computed. -/
theorem sources (h : g.Steady none) {name : TensorId} {type : TensorType} {data : Option HostTensor}
    (ha : g.addTensor name info type data = .ok g') (htype : type ≠ .actGrad) : g'.Steady none := by
  have hs := h.sound.addTensor ha
  have hlook := tensor?_addTensor ha
  obtain ⟨hnew, rfl⟩ := addTensor_ok ha
  refine h.of_follows (ψ := id) hs (fun o op ho => ⟨op, ho, rfl, rfl, rfl, (List.map_id _).symm⟩) h.single
    (fun {t x} hx hgrad hnone => ?_) (fun {o op i p pop} ho hi hp hpop => ?_)
    (fun _ _ e grad t hgrad _ hmade _ => .inl ⟨grad, hgrad, rfl, (List.map_id _).symm, hmade⟩)
    (fun {o op t} ho hi hknown x hx => ?_)
  · rw [hlook] at hx
    split at hx
    · cases hx
      exact absurd hgrad htype
    · exact h.computed hx hgrad hnone
  · obtain ⟨x, hx, hxp⟩ := producer?_eq_some.1 hp
    rw [hlook] at hx
    split at hx
    · cases hx
      cases hxp
    · exact h.phased o op ho i hi p pop (producer?_eq_some.2 ⟨x, hx, hxp⟩) hpop
  · rw [hlook] at hx
    split at hx
    · cases hx
      exact htype
    · exact hknown x hx

/-- What an op says of itself is changed, apart from its kind, its phase, its tensors and the op that it belongs to. -/
theorem modifies (h : g.Steady hole) (p : OpId) {f : Op → Op} (hid : ∀ op, (f op).id = op.id)
    (hk : ∀ op, (f op).kind = op.kind) (hphase : ∀ op, (f op).phase = op.phase)
    (hforward : ∀ op, (f op).forwardOp = op.forwardOp) (hin : ∀ op, (f op).inputs = op.inputs)
    (hout : ∀ op, (f op).outputs = op.outputs) : (g.modifyOp p f).Steady hole := by
  have hops : ∀ {o op'}, (g.modifyOp p f).op? o = some op' → ∃ op, g.op? o = some op ∧ (op' = op ∨ op' = f op) := by
    intro o op' ho'
    rw [op?_modifyOp] at ho'
    split at ho'
    · obtain ⟨op, ho, rfl⟩ := Option.map_eq_some_iff.1 ho'
      exact ⟨op, ho, .inr rfl⟩
    · exact ⟨op', ho', .inl rfl⟩
  refine h.of_follows (ψ := id) (h.sound.modifyOp p hid hin hout) (fun o op' ho' => ?_) (fun {o op'} ho' => ?_)
    h.computed (fun {o op i q pop} ho hi hq hpop => h.phased o op ho i hi q pop hq hpop)
    (fun _ _ e grad t hgrad _ hmade _ => .inl ?_) (fun _ _ hknown => hknown)
  · obtain ⟨op, ho, rfl | rfl⟩ := hops ho'
    · exact ⟨op', ho, rfl, rfl, rfl, (List.map_id _).symm⟩
    · exact ⟨op, ho, hk op, hphase op, hforward op, (hin op).trans (List.map_id _).symm⟩
  · obtain ⟨op, ho, rfl | rfl⟩ := hops ho'
    · exact h.single ho
    · rw [hout]
      exact h.single ho
  · rw [op?_modifyOp, hgrad]
    split
    · exact ⟨f grad, rfl, hk grad, (hin grad).trans (List.map_id _).symm, by rw [hout]; exact hmade⟩
    · exact ⟨grad, rfl, rfl, (List.map_id _).symm, hmade⟩

/-- Which tensors are kept, and what the next fresh name is, does not matter. -/
theorem of_lookups (h : g.Steady hole) (hs : g'.Sound) (hop : ∀ o, g'.op? o = g.op? o)
    (htensor : ∀ t, g'.tensor? t = g.tensor? t) : g'.Steady hole := by
  have hproducer : ∀ t, g'.producer? t = g.producer? t := fun t => by rw [producer?, producer?, htensor]
  refine h.of_follows (ψ := id) hs (fun o op ho => ⟨op, hop o ▸ ho, rfl, rfl, rfl, (List.map_id _).symm⟩)
    (fun {o op} ho => h.single (hop o ▸ ho)) (fun {t x} hx => h.computed (htensor t ▸ hx))
    (fun {o op i p pop} ho hi hp hpop => h.phased o op ho i hi p pop ((hproducer i).symm.trans hp) hpop)
    (fun _ _ e grad t hgrad _ hmade _ => .inl ⟨grad, (hop e).trans hgrad, rfl, (List.map_id _).symm, hmade⟩)
    (fun {o op t} _ _ hknown x hx => hknown x ((htensor t).symm.trans hx))

theorem keep (h : g.Steady hole) (t : TensorId) : (g.keep t).Steady hole :=
  h.of_lookups (h.sound.keep t) (fun _ => rfl) fun _ => rfl

end Steady

end Graph

end TensorGraph
