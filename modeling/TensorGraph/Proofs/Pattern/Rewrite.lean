import TensorGraph.Pattern.Pipeline
import TensorGraph.Proofs.Graph.InPlace
import TensorGraph.Proofs.Graph.Typed
import TensorGraph.Proofs.Op.Infer
import TensorGraph.Proofs.Pattern.Simplify

/-!
What the built-in patterns leave of a graph. Every one of them, wherever it applies, keeps the graph steady and keeps
what is to be kept; where infos were right they stay right.
-/
namespace TensorGraph

open TensorGraph.Graph

/-- Ops of such a kind can stand in for others: they are no gradients of functions of one element, and no updates. -/
def OpKind.Plain (kind : OpKind) : Prop := (∀ f, kind ≠ .unaryGrad f) ∧ kind ≠ .sgdVarUpdate

namespace Graph

variable {g g' g'' : Graph} {o : OpId} {op new : Op} {t output : TensorId} {info : TensorInfo} {l : List TensorId}

/-- What a change of the graph of a session leaves: a steady graph, in which all tensors to be kept and all sources are
still there. If the infos were right before, they are right after, and those tensors have the infos that they had. -/
structure Rewritten (g g' : Graph) : Prop where
  steady : g'.Steady none
  kept : g'.kept = g.kept
  has : ∀ {t}, t ∈ g.kept → g.hasTensor t = true → g'.hasTensor t = true
  typed : g.Typed → g'.Typed ∧ ∀ {t}, t ∈ g.kept → g.hasTensor t = true → g'.info? t = g.info? t
  sources : KeepsSources g g'
  updating : g.Updating → g'.Updating

namespace Rewritten

theorem refl (h : g.Steady none) : Rewritten g g :=
  ⟨h, rfl, fun _ ht => ht, fun hg => ⟨hg, fun _ _ => rfl⟩, .refl g, id⟩

theorem trans (h : Rewritten g g') (h' : Rewritten g' g'') : Rewritten g g'' := by
  refine ⟨h'.steady, h'.kept.trans h.kept, fun hk ht => h'.has (h.kept ▸ hk) (h.has hk ht), fun hg => ?_,
    h.sources.trans h'.sources, h'.updating ∘ h.updating⟩
  obtain ⟨hg', hinfo⟩ := h.typed hg
  obtain ⟨hg'', hinfo'⟩ := h'.typed hg'
  exact ⟨hg'', fun hk ht => (hinfo' (h.kept ▸ hk) (h.has hk ht)).trans (hinfo hk ht)⟩

end Rewritten

/-- What patterns leave: they also mark no op, and leave ops on the virtual graphs of those that they replace. -/
structure Redrafted (g g' : Graph) : Prop extends Rewritten g g' where
  drafted : ∀ {V}, g.Drafted V → g'.Drafted V

namespace Redrafted

theorem refl (h : g.Steady none) : Redrafted g g := ⟨.refl h, id⟩

theorem trans (h : Redrafted g g') (h' : Redrafted g' g'') : Redrafted g g'' :=
  ⟨h.toRewritten.trans h'.toRewritten, fun hg => h'.drafted (h.drafted hg)⟩

end Redrafted

/-! ## Restricting -/

theorem Restricts.typed (h : Restricts g g') (hg : g.Typed) : g'.Typed := by
  refine hg.of_ops h.op fun {o op t} ho ht => info?_congr (h.tensor_of_has ?_)
  rcases ht with ht | ht
  · exact hasTensor_iff.2 (h.linked.hasTensor_of_input ho ht)
  · exact has_of_producer (h.linked.makes.2 ⟨op, ho, ht⟩)

theorem Restricts.updating (h : Restricts g g') (hs : KeepsSources g g') (hg : g.Updating) : g'.Updating := by
  refine hg.of_fewer hs h.op fun {o op u} ho hu => info?_congr (h.tensor_of_has ?_)
  exact has_of_producer (h.linked.makes.2 ⟨op, ho, hu⟩)

theorem Restricts.drafted {V : Int → Prop} (h : Restricts g g') (hg : g.Drafted V) : g'.Drafted V :=
  hg.of_ops fun ho => ⟨_, _, h.op ho, rfl, rfl⟩

theorem removeDead_redrafted (h : g.Steady none) {n : Nat} (hrun : removeDead.run g = (.ok n, g')) :
    Redrafted g g' ∧ g'.Acyclic := by
  obtain ⟨hacyclic, hres, hret, hs⟩ := removeDead_ok h.sound.linked h.single hrun
  obtain ⟨hsound, hsources⟩ := hs h.sound
  refine ⟨⟨⟨h.restricts hres hsound, hret.kept, fun hk ht => (hret.info hk ht).1,
    fun hg => ⟨hres.typed hg, fun hk ht => (hret.info hk ht).2⟩, hsources, hres.updating hsources⟩, hres.drafted⟩,
    hacyclic.of_feeds fun hf => .single (hres.feeds hf)⟩

/-- No op of a draft runs in place. -/
theorem Drafted.markedSafely {V : Int → Prop} (h : g.Drafted V) : g.MarkedSafely := by
  intro o op ho hmark
  rw [(h o op ho).1] at hmark
  cases hmark

theorem Steady.marks : ∀ (l : List OpId) {g : Graph}, g.Steady none →
    (l.foldl (fun g i => g.modifyOp i (·.withInPlace true)) g).Steady none
  | [], _, h => h
  | i :: l, _, h => marks l (h.modifies i (fun _ => rfl) (fun _ => rfl) (fun _ => rfl) (fun _ => rfl) (fun _ => rfl)
      fun _ => rfl)

/-- An op of the marked graph is one of the graph, but for its mark. -/
theorem op_of_markInPlace {n : Nat} (hrun : Graph.markInPlace.run g = (.ok n, g')) {op' : Op}
    (ho' : g'.op? o = some op') : ∃ op mark, g.op? o = some op ∧ op' = op.withInPlace mark := by
  have hsome := congrArg (fun g => g.op? o) (clearInPlace_markInPlace hrun)
  simp only [op?_clearInPlace] at hsome
  rw [ho', Option.map_some] at hsome
  obtain ⟨op, ho, heq⟩ := Option.map_eq_some_iff.1 hsome.symm
  exact ⟨op, op'.inPlace, ho, (congrArg (·.withInPlace op'.inPlace) heq).symm⟩

theorem markInPlace_rewritten (h : g.Steady none) {n : Nat} (hrun : Graph.markInPlace.run g = (.ok n, g')) :
    Rewritten g g' ∧ (g.Acyclic → g'.Acyclic) ∧ ∀ {V}, g.Drafted V → g'.NamesOnly V ∧ g'.MarkedSafely := by
  have hclear := clearInPlace_markInPlace hrun
  have hop : ∀ {o op'}, g'.op? o = some op' → ∃ op mark, g.op? o = some op ∧ op' = op.withInPlace mark :=
    op_of_markInPlace hrun
  have hsafe := fun hg => MarkedSafely.markInPlace (g := g) hg h.sound.linked hrun
  obtain ⟨chosen, -, rfl⟩ := markInPlace_ok hrun
  refine ⟨⟨?_, rfl, fun _ ht => ht, fun hg => ⟨?_, fun _ _ => rfl⟩, .of_given rfl rfl fun _ => rfl, fun hg => ?_⟩,
    fun ha => ha.of_feeds fun {p q} hf => .single ?_, fun hg => ⟨fun o op' ho' => ?_, hsafe ?_⟩⟩
  · rw [← foldl_modifyOp]
    exact Steady.marks _ h
  · refine hg.of_infos fun {o op'} ho' => ?_
    obtain ⟨op, mark, ho, rfl⟩ := hop ho'
    exact ⟨op, ho, rfl, rfl, rfl⟩
  · refine hg.of_ops (.of_given rfl rfl fun _ => rfl) (ψ := id) (fun {o op'} ho' hk => ?_) fun _ _ => rfl
    obtain ⟨op, mark, ho, rfl⟩ := hop ho'
    exact ⟨op, ho, hk, (List.map_id _).symm, (List.map_id _).symm, fun _ _ => rfl⟩
  · rw [← feeds_clearInPlace, hclear, feeds_clearInPlace] at hf
    exact hf
  · obtain ⟨op, mark, ho, rfl⟩ := hop ho'
    exact (hg o op ho).2
  · exact hg.markedSafely

/-! ## Replacing an op -/

/-- The op `new` is of the same phase as `op`, belongs to the same op and is on the same virtual graph; it is not marked
to run in place. -/
structure SamePlace (op new : Op) : Prop where
  phase : new.phase = op.phase
  forwardOp : new.forwardOp = op.forwardOp
  virtualGraph : new.virtualGraph = op.virtualGraph
  unmarked : new.inPlace = false

/-- The op `new` helps to replace `op`: it reads operands of `op` or tensors of `l`. -/
structure StandsIn (op : Op) (l : List TensorId) (new : Op) : Prop extends SamePlace op new where
  plain : new.kind.Plain
  reads : ∀ i ∈ new.inputs, i ∈ op.inputs ∨ i ∈ l

/-- Ops that help to replace `op` are added under the fresh names `l`, the last one first. -/
inductive Beside (op : Op) : List TensorId → Graph → Graph → Prop
  | start (g : Graph) : Beside op [] g g
  | add {l : List TensorId} {g g₁ g' : Graph} {new : Op} {t : TensorId} {info : TensorInfo} (h : Beside op l g g₁)
      (he : Enters g₁ new t info g') (hfresh : g₁.tensor? t = none) (hn : StandsIn op l new) :
      Beside op (t :: l) g g'

/-- The state of a graph in which `op` is being replaced: its result has no producer, and whatever will be read may be
read in its phase. -/
structure Replacing (op : Op) (output : TensorId) (l : List TensorId) (g : Graph) : Prop where
  steady : g.Steady (some output)
  has : g.hasTensor output = true
  above : g.Above op.phase output
  below : ∀ i, i ∈ op.inputs ∨ i ∈ l → g.Below op.phase i
  belongs : ∀ f, op.forwardOp = some f → f < g.nextOp ∧ ∀ fop, g.op? f = some fop → fop.phase = .forward

namespace Replacing

theorem of_detached (h : g.Steady none) (hd : DroppedOp g op.id op false g') (hout : op.outputs = [output])
    (hgrad : op.kind.isLossGrad = false) (hsum : ¬ (op.kind = .sum ∧ 2 ≤ op.inputs.length)) :
    Replacing op output [] g' := by
  obtain ⟨hsteady, habove⟩ := h.detaches hd hout hgrad
  have hop : ∀ {o op'}, g'.op? o = some op' → g.op? o = some op' := by
    intro o op' ho
    rw [hd.op?_eq] at ho
    split at ho
    · cases ho
    · exact ho
  refine ⟨hsteady, ?_, habove, fun i hi p pop hp hpop => ?_, fun f hf => ?_⟩
  · obtain ⟨x, hx, -⟩ := h.sound.linked.hasTensor_of_output hd.found (t := output) (by simp [hout])
    rw [hasTensor_iff, hd.tensor?_eq, if_neg (by simp), hx]
    exact ⟨_, rfl⟩
  · have hi : i ∈ op.inputs := by simpa using hi
    refine h.phased op.id op hd.found i hi p pop ?_ (hop hpop)
    rw [hd.producer?_eq] at hp
    split at hp
    · cases hp
    · exact hp
  · -- an op that covers the op that it belongs to is not replaced
    obtain ⟨hlt, hcase⟩ := h.tied op.id op f hd.found hf
    have hn : g'.nextOp = g.nextOp := by rw [hd.frame]
    refine ⟨hn ▸ hlt.trans (h.sound.opBound hd.found), fun fop hfop => ?_⟩
    rcases hcase fop (hop hfop) with hphase | hc
    · exact hphase
    · rcases hc.kind with hk | hk
      · rw [hgrad] at hk
        cases hk
      · exact absurd hk hsum

theorem below_of (h : Replacing op output l g) (hn : StandsIn op l new) : ∀ i ∈ new.inputs, g.Below new.phase i := by
  intro i hi
  rw [hn.phase]
  exact h.below i (hn.reads i hi)

theorem belongs_of (h : Replacing op output l g) (hn : StandsIn op l new) : ∀ f, new.forwardOp = some f →
    f < g.nextOp ∧ ∀ fop, g.op? f = some fop → fop.phase = .forward ∨ g.Covers fop new := by
  intro f hf
  obtain ⟨hlt, hphase⟩ := h.belongs f (hn.forwardOp.symm.trans hf)
  exact ⟨hlt, fun fop hfop => .inl (hphase fop hfop)⟩

theorem add (h : Replacing op output l g) (he : Enters g new t info g') (hfresh : g.tensor? t = none)
    (hn : StandsIn op l new) : Replacing op output (t :: l) g' := by
  refine ⟨h.steady.enters he hfresh (h.below_of hn) (h.belongs_of hn), he.added.hasTensor h.has, fun o reader ho hi => ?_,
    fun i hi => ?_, fun f hf => ?_⟩
  · rcases he.op_cases ho with ⟨-, rfl⟩ | ⟨-, ho⟩
    · rw [hn.phase]
    · exact h.above o reader ho hi
  · have hnew : new.phase.rank ≤ op.phase.rank := by rw [hn.phase]
    by_cases hit : i = t
    · -- the name was free, so nothing produced it before
      subst hit
      have hnone : g.Below op.phase i := by
        intro p pop hp
        obtain ⟨x, hx, -⟩ := producer?_eq_some.1 hp
        rw [hfresh] at hx
        cases hx
      exact hnone.enters he fun _ => hnew
    · refine (h.below i (hi.imp_right fun hl => ?_)).enters he fun _ => hnew
      exact (List.mem_cons.1 hl).resolve_left hit
  · obtain ⟨hlt, hphase⟩ := h.belongs f hf
    refine ⟨he.added.nextOp_eq ▸ Nat.lt_succ_of_lt hlt, fun fop hfop => ?_⟩
    rw [he.added.others f (Nat.ne_of_lt hlt)] at hfop
    exact hphase fop hfop

end Replacing

theorem Beside.replacing (hb : Beside op l g g') (h : Replacing op output [] g) : Replacing op output l g' := by
  induction hb with
  | start => exact h
  | add _ he hfresh hn ih => exact (ih h).add he hfresh hn

/-- Tensors keep their infos while ops are added under fresh names. -/
theorem Beside.info?_of (hb : Beside op l g g') {i : TensorInfo} (hi : g.info? t = some i) : g'.info? t = some i := by
  induction hb with
  | start => exact hi
  | add _ he hfresh _ ih =>
    refine he.info?_of (ih hi) ?_
    rintro rfl
    obtain ⟨x, hx, -⟩ := info?_eq_some.1 (ih hi)
    rw [hfresh] at hx
    cases hx

theorem Beside.typed (hb : Beside op l g g') (hs : g.Sound) (hg : g.Typed) : g'.Typed ∧ g'.Sound := by
  induction hb with
  | start => exact ⟨hg, hs⟩
  | add _ he hfresh hn ih =>
    obtain ⟨hg₁, hs₁⟩ := ih hs hg
    refine ⟨hg₁.enters hs₁ he (fun i hi => ?_) fun f _ _ hk => absurd hk (hn.plain.1 f), he.sound⟩
    obtain ⟨x, hx, -⟩ := info?_eq_some.1 hi
    rw [hfresh] at hx
    cases hx

theorem Beside.kept (hb : Beside op l g g') : g'.kept = g.kept := by
  induction hb with
  | start => rfl
  | add _ he _ _ ih => exact he.kept.trans ih

theorem Beside.keepsSources (hb : Beside op l g g') : KeepsSources g g' := by
  induction hb with
  | start => exact .refl _
  | add _ he _ _ ih => exact ih.trans he.keepsSources

theorem Beside.updating (hb : Beside op l g g') (hs : g.Sound) (hg : g.Updating) : g'.Updating ∧ g'.Sound := by
  induction hb with
  | start => exact ⟨hg, hs⟩
  | add _ he _ hn ih =>
    obtain ⟨hg₁, hs₁⟩ := ih hs hg
    exact ⟨he.updating hs₁ hg₁ fun hk => absurd hk hn.plain.2, he.sound⟩

theorem StandsIn.draft {V : Int → Prop} (hn : StandsIn op l new) (hop : ∀ v, op.virtualGraph = some v → V v) :
    new.inPlace = false ∧ ∀ v, new.virtualGraph = some v → V v :=
  ⟨hn.unmarked, hn.virtualGraph.symm ▸ hop⟩

theorem Beside.drafted {V : Int → Prop} (hb : Beside op l g g') (hg : g.Drafted V)
    (hop : ∀ v, op.virtualGraph = some v → V v) : g'.Drafted V := by
  induction hb with
  | start => exact hg
  | add _ he _ hn ih => exact he.drafted (ih hg) (hn.draft hop)

/-- The op `op` was replaced: other ops stand in for it, and the last of them produces its result with the info
`info`. -/
def Replaces (op : Op) (output : TensorId) (info : TensorInfo) (g g' : Graph) : Prop :=
  ∃ g₁ g₂ l new, DroppedOp g op.id op false g₁ ∧ Beside op l g₁ g₂ ∧ Enters g₂ new output info g' ∧ StandsIn op l new

theorem Replaces.redrafted (hr : Replaces op output info g g') (h : g.Steady none) (hout : op.outputs = [output])
    (hgrad : op.kind.isLossGrad = false) (hsum : ¬ (op.kind = .sum ∧ 2 ≤ op.inputs.length))
    (hinfo : g.Typed → g.info? output = some info) : Redrafted g g' := by
  obtain ⟨g₁, g₂, l, new, hd, hb, he, hn⟩ := hr
  have h₂ := hb.replacing (.of_detached h hd hout hgrad hsum)
  have hs₁ : g₁.Sound := h.sound.dropOp hd fun h => by cases h
  have hkept : g₁.kept = g.kept := by rw [hd.frame]
  have hop : ∀ {o op'}, g₁.op? o = some op' → g.op? o = some op' := fun ho => (hd.op?_eq_some.1 ho).2
  -- infos stay, but for the result, which gets the one that was inferred last
  have hkeep : ∀ {t i}, g.info? t = some i → t ≠ output → g'.info? t = some i := fun hi ht =>
    he.info?_of (hb.info?_of ((hd.info?_eq _).trans hi)) ht
  have hsources : KeepsSources g g₁ := .dropOp h.sound hd
  refine ⟨⟨h₂.steady.fills he (h₂.below_of hn) (hn.phase ▸ h₂.above) (h₂.belongs_of hn),
    he.kept.trans (hb.kept.trans hkept), fun {t} _ ht => ?_, fun hg => ?_,
    (hsources.trans hb.keepsSources).trans he.keepsSources, fun hg => ?_⟩, fun {V} hg => ?_⟩
  · obtain ⟨x, hx⟩ := hasTensor_iff.1 ht
    by_cases hto : t = output
    · exact hto ▸ he.added.hasTensor_output
    · obtain ⟨y, hy, -⟩ := info?_eq_some.1 (hkeep (info?_eq_some.2 ⟨x, hx, rfl⟩) hto)
      exact hasTensor_iff.2 ⟨y, hy⟩
  · obtain ⟨hg₂, hs₂⟩ := hb.typed hs₁ (hg.of_ops hop fun _ _ => hd.info?_eq _)
    have hsame := hinfo hg
    refine ⟨hg₂.enters hs₂ he (fun i hi => ?_) fun f _ _ hk => absurd hk (hn.plain.1 f), fun {t} _ ht => ?_⟩
    · rw [hb.info?_of ((hd.info?_eq output).trans hsame), Option.some.injEq] at hi
      exact hi.symm
    · obtain ⟨x, hx⟩ := hasTensor_iff.1 ht
      have hi : g.info? t = some x.info := info?_eq_some.2 ⟨x, hx, rfl⟩
      by_cases hto : t = output
      · rw [hto, he.info?_output, hsame]
      · rw [hi]
        exact hkeep hi hto
  · obtain ⟨hg₂, hs₂⟩ := hb.updating hs₁ (hg.of_fewer hsources hop fun _ _ => hd.info?_eq _)
    exact he.updating hs₂ hg₂ fun hk => absurd hk hn.plain.2
  · have hg₁ : g₁.Drafted V := hg.of_ops fun ho => ⟨_, _, hop ho, rfl, rfl⟩
    have hplaces := (hg op.id op hd.found).2
    exact he.drafted (hb.drafted hg₁ hplaces) (hn.draft hplaces)

end Graph

end TensorGraph
