import TensorGraph.Proofs.Gradient.Enlarging
import TensorGraph.Proofs.Gradient.Shapes
import TensorGraph.Proofs.Op.Faults

/-!
Every gradient of a synthesis has the shape of what it is a gradient for: the rules keep to it, and so do sums of
gradients. So the op that updates a weight always finds a gradient of the right shape, and no synthesis fails there.
-/
namespace TensorGraph

open TensorGraph.Graph

variable {weight gradient : Shape}

/-! ## Failures of orders -/

theorem Outcome.Never.foldlM {α β : Type} {f : Failure} {k : β → α → Outcome β} (hk : ∀ b a, Never f (k b a)) :
    ∀ (l : List α) (b : β), Never f (l.foldlM k b)
  | [], b => .ok b
  | a :: l, b => by
    rw [List.foldlM_cons]
    exact .bind (hk b a) fun _ => foldlM hk l _

theorem Graph.Pending.settle_never (p : Pending) (o : OpId) : Outcome.Never (.misfit weight gradient) (p.settle o) := by
  unfold settle
  split
  · exact .ok _
  · exact .abort (Failure.misfit_ne_abort _ _)
  · exact .ok _

theorem Graph.orderFrom_never (g : Graph) : ∀ (n : Nat) (p : Pending),
    Outcome.Never (.misfit weight gradient) (g.orderFrom n p)
  | 0, _ => .ok _
  | n + 1, p => by
    unfold orderFrom
    split
    · exact .ok _
    · exact .bind (.foldlM Pending.settle_never _ _) fun _ => .bind (orderFrom_never g n _) fun _ => .ok _

theorem Graph.order_never (g : Graph) : Outcome.Never (.misfit weight gradient) g.order :=
  .bind (g.orderFrom_never _ _) fun _ => .ite (.fail nofun) (.ok _)

/-! ## Failures of rules -/

/-- Adding an op fails as a misfit only where inference does. -/
theorem Graph.addOp_never_of {g : Graph} {kind : OpKind} {inputs outputs : List TensorId} {phase : Phase}
    (h : ∀ infos, inputs.mapM g.info? = some infos → Outcome.Never (.misfit weight gradient) (kind.infer infos)) :
    Outcome.Never (.misfit weight gradient) (g.addOp kind inputs outputs phase) := by
  intro herror
  rcases Outcome.bind_eq_error.1 herror with herror | ⟨infos, hinfos, herror⟩
  · have hnever : ∀ t, Outcome.Never (.misfit weight gradient) (g.info t) := fun _ => .orFail nofun
    exact Outcome.Never.mapM hnever herror
  rcases Outcome.bind_eq_error.1 herror with herror | ⟨info, -, herror⟩
  · exact h infos (mapM_info_eq_ok.1 hinfos) herror
  · split at herror
    · split at herror <;> cases herror
    · cases herror

theorem Graph.addOp_never {kind : OpKind} (hkind : kind ≠ .sgdVarUpdate) (g : Graph) (inputs outputs : List TensorId)
    (phase : Phase) : Outcome.Never (.misfit weight gradient) (g.addOp kind inputs outputs phase) :=
  addOp_never_of fun _ _ => OpKind.infer_never hkind _

namespace GradM

open Stateful

theorem addOp_never {kind : OpKind} (hkind : kind ≠ .sgdVarUpdate) (owner : Op) (inputs : List TensorId)
    (output : TensorId) : Never (.misfit weight gradient) (addOp owner kind inputs output) :=
  .bind (.focus (.change fun g => g.addOp_never hkind _ _ _)) fun _ => .modify _

theorem addFresh_never {kind : OpKind} (hkind : kind ≠ .sgdVarUpdate) (owner : Op) (inputs : List TensorId)
    (base : TensorId) : Never (.misfit weight gradient) (addFresh owner kind inputs base) :=
  .bind (.focus (.change fun _ => .ok _)) fun _ => .bind (addOp_never hkind _ _ _) fun _ => .pure _

end GradM

namespace GradCall

open Stateful

variable (c : GradCall)

theorem input_never (k : Nat) : Outcome.Never (.misfit weight gradient) (c.op.input k) :=
  .promised (Failure.misfit_ne_abort _ _)

theorem output_never : Outcome.Never (.misfit weight gradient) c.op.output := .promised (Failure.misfit_ne_abort _ _)

theorem emit_never {kind : OpKind} (hkind : kind ≠ .sgdVarUpdate) (inputs : List TensorId) :
    Never (.misfit weight gradient) (c.emit kind inputs) :=
  .bind (.liftM c.output_never) fun _ => GradM.addFresh_never hkind _ _ _

theorem shape_never (k : Nat) : Never (.misfit weight gradient) (c.shape k) :=
  .get_bind fun _ => .bind (.liftM (c.input_never k)) fun _ => .bind (.liftM (.orFail nofun)) fun _ => .pure _

theorem operand_never (k : Nat) {x : GradM TensorId} (hx : Never (.misfit weight gradient) x) :
    Never (.misfit weight gradient) (c.operand k x) := by
  unfold operand
  split
  · exact .bind hx fun _ => .pure _
  · exact .pure _

theorem only_never {kind : OpKind} (hkind : kind ≠ .sgdVarUpdate) (inputs : List TensorId) :
    Never (.misfit weight gradient) (c.only kind inputs) :=
  .bind (c.operand_never 0 (c.emit_never hkind _)) fun _ => .pure _

theorem summed_never (k : Nat) : Never (.misfit weight gradient) (c.summed k) :=
  c.operand_never k (.bind (c.shape_never k) fun _ => c.emit_never (by nofun) _)

end GradCall

namespace GradRule

open Stateful

theorem unary_never {f : Unary} {rule : GradRule} (h : unary? f = some rule) (c : GradCall) :
    Never (.misfit weight gradient) (rule c) := by
  cases f with
  | sign | ceil | floor => cases h
  | neg | scale factor =>
    cases h
    exact c.only_never (by nofun) _
  | reciprocal | clip min max | log =>
    cases h
    exact .bind (.liftM (c.input_never 0)) fun _ => c.only_never (by nofun) _
  | sqrt | exp | relu | sigmoid | tanh =>
    cases h
    exact .bind (.liftM c.output_never) fun _ => c.only_never (by nofun) _
  | square | abs =>
    cases h
    exact .bind (.liftM (c.input_never 0)) fun _ =>
      .bind (c.operand_never 0 (.bind (c.emit_never (by nofun) _) fun _ => c.emit_never (by nofun) _)) fun _ => .pure _

theorem binary_never (f : Binary) (c : GradCall) : Never (.misfit weight gradient) (binary f c) := by
  have input := fun {β : Type} {k : Nat} {x : TensorId → GradM β} (hx : ∀ t, Never (.misfit weight gradient) (x t)) =>
    Never.bind (.liftM (c.input_never k)) hx
  have shaped := fun {k : Nat} {x : Shape → GradM TensorId} (hx : ∀ s, Never (.misfit weight gradient) (x s)) =>
    c.operand_never k (.bind (c.shape_never k) hx)
  have both := fun {x y : GradM (Option TensorId)} (hx : Never (.misfit weight gradient) x)
      (hy : Never (.misfit weight gradient) y) =>
    Never.bind hx fun a => .bind hy fun b => .pure [a, b]
  cases f with
  | add => exact both (c.summed_never 0) (c.summed_never 1)
  | sub => exact both (c.summed_never 0) (shaped fun _ => c.emit_never (by nofun) _)
  | mul => exact both (shaped fun _ => input fun _ => c.emit_never (by nofun) _) (shaped fun _ => input fun _ => c.emit_never (by nofun) _)
  | div => exact input fun _ => input fun _ => both (shaped fun _ => c.emit_never (by nofun) _) (shaped fun _ => c.emit_never (by nofun) _)

theorem concatFrom_never (c : GradCall) (axis : Nat) :
    ∀ count i offset, Never (.misfit weight gradient) (concatFrom c axis count i offset)
  | 0, _, _ => .pure _
  | count + 1, i, _ => .bind (c.shape_never i) fun _ => .bind (.liftM (.promised (Failure.misfit_ne_abort _ _))) fun _ =>
      .bind (.liftM (Word.int_never (Failure.misfit_ne_abort _ _) _)) fun _ =>
        .bind (c.operand_never i (c.emit_never (by nofun) _)) fun _ => .bind (concatFrom_never c axis count _ _) fun _ => .pure _

/-- No rule fails as the update of a weight does. -/
theorem ofKind_never {kind : OpKind} {rule : GradRule} (h : ofKind? kind = some rule) (c : GradCall) :
    Never (.misfit weight gradient) (rule c) := by
  unfold ofKind? at h
  split at h
  · cases h
    exact c.only_never (by nofun) _
  · exact unary_never h c
  · cases h
    exact .bind (.liftM c.output_never) fun _ => c.only_never (by nofun) _
  · cases h
    exact binary_never _ c
  · cases h
    exact .bind (.liftM (c.input_never 0)) fun _ => .bind (.liftM (c.input_never 1)) fun _ =>
      .bind (c.operand_never 0 (.bind (c.emit_never (by nofun) _) fun _ => c.emit_never (by nofun) _)) fun _ =>
        .bind (c.operand_never 1 (.bind (c.emit_never (by nofun) _) fun _ => c.emit_never (by nofun) _)) fun _ => .pure _
  · cases h
    exact .mapM c.summed_never
  · cases h
    refine .bind (c.shape_never 0) fun s => ?_
    have spread : ∀ dropped : List Nat, Never (.misfit weight gradient)
        (c.only (.reduceSumGrad s (dropped.map Int.ofNat)) [c.incoming]) := fun _ => c.only_never (by nofun) _
    split
    · exact .bind (.pure _) spread
    · exact .bind (.lift (Shape.reductionAxes_never s _)) spread
  · cases h
    exact .bind (c.shape_never 0) fun _ => c.only_never (by nofun) _
  · cases h
    exact c.only_never (by nofun) _
  · cases h
    exact .bind (c.shape_never 0) fun s => .bind (.liftM (Shape.sliceRanges_never s _ _ _)) fun _ => c.only_never (by nofun) _
  · cases h
    refine .bind (c.shape_never 0) fun s => ?_
    have abort : Outcome.Never (.misfit weight gradient) (.error .abort : Outcome PUnit) :=
      .abort (Failure.misfit_ne_abort _ _)
    have ends : ∀ {l : List Int}, Outcome.Never (.misfit weight gradient) (l.mapM Word.int) :=
      .mapM (Word.int_never (Failure.misfit_ne_abort _ _))
    split
    · exact .bind (.lift abort) fun _ => .bind (.lift ends) fun _ => c.only_never (by nofun) _
    · exact .bind (.lift ends) fun _ => c.only_never (by nofun) _
  · cases h
    exact .bind (c.shape_never 0) fun s => .bind (.liftM (Shape.axis_never s _)) fun _ => concatFrom_never c _ _ _ _
  · cases h
    exact .bind (c.shape_never 0) fun _ => .bind (.liftM (c.input_never 1)) fun _ =>
      .bind (c.operand_never 0 (c.emit_never (by nofun) _)) fun _ => .pure _
  · cases h
    exact .bind (.liftM (c.input_never 1)) fun _ => .bind (c.operand_never 0 (c.emit_never (by nofun) _)) fun _ =>
      .bind (c.operand_never 2 (c.emit_never (by nofun) _)) fun _ => .pure _
  · cases h

end GradRule

/-! ## Shapes through a synthesis -/

namespace Synthesis

variable {G : Graph} {s s' : Synthesis} {losses : List Loss} {t : TensorId}

/-- Where infos are those that are inferred, gradients have the shapes of what they are gradients for. -/
theorem passes_sameShape (hG : G.WellFormed) (hinferred : G.Inferred)
    (hsized : ∀ {t i}, G.info? t = some i → i.shape.Sized)
    (hreads : ∀ o op, G.op? o = some op → ∀ i ∈ op.inputs, G.isFree i = false) (losses : List Loss) :
    Passes SameShape G losses := by
  refine ⟨fun _ => rfl, fun {i infos info} _ hinfos hinfer => OpKind.infer_sum hinfer hinfos, ?_⟩
  intro s s' o op₀ op needs incoming gradients rule hgrown _ hop₀ hkind hin hout hincoming hrule hrun i p hmem
  obtain ⟨output, is, out, houtput, his, hinfer, hinfo⟩ := hinferred o op₀ hop₀
  have hinputs : List.Forall₂ (fun t i => s.graph.info? t = some i) op₀.inputs is := by
    have hall := mapM_eq_some_iff.1 his
    refine List.forall₂_iff_get.2 ⟨hall.length_eq, fun k hk hk' => ?_⟩
    obtain ⟨x, hx, hcase⟩ := isFree_eq_false_iff.1 (hreads o op₀ hop₀ _ (List.getElem_mem hk))
    exact (hgrown.grows.info?_eq hx hcase).trans ((List.forall₂_iff_get.1 hall).2 k hk hk')
  have hresult : op.output = .ok output := by rw [Op.output, hout, houtput]; rfl
  have hfaces : ({ op, needs, incoming } : GradCall).Faces is out s.graph := by
    refine ⟨hgrown.grows.linked, hgrown.grows.numbered, ?_, fun {t} ht => ?_, hkind ▸ hinfer, fun i hi => ?_,
      hincoming output out hresult hinfo⟩
    · rw [hin]
      exact mapM_eq_some_iff.2 hinputs
    · cases hresult.symm.trans ht
      obtain ⟨x, hx, hxp⟩ := producer?_eq_some.1 ((hG.linked.producer?_iff_of_outputs hop₀ houtput).2 rfl)
      exact (hgrown.grows.info?_eq hx (.inr (by rw [hxp]; exact Option.some_ne_none o))).trans hinfo
    · obtain ⟨t, -, ht⟩ := exists_of_forall₂ (mapM_eq_some_iff.1 his).flip i hi
      exact hsized ht
  obtain ⟨-, hkeep, -, hsuits⟩ := GradRule.suited_ofKind hrule _ is out rfl s gradients s' hfaces trivial hrun
  obtain ⟨k, hi, hp⟩ := mem_given hmem
  obtain ⟨x, hx, y, hy, hshape⟩ := hsuits k p hp
  have hxi := hfaces.info_input (k := k) (t := i) (by rw [Op.input, hi]; rfl)
  rw [Nat.zero_add] at hx
  exact ⟨x, y, hkeep (hxi.trans hx), hy, hshape⟩

/-! ## Failures of a synthesis -/

open Stateful

theorem settle_never (t : TensorId) (owner : Op) : Never (.misfit weight gradient) (settle t owner) := by
  refine .get_bind fun s => .bind (.modify _) fun _ => ?_
  split
  · exact .pure _
  · refine .bind (.focus (.change fun g => .bind ?_ fun _ => .ok _)) fun _ => .pure _
    unfold renameTensor
    split
    · exact .fail fun h => by cases h
    · split
      · exact .fail fun h => by cases h
      · exact .ok _
  · exact .bind (GradM.addOp_never (fun h => by cases h) _ _ _) fun _ => .pure _

theorem startFrom_never (relevant : SortedSet OpId) (loss : Loss) :
    Never (.misfit weight gradient) (startFrom relevant loss) := by
  refine .get_bind fun s => .bind (.liftM (.orFail nofun)) fun _ => .bind (.liftM (.orFail nofun)) fun op =>
    .bind (.liftM (.promised (Failure.misfit_ne_abort _ _))) fun target => ?_
  have hkind : loss.gradKind ≠ .sgdVarUpdate := by cases loss <;> nofun
  split
  · exact .bind (GradM.addFresh_never hkind _ _ _) fun _ => .modify _
  · exact .pure _

theorem stepBack_never (relevant : SortedSet OpId) (op : Op) :
    Never (.misfit weight gradient) (stepBack .empty relevant op) := by
  refine .bind (.liftM (.promised (Failure.misfit_ne_abort _ _))) fun t => .bind (settle_never t op) fun settled => ?_
  cases settled with
  | none => exact .pure _
  | some incoming =>
    refine .liftM_bind (.orFail nofun) fun rule hrule => .get_bind fun s => .bind ?_ fun _ => .modify _
    rw [GradRegistry.rule?_empty, Outcome.orFail_eq_ok] at hrule
    exact GradRule.ofKind_never hrule _

theorem visit_never (relevant : SortedSet OpId) (o : OpId) :
    Never (.misfit weight gradient) (visit .empty relevant o) := by
  refine .get_bind fun s => ?_
  split
  · exact .pure _
  · exact stepBack_never relevant _

/-- A gradient with the shape of its weight passes the check of the update. -/
theorem addOp_update_never {g : Graph} {id grad : TensorId} {rest outputs : List TensorId} {phase : Phase}
    (h : ∀ {i j}, g.info? id = some i → g.info? grad = some j → j.shape = i.shape) :
    Outcome.Never (.misfit weight gradient) (g.addOp .sgdVarUpdate (id :: grad :: rest) outputs phase) := by
  refine addOp_never_of fun infos hinfos => ?_
  obtain ⟨i, _, hi, hall, rfl⟩ := List.forall₂_cons_left_iff.1 (mapM_eq_some_iff.1 hinfos)
  obtain ⟨j, others, hj, -, rfl⟩ := List.forall₂_cons_left_iff.1 hall
  exact OpKind.infer_sgdVarUpdate_never (h hi hj) others

/-- The update of a weight does not fail because of the shape of the gradient. -/
theorem update_fits (hG : G.WellFormed) (hR : Passes SameShape G losses) (h : Grown SameShape G s) {w : TensorId}
    (hweight : ∃ x, G.tensor? w = some x ∧ x.type = .weight) :
    Ends (fun _ _ => True) (fun e _ => e ≠ .misfit weight gradient) (update w) s := by
  refine .get_bind ?_
  split
  · exact .pure trivial
  have htemplate : ∀ {o : Option Op} {id : OpId},
      Outcome.Never (.misfit weight gradient) (Outcome.orFail o (.graph (.noOp id))) := .orFail nofun
  refine .bind (R := fun _ t => t = s) (.liftM (fun _ _ => rfl) fun e he heq => htemplate (heq ▸ he)) fun template _ heq => ?_
  subst heq
  refine .bind ((settle_never w template).ends _) fun settled s₂ hsettle => ?_
  obtain ⟨hpartials, hsettled⟩ := settle_ok h.grows.linked h.grows.numbered hsettle
  obtain ⟨hgrown, -⟩ := hsettled.grown hG.linked h hpartials
  cases settled with
  | none => exact .pure trivial
  | some name =>
    obtain ⟨i, j, hi, hj, hshape⟩ := (hsettled.final hR hG.linked h hpartials).info
    obtain ⟨x, hx, htype⟩ := hweight
    have hinfo := hgrown.grows.info?_eq hx (.inl (by rw [htype]; exact nofun))
    have hadd : ∀ {rest outputs phase}, Outcome.Never (.misfit weight gradient)
        (s₂.graph.addOp .sgdVarUpdate (w :: name :: rest) outputs phase) := by
      refine addOp_update_never fun {i' j'} hi' hj' => ?_
      rw [hinfo, hi, Option.some.injEq] at hi'
      rw [hsettled.name_eq, hj, Option.some.injEq] at hj'
      exact hi' ▸ hj' ▸ hshape
    refine .bind (R := fun _ _ => True) (.focus (.bind (R := fun _ _ => True) (.change (fun _ _ _ => trivial)
      fun e he heq => hadd (heq ▸ he)) fun _ _ _ => .modify trivial)) fun _ _ _ => .pure trivial

theorem updates_fit (hG : G.WellFormed) (hR : Passes SameShape G losses) : ∀ {weights : List TensorId} {s : Synthesis},
    (∀ w ∈ weights, ∃ x, G.tensor? w = some x ∧ x.type = .weight) → Grown SameShape G s →
      Ends (fun _ _ => True) (fun e _ => e ≠ .misfit weight gradient) (weights.mapM update) s
  | [], _, _, _ => .pure trivial
  | w :: weights, s, hweights, h => by
    have hweight := hweights w List.mem_cons_self
    have hfirst : Ends (fun _ _ => True) (fun e _ => e ≠ .misfit weight gradient) (update w) s :=
      update_fits hG hR h hweight
    rw [List.mapM_cons]
    refine .bind (R := fun result t => (update w).run s = (.ok result, t)) ⟨id, hfirst.error⟩ fun result s₁ hrun => ?_
    obtain ⟨hsteps, -⟩ := update_ok hG hR h hweight hrun
    obtain ⟨hgrown, -⟩ := hsteps.grown hG hR h
    exact .bind (updates_fit hG hR (fun v hv => hweights v (List.mem_cons_of_mem _ hv)) hgrown) fun _ _ _ => .pure trivial

/-- A synthesis does not fail because a gradient does not have the shape of its weight. -/
theorem run_fits (hG : G.WellFormed) (hR : Passes SameShape G losses)
    (hlosses : ∀ loss ∈ losses, ∃ o, G.producer? loss.output = some o) :
    Ends (fun _ _ => True) (fun e _ => e ≠ .misfit weight gradient) (run .empty losses) { graph := G } := by
  have hstarts : Never (.misfit weight gradient) (losses.forM (startFrom (relevantOps G losses))) :=
    .forM (startFrom_never _)
  refine .get_bind (.bind (hstarts.ends _) fun _ s₁ hstart => ?_)
  obtain ⟨hgrown₁, -⟩ := (starts_steps hG hR (.start hG) hlosses hstart).grown hG hR (.start hG)
  refine .get_bind (.bind ((Never.lift s₁.graph.order_never).ends _) fun order s₂ hrun => ?_)
  rw [run_lift, Prod.mk.injEq] at hrun
  obtain ⟨-, rfl⟩ := hrun
  have hvisits : Never (.misfit weight gradient)
      ((order.reverse.filter (relevantOps G losses).contains).forM (visit .empty (relevantOps G losses))) :=
    .forM (visit_never _)
  refine .bind (hvisits.ends _) fun _ s₂ hvisit => ?_
  obtain ⟨hgrown₂, -⟩ := (visits_steps hG hR hgrown₁
    (fun o ho => SortedSet.contains_iff.1 (List.mem_filter.1 ho).2) hvisit).grown hG hR hgrown₁
  obtain ⟨hweights, -⟩ := hgrown₂.weights_nodup hG.linked
  exact .get_bind (.bind (updates_fit hG hR hweights hgrown₂) fun _ _ _ => .pure trivial)

/-! ## Gradients that are made -/

end Synthesis

theorem Graph.Added.producer?_of_ne {t : TensorId} {g g' : Graph} {kind : OpKind} {inputs : List TensorId} {output : TensorId}
    {info : TensorInfo} (ha : Added g kind inputs output info g') (hne : t ≠ output) :
    g'.producer? t = g.producer? t := producer?_congr (ha.bare_eq t hne)

/-- No rule adds an op under the name of a gradient. -/
theorem Emits.producer?_gradId {R : TensorInfo → TensorInfo → Prop} {G : Graph} {s s' : Synthesis} {t : TensorId}
    {owner : Op} {l : List TensorId} (he : Emits owner l s s') (h : Synthesis.Grown R G s) :
    s'.graph.producer? (gradId t) = s.graph.producer? (gradId t) := by
  induction he with
  | nil => rfl
  | @cons kind inputs base output l s s₁ s' hadd _ ih =>
    obtain ⟨-, hpartials, info, ha⟩ := GradM.addFresh_ok h.grows.linked h.grows.numbered hadd
    have hwaiting : s₁.waiting = s.waiting := by rw [Synthesis.waiting, Synthesis.waiting, hpartials]
    obtain ⟨hgrown, -⟩ := h.added (l := []) ha (hwaiting ▸ .refl _)
    rw [ih hgrown, ha.producer?_of_ne (GradM.addFresh_ne_gradId hadd t).symm]

namespace Synthesis

variable {R : TensorInfo → TensorInfo → Prop} {G : Graph} {s s' : Synthesis} {losses : List Loss} {t : TensorId}

/-- What gets a gradient of its name in a step has a final one. -/
theorem Step.final_of_made (hG : G.WellFormed) (hR : Passes R G losses) (hstep : Step R G losses s s')
    (hnone : s.graph.producer? (gradId t) = none) {o : OpId} (hsome : s'.graph.producer? (gradId t) = some o) :
    Final R G s' t := by
  have same : s'.graph.producer? (gradId t) = s.graph.producer? (gradId t) → Final R G s' t := by
    intro heq
    rw [heq, hnone] at hsome
    cases hsome
  cases hstep with
  | seed h _ _ _ _ hadd =>
    obtain ⟨-, -, info, ha⟩ := GradM.addFresh_ok h.grows.linked h.grows.numbered hadd
    exact same (ha.producer?_of_ne (GradM.addFresh_ne_gradId hadd t).symm)
  | settle h hrun =>
    rename_i t₀ owner result
    obtain ⟨hpartials, hsettled⟩ := settle_ok h.grows.linked h.grows.numbered hrun
    by_cases ht : t = t₀
    · subst ht
      cases result with
      | none =>
        cases hsettled with
        | none _ hg => exact same (by rw [hg])
      | some name => exact hsettled.final hR hG.linked h hpartials
    · have hne : gradId t ≠ gradId t₀ := fun heq => ht (gradId_inj heq)
      cases hsettled with
      | none _ hg => exact same (by rw [hg])
      | single hl hr =>
        obtain ⟨y, hy, hyp⟩ := producer?_eq_some.1 hsome
        rw [hr.tensor?_eq, if_neg hne] at hy
        split at hy
        · cases hy
        · rw [producer?_eq_some.2 ⟨y, hy, hyp⟩] at hnone
          cases hnone
      | several _ _ ha => exact same (ha.producer?_of_ne hne)
  | @visit s₀ s₁ o op t₀ incoming gradients h ho hop hv =>
    obtain ⟨hgraph, hperm⟩ := waiting_noteAll op.id (op.inputs.zip gradients) 0 s₁
    obtain ⟨hgrown, -⟩ := hv.all hG hR h ho hop hgraph hperm
    obtain ⟨rule, hofKind, hrun⟩ := hv.rule_ofKind
    obtain ⟨l, hl, -⟩ := GradRule.lawful_ofKind hofKind _ _ _ _ hrun
    exact same (by rw [hgraph, hl.producer?_gradId hgrown])
  | @update weight info g place h _ _ ha =>
    obtain ⟨hadded, -⟩ := h.updated ha rfl
    exact same (hadded.producer?_of_ne (updatedId_ne_gradId weight t).symm)

/-- Every gradient that a synthesis made under its name is final. -/
theorem Steps.final_of_made (hG : G.WellFormed) (hR : Passes R G losses) (hsteps : Steps R G losses s s')
    (hs : Grown R G s) (hnone : s.graph.producer? (gradId t) = none) {o : OpId}
    (hsome : s'.graph.producer? (gradId t) = some o) : Final R G s' t := by
  induction hsteps generalizing o with
  | refl =>
    rw [hnone] at hsome
    cases hsome
  | @tail s₁ s' hsteps hstep ih =>
    cases hmade : s₁.graph.producer? (gradId t) with
    | none => exact hstep.final_of_made hG hR hmade hsome
    | some o₁ =>
      obtain ⟨hgrown, -⟩ := Steps.grown hG hR hsteps hs
      exact Steps.final hG hR (.single hstep) hgrown (ih hmade)

end Synthesis

/-! ## The whole synthesis -/

theorem synthesizeGradients_fits {losses : List Loss} {b : Build} (hG : b.graph.WellFormed)
    (hR : Synthesis.Passes Synthesis.SameShape b.graph losses)
    (hlosses : ∀ loss ∈ losses, ∃ o, b.graph.producer? loss.output = some o) :
    Stateful.Ends (fun _ _ => True) (fun e _ => e ≠ .misfit weight gradient) (synthesizeGradients .empty losses) b := by
  unfold synthesizeGradients
  have fails : ∀ {α : Type} {Q : α → Build → Prop} {e : Error} {s : Build}, e ≠ .shape (.updateShapes weight gradient) →
      Stateful.Ends Q (fun e _ => e ≠ .misfit weight gradient) (Stateful.fail e) s :=
    fun he => .fail fun heq => he (Failure.error.inj heq)
  split
  · exact .bind (R := fun _ _ => False) (fails nofun) fun _ _ hnever => hnever.elim
  · refine .get_bind ?_
    simp only
    split
    · exact fails nofun
    · refine .bind (R := fun _ _ => True) (.focus (.focus (.bind (Synthesis.run_fits hG hR hlosses) fun _ _ _ => ?_)))
        fun _ _ _ => .bind (R := fun _ _ => True) (.modify trivial) fun _ _ _ => .pure trivial
      exact .get_bind (.pure trivial)

/-- The graph `g` has a gradient for `t` that `G` did not have. -/
def Graph.Gets (G g : Graph) (t : TensorId) : Prop :=
  G.producer? (gradId t) = none ∧ ∃ o, g.producer? (gradId t) = some o

/-- Every gradient of a synthesis has the shape of what it is a gradient for, and weights and results of relevant ops
that losses depend on have gradients. No update of a weight fails because of the shape of its gradient. -/
theorem synthesizeGradients_matches {losses : List Loss} {b b' : Build} {result : Outcome GradSummary}
    (hG : b.graph.WellFormed) (hacyclic : b.graph.Acyclic) (hinferred : b.graph.Inferred)
    (hsized : ∀ t i, b.graph.info? t = some i → i.shape.Sized)
    (hreads : ∀ o op, b.graph.op? o = some op → ∀ i ∈ op.inputs, b.graph.isFree i = false)
    (hlosses : ∀ loss ∈ losses, loss.Attached b.graph)
    (hrun : (synthesizeGradients .empty losses).run b = (result, b')) :
    (∀ weight gradient, result ≠ .error (.misfit weight gradient)) ∧
    ∀ summary, result = .ok summary →
      (∀ t, Synthesis.needsGrad b.graph (Synthesis.relevantOps b.graph losses) t = true → b.graph.Reached losses t →
        b.graph.Gets b'.graph t) ∧
      ∀ t, b.graph.Gets b'.graph t →
        ∃ i j, b.graph.info? t = some i ∧ b'.graph.info? (gradId t) = some j ∧ j.shape = i.shape := by
  have hR := Synthesis.passes_sameShape hG hinferred (hsized _ _) hreads losses
  have hproduced : ∀ loss ∈ losses, ∃ o, b.graph.producer? loss.output = some o :=
    fun loss hloss => (hlosses loss hloss).imp fun _ h => h.choose_spec.1
  refine ⟨fun weight gradient heq => ?_, ?_⟩
  · subst heq
    exact (synthesizeGradients_fits hG hR hproduced).error hrun rfl
  · rintro summary rfl
    obtain ⟨hids, s', hgraph, -, hrun⟩ := synthesizeGradients_run hrun
    obtain ⟨hsteps, -⟩ := Synthesis.run_steps hG hR hids hproduced hrun
    obtain ⟨-, hfinal⟩ := Synthesis.run_traces hG hacyclic hinferred.arranged hR hids hlosses hrun
    rw [hgraph]
    refine ⟨fun t hneeds ht => ?_, fun t ⟨hnone, o, ho⟩ => ?_⟩
    · exact ⟨(hfinal t hneeds ht).fresh, (hfinal t hneeds ht).produced⟩
    · exact (hsteps.final_of_made hG hR (.start hG) hnone ho).info

/-- Both weights have gradients of their shape. -/
theorem synthesizeGradients_matches_opposed :
    Opposed.built.1 = .ok ⟨3, ["v", "w"]⟩ ∧ Opposed.graph.Gets Opposed.built.2.graph "w" ∧
      ∃ i j, Opposed.graph.info? "w" = some i ∧ Opposed.built.2.graph.info? (gradId "w") = some j ∧ j.shape = i.shape := by
  obtain ⟨hrun, hnone, hgets, -⟩ := Opposed.built_facts
  obtain ⟨hentries, hreads⟩ : (∀ e ∈ Opposed.graph.tensors.entries, ∀ d ∈ e.2.info.shape, 0 ≤ d) ∧
      ∀ op ∈ Opposed.graph.ops.values, ∀ i ∈ op.inputs, Opposed.graph.isFree i = false := by decide +kernel
  have hsized : ∀ t i, Opposed.graph.info? t = some i → i.shape.Sized := by
    intro t i hi
    obtain ⟨x, hx, rfl⟩ := info?_eq_some.1 hi
    exact hentries (t, x) (Dict.mem_entries.2 hx)
  obtain ⟨-, hok⟩ := synthesizeGradients_matches (b := ⟨Opposed.graph, []⟩) Opposed.wellFormed Opposed.acyclic
    Opposed.inferred hsized (fun o op ho => hreads op (Dict.mem_values.2 ⟨o, ho⟩)) Opposed.attached
    (Stateful.eq_ok_of_fst hrun)
  obtain ⟨-, hshape⟩ := hok _ rfl
  have hw : Opposed.graph.Gets Opposed.built.2.graph "w" := ⟨hnone, 5, hgets⟩
  exact ⟨hrun, hw, hshape "w" hw⟩

/-! ## A gradient in the place of an operand -/

theorem Synthesis.inOrder_trans (p q r : Partial) (h : inOrder p q = true) (h' : inOrder q r = true) :
    inOrder p r = true := by
  simp only [inOrder, Bool.or_eq_true, Bool.and_eq_true, decide_eq_true_eq, beq_iff_eq] at *
  rcases h with h | ⟨h, hk⟩ <;> rcases h' with h' | ⟨h', hk'⟩
  · exact .inl (Nat.lt_trans h h')
  · exact .inl (h' ▸ h)
  · exact .inl (h ▸ h')
  · exact .inr ⟨h.trans h', Nat.le_trans hk hk'⟩

theorem Synthesis.inOrder_total (p q : Partial) : (inOrder p q || inOrder q p) = true := by
  simp only [inOrder, Bool.or_eq_true, Bool.and_eq_true, decide_eq_true_eq, beq_iff_eq]
  rcases Nat.lt_trichotomy p.op q.op with h | h | h
  · exact .inl (.inl h)
  · exact (Nat.le_total p.operand q.operand).imp (fun hk => .inr ⟨h, hk⟩) fun hk => .inr ⟨h.symm, hk⟩
  · exact .inr (.inl h)

namespace Widened

/-- An op reads a tensor that is to be computed, and that has the name of the gradient for `y` but not its shape. -/
def graph : Graph :=
  ([.addTensor "u" ⟨.float, [3]⟩ .weight none, .addTensor "w" ⟨.float, [2]⟩ .weight none,
    .addTensor (gradId "y") ⟨.float, [1]⟩ .actGrad none,
    .addTensor Sgd.learningRateId (.scalar .float) .optimizerStream none,
    .addTensor Sgd.weightDecayId (.scalar .float) .optimizerStream none,
    .addTensor Sgd.lossScalingId (.scalar .float) .optimizerStream none,
    .addOp (.reduceSum (some [0]) true) ["w"] ["t"] .forward, .addOp (.concat 0) [gradId "y", "t"] ["c"] .forward,
    .addOp (.unary .neg) ["u"] ["y"] .forward, .addOp (.l1 .one .sum) ["y"] ["l1"] .loss,
    .addOp (.l1 .one .sum) ["y"] ["l2"] .loss, .addOp (.l1 .one .sum) ["c"] ["l3"] .loss] : List Graph.Edit).foldl
      (fun g e => (e.call.run g).2) .empty

def losses : List Loss := [.l1 "y" "l1" .one .sum, .l1 "y" "l2" .one .sum, .l1 "c" "l3" .one .sum]

/-- The graph with the gradients. -/
def built : Outcome GradSummary × Build := (synthesizeGradients .empty losses).run ⟨graph, []⟩

theorem wellFormed : graph.WellFormed := by
  have h : Edited Graph.empty graph :=
    .call _ (.call _ (.call _ (.call _ (.call _ (.call _ (.call _ (.call _ (.call _ (.call _ (.call _ (.call _ .start
      trivial) trivial) trivial) trivial) trivial) trivial) trivial) trivial) trivial) trivial) trivial) trivial
  exact (h.sound .empty).wellFormed

theorem graph_facts : graph.order = .ok [0, 1, 2, 3, 4, 5] ∧
    (∀ op ∈ graph.ops.values, op.outputs.length = 1 ∧
      ((op.inputs.mapM graph.info?).bind fun infos => (op.kind.infer infos).toOption.map ([·])) =
        op.outputs.mapM graph.info? ∧ (op.outputs.mapM graph.info?).isSome = true) ∧
      (∀ e ∈ graph.tensors.entries, ∀ d ∈ e.2.info.shape, 0 ≤ d) ∧ (∀ loss ∈ losses, loss.Attached graph) ∧
        graph.producer? (gradId "t") = none ∧ graph.info? "t" = some ⟨.float, [1]⟩ := by
  decide +kernel

theorem acyclic : graph.Acyclic := (order_complete wellFormed.linked graph_facts.1).acyclic

theorem inferred : graph.Inferred := by
  obtain ⟨-, h, -⟩ := graph_facts
  intro o op ho
  obtain ⟨hlen, heq, hsome⟩ := h op (Dict.mem_values.2 ⟨o, ho⟩)
  obtain ⟨output, hout⟩ := List.length_eq_one_iff.1 hlen
  obtain ⟨l, hl⟩ := Option.isSome_iff_exists.1 hsome
  rw [hl, Option.bind_eq_some_iff] at heq
  obtain ⟨infos, hinfos, heq⟩ := heq
  obtain ⟨info, hinfo, rfl⟩ := Option.map_eq_some_iff.1 heq
  have hinfer : op.kind.infer infos = .ok info := by
    cases h : op.kind.infer infos with
    | error e =>
      rw [h] at hinfo
      cases hinfo
    | ok info' =>
      rw [h] at hinfo
      exact congrArg Except.ok (Option.some.inj hinfo)
  rw [hout, mapM_eq_some_iff] at hl
  exact ⟨output, infos, info, hout, hinfos, hinfer, (List.forall₂_cons.1 hl).1⟩

theorem built_eq : built.1 = .ok ⟨7, ["u", "w"]⟩ ∧ built.2.graph.producer? (gradId "t") = some 11 ∧
    built.2.graph.info? (gradId "t") = some ⟨.float, [0]⟩ := by
  simp only [built, synthesizeGradients, Synthesis.run, Synthesis.stepBack, Synthesis.settle,
    mergeSort_eq_insertionSort Synthesis.inOrder_trans Synthesis.inOrder_total]
  decide +kernel

end Widened

/-- A sum of gradients takes the place of an operand and has another shape. What is then cut out of the gradient for the
result of the op is not what belongs to the operand after it. -/
theorem synthesizeGradients_widens :
    Widened.graph.WellFormed ∧ Widened.graph.Acyclic ∧ Widened.graph.Inferred ∧
      (∀ e ∈ Widened.graph.tensors.entries, ∀ d ∈ e.2.info.shape, 0 ≤ d) ∧
      (∀ loss ∈ Widened.losses, loss.Attached Widened.graph) ∧ Widened.built.1 = .ok ⟨7, ["u", "w"]⟩ ∧
      Widened.graph.Gets Widened.built.2.graph "t" ∧ Widened.graph.info? "t" = some ⟨.float, [1]⟩ ∧
      Widened.built.2.graph.info? (gradId "t") = some ⟨.float, [0]⟩ :=
  have ⟨_, _, hsized, hlosses, hnone, hinfo⟩ := Widened.graph_facts
  ⟨Widened.wellFormed, Widened.acyclic, Widened.inferred, hsized, hlosses, Widened.built_eq.1,
    ⟨hnone, 11, Widened.built_eq.2.1⟩, hinfo, Widened.built_eq.2.2⟩

end TensorGraph
