import TensorGraph.Proofs.Gradient.Tangent
import TensorGraph.Proofs.Graph.Meaning

/-!
Reverse accumulation loses nothing and counts nothing twice. Gradients that wait, paired with tangents, have the same
sum before and after every visit and every update; at the start it comes from the losses, and at the end it is that
of the gradients for the weights.
-/
namespace TensorGraph

open TensorGraph.Graph

/-- In values that satisfy a graph, the operands of the ops that it grew from have values. -/
theorem Graph.Grows.operands {R : Type} [Field R] [LinearOrder R] {f : Functions R}
    {a ν : TensorId → Option (Operand R)} {G g : Graph} (h : Grows G g) (hinf : G.Inferred)
    (hν : (G.numeric f a).Fits g ν) {o : OpId} {op : Op} (ho : G.op? o = some op) :
    ∃ xs, op.inputs.mapM ν = some xs := by
  obtain ⟨output, hout⟩ := hinf.output ho
  obtain ⟨op', ho', -, hin, hout'⟩ := h.ops ho
  have hproducer := (h.linked.producer?_iff_of_outputs ho' (hout'.trans hout)).2 rfl
  obtain ⟨xs, -, -, hxs, -⟩ := numeric_op hν hproducer ho'
  exact ⟨xs, hin ▸ hxs⟩

namespace Synthesis

variable {R : Type} [Field R] [LinearOrder R] {f : Functions R} {a : TensorId → Option (Operand R)} {T : TangentMap R}
  {G : Graph} {s s' s'' : Synthesis} {t : TensorId} {done done' : List TensorId}

/-! ## The invariant -/

/-- The state `s'` comes after `s`, and the gradients for the tensors of `done` have become final on the way. Paired
with tangents, what waits has only lost what is final. -/
structure Conserves (f : Functions R) (a : TensorId → Option (Operand R)) (T : TangentMap R) (G : Graph)
    (s s' : Synthesis) (done : List TensorId) : Prop where
  grown : Grown SameShape G s'
  later : ∃ φ, Carries φ s s' ∧ ∀ {ν τ}, (G.numeric f a).Fits s'.graph ν → Propagates T G ν τ →
    paired (ν ∘ φ) τ s.waiting = paired ν τ (done.map fun t => (t, gradId t)) + paired ν τ s'.waiting
  final : ∀ t ∈ done, s'.graph.hasTensor (gradId t) = true ∧ gradId t ∉ s'.waiting.map Prod.snd

namespace Conserves

theorem refl (h : Grown SameShape G s) : Conserves f a T G s s [] :=
  ⟨h, ⟨id, .refl s, fun _ _ => (zero_add _).symm⟩, nofun⟩

theorem trans (hG : G.Linked) (h : Conserves f a T G s s' done) (h' : Conserves f a T G s' s'' done') :
    Conserves f a T G s s'' (done ++ done') := by
  obtain ⟨φ, hφ, heq⟩ := h.later
  obtain ⟨ψ, hψ, heq'⟩ := h'.later
  refine ⟨h'.grown, ⟨ψ ∘ φ, hφ.trans hψ, fun {ν τ} hν hτ => ?_⟩, fun t ht => ?_⟩
  · have hpull : (G.numeric f a).Fits s'.graph (ν ∘ ψ) := by
      refine hν.pull hψ.embeds fun t v hv => h.grown.laterName_eq hψ ?_
      obtain ⟨x, hx, -⟩ := numeric_source hv
      exact hasTensor_iff.2 ⟨x, hx⟩
    have hτ' : Propagates T G (ν ∘ ψ) τ := by
      refine hτ.congr fun ho i hi => congrArg ν (h.grown.laterName_eq hψ ?_)
      exact hasTensor_iff.2 (hG.hasTensor_of_input ho hi)
    have hdone : paired (ν ∘ ψ) τ (done.map fun t => (t, gradId t)) = paired ν τ (done.map fun t => (t, gradId t)) := by
      refine paired_congr fun p hp => ?_
      rw [List.map_map] at hp
      obtain ⟨t, ht, rfl⟩ := List.mem_map.1 hp
      exact congrArg ν (hψ.fixed (h.final t ht).1 (h.final t ht).2).1
    calc paired (ν ∘ ψ ∘ φ) τ s.waiting
        = paired (ν ∘ ψ) τ (done.map fun t => (t, gradId t)) + paired (ν ∘ ψ) τ s'.waiting := heq hpull hτ'
      _ = paired ν τ (done.map fun t => (t, gradId t)) +
            (paired ν τ (done'.map fun t => (t, gradId t)) + paired ν τ s''.waiting) := by rw [hdone, heq' hν hτ]
      _ = _ := by rw [List.map_append, paired_append, add_assoc]
  · rcases List.mem_append.1 ht with ht | ht
    · exact (hψ.fixed (h.final t ht).1 (h.final t ht).2).2
    · exact h'.final t ht

end Conserves

/-- What waits is for tensors that need a gradient, and whatever produces them is still to be visited. -/
def Awaits (G : Graph) (relevant : SortedSet OpId) (l : List OpId) (s : Synthesis) : Prop :=
  ∀ t p, (t, p) ∈ s.waiting → needsGrad G relevant t = true ∧ ∀ o, G.producer? t = some o → o ∈ l

/-- When the gradients for the result of an op have become one, nothing waits for that op any more. -/
theorem Awaits.settled {relevant : SortedSet OpId} {o : OpId} {l : List OpId} {m : List (TensorId × TensorId)}
    (h : Awaits G relevant (o :: l) s) (hproduced : ∀ {u}, G.producer? u = some o ↔ u = t)
    (hp : s'.partials = s.partials.erase t) (hw : s.waiting.Perm (m ++ s'.waiting)) : Awaits G relevant l s' := by
  intro u p hwaits
  obtain ⟨hneeds, hproducer⟩ := h u p (hw.mem_iff.2 (List.mem_append_right _ hwaits))
  refine ⟨hneeds, fun q hq => (List.mem_cons.1 (hproducer q hq)).resolve_left ?_⟩
  rintro rfl
  exact not_waiting_of_erase hp hwaits (hproduced.1 hq)

/-- What waits when all is visited waits for weights. -/
theorem Awaits.weight {relevant : SortedSet OpId} (h : Awaits G relevant [] s) (hs : Grows G s.graph)
    (hp : (t, p) ∈ s.waiting) : t ∈ s.graph.weights := by
  obtain ⟨hneeds, hproducer⟩ := h t p hp
  obtain ⟨x, hx, hcase⟩ := needsGrad_iff.1 hneeds
  rcases hcase with hweight | ⟨o, -, ho⟩
  · obtain ⟨x', hx', htype, -⟩ := hs.tensors hx
    exact (mem_weights hs.linked).2 ⟨x', hx', htype.trans hweight⟩
  · exact absurd (hproducer o (producer?_eq_some.2 ⟨x, hx, ho⟩)) List.not_mem_nil

/-! ## Visits -/

section Visits

variable {rules : GradRegistry} {losses : List Loss} {o : OpId} {l : List OpId}

/-- Whenever an op is visited, its rule gives gradients that are adjoint to the tangent map of the op. -/
def AdjointRules (f : Functions R) (a : TensorId → Option (Operand R)) (T : TangentMap R) (rules : GradRegistry)
    (losses : List Loss) (G : Graph) : Prop :=
  ∀ {s o l op t s₁ incoming gradients s₂}, Sweeps rules losses G s (o :: l) → s.graph.op? o = some op →
    Visits rules (relevantOps G losses) s op t s₁ incoming gradients s₂ →
    Adjoint (G.numeric f a) T (needsGrad G (relevantOps G losses)) s₂.graph op incoming gradients

/-- One visit. The gradients for the result of the op become one, and that one is paired as the gradients that the
rule gives. -/
theorem visit_conserves (hrules : ∀ type rule, rules.get? type = some rule → rule.Lawful)
    (hadj : AdjointRules f a T rules losses G) (hG : G.WellFormed) (hacyclic : G.Acyclic) (hinf : G.Inferred)
    (hsweep : Sweeps rules losses G s (o :: l)) (hgrown : Grown SameShape G s) (ho : o ∈ relevantOps G losses)
    (hback : ∀ q, G.Feeds q o → (relevantOps G losses).contains q = true → q ∈ l)
    (hw : Awaits G (relevantOps G losses) (o :: l) s)
    (hrun : (visit rules (relevantOps G losses) o).run s = (.ok (), s')) :
    Conserves f a T G s s' [] ∧ Awaits G (relevantOps G losses) l s' := by
  obtain ⟨op₀, hop₀, hphase⟩ := op_of_relevant ho
  obtain ⟨output, hout₀⟩ := hinf.output hop₀
  obtain ⟨op, hop, hkind, hin, hout⟩ := hgrown.grows.ops hop₀
  have hproduced : ∀ {u}, G.producer? u = some o ↔ u = output := hG.linked.producer?_iff_of_outputs hop₀ hout₀
  rw [visit_run hop] at hrun
  rcases stepBack_ok hrun with ⟨t, ht, hsettle⟩ | ⟨t, s₁, incoming, gradients, s₂, hvisits, hgraph, hperm, -⟩
  · obtain rfl := Op.eq_of_output (hout.trans hout₀) ht
    obtain ⟨hpartials, hsettled⟩ := settle_ok hgrown.grows.linked hgrown.grows.numbered hsettle
    obtain ⟨hgrown', hcarries, hwaiting, -⟩ := hsettled.grown hG.linked hgrown hpartials
    refine ⟨⟨hgrown', ⟨_, hcarries, fun hν _ => ?_⟩, nofun⟩, hw.settled hproduced hpartials hwaiting⟩
    exact hsettled.paired_eq hG.linked hgrown hpartials hν _
  · obtain rfl := Op.eq_of_output (hout.trans hout₀) hvisits.output
    obtain ⟨hpartials, hsettled⟩ := settle_ok hgrown.grows.linked hgrown.grows.numbered hvisits.settle
    obtain ⟨hgrown₁, hcarries₁, hwaiting, -⟩ := hsettled.grown hG.linked hgrown hpartials
    have hadjoint := hadj hsweep hop hvisits
    have hinputs : ∀ i ∈ op.inputs, G.hasTensor i = true := fun i hi => hG.inputs hop₀ (hin ▸ hi)
    obtain ⟨hgrown', hcarries, hperm, hneeds⟩ := hvisits.grown hrules (relevant_lt hG) hinputs hgrown₁ hadjoint.shape hgraph hperm
    refine ⟨⟨hgrown', ⟨_, hcarries₁.trans hcarries, fun {ν τ} hν hτ => ?_⟩, nofun⟩, fun i p hp => ?_⟩
    · have hoperands : ∀ {o op}, G.op? o = some op → ∃ xs, op.inputs.mapM ν = some xs :=
        hgrown'.grows.operands hinf hν
      obtain ⟨xs, hxs⟩ := hoperands hop₀
      have htangent : τ t = T.map op.kind xs (op.inputs.map τ) := by
        rw [hτ.forward (hproduced.2 rfl) hop₀ hphase hxs, hkind, hin]
      have hzero : ∀ i ∈ op.inputs, needsGrad G (relevantOps G losses) i = false → τ i = 0 :=
        fun i hi => hτ.eq_zero hG.linked hacyclic hoperands ho hop₀ (hin ▸ hi)
      have hν₁ : (G.numeric f a).Fits s₁.graph ν := hν.pull hcarries.embeds fun _ _ _ => rfl
      calc paired (ν ∘ id ∘ s.laterName t) τ s.waiting
          = pairing (elements ν incoming) (τ t) + paired ν τ s₁.waiting :=
            hsettled.paired_eq hG.linked hgrown hpartials hν₁ τ
        _ = paired ν τ (given op.inputs gradients) + paired ν τ s₁.waiting := by
            rw [htangent, hadjoint.pairing_eq (hgraph ▸ hν) (hin ▸ hxs) τ hzero]
        _ = 0 + paired ν τ s'.waiting := by rw [paired_perm hperm, paired_append, zero_add]
    · rcases List.mem_append.1 (hperm.mem_iff.1 hp) with hp | hp
      · refine ⟨hneeds hp, fun q hq => ?_⟩
        obtain ⟨k, hi, -⟩ := mem_given hp
        refine hback q ⟨op₀, hop₀, i, hin ▸ List.mem_of_getElem? hi, hq⟩ ?_
        exact SortedSet.contains_iff.2 (relevant_of_needsGrad hG (hneeds hp) hq)
      · exact hw.settled hproduced hpartials hwaiting i p hp

/-- All visits. -/
theorem sweep_conserves (hrules : ∀ type rule, rules.get? type = some rule → rule.Lawful)
    (hadj : AdjointRules f a T rules losses G) (hG : G.WellFormed) (hacyclic : G.Acyclic) (hinf : G.Inferred) :
    ∀ {l : List OpId} {s s' : Synthesis}, Sweeps rules losses G s l → Grown SameShape G s →
      (∀ o ∈ l, o ∈ relevantOps G losses) → Backward G (relevantOps G losses).contains l →
      Awaits G (relevantOps G losses) l s → (l.forM (visit rules (relevantOps G losses))).run s = (.ok (), s') →
      Conserves f a T G s s' [] ∧ Awaits G (relevantOps G losses) [] s'
  | [], s, s', _, hgrown, _, _, hw, hrun => by
    cases hrun
    exact ⟨.refl hgrown, hw⟩
  | o :: l, s, s', hsweep, hgrown, hmem, hback, hw, hrun => by
    obtain ⟨_, s₁, hfirst, hrun⟩ := Stateful.run_bind_ok.1 hrun
    obtain ⟨hconserves, hw₁⟩ := visit_conserves hrules hadj hG hacyclic hinf hsweep hgrown
      (hmem o (by simp)) hback.1 hw hfirst
    obtain ⟨hconserves', hw'⟩ := sweep_conserves hrules hadj hG hacyclic hinf (hsweep.visit hfirst)
      hconserves.grown (fun q hq => hmem q (List.mem_cons_of_mem _ hq)) hback.2 hw₁ hrun
    exact ⟨hconserves.trans hG.linked hconserves', hw'⟩

end Visits

/-! ## Updates -/

/-- The gradients for a weight become final. -/
theorem settle_conserves {owner : Op} {result : Option TensorId} (hG : G.Linked) (h : Grown SameShape G s)
    (hrun : (settle t owner).run s = (.ok result, s')) :
    Conserves f a T G s s' (result.toList.map fun _ => t) ∧
      ∀ t' p, (t', p) ∈ s'.waiting → t' ≠ t ∧ (t', p) ∈ s.waiting := by
  obtain ⟨hpartials, hsettled⟩ := settle_ok h.grows.linked h.grows.numbered hrun
  obtain ⟨hgrown, hcarries, hwaiting, -, hname⟩ := hsettled.grown hG h hpartials
  refine ⟨⟨hgrown, ⟨_, hcarries, fun {ν τ} hν _ => ?_⟩, fun t' ht' => ?_⟩, fun t' p hp =>
    ⟨not_waiting_of_erase hpartials hp, hwaiting.mem_iff.2 (List.mem_append_right _ hp)⟩⟩
  · rw [hsettled.paired_eq hG h hpartials hν τ]
    cases result with
    | none => rfl
    | some name =>
      rw [hsettled.name_eq]
      simp [paired]
  · cases result with
    | none => cases ht'
    | some name =>
      obtain rfl : t' = t := by simpa using ht'
      exact hsettled.name_eq ▸ hname name rfl

/-- The update of one weight. -/
theorem update_conserves {weight : TensorId} {result : Option TensorId} (hG : G.Linked) (h : Grown SameShape G s)
    (hrun : (update weight).run s = (.ok result, s')) :
    Conserves f a T G s s' result.toList ∧ ∀ t p, (t, p) ∈ s'.waiting → t ≠ weight ∧ (t, p) ∈ s.waiting := by
  rcases update_cases hrun with ⟨rfl, rfl, hnone⟩ | ⟨rfl, first, template, s₁, info, g₁, -, -, hsettle, ha, hs⟩
  · refine ⟨.refl h, fun t p hp => ⟨?_, hp⟩⟩
    rintro rfl
    exact hnone p hp
  · obtain ⟨hconserves, hwaiting⟩ : Conserves f a T G s s₁ [weight] ∧ _ := settle_conserves hG h hsettle
    obtain ⟨-, hgrown, hcarries, hsame, -⟩ := hconserves.grown.updated ha hs
    refine ⟨hconserves.trans hG ⟨hgrown, ⟨_, hcarries, fun _ _ => ?_⟩, nofun⟩, fun t p hp => hwaiting t p (hsame ▸ hp)⟩
    rw [hsame]
    exact (zero_add _).symm

/-- The updates of all weights. -/
theorem updates_conserve (hG : G.Linked) : ∀ {weights : List TensorId} {s s' : Synthesis} {results : List (Option TensorId)},
    Grown SameShape G s → (weights.mapM update).run s = (.ok results, s') →
    Conserves f a T G s s' (results.filterMap id) ∧
      ∀ t p, (t, p) ∈ s'.waiting → t ∉ weights ∧ (t, p) ∈ s.waiting
  | [], s, s', results, h, hrun => by
    cases hrun
    exact ⟨.refl h, fun t p hp => ⟨List.not_mem_nil, hp⟩⟩
  | weight :: weights, s, s', results, h, hrun => by
    rw [List.mapM_cons] at hrun
    obtain ⟨result, s₁, hfirst, hrun⟩ := Stateful.run_bind_ok.1 hrun
    obtain ⟨rest, s₂, hrest, hrun⟩ := Stateful.run_bind_ok.1 hrun
    cases hrun
    obtain ⟨hconserves, hwaiting⟩ : Conserves f a T G s s₁ result.toList ∧ _ := update_conserves hG h hfirst
    obtain ⟨hconserves', hwaiting'⟩ := updates_conserve hG hconserves.grown hrest
    refine ⟨?_, fun t p hp => ?_⟩
    · have hdone : (result :: rest).filterMap id = result.toList ++ rest.filterMap id := by cases result <;> rfl
      rw [hdone]
      exact hconserves.trans hG hconserves'
    · obtain ⟨hne, hp⟩ := hwaiting' t p hp
      obtain ⟨hne', hp⟩ := hwaiting t p hp
      exact ⟨List.not_mem_cons_of_ne_of_not_mem hne' hne, hp⟩

/-! ## The whole synthesis -/

variable {rules : GradRegistry} {losses : List Loss}

/-- The gradients of the losses are paired as the gradients for the weights in the end. -/
theorem run_conserves (hrules : ∀ type rule, rules.get? type = some rule → rule.Lawful)
    (hadj : AdjointRules f a T rules losses G) (hG : G.WellFormed) (hacyclic : G.Acyclic) (hinf : G.Inferred)
    (hscaling : G.hasTensor Sgd.lossScalingId = true)
    (hlosses : ∀ loss ∈ losses, ∃ o, G.producer? loss.output = some o)
    {updated : List TensorId} (hrun : (run rules losses).run { graph := G } = (.ok updated, s')) :
    Grows G s'.graph ∧ ∃ seeds : List Seed,
      seeds.map (fun σ => (σ.loss, σ.target)) = counted G (relevantOps G losses) losses ∧
      (∀ σ ∈ seeds, σ.Stands G s'.graph) ∧ (seeds.map Seed.op).Nodup ∧
      ∀ {ν τ}, (G.numeric f a).Fits s'.graph ν → Propagates T G ν τ →
        (updated.map fun w => pairing (elements ν (gradId w)) (τ w)).sum =
          (seeds.map fun σ => pairing (elements ν σ.output) (τ σ.target)).sum := by
  obtain ⟨s₁, s₂, order, results, hstarts, horder, hsweep, hupdates, rfl⟩ := run_parts hrun
  obtain ⟨seeds, hcounted, hstands, hnodup, hgrown₁, hwaiting₁⟩ :=
    starts_wait (R := SameShape) (fun _ => rfl) hG hscaling hlosses hstarts
  have hawaits : Awaits G (relevantOps G losses) (order.reverse.filter (relevantOps G losses).contains) s₁ := by
    intro t p hp
    obtain ⟨σ, hσ, heq⟩ := List.mem_map.1 (hwaiting₁.mem_iff.1 hp)
    cases heq
    have hmem : (σ.loss, σ.target) ∈ counted G (relevantOps G losses) losses :=
      hcounted ▸ List.mem_map.2 ⟨σ, hσ, rfl⟩
    have hneeds := needsGrad_of_counted hmem
    exact ⟨hneeds, fun o ho => (mem_visited hgrown₁ horder).2 (relevant_of_needsGrad hG hneeds ho)⟩
  obtain ⟨hconserves, hawaits'⟩ := sweep_conserves hrules hadj hG hacyclic hinf (.start hstarts horder) hgrown₁
    (fun o ho => (mem_visited hgrown₁ horder).1 ho) (hgrown₁.grows.backward horder _) hawaits hsweep
  obtain ⟨hconserves', hwaiting⟩ : Conserves f a T G s₂ s' (results.filterMap id) ∧ _ :=
    updates_conserve hG.linked hconserves.grown hupdates
  have hall := hconserves.trans hG.linked hconserves'
  -- what still waited after the visits waited for weights
  have hnone : s'.waiting = [] := by
    refine List.eq_nil_iff_forall_not_mem.2 fun ⟨t, p⟩ hp => ?_
    obtain ⟨hnot, hp⟩ := hwaiting t p hp
    exact hnot (hawaits'.weight hconserves.grown.grows hp)
  obtain ⟨φ, hφ, heq⟩ := hall.later
  refine ⟨hall.grown.grows, seeds.map fun σ => { σ with output := φ σ.output }, ?_, ?_, ?_, fun hν hτ => ?_⟩
  · rw [List.map_map, ← hcounted]
    rfl
  · intro σ hσ
    obtain ⟨σ₁, hσ₁, rfl⟩ := List.mem_map.1 hσ
    exact (hstands σ₁ hσ₁).carry hG.linked hscaling hgrown₁ hφ
  · rw [List.map_map]
    exact hnodup
  · have hsum := heq hν hτ
    rw [hnone, paired_perm hwaiting₁] at hsum
    simp only [paired, List.map_map, List.map_nil, List.sum_nil, add_zero, List.nil_append] at hsum
    rw [List.map_map]
    exact hsum.symm

end Synthesis

/-- Reverse accumulation loses nothing and counts nothing twice: if the rules are adjoint to the tangent maps of ops,
the gradients for the updated weights are paired with the tangents of the weights as the gradients of the losses are
with the tangents of what they are for. -/
theorem gradients_paired_eq_losses_paired {R : Type} [Field R] [LinearOrder R] (f : Functions R)
    (a : TensorId → Option (Operand R)) (T : TangentMap R) {rules : GradRegistry} {losses : List Loss} {b b' : Build}
    {summary : GradSummary} (hG : b.graph.WellFormed) (hacyclic : b.graph.Acyclic) (hinf : b.graph.Inferred)
    (hlosses : ∀ loss ∈ losses, ∃ o, b.graph.producer? loss.output = some o)
    (hrules : ∀ type rule, rules.get? type = some rule → rule.Lawful)
    (hrun : (synthesizeGradients rules losses).run b = (.ok summary, b'))
    (hadj : Synthesis.AdjointRules f a T rules losses b.graph)
    (hvalue : ∀ {o op t}, b'.graph.op? o = some op → t ∈ op.outputs →
      ((b.graph.numeric f a).value? b'.graph t).isSome = true)
    {τ : TensorId → Nat → R} (hτ : Propagates T b.graph ((b.graph.numeric f a).value? b'.graph) τ) :
    ∃ seeds : List Synthesis.Seed,
      seeds.map (fun σ => (σ.loss, σ.target)) =
        Synthesis.counted b.graph (Synthesis.relevantOps b.graph losses) losses ∧
      (∀ σ ∈ seeds, σ.Stands b.graph b'.graph) ∧ (seeds.map Synthesis.Seed.op).Nodup ∧
      (summary.updated.map fun w =>
          pairing (elements ((b.graph.numeric f a).value? b'.graph) (gradId w)) (τ w)).sum =
        (seeds.map fun σ =>
          pairing (elements ((b.graph.numeric f a).value? b'.graph) σ.output) (τ σ.target)).sum := by
  obtain ⟨hscaling, s', hgraph, hrun⟩ := synthesizeGradients_ok hrun
  obtain ⟨hgrows, seeds, hcounted, hstands, hnodup, hsum⟩ :=
    Synthesis.run_conserves hrules hadj hG hacyclic hinf hscaling hlosses hrun
  rw [← hgraph] at hgrows hstands hsum
  refine ⟨seeds, hcounted, hstands, hnodup, hsum (Reading.fits_value? _ hgrows.linked ?_ hvalue) hτ⟩
  intro t v hv
  -- what is not computed has no producer, and gets none
  obtain ⟨x, hx, hne⟩ := numeric_source hv
  obtain ⟨x', hx', -, hkeep, -⟩ := hgrows.tensors hx
  rw [producer?, hx', Option.bind_some, (hkeep (.inl hne)).2]
  cases hp : x.producer with
  | none => rfl
  | some o => exact absurd (hG.produced hx hp) hne

/-! ## Two weights with a loss each, one of them negated -/

namespace Opposed

def graph : Graph :=
  ([.addTensor "v" ⟨.float, [2]⟩ .weight none, .addTensor "w" ⟨.float, [2]⟩ .weight none, .addOp (.unary .neg) ["w"] ["y"] .forward,
    .addOp (.l1 .one .sum) ["y"] ["ly"] .loss, .addOp (.l1 .one .sum) ["v"] ["lv"] .loss,
    .addTensor Sgd.learningRateId (.scalar .float) .optimizerStream none,
    .addTensor Sgd.weightDecayId (.scalar .float) .optimizerStream none,
    .addTensor Sgd.lossScalingId (.scalar .float) .optimizerStream none] : List Graph.Edit).foldl
      (fun g e => (e.call.run g).2) .empty

def losses : List Loss := [.l1 "y" "ly" .one .sum, .l1 "v" "lv" .one .sum]

theorem wellFormed : graph.WellFormed := by
  have h : Edited Graph.empty graph :=
    .call _ (.call _ (.call _ (.call _ (.call _ (.call _ (.call _ (.call _ .start trivial) trivial) trivial) trivial)
      trivial) trivial) trivial) trivial
  exact (h.sound .empty).wellFormed

theorem acyclic : graph.Acyclic := (order_complete wellFormed.linked (by decide : graph.order = .ok [0, 1, 2])).acyclic

theorem inferred : graph.Inferred := by
  have h : ∀ op ∈ graph.ops.values, ∃ output infos info, op.outputs = [output] ∧
      op.inputs.mapM graph.info? = some infos ∧ op.kind.infer infos = .ok info ∧ graph.info? output = some info := by
    intro op hop
    fin_cases hop
    · exact ⟨"y", _, _, rfl, rfl, rfl, rfl⟩
    · exact ⟨"ly", _, _, rfl, rfl, rfl, rfl⟩
    · exact ⟨"lv", _, _, rfl, rfl, rfl, rfl⟩
  exact fun o op ho => h op (Dict.mem_values.2 ⟨o, ho⟩)

/-- The graph with the gradients. -/
def built : Outcome GradSummary × Build := (synthesizeGradients .empty losses).run ⟨graph, []⟩

def functions : Functions ℚ := ⟨id, id, id, id, id, id, fun _ => 1, fun _ => 0⟩

/-- The weight is `(3, -2)`, and every setting is one. -/
def fed (t : TensorId) : Option (Operand ℚ) :=
  some (if t = "v" ∨ t = "w" then ⟨⟨.float, [2]⟩, [3, -2]⟩ else ⟨.scalar .float, [1]⟩)

def tangentMap : TangentMap ℚ where
  map
    | .unary .neg, _, [τ] => -τ
    | _, _, _ => 0
  map_zero kind xs τs h := by
    split
    · rw [h _ (List.mem_singleton_self _), neg_zero]
    · rfl

def tangent (t : TensorId) : Nat → ℚ := if t = "v" ∨ t = "w" then 1 else if t = "y" then -1 else 0

/-- The state before the visits. -/
def start : Synthesis := ((losses.forM (Synthesis.startFrom (Synthesis.relevantOps graph losses))).run { graph }).2

/-- The steps of the synthesis, and a last one that visits only the first op. -/
theorem start_order : start.graph.order = .ok [0, 1, 2, 3, 4] ∧
    (([0, 1, 2, 3, 4] : List OpId).reverse.filter (Synthesis.relevantOps graph losses).contains) = [0] := by
  decide +kernel

theorem sweeps {s : Synthesis} {l : List OpId} (h : Synthesis.Sweeps .empty losses graph s l) :
    l = [] ∨ s = start ∧ l = [0] := by
  induction h with
  | @start s order hs ho =>
    have hstate : s = start := by rw [start, hs]
    subst hstate
    rw [start_order.1] at ho
    cases ho
    exact .inr ⟨rfl, start_order.2⟩
  | visit _ _ ih =>
    rcases ih with hnil | ⟨-, hone⟩
    · cases hnil
    · exact .inl (List.cons.inj hone).2

def negation : Op :=
  { id := 0, kind := .unary .neg, name := "y", inputs := ["w"], outputs := ["y"], phase := .forward }

def settled : Outcome (Option TensorId) × Synthesis := (Synthesis.settle "y" negation).run start

def call : GradCall := { op := negation, needs := [true], incoming := "d__y" }

def emitted : Outcome (List (Option TensorId)) × Synthesis :=
  (call.only (.unary .neg) [call.incoming]).run settled.2

theorem emitted_facts : start.graph.op? 0 = some negation ∧ settled.1 = .ok (some "d__y") ∧
    negation.inputs.map (Synthesis.needsGrad settled.2.graph (Synthesis.relevantOps graph losses)) = [true] ∧
      emitted.1 = .ok [some "t2__d__y"] ∧ emitted.2.graph.info? "w" = some ⟨.float, [2]⟩ ∧
        emitted.2.graph.info? "t2__d__y" = some ⟨.float, [2]⟩ ∧ emitted.2.graph.producer? "t2__d__y" = some 5 ∧
          (emitted.2.graph.op? 5).map (fun op => (op.kind, op.inputs)) = some (.unary .neg, ["d__y"]) := by
  decide +kernel

/-- Only the negation is visited, and the gradient for its operand is the negated one for its result. -/
theorem adjoint : Synthesis.AdjointRules functions fed tangentMap .empty losses graph := by
  intro s o l op t s₁ incoming gradients s₂ hsweep hop hv
  obtain ⟨hnegation, hsettled, hneeds, hgiven, hinfo, hinfo', hproducer, hmade⟩ := emitted_facts
  rcases sweeps hsweep with hnil | ⟨rfl, hl⟩
  · cases hnil
  cases hl
  cases hnegation.symm.trans hop
  have ht := hv.output
  cases ht
  have hsettle : settled = (.ok (some incoming), s₁) := hv.settle
  rw [Prod.ext_iff, hsettled] at hsettle
  obtain ⟨hincoming, rfl⟩ := hsettle
  cases hincoming
  obtain ⟨rule, hrule, hrun⟩ := hv.rule
  cases hrule
  have hemit : emitted = (.ok gradients, s₂) := by
    rw [← hrun, emitted, call, ← hneeds]
  have hgradients : gradients = [some "t2__d__y"] := by
    have h := congrArg Prod.fst hemit
    rw [hgiven] at h
    exact (Except.ok.inj h).symm
  obtain rfl : emitted.2 = s₂ := congrArg Prod.snd hemit
  subst hgradients
  refine ⟨fun {i p} hmem => ?_, fun {ν xs} hν hxs δ _ => ?_⟩
  · cases List.mem_singleton.1 hmem
    exact ⟨_, _, hinfo, hinfo', rfl⟩
  · obtain ⟨op, hop, hshape⟩ := Option.map_eq_some_iff.1 hmade
    obtain ⟨hkind, hinputs⟩ := Prod.mk.inj hshape
    obtain ⟨zs, info, y, hzs, -, hy, hexact, -, -⟩ := numeric_op hν hproducer hop
    rw [hinputs] at hzs
    rw [hkind] at hexact
    rw [mapM_eq_some_iff] at hzs
    cases hzs with
    | @cons _ z _ _ hz hnil =>
      cases hnil
      have hvalues := @Kernel.exact_unary ℚ functions.scalar _ _ _ _ hexact
      have hincoming : elements ν "d__y" = z.values := by rw [elements, hz]; rfl
      have hpartial : elements ν "t2__d__y" = z.values.map fun v => -v := by rw [elements, hy]; exact hvalues
      change pairing (elements ν "d__y") (-δ "w") = (pairing (elements ν "t2__d__y") (δ "w")) + 0
      rw [hincoming, hpartial, pairing_neg, add_zero]

/-- Only the result of the negation is computed and read by an op that counts forward. -/
theorem graph_facts : graph.op? 0 = some negation ∧
    (∀ e ∈ graph.tensors.entries, e.2.producer = none →
      ¬ (e.2.type = .weight ∧ e.2.info.dtype.isFloat = true) → ¬ (e.1 = "v" ∨ e.1 = "w") ∧ e.1 ≠ "y") ∧
    ∀ e ∈ graph.tensors.entries, e.2.producer.isSome = true →
      e.1 = "y" ∧ e.2.producer = some 0 ∨ (graph.forwardReaders e.1).isEmpty = true ∧
        ∀ op ∈ (graph.op? (e.2.producer.getD 0)).toList, op.phase ≠ .forward := by
  decide +kernel

theorem propagates : Propagates tangentMap graph ((graph.numeric functions fed).value? built.2.graph) tangent := by
  obtain ⟨hnegation, hsource, hforward⟩ := graph_facts
  refine ⟨fun {t x} hx hp hnot => ?_, fun {t o op xs} hp ho hphase hxs => ?_, fun {t o op q} hp ho hphase hq => ?_⟩
  · obtain ⟨hw, hy⟩ := hsource (t, x) (Dict.mem_entries.2 hx) hp hnot
    rw [tangent, if_neg hw, if_neg hy]
  · obtain ⟨x, hx, hxp⟩ := producer?_eq_some.1 hp
    rcases hforward (t, x) (Dict.mem_entries.2 hx) (by rw [hxp]; rfl) with ⟨rfl, h0⟩ | ⟨-, hother⟩
    · cases hxp.symm.trans h0
      cases hnegation.symm.trans ho
      rfl
    · refine absurd hphase (hother op ?_)
      simp [hxp, ho]
  · obtain ⟨x, hx, hxp⟩ := producer?_eq_some.1 hp
    rcases hforward (t, x) (Dict.mem_entries.2 hx) (by rw [hxp]; rfl) with ⟨rfl, h0⟩ | ⟨hempty, -⟩
    · cases hxp.symm.trans h0
      cases hnegation.symm.trans ho
      exact absurd rfl hphase
    · rw [List.isEmpty_iff.1 hempty] at hq
      cases hq

/-- The synthesis makes three ops and updates both weights, and everything it makes has a value. -/
theorem built_facts : built.1 = .ok ⟨3, ["v", "w"]⟩ ∧ graph.producer? (gradId "w") = none ∧
    built.2.graph.producer? (gradId "w") = some 5 ∧
      (∀ op ∈ built.2.graph.ops.values, ∀ t ∈ op.outputs,
        ((graph.numeric functions fed).value? built.2.graph t).isSome = true) ∧
        (∀ loss ∈ losses, (graph.producer? loss.output).isSome = true) ∧
          (Synthesis.counted graph (Synthesis.relevantOps graph losses) losses).map (·.2) = ["y", "v"] := by
  decide +kernel

end Opposed

/-- The gradients for a negated weight and for one that has a loss itself. -/
theorem gradients_paired_of_opposed :
    let ν := (Opposed.graph.numeric Opposed.functions Opposed.fed).value? Opposed.built.2.graph
    Opposed.built.1 = .ok ⟨3, ["v", "w"]⟩ ∧ ∃ seeds : List Synthesis.Seed,
      seeds.map (fun σ => σ.target) = ["y", "v"] ∧
      (["v", "w"].map fun w => pairing (elements ν (gradId w)) (Opposed.tangent w)).sum =
        (seeds.map fun σ => pairing (elements ν σ.output) (Opposed.tangent σ.target)).sum := by
  obtain ⟨hrun, -, -, hvalue, hlosses, htargets⟩ := Opposed.built_facts
  obtain ⟨seeds, hcounted, -, -, hsum⟩ := gradients_paired_eq_losses_paired (b := ⟨Opposed.graph, []⟩) Opposed.functions
    Opposed.fed Opposed.tangentMap Opposed.wellFormed Opposed.acyclic Opposed.inferred
    (fun loss hloss => Option.isSome_iff_exists.1 (hlosses loss hloss)) (fun _ _ h => by cases h)
    (Stateful.eq_ok_of_fst hrun) Opposed.adjoint
    (fun ho ht => hvalue _ (Dict.mem_values.2 ⟨_, ho⟩) _ ht) Opposed.propagates
  refine ⟨hrun, seeds, ?_, hsum⟩
  have hseeds := congrArg (List.map Prod.snd) hcounted
  rw [List.map_map] at hseeds
  exact hseeds.trans htargets

end TensorGraph
