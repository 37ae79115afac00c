import TensorGraph.Proofs.Gradient.Reaching

/-!
The steps of a synthesis of gradients. Whatever is to be known of the graph with the gradients is proved for each kind
of step: a loss is started from, gradients become one, an op is visited, a weight gets its update. A whole synthesis is
a chain of such steps, at the end of which every tensor that needs a gradient and that a loss depends on has got one.
-/
namespace TensorGraph

open TensorGraph.Graph

namespace Synthesis

variable {R : TensorInfo → TensorInfo → Prop} {G : Graph} {s s' s'' : Synthesis} {losses : List Loss} {t p : TensorId}
  {o : OpId} {op : Op} {l : List OpId}

/-! ## Gradients that are final -/

/-- The gradients for a tensor have become one, under the name of the gradient. -/
structure Final (R : TensorInfo → TensorInfo → Prop) (G : Graph) (s : Synthesis) (t : TensorId) : Prop where
  fresh : G.producer? (gradId t) = none
  produced : ∃ o, s.graph.producer? (gradId t) = some o
  notWaiting : gradId t ∉ s.waiting.map Prod.snd
  info : ∃ i j, G.info? t = some i ∧ s.graph.info? (gradId t) = some j ∧ R i j

/-- What is final stays so. -/
theorem Final.carry (h : Final R G s t) (hl : s.graph.Linked) {φ : TensorId → TensorId} (hc : Carries φ s s') :
    Final R G s' t := by
  obtain ⟨o, ho⟩ := h.produced
  obtain ⟨x, hx, -⟩ := producer?_eq_some.1 ho
  obtain ⟨hφ, -, hnot⟩ := hc.fixed (hasTensor_iff.2 ⟨x, hx⟩) h.notWaiting
  obtain ⟨op, hop, -⟩ := hl.op_of_producer ho
  obtain ⟨op', hp', -, -, -, -, hinfo'⟩ := hc.embeds.op ho hop
  rw [hφ] at hp' hinfo'
  obtain ⟨i, j, hi, hj, hR⟩ := h.info
  exact ⟨h.fresh, ⟨o, hp'⟩, hnot, i, j, hi, hinfo'.trans hj, hR⟩

/-- What is asked of infos that go together, so that gradients keep to it: the info of a gradient goes with that of what
it is a gradient for. -/
structure Passes (R : TensorInfo → TensorInfo → Prop) (G : Graph) (losses : List Loss) : Prop where
  refl : ∀ i, R i i
  sum : ∀ {i infos info}, infos ≠ [] → (∀ j ∈ infos, R i j) → OpKind.sum.infer infos = .ok info → R i info
  rule : ∀ {s s' : Synthesis} {o op₀ op needs incoming gradients rule}, Grown R G s → o ∈ relevantOps G losses →
    G.op? o = some op₀ → op.kind = op₀.kind → op.inputs = op₀.inputs → op.outputs = op₀.outputs →
    (∀ t i, op.output = .ok t → G.info? t = some i → ∃ j, s.graph.info? incoming = some j ∧ R i j) →
    GradRule.ofKind? op.kind = some rule → (rule { op, needs, incoming }).run s = (.ok gradients, s') →
    ∀ i p, (i, p) ∈ given op.inputs gradients → ∃ x y, s'.graph.info? i = some x ∧ s'.graph.info? p = some y ∧ R x y

/-- Nothing needs to be asked. -/
theorem passes_true (hG : G.WellFormed) (losses : List Loss) : Passes (fun _ _ => True) G losses := by
  refine ⟨fun _ => trivial, fun _ _ _ => trivial, ?_⟩
  intro s s' o op₀ op needs incoming gradients rule hgrown _ hop₀ _ hin _ _ hrule hrun i p hmem
  obtain ⟨l, hl, hsub, -⟩ := GradRule.lawful_ofKind hrule _ _ _ _ hrun
  obtain ⟨-, -, -, -, hmono, hnew⟩ := hgrown.emits hl
  obtain ⟨k, hi, hp⟩ := mem_given hmem
  obtain ⟨x, hx⟩ := hasTensor_iff.1
    (hmono (hgrown.grows.hasTensor (hG.inputs hop₀ (hin ▸ List.mem_of_getElem? hi))))
  obtain ⟨-, o, ho⟩ := hnew p (hsub.subset (List.mem_flatMap.2 ⟨_, List.mem_of_getElem? hp, Option.mem_toList.2 rfl⟩))
  obtain ⟨y, hy, -⟩ := producer?_eq_some.1 ho
  exact ⟨x.info, y.info, info?_eq_some.2 ⟨x, hx, rfl⟩, info?_eq_some.2 ⟨y, hy, rfl⟩, trivial⟩

theorem Settled.final {name : TensorId} (hs : Settled t s s' (some name)) (hR : Passes R G losses) (hG : G.Linked)
    (h : Grown R G s) (hp : s'.partials = s.partials.erase t) : Final R G s' t := by
  obtain ⟨-, -, hwaiting, -, hname⟩ := hs.grown hG h hp
  obtain ⟨-, hnot⟩ := hname name rfl
  rw [hs.name_eq] at hnot
  have hfresh : (∀ y, s.graph.tensor? (gradId t) = some y → y.producer = Option.none) →
      G.producer? (gradId t) = Option.none := by
    intro hnone
    by_contra hsome
    obtain ⟨o, ho⟩ := Option.ne_none_iff_exists'.1 hsome
    obtain ⟨y, hy, hyp⟩ := producer?_eq_some.1 (h.grows.producer?_eq ho)
    rw [hnone y hy] at hyp
    cases hyp
  have hwaits : ∀ {q : Partial}, q ∈ (s.partials.get? t).getD [] → (t, q.tensor) ∈ s.waiting := fun hq =>
    hwaiting.mem_iff.2 (List.mem_append_left _ (List.mem_map.2 ⟨_, hq, rfl⟩))
  cases hs with
  | @single one x hl hr =>
    obtain ⟨-, ⟨o, ho⟩, i, j, hi, hj, hij⟩ := h.waits (hwaits (q := one) (by rw [hl]; exact List.mem_singleton_self _))
    have hnew : s'.graph.tensor? (gradId t) = some { x with id := gradId t } := by rw [hr.tensor?_eq, if_pos rfl]
    obtain ⟨x', hx', hxp⟩ := producer?_eq_some.1 ho
    cases hr.found.symm.trans hx'
    rw [info?_eq_some] at hj
    obtain ⟨x', hx', rfl⟩ := hj
    cases hr.found.symm.trans hx'
    exact ⟨hfresh fun y hy => absurd rfl (hr.ne_new hy), ⟨o, producer?_eq_some.2 ⟨_, hnew, hxp⟩⟩, hnot, i, _, hi,
      info?_eq_some.2 ⟨_, hnew, rfl⟩, hij⟩
  | @several many info hl hlen ha =>
    obtain ⟨x, hx, hxp, hinfo, -⟩ := ha.result
    obtain ⟨infos, hinfos, hinfer⟩ := ha.infers
    rw [Outcome.mapM_eq_ok, List.forall₂_map_left_iff] at hinfos
    obtain ⟨q, hq⟩ := List.exists_mem_of_length_pos (Nat.lt_of_lt_of_le Nat.zero_lt_two hlen)
    obtain ⟨-, -, i, -, hi, -⟩ := h.waits (hwaits (hl.mem_iff.1 hq))
    refine ⟨hfresh fun y hy => (isFree_iff.1 ha.free y hy).1, ⟨_, producer?_eq_some.2 ⟨x, hx, hxp⟩⟩, hnot, i, info, hi,
      info?_eq_some.2 ⟨x, hx, hinfo⟩, hR.sum ?_ (fun j hj => ?_) hinfer⟩
    · rintro rfl
      rw [List.forall₂_nil_right_iff.1 hinfos] at hq
      cases hq
    · obtain ⟨q', hq', hj'⟩ := exists_of_forall₂ hinfos.flip j hj
      obtain ⟨-, -, i', j', hi', hj'', hij⟩ := h.waits (hwaits (hl.mem_iff.1 hq'))
      cases hi.symm.trans hi'
      rw [Graph.info, Outcome.orFail_eq_ok, hj'', Option.some.injEq] at hj'
      exact hj' ▸ hij

/-! ## Steps -/

/-- One step of a synthesis. -/
inductive Step (R : TensorInfo → TensorInfo → Prop) (G : Graph) (losses : List Loss) : Synthesis → Synthesis → Prop
  /-- The gradient of a loss for its first operand. -/
  | seed {s s₁ : Synthesis} {loss : Loss} {o : OpId} {lossOp owner : Op} {target p : TensorId} (h : Grown R G s)
      (ho : G.producer? loss.output = some o) (hop : G.op? o = some lossOp)
      (htarget : lossOp.inputs.head? = some target) (hneeds : needsGrad G (relevantOps G losses) target = true)
      (hadd : (GradM.addFresh owner loss.gradKind (lossOp.inputs ++ [Sgd.lossScalingId]) target).run s = (.ok p, s₁)) :
      Step R G losses s (s₁.note target ⟨o, 0, p⟩)
  /-- The gradients for a tensor become one. -/
  | settle {s s' : Synthesis} {t : TensorId} {owner : Op} {result : Option TensorId} (h : Grown R G s)
      (hrun : (settle t owner).run s = (.ok result, s')) : Step R G losses s s'
  /-- The rule for an op, after the gradients for its result have become one. -/
  | visit {s s₀ s₁ : Synthesis} {o : OpId} {op : Op} {t incoming : TensorId} {gradients : List (Option TensorId)}
      (h : Grown R G s₀) (ho : o ∈ relevantOps G losses) (hop : s₀.graph.op? o = some op)
      (hv : Visits .empty (relevantOps G losses) s₀ op t s incoming gradients s₁) :
      Step R G losses s (noteAll op.id (op.inputs.zip gradients) 0 s₁)
  /-- The update of a weight. -/
  | update {s : Synthesis} {weight : TensorId} {info : TensorInfo} {g : Graph} {place : Option Int} (h : Grown R G s)
      (hweight : ∃ x, G.tensor? weight = some x ∧ x.type = .weight) (hfinal : Final R G s weight)
      (ha : AddedOp s.graph .sgdVarUpdate (updateInputs weight) (updatedId weight) .weightUpdate info g) :
      Step R G losses s { s with graph := g.modifyOp s.graph.nextOp fun op => { op with virtualGraph := place } }

/-- Any number of steps. -/
abbrev Steps (R : TensorInfo → TensorInfo → Prop) (G : Graph) (losses : List Loss) : Synthesis → Synthesis → Prop :=
  Relation.ReflTransGen (Step R G losses)

/-- What is given for an operand. -/
theorem given_mem {inputs : List TensorId} {gradients : List (Option TensorId)} {k : Nat}
    (hi : inputs[k]? = some t) (hp : gradients[k]? = some (some p)) : (t, p) ∈ given inputs gradients := by
  refine List.mem_filterMap.2 ⟨(t, some p), ?_, rfl⟩
  exact List.mem_of_getElem? (List.getElem?_zip_eq_some.2 ⟨hi, hp⟩)

/-- What a visit does to the state. -/
theorem Visits.all (hG : G.WellFormed) (hR : Passes R G losses) (h : Grown R G s) (ho : o ∈ relevantOps G losses)
    (hop : s.graph.op? o = some op) {s₁ s₂ : Synthesis} {incoming : TensorId} {gradients : List (Option TensorId)}
    (hv : Visits .empty (relevantOps G losses) s op t s₁ incoming gradients s₂) (hg : s'.graph = s₂.graph)
    (hw : s'.waiting.Perm (given op.inputs gradients ++ s₂.waiting)) :
    Grown R G s₁ ∧ Final R G s₁ t ∧ Carries (s.laterName t) s s₁ ∧ Grown R G s' ∧ Carries id s₁ s' ∧
      s.waiting.Perm (((s.partials.get? t).getD []).map (fun p => (t, p.tensor)) ++ s₁.waiting) ∧
      s'.waiting.Perm (given op.inputs gradients ++ s₁.waiting) ∧
      ∀ {i p}, (i, p) ∈ given op.inputs gradients → needsGrad G (relevantOps G losses) i = true := by
  obtain ⟨op₀, hop₀, -⟩ := op_of_relevant ho
  obtain ⟨op', hop', hkind, hin, hout⟩ := h.grows.ops hop₀
  cases hop.symm.trans hop'
  obtain ⟨hpartials, hsettled⟩ := settle_ok h.grows.linked h.grows.numbered hv.settle
  obtain ⟨hgrown₁, hcarries₁, hwaiting, -⟩ := hsettled.grown hG.linked h hpartials
  have hfinal := hsettled.final hR hG.linked h hpartials
  have hinputs : ∀ i ∈ op.inputs, G.hasTensor i = true := fun i hi => hG.inputs hop₀ (hin ▸ hi)
  obtain ⟨rule, hofKind, hrun⟩ := hv.rule_ofKind
  have hgoes := hR.rule hgrown₁ ho hop₀ hkind hin hout (fun t' i ht' hi => ?_) hofKind hrun
  · obtain ⟨hgrown', hcarries, hperm, hneeds⟩ := hv.grown (fun _ _ hr => by cases hr) (relevant_lt hG) hinputs hgrown₁
      (hgoes _ _) hg hw
    exact ⟨hgrown₁, hfinal, hcarries₁, hgrown', hcarries, hwaiting, hperm, hneeds⟩
  · obtain rfl : t' = t := Except.ok.inj (ht'.symm.trans hv.output)
    obtain ⟨i', j, hi', hj, hij⟩ := hfinal.info
    cases hi.symm.trans hi'
    exact ⟨j, hsettled.name_eq ▸ hj, hij⟩

/-- The rule for an op gives a gradient for each operand that needs one, if gradients are passed back to it. -/
theorem Visits.answers {s₁ s₂ : Synthesis} {relevant : SortedSet OpId} {incoming : TensorId}
    {gradients : List (Option TensorId)} (hv : Visits .empty relevant s op t s₁ incoming gradients s₂)
    (h : Grown R G s₁) (hrel : ∀ o ∈ relevant, o < G.nextOp) (hinputs : ∀ i ∈ op.inputs, G.hasTensor i = true)
    (htakes : op.kind.Takes op.inputs.length) {k : Nat} {i : TensorId} (hi : op.inputs[k]? = some i) :
    ∃ gradient, gradients[k]? = some gradient ∧
      gradient.isSome = (needsGrad G relevant i && op.kind.passesBack k) := by
  obtain ⟨rule, hofKind, hrun⟩ := hv.rule_ofKind
  obtain ⟨_, -, hanswers⟩ := GradRule.linear_ofKind hofKind _ rfl _ s₁ gradients s₂ (GradCall.knows_known _) trivial hrun
  obtain ⟨gradient, hget, hsome⟩ := hanswers.get htakes hi
  refine ⟨gradient, hget, hsome.trans ?_⟩
  rw [GradCall.isNeeded, List.getD_eq_getElem?_getD, List.getElem?_map, hi, Option.map_some, Option.getD_some,
    h.grows.needsGrad_eq hrel (hinputs i (List.mem_of_getElem? hi))]

namespace Step

/-- What waits was added before and after a step, and the tensors of the start keep their names. -/
theorem grown (hG : G.WellFormed) (hR : Passes R G losses) (h : Step R G losses s s') :
    Grown R G s' ∧ ∃ φ, Carries φ s s' := by
  cases h with
  | @seed s₁ loss o lossOp owner target p h ho hop htarget hneeds hadd =>
    obtain ⟨-, -, info, ha⟩ := GradM.addFresh_ok h.grows.linked h.grows.numbered hadd
    obtain ⟨hgrown, hcarries, -⟩ := h.noted (m := [(target, p)]) (.cons hadd (.nil s₁))
      (rfl : (s₁.note target ⟨o, 0, p⟩).graph = s₁.graph) (waiting_note s₁ target ⟨o, 0, p⟩) (.refl _) fun {t q} hmem => by
        cases List.mem_singleton.1 hmem
        obtain ⟨i, hi, hi'⟩ := seed_info h.grows hneeds htarget ha
        exact ⟨i, i, hi, hi', hR.refl i⟩
    exact ⟨hgrown, id, hcarries⟩
  | settle h hrun =>
    obtain ⟨hpartials, hsettled⟩ := settle_ok h.grows.linked h.grows.numbered hrun
    obtain ⟨hgrown, hcarries, -⟩ := hsettled.grown hG.linked h hpartials
    exact ⟨hgrown, _, hcarries⟩
  | visit h ho hop hv =>
    obtain ⟨hgraph, hperm⟩ := waiting_noteAll _ (_ : List (TensorId × Option TensorId)) 0 _
    obtain ⟨-, -, -, hgrown, hcarries, -⟩ := hv.all hG hR h ho hop hgraph hperm
    exact ⟨hgrown, _, hcarries⟩
  | @update weight info g place h hweight hfinal ha =>
    obtain ⟨-, hgrown, hcarries, -⟩ := h.updated ha rfl
    exact ⟨hgrown, _, hcarries⟩

end Step

namespace Steps

theorem grown (hG : G.WellFormed) (hR : Passes R G losses) (h : Steps R G losses s s') (hs : Grown R G s) :
    Grown R G s' ∧ ∃ φ, Carries φ s s' := by
  induction h with
  | refl => exact ⟨hs, id, .refl s⟩
  | tail _ hstep ih =>
    obtain ⟨-, φ, hφ⟩ := ih
    obtain ⟨hgrown, ψ, hψ⟩ := hstep.grown hG hR
    exact ⟨hgrown, _, hφ.trans hψ⟩

theorem final (hG : G.WellFormed) (hR : Passes R G losses) (h : Steps R G losses s s') (hs : Grown R G s)
    (ht : Final R G s t) : Final R G s' t := by
  obtain ⟨-, φ, hφ⟩ := h.grown hG hR hs
  exact ht.carry hs.grows.linked hφ

end Steps

/-! ## Visits -/

theorem visit_steps (h : Grown R G s) (ho : o ∈ relevantOps G losses)
    (hrun : (visit .empty (relevantOps G losses) o).run s = (.ok (), s')) : Steps R G losses s s' := by
  obtain ⟨op₀, hop₀, -⟩ := op_of_relevant ho
  obtain ⟨op, hop, -⟩ := h.grows.ops hop₀
  rw [visit_run hop] at hrun
  rcases stepBack_ok hrun with ⟨t, -, hsettle⟩ | ⟨t, s₁, incoming, gradients, s₂, hv, -, -, rfl⟩
  · exact .single (.settle h hsettle)
  · have hstep : Step R G losses s₁ _ := .visit h ho hop hv
    exact .tail (.single (.settle h hv.settle)) hstep

theorem visits_steps (hG : G.WellFormed) (hR : Passes R G losses) : ∀ {l : List OpId} {s s' : Synthesis},
    Grown R G s → (∀ o ∈ l, o ∈ relevantOps G losses) →
    (l.forM (visit .empty (relevantOps G losses))).run s = (.ok (), s') → Steps R G losses s s'
  | [], _, _, _, _, hrun => by
    cases hrun
    exact .refl
  | o :: l, _, _, h, hrel, hrun => by
    obtain ⟨_, s₁, hfirst, hrun⟩ := Stateful.run_bind_ok.1 hrun
    have hsteps := visit_steps h (hrel o List.mem_cons_self) hfirst
    obtain ⟨hgrown, -⟩ := hsteps.grown hG hR h
    exact hsteps.trans (visits_steps hG hR hgrown (fun q hq => hrel q (List.mem_cons_of_mem _ hq)) hrun)

/-- Where gradients are during the visits, if the ops of `l` are still to be visited. What waits is for tensors that a
loss depends on; a tensor that a loss depends on has gradients that wait, or is read by an op of the list on the way to
the loss, or is the result of an op that was visited, and then its gradient is final. -/
structure Flows (R : TensorInfo → TensorInfo → Prop) (G : Graph) (losses : List Loss) (l : List OpId) (s : Synthesis) :
    Prop where
  grown : Grown R G s
  sound : ∀ {t p}, (t, p) ∈ s.waiting → needsGrad G (relevantOps G losses) t = true ∧ G.Reached losses t ∧
    ∀ o, G.producer? t = some o → o ∈ l
  complete : ∀ {t}, needsGrad G (relevantOps G losses) t = true → G.Reached losses t → (∃ p, (t, p) ∈ s.waiting) ∨
    (∃ o ∈ l, ∃ u, G.PassesTo o t u ∧ G.Reached losses u) ∨ ∃ o, G.producer? t = some o ∧ o ∉ l
  final : ∀ {t o}, G.Reached losses t → G.producer? t = some o → o ∈ relevantOps G losses → o ∉ l → Final R G s t

namespace Flows

theorem awaits (h : Flows R G losses l s) : Awaits G (relevantOps G losses) l s := fun _ _ hp =>
  ⟨(h.sound hp).1, (h.sound hp).2.2⟩

/-- When an op is visited, the gradients for its result have all come. -/
theorem waits (h : Flows R G losses (o :: l) s) (hacyclic : G.Acyclic) (ho : o ∈ relevantOps G losses) (hnot : o ∉ l)
    (hback : G.Backward (relevantOps G losses).contains (o :: l)) (hp : G.producer? t = some o)
    (ht : G.Reached losses t) : ∃ p, (t, p) ∈ s.waiting := by
  rcases h.complete (needsGrad_of_relevant ho hp) ht with hwaits | ⟨q, hq, u, hpass, -⟩ | ⟨q, hq, hvisited⟩
  · exact hwaits
  · have hfeeds := hpass.feeds hp
    rcases List.mem_cons.1 hq with rfl | hq
    · exact absurd (.single hfeeds) (hacyclic q)
    · exact absurd (hback.2.mem_of_feeds hq hfeeds (SortedSet.contains_iff.2 ho)) hnot
  · cases hp.symm.trans hq
    exact absurd List.mem_cons_self hvisited

/-- A visit that no gradient has reached. -/
theorem skip (h : Flows R G losses (o :: l) s) (hG : G.WellFormed) (hacyclic : G.Acyclic)
    (ho : o ∈ relevantOps G losses) (hnot : o ∉ l) (hback : G.Backward (relevantOps G losses).contains (o :: l))
    (hproduced : ∀ {u}, G.producer? u = some o ↔ u = t) {owner : Op}
    (hrun : (Synthesis.settle t owner).run s = (.ok none, s')) : Flows R G losses l s' := by
  obtain ⟨hpartials, hsettled⟩ := settle_ok h.grown.grows.linked h.grown.grows.numbered hrun
  obtain ⟨hgrown, hcarries, hwaiting, -⟩ := hsettled.grown hG.linked h.grown hpartials
  have hsame : s.waiting.Perm s'.waiting := by
    cases hsettled with
    | none hl hg => rwa [hl, List.map_nil, List.nil_append] at hwaiting
  have hunreached : ¬ G.Reached losses t := by
    intro ht
    obtain ⟨p, hp⟩ := h.waits hacyclic ho hnot hback (hproduced.2 rfl) ht
    exact not_waiting_of_erase hpartials (hsame.mem_iff.1 hp) rfl
  refine ⟨hgrown, fun {t' p} hp => ?_, fun {t'} hneeds ht' => ?_, fun {t' q} ht' hq hrel hvisited => ?_⟩
  · obtain ⟨hneeds, hlater⟩ := h.awaits.settled hproduced hpartials hwaiting t' p hp
    exact ⟨hneeds, (h.sound (hsame.mem_iff.2 hp)).2.1, hlater⟩
  · rcases h.complete hneeds ht' with ⟨p, hp⟩ | ⟨q, hq, u, hpass, hu⟩ | ⟨q, hq, hvisited⟩
    · exact .inl ⟨p, hsame.mem_iff.1 hp⟩
    · refine .inr (.inl ⟨q, (List.mem_cons.1 hq).resolve_left ?_, u, hpass, hu⟩)
      rintro rfl
      obtain rfl := hproduced.1 (hpass.producer? hG.linked)
      exact hunreached hu
    · exact .inr (.inr ⟨q, hq, fun hmem => hvisited (List.mem_cons_of_mem _ hmem)⟩)
  · refine (h.final ht' hq hrel fun hmem => ?_).carry h.grown.grows.linked hcarries
    rcases List.mem_cons.1 hmem with rfl | hmem
    · obtain rfl := hproduced.1 hq
      exact hunreached ht'
    · exact hvisited hmem

/-- A visit that a gradient has reached. -/
theorem pass (h : Flows R G losses (o :: l) s) (hG : G.WellFormed) (harranged : G.Arranged) (hR : Passes R G losses)
    (ho : o ∈ relevantOps G losses) (hnot : o ∉ l) (hback : G.Backward (relevantOps G losses).contains (o :: l))
    (hproduced : ∀ {u}, G.producer? u = some o ↔ u = t) (hop : s.graph.op? o = some op) {s₁ s₂ : Synthesis}
    {incoming : TensorId} {gradients : List (Option TensorId)}
    (hv : Visits .empty (relevantOps G losses) s op t s₁ incoming gradients s₂) (hg : s'.graph = s₂.graph)
    (hw : s'.waiting.Perm (given op.inputs gradients ++ s₂.waiting)) : Flows R G losses l s' := by
  obtain ⟨op₀, hop₀, hphase⟩ := op_of_relevant ho
  obtain ⟨op', hop', hkind, hin, hout⟩ := h.grown.grows.ops hop₀
  cases hop.symm.trans hop'
  obtain ⟨hgrown₁, hfinal, hcarries₁, hgrown, hcarries, hwaiting, hperm, hneeds⟩ := hv.all hG hR h.grown ho hop hg hw
  obtain ⟨hpartials, hsettled⟩ := settle_ok h.grown.grows.linked h.grown.grows.numbered hv.settle
  have houtput : t ∈ op₀.outputs := by
    obtain ⟨op', hop', hmem⟩ := hG.linked.op_of_producer (hproduced.2 rfl)
    cases hop₀.symm.trans hop'
    exact hmem
  have hpass : ∀ {k : Nat} {i}, op.inputs[k]? = some i → op.kind.passesBack k = true → G.PassesTo o i t := fun hi hk =>
    ⟨op₀, _, hop₀, hphase, hin ▸ hi, hkind ▸ hk, houtput⟩
  have hgiven : ∀ {k : Nat} {i}, op.inputs[k]? = some i → ∃ gradient, gradients[k]? = some gradient ∧
      gradient.isSome = (needsGrad G (relevantOps G losses) i && op.kind.passesBack k) := by
    refine hv.answers hgrown₁ (relevant_lt hG) (fun i hi => hG.inputs hop₀ (hin ▸ hi)) ?_
    rw [hkind, hin]
    exact (harranged o op₀ hop₀).2
  have hreached : G.Reached losses t := by
    obtain ⟨q, hq⟩ := hsettled.exists_mem
    exact (h.sound (mem_waiting hq)).2.1
  refine ⟨hgrown, fun {i p} hp => ?_, fun {i} hneeds' hi => ?_, fun {i q} hi hq hrel hvisited => ?_⟩
  · rcases List.mem_append.1 (hperm.mem_iff.1 hp) with hp | hp
    · obtain ⟨k, hk, hgrad⟩ := mem_given hp
      obtain ⟨gradient, hget, hsome⟩ := hgiven hk
      cases hgrad.symm.trans hget
      obtain ⟨-, hback'⟩ := Bool.and_eq_true_iff.1 hsome.symm
      refine ⟨hneeds hp, hreached.step (hpass hk hback'), fun q hq => hback.1 q ?_ ?_⟩
      · exact (hpass hk hback').feeds hq
      · exact SortedSet.contains_iff.2 (relevant_of_needsGrad hG (hneeds hp) hq)
    · obtain ⟨hneeds', hlater⟩ := h.awaits.settled hproduced hpartials hwaiting i p hp
      exact ⟨hneeds', (h.sound (hwaiting.mem_iff.2 (List.mem_append_right _ hp))).2.1, hlater⟩
  · by_cases hit : i = t
    · subst hit
      exact .inr (.inr ⟨o, hproduced.2 rfl, hnot⟩)
    rcases h.complete hneeds' hi with ⟨p, hp⟩ | ⟨q, hq, u, hpass', hu⟩ | ⟨q, hq, hvisited⟩
    · refine .inl ⟨p, hperm.mem_iff.2 (List.mem_append_right _ ((List.mem_append.1 (hwaiting.mem_iff.1 hp)).resolve_left ?_))⟩
      intro hmem
      obtain ⟨_, -, heq⟩ := List.mem_map.1 hmem
      exact hit (Prod.mk.inj heq).1.symm
    · rcases List.mem_cons.1 hq with rfl | hq
      · -- the op that reads it is the one that is visited
        obtain ⟨op', k, hop', -, hk, hback', -⟩ := hpass'.found
        cases hop₀.symm.trans hop'
        obtain ⟨gradient, hget, hsome⟩ := hgiven (hin.symm ▸ hk)
        rw [hneeds', hkind, hback', Bool.true_and, Option.isSome_iff_exists] at hsome
        obtain ⟨p, rfl⟩ := hsome
        exact .inl ⟨p, hperm.mem_iff.2 (List.mem_append_left _ (given_mem (hin.symm ▸ hk) hget))⟩
      · exact .inr (.inl ⟨q, hq, u, hpass', hu⟩)
    · exact .inr (.inr ⟨q, hq, fun hmem => hvisited (List.mem_cons_of_mem _ hmem)⟩)
  · by_cases hqo : q = o
    · subst hqo
      obtain rfl := hproduced.1 hq
      exact hfinal.carry hgrown₁.grows.linked hcarries
    · exact (h.final hi hq hrel fun hmem => hvisited ((List.mem_cons.1 hmem).resolve_left hqo)).carry
        h.grown.grows.linked (hcarries₁.trans hcarries)

/-- One visit. -/
theorem visit (h : Flows R G losses (o :: l) s) (hG : G.WellFormed) (hacyclic : G.Acyclic) (harranged : G.Arranged)
    (hR : Passes R G losses) (ho : o ∈ relevantOps G losses) (hnot : o ∉ l)
    (hback : G.Backward (relevantOps G losses).contains (o :: l))
    (hrun : (Synthesis.visit .empty (relevantOps G losses) o).run s = (.ok (), s')) : Flows R G losses l s' := by
  obtain ⟨op₀, hop₀, -⟩ := op_of_relevant ho
  obtain ⟨⟨output, hout₀⟩, -⟩ := harranged o op₀ hop₀
  obtain ⟨op, hop, -, -, hout⟩ := h.grown.grows.ops hop₀
  have hproduced : ∀ {u}, G.producer? u = some o ↔ u = output := hG.linked.producer?_iff_of_outputs hop₀ hout₀
  rw [visit_run hop] at hrun
  rcases stepBack_ok hrun with ⟨t, ht, hsettle⟩ | ⟨t, s₁, incoming, gradients, s₂, hv, hgraph, hperm, rfl⟩
  · obtain rfl := Op.eq_of_output (hout.trans hout₀) ht
    exact h.skip hG hacyclic ho hnot hback hproduced hsettle
  · obtain rfl := Op.eq_of_output (hout.trans hout₀) hv.output
    exact h.pass hG harranged hR ho hnot hback hproduced hop hv hgraph hperm

/-- All visits. -/
theorem visits (hG : G.WellFormed) (hacyclic : G.Acyclic) (harranged : G.Arranged) (hR : Passes R G losses) :
    ∀ {l : List OpId} {s s' : Synthesis}, Flows R G losses l s → (∀ o ∈ l, o ∈ relevantOps G losses) → l.Nodup →
      G.Backward (relevantOps G losses).contains l →
      (l.forM (Synthesis.visit .empty (relevantOps G losses))).run s = (.ok (), s') → Flows R G losses [] s'
  | [], _, _, h, _, _, _, hrun => by
    cases hrun
    exact h
  | o :: l, _, _, h, hrel, hnodup, hback, hrun => by
    obtain ⟨hnot, hnodup⟩ := List.nodup_cons.1 hnodup
    obtain ⟨_, s₁, hfirst, hrun⟩ := Stateful.run_bind_ok.1 hrun
    have h₁ := h.visit hG hacyclic harranged hR (hrel o List.mem_cons_self) hnot hback hfirst
    exact visits hG hacyclic harranged hR h₁ (fun q hq => hrel q (List.mem_cons_of_mem _ hq)) hnodup hback.2 hrun

end Flows

/-! ## Starts -/

theorem startFrom_steps (hG : G.WellFormed) (h : Grown R G s) {loss : Loss} (hloss : ∃ o, G.producer? loss.output = some o)
    (hrun : (startFrom (relevantOps G losses) loss).run s = (.ok (), s')) : Steps R G losses s s' := by
  obtain ⟨o, lossOp, target, ho, hop, htarget, ⟨-, rfl⟩ | ⟨hneeds, owner, p, s₁, hadd, rfl⟩⟩ :=
    startFrom_cases hG.linked (relevant_lt hG) h hloss hrun
  · exact .refl
  · exact .single (.seed h ho hop htarget hneeds hadd)

theorem starts_steps (hG : G.WellFormed) (hR : Passes R G losses) : ∀ {part : List Loss} {s s' : Synthesis},
    Grown R G s → (∀ loss ∈ part, ∃ o, G.producer? loss.output = some o) →
    (part.forM (startFrom (relevantOps G losses))).run s = (.ok (), s') → Steps R G losses s s'
  | [], _, _, _, _, hrun => by
    cases hrun
    exact .refl
  | loss :: rest, _, _, h, hlosses, hrun => by
    obtain ⟨_, s₁, hfirst, hrun⟩ := Stateful.run_bind_ok.1 hrun
    have hsteps := startFrom_steps hG h (hlosses loss List.mem_cons_self) hfirst
    obtain ⟨hgrown, -⟩ := hsteps.grown hG hR h
    exact hsteps.trans (starts_steps hG hR hgrown (fun l hl => hlosses l (List.mem_cons_of_mem _ hl)) hrun)

/-- After the starts, the gradients of all losses wait, and nothing else. -/
theorem starts_flow (hG : G.WellFormed) (hR : Passes R G losses) (hscaling : G.hasTensor Sgd.lossScalingId = true)
    (hlosses : ∀ loss ∈ losses, loss.Attached G)
    (hrun : (losses.forM (startFrom (relevantOps G losses))).run { graph := G } = (.ok (), s))
    (hl : ∀ o, o ∈ l ↔ o ∈ relevantOps G losses) : Flows R G losses l s := by
  obtain ⟨seeds, hcounted, -, -, hgrown, hwaiting⟩ := starts_wait hR.refl hG hscaling
    (fun loss hloss => (hlosses loss hloss).imp fun _ h => h.choose_spec.1) hrun
  have htarget : ∀ {loss}, loss ∈ losses → loss.target? G = loss.inputs.head? := by
    intro loss hloss
    obtain ⟨o, op, ho, hop, hin⟩ := hlosses loss hloss
    rw [Loss.target?, ho, Option.bind_some, hop, Option.bind_some, hin]
  refine ⟨hgrown, fun {t p} hp => ?_, fun {t} hneeds ht => ?_, fun {t o} _ _ ho hnot => absurd ((hl o).2 ho) hnot⟩
  · obtain ⟨σ, hσ, heq⟩ := List.mem_map.1 (hwaiting.mem_iff.1 hp)
    cases heq
    have hmem : (σ.loss, σ.target) ∈ counted G (relevantOps G losses) losses := hcounted ▸ List.mem_map.2 ⟨σ, hσ, rfl⟩
    have hneeds := needsGrad_of_counted hmem
    obtain ⟨loss, hloss, heq⟩ := List.mem_filterMap.1 hmem
    obtain ⟨t, ht, heq⟩ := Option.map_eq_some_iff.1 heq
    cases heq
    refine ⟨hneeds, ⟨_, hloss, _, ?_, .refl⟩, fun o ho => (hl o).2 (relevant_of_needsGrad hG hneeds ho)⟩
    exact (htarget hloss).symm.trans (Option.filter_eq_some_iff.1 ht).1
  · rcases ht.cases with ⟨loss, hloss, hhead⟩ | ⟨o, u, hpass, hu⟩
    · have hmem : (loss, t) ∈ counted G (relevantOps G losses) losses := by
        refine List.mem_filterMap.2 ⟨loss, hloss, Option.map_eq_some_iff.2 ⟨t, ?_, rfl⟩⟩
        exact Option.filter_eq_some_iff.2 ⟨(htarget hloss).trans hhead, hneeds⟩
      obtain ⟨σ, hσ, heq⟩ := List.mem_map.1 (hcounted.symm ▸ hmem)
      cases heq
      exact .inl ⟨σ.output, hwaiting.mem_iff.2 (List.mem_map.2 ⟨σ, hσ, rfl⟩)⟩
    · exact .inr (.inl ⟨o, (hl o).2 (mem_relevantOps hG.linked hpass hu hneeds), u, hpass, hu⟩)

/-! ## Updates -/

/-- A weight has got its update. -/
structure Updated (R : TensorInfo → TensorInfo → Prop) (G : Graph) (s : Synthesis) (weight : TensorId) : Prop where
  final : Final R G s weight
  op : ∃ o op, s.graph.op? o = some op ∧ op.kind = .sgdVarUpdate ∧ op.inputs = updateInputs weight ∧
    op.outputs = [updatedId weight]
  notWaiting : updatedId weight ∉ s.waiting.map Prod.snd

/-- An update stays. -/
theorem Updated.carry {weight : TensorId} (hids : ∀ id ∈ Sgd.ids, G.hasTensor id = true)
    (hweight : ∃ x, G.tensor? weight = some x ∧ x.type = .weight) (hs : Grown R G s) (h : Updated R G s weight)
    {φ : TensorId → TensorId} (hc : Carries φ s s') : Updated R G s' weight := by
  obtain ⟨x, hx, -⟩ := hweight
  obtain ⟨o, op, hop, hkind, hin, hout⟩ := h.op
  have hproducer := (hs.grows.linked.producer?_iff_of_outputs hop hout).2 rfl
  obtain ⟨y, hy, -⟩ := producer?_eq_some.1 hproducer
  obtain ⟨hφ, -, hnot⟩ := hc.fixed (hasTensor_iff.2 ⟨y, hy⟩) h.notWaiting
  obtain ⟨op', -, hop', hkind', hin', hout', -⟩ := hc.embeds.op hproducer hop
  refine ⟨h.final.carry hs.grows.linked hc, ⟨o, op', hop', hkind'.trans hkind, ?_, ?_⟩, hnot⟩
  · rw [hin', hin]
    conv_rhs => rw [← List.map_id (updateInputs weight)]
    refine List.map_congr_left fun i hi => ?_
    rw [updateInputs, List.mem_cons, List.mem_cons] at hi
    rcases hi with rfl | rfl | hi
    · exact hs.laterName_eq hc (hasTensor_iff.2 ⟨x, hx⟩)
    · obtain ⟨p, hp⟩ := h.final.produced
      obtain ⟨z, hz, -⟩ := producer?_eq_some.1 hp
      exact (hc.fixed (hasTensor_iff.2 ⟨z, hz⟩) h.final.notWaiting).1
    · exact hs.laterName_eq hc (hids i hi)
  · rw [hout', hout, List.map_singleton, hφ]

theorem update_ok (hG : G.WellFormed) (hR : Passes R G losses) (h : Grown R G s) {weight : TensorId}
    (hweight : ∃ x, G.tensor? weight = some x ∧ x.type = .weight) {result : Option TensorId}
    (hrun : (update weight).run s = (.ok result, s')) : Steps R G losses s s' ∧
      (∀ t p, t ≠ weight → ((t, p) ∈ s'.waiting ↔ (t, p) ∈ s.waiting)) ∧
      (result = none ∧ (∀ p, (weight, p) ∉ s.waiting) ∨
        result = some weight ∧ (∃ p, (weight, p) ∈ s.waiting) ∧ Updated R G s' weight) := by
  rcases update_cases hrun with ⟨rfl, rfl, hnone⟩ | ⟨rfl, first, template, s₁, info, g₁, hfirst, -, hsettle, ha, hs⟩
  · exact ⟨.refl, fun _ _ _ => .rfl, .inl ⟨rfl, hnone⟩⟩
  obtain ⟨hpartials, hsettled⟩ := settle_ok h.grows.linked h.grows.numbered hsettle
  obtain ⟨hgrown₁, -, hwaiting, -⟩ := hsettled.grown hG.linked h hpartials
  have hfinal := hsettled.final hR hG.linked h hpartials
  have hstep : Step R G losses s₁ s' := hs ▸ .update hgrown₁ hweight hfinal ha
  obtain ⟨hadded, -, hcarries, hsame, hnot⟩ := hgrown₁.updated ha hs
  refine ⟨.tail (.single (.settle h hsettle)) hstep, fun t p hne => ?_, .inr ⟨rfl, ⟨_, mem_waiting hfirst⟩,
    hfinal.carry hgrown₁.grows.linked hcarries, ⟨_, hadded.found⟩, hnot⟩⟩
  rw [hsame, hwaiting.mem_iff, List.mem_append]
  refine ⟨.inr, fun hp => hp.resolve_left fun hmem => ?_⟩
  obtain ⟨_, -, heq⟩ := List.mem_map.1 hmem
  exact hne (Prod.mk.inj heq).1.symm

/-- The updates of all weights: those get one that have gradients. -/
theorem updates_ok (hG : G.WellFormed) (hR : Passes R G losses) (hids : ∀ id ∈ Sgd.ids, G.hasTensor id = true) :
    ∀ {weights : List TensorId} {s s' : Synthesis} {results : List (Option TensorId)},
      (∀ w ∈ weights, ∃ x, G.tensor? w = some x ∧ x.type = .weight) → weights.Nodup → Grown R G s →
      (weights.mapM update).run s = (.ok results, s') → Steps R G losses s s' ∧
        (results.filterMap id).Sublist weights ∧
        (∀ w ∈ weights, w ∈ results.filterMap id ↔ ∃ p, (w, p) ∈ s.waiting) ∧
        ∀ w ∈ results.filterMap id, Updated R G s' w
  | [], s, s', results, _, _, _, hrun => by
    cases hrun
    exact ⟨.refl, .refl _, fun w hw => absurd hw List.not_mem_nil, fun w hw => absurd hw List.not_mem_nil⟩
  | weight :: weights, s, s', results, hweights, hnodup, h, hrun => by
    rw [List.mapM_cons] at hrun
    obtain ⟨result, s₁, hfirst, hrun⟩ := Stateful.run_bind_ok.1 hrun
    obtain ⟨rest, s₂, hrest, hrun⟩ := Stateful.run_bind_ok.1 hrun
    cases hrun
    obtain ⟨hnot, hnodup⟩ := List.nodup_cons.1 hnodup
    have hweight := hweights weight List.mem_cons_self
    obtain ⟨hsteps, hothers, hresult⟩ := update_ok hG hR h hweight hfirst
    obtain ⟨hgrown₁, -⟩ := hsteps.grown hG hR h
    obtain ⟨hsteps', hsub, hmem, hupdated⟩ := updates_ok hG hR hids (fun w hw => hweights w (List.mem_cons_of_mem _ hw))
      hnodup hgrown₁ hrest
    have hothers' : ∀ w ∈ weights, w ∈ rest.filterMap id ↔ ∃ p, (w, p) ∈ s.waiting := by
      intro w hw
      have hne : w ≠ weight := fun e => hnot (e ▸ hw)
      rw [hmem w hw]
      exact exists_congr fun p => hothers w p hne
    rcases hresult with ⟨rfl, hnone⟩ | ⟨rfl, hsome, hnew⟩
    · refine ⟨hsteps.trans hsteps', hsub.cons _, fun w hw => ?_, hupdated⟩
      rcases List.mem_cons.1 hw with rfl | hw
      · exact ⟨fun hmem => absurd (hsub.subset hmem) hnot, fun ⟨p, hp⟩ => absurd hp (hnone p)⟩
      · exact hothers' w hw
    · refine ⟨hsteps.trans hsteps', hsub.cons_cons _, fun w hw => ?_, fun w hw => ?_⟩
      · by_cases heq : w = weight
        · subst heq
          exact ⟨fun _ => hsome, fun _ => List.mem_cons_self⟩
        · rw [← hothers' w ((List.mem_cons.1 hw).resolve_left heq)]
          exact ⟨fun hmem => (List.mem_cons.1 hmem).resolve_left heq, List.mem_cons_of_mem _⟩
      · rcases List.mem_cons.1 hw with rfl | hw
        · obtain ⟨-, φ, hφ⟩ := hsteps'.grown hG hR hgrown₁
          exact hnew.carry hids hweight hgrown₁ hφ
        · exact hupdated w hw

/-! ## The whole synthesis -/

/-- The weights, in the order of their names. -/
theorem weights_eq_keys (hl : G.Linked) :
    G.weights = (G.tensors.entries.filter fun e => e.2.type = .weight).map Prod.fst := by
  rw [weights, idsOfType, Dict.values, List.filter_map, List.map_map]
  refine List.map_congr_left fun e he => ?_
  exact hl.tensorId (Dict.mem_entries.1 (List.mem_of_mem_filter he))

theorem weights_ascending (hl : G.Linked) : G.weights.Pairwise fun a b => compare a b = .lt := by
  rw [weights_eq_keys hl, List.pairwise_map]
  exact G.tensors.ascending.filter _

/-- A synthesis adds no weights. -/
theorem Grown.weights_eq (h : Grown R G s) (hG : G.Linked) : s.graph.weights = G.weights := by
  refine SortedSet.pairwise_ext (weights_ascending h.grows.linked) (weights_ascending hG) fun w => ?_
  rw [mem_weights h.grows.linked, mem_weights hG]
  constructor
  · rintro ⟨x', hx', htype⟩
    obtain ⟨x, hx⟩ := hasTensor_iff.1 (h.grows.types hx' (by rw [htype]; nofun))
    obtain ⟨x'', hx'', hsame, -⟩ := h.grows.tensors hx
    cases hx'.symm.trans hx''
    exact ⟨x, hx, hsame.symm.trans htype⟩
  · rintro ⟨x, hx, htype⟩
    obtain ⟨x', hx', hsame, -⟩ := h.grows.tensors hx
    exact ⟨x', hx', hsame.trans htype⟩

/-- The weights of a grown graph are different ones, and they are those of the start. -/
theorem Grown.weights_nodup (h : Grown R G s) (hG : G.Linked) :
    (∀ w ∈ s.graph.weights, ∃ x, G.tensor? w = some x ∧ x.type = .weight) ∧ s.graph.weights.Nodup := by
  rw [h.weights_eq hG]
  exact ⟨fun w hw => (mem_weights hG).1 hw, (weights_ascending hG).imp fun hlt heq => by simp [heq] at hlt⟩

/-- A synthesis is a chain of steps. -/
theorem run_steps (hG : G.WellFormed) (hR : Passes R G losses) (hids : ∀ id ∈ Sgd.ids, G.hasTensor id = true)
    (hlosses : ∀ loss ∈ losses, ∃ o, G.producer? loss.output = some o) {updated : List TensorId}
    (hrun : (run .empty losses).run { graph := G } = (.ok updated, s')) :
    Steps R G losses { graph := G } s' ∧ Grown R G s' ∧ updated.Sublist G.weights ∧
      ∀ w ∈ updated, Updated R G s' w := by
  obtain ⟨s₁, s₂, order, results, hstarts, -, hsweep, hupdates, rfl⟩ := run_parts hrun
  have hsteps₁ := starts_steps hG hR (.start hG) hlosses hstarts
  obtain ⟨hgrown₁, -⟩ := hsteps₁.grown hG hR (.start hG)
  have hsteps₂ := visits_steps hG hR hgrown₁
    (fun o ho => SortedSet.contains_iff.1 (List.mem_filter.1 ho).2) hsweep
  obtain ⟨hgrown₂, -⟩ := hsteps₂.grown hG hR hgrown₁
  obtain ⟨hweights, hnodup⟩ := hgrown₂.weights_nodup hG.linked
  obtain ⟨hsteps₃, hsub, -, hall⟩ := updates_ok hG hR hids hweights hnodup hgrown₂ hupdates
  have hsteps : Steps R G losses { graph := G } s' := (hsteps₁.trans hsteps₂).trans hsteps₃
  exact ⟨hsteps, (hsteps.grown hG hR (.start hG)).1, hgrown₂.weights_eq hG.linked ▸ hsub, hall⟩

/-- At the end of a synthesis every tensor that needs a gradient and that a loss depends on has got one, and the weights
among these have got their updates. -/
theorem run_traces (hG : G.WellFormed) (hacyclic : G.Acyclic) (harranged : G.Arranged) (hR : Passes R G losses)
    (hids : ∀ id ∈ Sgd.ids, G.hasTensor id = true) (hlosses : ∀ loss ∈ losses, loss.Attached G)
    {updated : List TensorId} (hrun : (run .empty losses).run { graph := G } = (.ok updated, s')) :
    (∀ w ∈ G.weights, w ∈ updated ↔ G.Reached losses w) ∧
      ∀ t, needsGrad G (relevantOps G losses) t = true → G.Reached losses t → Final R G s' t := by
  obtain ⟨s₁, s₂, order, results, hstarts, horder, hsweep, hupdates, rfl⟩ := run_parts hrun
  have hproduced : ∀ loss ∈ losses, ∃ o, G.producer? loss.output = some o :=
    fun loss hloss => (hlosses loss hloss).imp fun _ h => h.choose_spec.1
  obtain ⟨hgrown₁, -⟩ := (starts_steps hG hR (.start hG) hproduced hstarts).grown hG hR (.start hG)
  have hmem : ∀ o, o ∈ order.reverse.filter (relevantOps G losses).contains ↔ o ∈ relevantOps G losses :=
    fun _ => mem_visited hgrown₁ horder
  have hordered := order_complete hgrown₁.grows.linked horder
  have hflows := (starts_flow hG hR (hids _ (by simp [Sgd.ids])) hlosses hstarts hmem).visits hG hacyclic harranged hR
    (fun o ho => (hmem o).1 ho) ((List.nodup_reverse.2 hordered.schedule.nodup).filter _)
    (hgrown₁.grows.backward horder _) hsweep
  obtain ⟨hweights, hnodup⟩ := hflows.grown.weights_nodup hG.linked
  obtain ⟨hsteps, -, hupdated, hall⟩ := updates_ok hG hR hids hweights hnodup hflows.grown hupdates
  have hreached : ∀ w ∈ G.weights, w ∈ results.filterMap id ↔ G.Reached losses w := by
    intro w hw
    obtain ⟨x, hx, htype⟩ := (mem_weights hG.linked).1 hw
    rw [hupdated w (hflows.grown.weights_eq hG.linked ▸ hw)]
    refine ⟨fun hp => (hflows.sound hp.choose_spec).2.1, fun ht => ?_⟩
    rcases hflows.complete (needsGrad_iff.2 ⟨x, hx, .inl htype⟩) ht with hwaits | ⟨o, ho, -⟩ | ⟨o, ho, -⟩
    · exact hwaits
    · exact absurd ho List.not_mem_nil
    · obtain ⟨x', hx', hxp⟩ := producer?_eq_some.1 ho
      cases hx.symm.trans hx'
      rw [hG.produced hx hxp] at htype
      cases htype
  refine ⟨hreached, fun t hneeds ht => ?_⟩
  obtain ⟨x, hx, htype | ⟨o, ho, hxo⟩⟩ := needsGrad_iff.1 hneeds
  · exact (hall t ((hreached t ((mem_weights hG.linked).2 ⟨x, hx, htype⟩)).2 ht)).final
  · exact hsteps.final hG hR hflows.grown (hflows.final ht (producer?_eq_some.2 ⟨x, hx, hxo⟩) ho List.not_mem_nil)

end Synthesis

end TensorGraph
