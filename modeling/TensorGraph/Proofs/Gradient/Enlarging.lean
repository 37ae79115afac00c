import TensorGraph.Proofs.Gradient.Trace

/-!
A synthesis of gradients only adds: ops of the start stay as they are, tensors of the start get new consumers at most,
and what is added belongs to the backward pass or updates weights. The weights that are updated are those that a loss
depends on.
-/
namespace TensorGraph

open TensorGraph.Graph

namespace Graph

variable {G g g' : Graph} {kind : OpKind} {inputs : List TensorId} {output : TensorId} {phase : Phase} {info : TensorInfo}
  {n : Nat}

/-! ## Ops of a phase -/

/-- The number of ops of a phase. -/
def phaseCount (g : Graph) (phase : Phase) : Nat := g.ops.values.countP (·.phase = phase)

/-- The phases of all ops. -/
def phases (g : Graph) : Dict OpId Phase := g.ops.map fun _ op => op.phase

theorem phases_get? (g : Graph) (o : OpId) : g.phases.get? o = (g.op? o).map (·.phase) := Dict.get?_map ..

theorem phaseCount_eq (g : Graph) (p : Phase) : g.phaseCount p = (g.phases.entries.map (·.2)).countP (· = p) := by
  rw [phaseCount, Dict.values, phases, Dict.map, List.map_map, List.countP_map, List.countP_map]
  rfl

/-- The number depends on the phases of the ops alone. -/
theorem phaseCount_congr (h : ∀ o, (g'.op? o).map (·.phase) = (g.op? o).map (·.phase)) (p : Phase) :
    g'.phaseCount p = g.phaseCount p := by
  have hphases : g'.phases = g.phases := Dict.ext_get? fun o => by rw [phases_get?, phases_get?, h]
  rw [phaseCount_eq, phaseCount_eq, hphases]

/-- One op more. -/
theorem phaseCount_succ {o : OpId} (hnew : g.op? o = none)
    (h : ∀ o', (g'.op? o').map (·.phase) = if o = o' then some phase else (g.op? o').map (·.phase)) (p : Phase) :
    g'.phaseCount p = g.phaseCount p + if phase = p then 1 else 0 := by
  have hphases : g'.phases = g.phases.insert o phase :=
    Dict.ext_get? fun o' => by rw [phases_get?, h, Dict.get?_insert, phases_get?]
  have hnone : g.phases.get? o = none := by rw [phases_get?, hnew]; rfl
  have hperm := Dict.perm_of_get? (d := g.phases.insert o phase) (k := o) (v := phase) (by rw [Dict.get?_insert, if_pos rfl])
  rw [Dict.erase_insert, Dict.erase_of_get?_eq_none hnone] at hperm
  rw [phaseCount_eq, phaseCount_eq, hphases, (hperm.map Prod.snd).countP_eq, List.map_cons, List.countP_cons]
  simp

/-! ## Enlarged graphs -/

/-- The tensor `t`, which is `x` in `g`, is the result of an op that was added to `G`, with the info that the kind of
this op infers. An operand counts with the info that it has in `g`, or had in `G` if it got a producer after it was
read. -/
def Fills (G g : Graph) (t : TensorId) (x : Tensor) : Prop :=
  ∃ o op infos, x.producer = some o ∧ G.nextOp ≤ o ∧ g.op? o = some op ∧ op.outputs = [t] ∧
    List.Forall₂ (fun i info => g.info? i = some info ∨ G.info? i = some info) op.inputs infos ∧
    op.kind.infer infos = .ok x.info

/-- What an added op produces and reads stays so under other names of tensors that were added. -/
theorem Fills.renamed {old new t : TensorId} {x y : Tensor} (h : Fills G g t y) (hr : Renamed g old new x g')
    (hold : G.tensor? old = none) (ht : t ≠ old) : Fills G g' t y := by
  obtain ⟨o, op, infos, hp, hle, ho, hout, hknown, hinfer⟩ := h
  refine ⟨o, rename old new op, infos, hp, hle, by rw [hr.op?_eq, ho]; rfl, ?_, ?_, hinfer⟩
  · change substitute old new op.outputs = [t]
    rw [hout, substitute, List.map_singleton, if_neg ht]
  · refine List.forall₂_map_left_iff.2 (hknown.imp fun i info hi => hi.imp (fun hi => ?_) fun hi => ?_)
    · obtain ⟨z, hz, -⟩ := info?_eq_some.1 hi
      rw [hr.info?_later hz, hi]
    · rwa [if_neg]
      rintro rfl
      rw [info?, hold] at hi
      cases hi

/-- The graph `g` came from `G` by adding ops of the last two phases, `n` of them of the backward pass. Ops and tensors
of `G` stay, apart from tensors that were to get a producer. -/
structure Enlarges (G g : Graph) (n : Nat) : Prop where
  ops : ∀ {o op}, G.op? o = some op → g.op? o = some op
  tensors : ∀ {t x}, G.tensor? t = some x → ∃ x', g.tensor? t = some x' ∧ x'.data = x.data ∧
    (x'.producer = x.producer → x'.info = x.info) ∧ (x'.producer = x.producer ∨ Fills G g t x')
  made : ∀ {t y}, g.tensor? t = some y → G.tensor? t = none → y.producer ≠ none
  phases : ∀ {o op}, g.op? o = some op →
    G.op? o = some op ∨ G.nextOp ≤ o ∧ (op.phase = .backward ∨ op.phase = .weightUpdate)
  count : g.phaseCount .backward = G.phaseCount .backward + n

namespace Enlarges

theorem refl (G : Graph) : Enlarges G G 0 :=
  ⟨id, fun hx => ⟨_, hx, rfl, fun _ => rfl, .inl rfl⟩, fun hy hnone => (nomatch hnone.symm.trans hy), .inl, rfl⟩

/-- The result of an op that is added is new, or stood as it does in `G`. -/
theorem info_of_free (h : Enlarges G g n) (hfree : g.isFree output = true) (hinfo : g.info? output = some info) :
    G.info? output = some info := by
  obtain ⟨y, hy, rfl⟩ := info?_eq_some.1 hinfo
  have hnone := (isFree_iff.1 hfree y hy).1
  cases hx : G.tensor? output with
  | none => exact absurd hnone (h.made hy hx)
  | some x =>
    obtain ⟨y', hy', -, hsame, hfills⟩ := h.tensors hx
    cases hy.symm.trans hy'
    refine info?_eq_some.2 ⟨x, hx, (hsame (hfills.resolve_right ?_)).symm⟩
    rintro ⟨o, -, -, ho, -⟩
    cases hnone.symm.trans ho

/-- Adding an op. -/
theorem added (h : Enlarges G g n) (hg : Grows G g) (ha : AddedOp g kind inputs output phase info g') {f : Op → Op}
    (hf : ∀ op, (f op).kind = op.kind ∧ (f op).inputs = op.inputs ∧ (f op).outputs = op.outputs ∧ (f op).phase = op.phase)
    (hphase : phase = .backward ∨ phase = .weightUpdate) :
    Enlarges G (g'.modifyOp g.nextOp f) (n + if phase = .backward then 1 else 0) := by
  have hnone := hg.numbered.unused
  have hop : ∀ o, (g'.modifyOp g.nextOp f).op? o = if g.nextOp = o then
      some (f { id := g.nextOp, kind, name := output, inputs, outputs := [output], phase }) else g.op? o := by
    intro o
    rw [op?_modifyOp, ha.op?_eq]
    by_cases ho : g.nextOp = o
    · subst ho
      simp
    · simp [ho, Ne.symm ho]
  have hops : ∀ {o op}, g.op? o = some op → (g'.modifyOp g.nextOp f).op? o = some op := by
    intro o op ho
    rw [hop, if_neg, ho]
    rintro rfl
    cases hnone.symm.trans ho
  have hinfos : ∀ {i info'}, g.info? i = some info' →
      (g'.modifyOp g.nextOp f).info? i = some info' ∨ G.info? i = some info' := by
    intro i info' hi
    by_cases hout : i = output
    · subst hout
      exact .inr (h.info_of_free ha.free hi)
    · obtain ⟨y, hy, rfl⟩ := info?_eq_some.1 hi
      have hy' : (g'.modifyOp g.nextOp f).tensor? i =
          some (if i ∈ inputs then { y with consumers := y.consumers.insert g.nextOp } else y) := by
        rw [tensor?_modifyOp, ha.tensor?_eq, hy]
        exact if_neg hout
      refine .inl (info?_eq_some.2 ⟨_, hy', ?_⟩)
      split <;> rfl
  refine ⟨fun ho => hops (h.ops ho), fun {t x} hx => ?_, fun {t y} hy hold => ?_, fun {o op} ho => ?_, ?_⟩
  · obtain ⟨y, hy, hdata, hinfo, hfills⟩ := h.tensors hx
    rw [tensor?_modifyOp, ha.tensor?_eq, hy]
    by_cases ht : t = output
    · -- the result stood without a producer
      subst ht
      refine ⟨_, if_pos rfl, ?_, fun hp => ?_, .inr ?_⟩
      · simp only [Option.map_some, Option.getD_some]
        split <;> exact hdata
      · obtain ⟨z, hz, -, hkeep, -⟩ := hg.tensors hx
        cases hy.symm.trans hz
        have hfree := (isFree_iff.1 ha.free y hy).1
        rw [(hkeep (.inr (by rw [← hp]; exact Option.some_ne_none _))).2, ← hp] at hfree
        cases hfree
      · obtain ⟨infos, hknown, hinfer⟩ := ha.infers
        obtain ⟨hkind, hin, hout, -⟩ := hf { id := g.nextOp, kind, name := t, inputs, outputs := [t], phase }
        refine ⟨g.nextOp, _, infos, rfl, hg.nextOp_le, by rw [hop, if_pos rfl], hout, ?_, hkind.symm ▸ hinfer⟩
        rw [hin]
        exact (Outcome.mapM_eq_ok.1 hknown).imp fun i info' hi => hinfos (Outcome.orFail_eq_ok.1 hi)
    · refine ⟨_, if_neg ht, ?_, fun hp => ?_, ?_⟩
      · split <;> exact hdata
      · split at hp <;> split <;> exact hinfo hp
      · refine hfills.imp (fun hp => ?_) ?_
        · split <;> exact hp
        · rintro ⟨o, op, infos, hp, hle, ho, hout, hknown, hinfer⟩
          refine ⟨o, op, infos, ?_, hle, hops ho, hout, hknown.imp fun i info' hi => hi.elim hinfos .inr, ?_⟩ <;> split
          all_goals assumption
  · rw [tensor?_modifyOp, ha.tensor?_eq] at hy
    by_cases ht : t = output
    · cases (if_pos ht).symm.trans hy
      exact Option.some_ne_none _
    · obtain ⟨z, hz, rfl⟩ := Option.map_eq_some_iff.1 ((if_neg ht).symm.trans hy)
      have hp := h.made hz hold
      split <;> exact hp
  · rw [hop] at ho
    split at ho
    · rename_i heq
      cases ho
      exact .inr ⟨heq ▸ hg.nextOp_le, by rw [(hf _).2.2.2]; exact hphase⟩
    · exact h.phases ho
  · rw [@phaseCount_succ _ _ phase _ hnone (fun o => ?_), h.count, Nat.add_assoc]
    rw [hop]
    split
    · rw [Option.map_some, (hf _).2.2.2]
    · rfl

/-- Renaming a tensor that was added. -/
theorem renamed {old new : TensorId} {x : Tensor} (h : Enlarges G g n) (hG : G.Linked) (hr : Renamed g old new x g')
    (hold : G.tensor? old = none) : Enlarges G g' n := by
  have hsame : ∀ {o op}, G.op? o = some op → rename old new op = op := by
    intro o op ho
    obtain ⟨hin, hout⟩ := not_or.1 (hG.not_mentioned hold ho)
    rw [rename, substitute_of_not_mem hin, substitute_of_not_mem hout, if_neg fun hand => hout hand.1]
  refine ⟨fun {o op} ho => ?_, fun {t y} hy => ?_, fun {t y} hy hnone => ?_, fun {o op} ho => ?_, ?_⟩
  · rw [hr.op?_eq, h.ops ho, Option.map_some, hsame ho]
  · obtain ⟨z, hz, hdata, hinfo, hfills⟩ := h.tensors hy
    have hne : t ≠ old := by
      rintro rfl
      cases hold.symm.trans hy
    exact ⟨z, hr.tensor?_other hz hne, hdata, hinfo, hfills.imp_right fun hf => hf.renamed hr hold hne⟩
  · rw [hr.tensor?_eq] at hy
    split at hy
    · cases hy
      exact fun hp => h.made hr.found hold hp
    · split at hy
      · cases hy
      · exact h.made hy hnone
  · rw [hr.op?_eq] at ho
    obtain ⟨op', ho', rfl⟩ := Option.map_eq_some_iff.1 ho
    rcases h.phases ho' with hG' | hnew
    · exact .inl (by rw [hsame hG', hG'])
    · exact .inr hnew
  · rw [phaseCount_congr (fun o => ?_), h.count]
    rw [hr.op?_eq, Option.map_map]
    rfl

end Enlarges

end Graph

/-! ## Single ops -/

namespace GradM

variable {s s' : Synthesis} {owner : Op} {kind : OpKind} {inputs : List TensorId} {output t : TensorId} {G : Graph}

theorem addOp_enlarges (hg : Grows G s.graph) (h : Enlarges G s.graph s.added)
    (hrun : (addOp owner kind inputs output).run s = (.ok (), s')) : Enlarges G s'.graph s'.added := by
  obtain ⟨id, s₁, hcall, hrun⟩ := Stateful.run_bind_ok.1 hrun
  obtain ⟨g₁, hadd, rfl⟩ := run_onGraph_ok hcall
  obtain ⟨output', info, hout, rfl, ha⟩ := Graph.addOp_ok (Stateful.run_change_ok.1 hadd)
  cases hout
  cases hrun
  exact h.added hg ha (fun _ => ⟨rfl, rfl, rfl, rfl⟩) (.inl rfl)

theorem addFresh_enlarges {base : TensorId} (hg : Grows G s.graph) (h : Enlarges G s.graph s.added)
    (hrun : (addFresh owner kind inputs base).run s = (.ok t, s')) : Enlarges G s'.graph s'.added := by
  obtain ⟨output, s₁, hcall, hrun⟩ := Stateful.run_bind_ok.1 hrun
  obtain ⟨g₁, hchange, rfl⟩ := run_onGraph_ok hcall
  obtain ⟨_, s₂, hadd, hrun⟩ := Stateful.run_bind_ok.1 hrun
  cases hrun
  obtain ⟨n, hsnd⟩ := tempId_snd (g := s.graph) (gradId base)
  have htemp := Stateful.run_change_ok.1 hchange
  rw [Except.ok.injEq] at htemp
  rw [htemp] at hsnd
  simp only at hsnd
  subst hsnd
  -- only the number of the next fresh name has changed so far
  have hl : ({ s.graph with nextTemp := n } : Graph).Linked := hg.linked.of_lookups (fun _ => rfl) fun _ => rfl
  exact addOp_enlarges (s := { s with graph := { s.graph with nextTemp := n } })
    ⟨hl, hg.numbered, hg.nextOp_le, hg.ops, hg.tensors, hg.types⟩ ⟨h.ops, h.tensors, h.made, h.phases, h.count⟩ hadd

end GradM

namespace Synthesis

variable {R : TensorInfo → TensorInfo → Prop} {G : Graph} {s s' : Synthesis} {losses : List Loss} {t : TensorId}

theorem Emits.enlarges {owner : Op} {l : List TensorId} (he : Emits owner l s s') (hg : Grown R G s)
    (h : Enlarges G s.graph s.added) : Enlarges G s'.graph s'.added := by
  induction he with
  | nil => exact h
  | @cons kind inputs base t l s s₁ s' hadd hl ih =>
    have hone : Emits owner [t] s s₁ := .cons hadd (.nil s₁)
    exact ih (hg.emits hone).1 (GradM.addFresh_enlarges hg.grows h hadd)

theorem settle_enlarges {owner : Op} {result : Option TensorId} (hG : G.Linked) (hg : Grown R G s)
    (h : Enlarges G s.graph s.added) (hrun : (settle t owner).run s = (.ok result, s')) :
    Enlarges G s'.graph s'.added := by
  rcases settle_cases hrun with ⟨-, rfl, rfl⟩ | ⟨rfl, ⟨one, g', hone, hrename, rfl⟩ | ⟨many, -, -, hadd⟩⟩
  · exact h
  · obtain ⟨x, hr⟩ := renameTensor_ok hg.grows.linked hrename
    have hwaits : (t, one.tensor) ∈ s.waiting := by
      refine (waiting_perm s t).mem_iff.2 (List.mem_append_left _ ?_)
      rw [hone]
      exact List.mem_singleton_self _
    exact h.renamed hG hr (hg.waits hwaits).1
  · exact GradM.addOp_enlarges (s := { s with partials := s.partials.erase t }) hg.grows h hadd

theorem added_noteAll (id : OpId) : ∀ (l : List (TensorId × Option TensorId)) (k : Nat) (s : Synthesis),
    (noteAll id l k s).added = s.added
  | [], _, _ => rfl
  | (_, none) :: l, k, s => added_noteAll id l (k + 1) s
  | (t, some p) :: l, k, s => added_noteAll id l (k + 1) (s.note t ⟨id, k, p⟩)

/-- Every step only adds. -/
theorem Step.enlarges (hG : G.WellFormed) (hR : Passes R G losses) (hstep : Step R G losses s s')
    (h : Enlarges G s.graph s.added) : Enlarges G s'.graph s'.added := by
  cases hstep with
  | @seed s₁ loss o lossOp owner target p hg ho hop htarget hneeds hadd =>
    have hadded : Enlarges G s₁.graph s₁.added := GradM.addFresh_enlarges hg.grows h hadd
    exact hadded
  | settle hg hrun => exact settle_enlarges hG.linked hg h hrun
  | @visit s₀ s₁ o op t incoming gradients hg ho hop hv =>
    obtain ⟨hgraph, hperm⟩ := waiting_noteAll op.id (op.inputs.zip gradients) 0 s₁
    obtain ⟨hgrown₁, -⟩ := hv.all hG hR hg ho hop hgraph hperm
    obtain ⟨rule, hofKind, hrun⟩ := hv.rule_ofKind
    obtain ⟨l, hl, -⟩ := GradRule.lawful_ofKind hofKind _ _ _ _ hrun
    rw [hgraph, added_noteAll]
    exact Emits.enlarges hl hgrown₁ h
  | update hg hweight hfinal ha => exact h.added hg.grows ha (fun _ => ⟨rfl, rfl, rfl, rfl⟩) (.inr rfl)

theorem Steps.enlarges (hG : G.WellFormed) (hR : Passes R G losses) (hsteps : Steps R G losses s s')
    (h : Enlarges G s.graph s.added) : Enlarges G s'.graph s'.added := by
  induction hsteps with
  | refl => exact h
  | tail _ hstep ih => exact hstep.enlarges hG hR ih

end Synthesis

/-! ## The whole synthesis -/

/-- What may become of the tensor `t` of `G`, which is `x` there and `x'` in `g`: ops that were added may read it, and one
of them may produce it, with the info that is inferred, if it was to be computed and nothing did. -/
structure Tensor.Gains (G g : Graph) (t : TensorId) (x x' : Tensor) : Prop where
  keeps : ∀ o ∈ x.consumers, o ∈ x'.consumers
  fresh : ∀ o ∈ x'.consumers, o ∈ x.consumers ∨ G.nextOp ≤ o
  rest : x' = { x with consumers := x'.consumers } ∨
    x.type = .actGrad ∧ x.producer = none ∧ G.Fills g t x' ∧
      x' = { x with consumers := x'.consumers, producer := x'.producer, info := x'.info }

theorem Graph.Enlarges.gains {G g : Graph} {n : Nat} (h : Enlarges G g n) (hG : G.WellFormed) (hg : Grows G g)
    {t : TensorId} {x : Tensor} (hx : G.tensor? t = some x) : ∃ x', g.tensor? t = some x' ∧ x.Gains G g t x' := by
  obtain ⟨x', hx', hdata, hinfo, hfills⟩ := h.tensors hx
  obtain ⟨y, hy, htype, hkeep, -⟩ := hg.tensors hx
  cases hx'.symm.trans hy
  have hid : x'.id = x.id := (hg.linked.tensorId hx').trans (hG.tensorId hx).symm
  have hreads : ∀ o, o ∈ x'.consumers ↔ ∃ op, g.op? o = some op ∧ t ∈ op.inputs := fun o =>
    hg.linked.mem_consumers_iff hx'
  refine ⟨x', hx', fun o ho => ?_, fun o ho => ?_, ?_⟩
  · obtain ⟨op, hop, hmem⟩ := (hG.linked.mem_consumers_iff hx).1 ho
    exact (hreads o).2 ⟨op, h.ops hop, hmem⟩
  · obtain ⟨op, hop, hmem⟩ := (hreads o).1 ho
    rcases h.phases hop with hold | ⟨hle, -⟩
    · exact .inl ((hG.linked.mem_consumers_iff hx).2 ⟨op, hold, hmem⟩)
    · exact .inr hle
  · obtain ⟨id, info, type, data, producer, consumers⟩ := x
    obtain ⟨id', info', type', data', producer', consumers'⟩ := x'
    simp only at hdata hinfo htype hkeep hfills hid ⊢
    subst hdata htype hid
    by_cases hp : producer' = producer
    · subst hp
      rw [hinfo rfl]
      exact .inl rfl
    · refine .inr ⟨?_, ?_, hfills.resolve_left hp, rfl⟩
      · by_contra hne
        exact hp (hkeep (.inl hne)).2
      · by_contra hne
        exact hp (hkeep (.inr hne)).2

/-- A synthesis of gradients only adds ops, and updates exactly the weights that a loss depends on. -/
theorem synthesizeGradients_enlarges {losses : List Loss} {b b' : Build} {summary : GradSummary}
    (hG : b.graph.WellFormed) (hacyclic : b.graph.Acyclic) (harranged : b.graph.Arranged)
    (hlosses : ∀ loss ∈ losses, loss.Attached b.graph)
    (hrun : (synthesizeGradients .empty losses).run b = (.ok summary, b')) :
    (∀ o op, b.graph.op? o = some op → b'.graph.op? o = some op) ∧
    (∀ t x, b.graph.tensor? t = some x → ∃ x', b'.graph.tensor? t = some x' ∧ x.Gains b.graph b'.graph t x') ∧
    (∀ o op, b'.graph.op? o = some op → b.graph.op? o = none → op.phase = .backward ∨ op.phase = .weightUpdate) ∧
    b'.graph.phaseCount .backward = b.graph.phaseCount .backward + summary.gradOps ∧
    (∀ w, w ∈ summary.updated ↔ w ∈ b.graph.weights ∧ b.graph.Reached losses w) ∧
    (∀ w ∈ summary.updated, ∃! o, ∃ op, b'.graph.op? o = some op ∧ op.kind = .sgdVarUpdate ∧
      op.inputs = [w, gradId w, Sgd.learningRateId, Sgd.weightDecayId, Sgd.lossScalingId] ∧
      op.outputs = [updatedId w]) ∧
    summary.updated.Pairwise (· < ·) := by
  obtain ⟨hids, s', hgraph, hadded, hrun⟩ := synthesizeGradients_run hrun
  have hR := Synthesis.passes_true hG losses
  obtain ⟨hsteps, hgrown, hsub, hall⟩ := Synthesis.run_steps hG hR hids
    (fun loss hloss => (hlosses loss hloss).imp fun _ h => h.choose_spec.1) hrun
  obtain ⟨hupdated, -⟩ := Synthesis.run_traces hG hacyclic harranged hR hids hlosses hrun
  have henlarges : Enlarges b.graph s'.graph s'.added :=
    Synthesis.Steps.enlarges hG hR hsteps (.refl b.graph)
  rw [hgraph, hadded]
  refine ⟨fun o op => henlarges.ops, fun t x => henlarges.gains hG hgrown.grows, fun o op ho hnone => ?_,
    henlarges.count, fun w => ?_, fun w hw => ?_, ?_⟩
  · rcases henlarges.phases ho with hold | ⟨-, hphase⟩
    · rw [hnone] at hold
      cases hold
    · exact hphase
  · exact ⟨fun hw => ⟨hsub.subset hw, (hupdated w (hsub.subset hw)).1 hw⟩, fun hw => (hupdated w hw.1).2 hw.2⟩
  · obtain ⟨o, op, hop, hkind, hin, hout⟩ := (hall w hw).op
    have hproducer := (hgrown.grows.linked.producer?_iff_of_outputs hop hout).2 rfl
    refine ⟨o, ⟨op, hop, hkind, hin, hout⟩, ?_⟩
    rintro o' ⟨op', hop', -, -, hout'⟩
    exact Option.some.inj (((hgrown.grows.linked.producer?_iff_of_outputs hop' hout').2 rfl).symm.trans hproducer)
  · exact ((Synthesis.weights_ascending hG.linked).sublist hsub).imp fun hlt => compareOfLessAndEq_eq_lt.1 hlt

theorem Opposed.attached : ∀ loss ∈ Opposed.losses, loss.Attached Opposed.graph := by decide +kernel

/-- Two weights, one of them negated before its loss. -/
theorem synthesizeGradients_enlarges_opposed :
    Opposed.built.1 = .ok ⟨3, ["v", "w"]⟩ ∧ Opposed.built.2.graph.phaseCount .backward = 3 ∧
      Opposed.graph.Reached Opposed.losses "w" ∧
      ∃! o, ∃ op, Opposed.built.2.graph.op? o = some op ∧ op.kind = .sgdVarUpdate ∧
        op.inputs = ["w", gradId "w", Sgd.learningRateId, Sgd.weightDecayId, Sgd.lossScalingId] ∧
        op.outputs = [updatedId "w"] := by
  have hrun := Opposed.built_facts.1
  obtain ⟨-, -, -, hcount, hupdated, hops, -⟩ := synthesizeGradients_enlarges (b := ⟨Opposed.graph, []⟩)
    Opposed.wellFormed Opposed.acyclic Opposed.inferred.arranged Opposed.attached (Stateful.eq_ok_of_fst hrun)
  exact ⟨hrun, hcount, ((hupdated "w").1 (by simp)).2, hops "w" (by simp)⟩

/-! ## A tensor that waits to be computed -/

namespace Dangling

/-- A graph that has room for the updated weight, with another shape. -/
def graph : Graph :=
  ([.addTensor "w" ⟨.float, [2]⟩ .weight none, .addTensor (updatedId "w") ⟨.float, [7]⟩ .actGrad none,
    .addOp (.unary .relu) ["w"] ["y"] .forward, .addOp (.l1 .one .sum) ["y"] ["l"] .loss,
    .addTensor Sgd.learningRateId (.scalar .float) .optimizerStream none,
    .addTensor Sgd.weightDecayId (.scalar .float) .optimizerStream none,
    .addTensor Sgd.lossScalingId (.scalar .float) .optimizerStream none] : List Graph.Edit).foldl
      (fun g e => (e.call.run g).2) .empty

def losses : List Loss := [.l1 "y" "l" .one .sum]

/-- The graph with the gradients. -/
def built : Outcome GradSummary × Build := (synthesizeGradients .empty losses).run ⟨graph, []⟩

theorem wellFormed : graph.WellFormed := by
  have h : Edited Graph.empty graph :=
    .call _ (.call _ (.call _ (.call _ (.call _ (.call _ (.call _ .start trivial) trivial) trivial) trivial)
      trivial) trivial) trivial
  exact (h.sound .empty).wellFormed

theorem acyclic : graph.Acyclic := (order_complete wellFormed.linked (by decide : graph.order = .ok [0, 1])).acyclic

theorem inferred : graph.Inferred := by
  have h : ∀ op ∈ graph.ops.values, ∃ output infos info, op.outputs = [output] ∧
      op.inputs.mapM graph.info? = some infos ∧ op.kind.infer infos = .ok info ∧ graph.info? output = some info := by
    intro op hop
    fin_cases hop
    · exact ⟨"y", _, _, rfl, rfl, rfl, rfl⟩
    · exact ⟨"l", _, _, rfl, rfl, rfl, rfl⟩
  exact fun o op ho => h op (Dict.mem_values.2 ⟨o, ho⟩)

end Dangling

/-- A tensor that was to be computed, and that no op produced, gets a producer and another info. -/
theorem synthesizeGradients_fills_dangling :
    Dangling.graph.WellFormed ∧ Dangling.graph.Acyclic ∧ Dangling.graph.Inferred ∧
      (∀ loss ∈ Dangling.losses, loss.Attached Dangling.graph) ∧ Dangling.built.1 = .ok ⟨2, ["w"]⟩ ∧
      (Dangling.graph.tensor? (updatedId "w")).map (fun x => (x.info, x.producer)) = some (⟨.float, [7]⟩, none) ∧
      (Dangling.built.2.graph.tensor? (updatedId "w")).map (fun x => (x.info, x.producer)) =
        some (⟨.float, [2]⟩, some 4) := by
  exact ⟨Dangling.wellFormed, Dangling.acyclic, Dangling.inferred, by decide +kernel⟩

end TensorGraph
