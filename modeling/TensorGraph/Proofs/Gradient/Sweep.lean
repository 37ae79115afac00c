import TensorGraph.Proofs.Gradient.Growth
import TensorGraph.Proofs.Gradient.Relevance
import TensorGraph.Proofs.Graph.Order
import TensorGraph.Proofs.Graph.WellFormed

/-!
The steps of a synthesis of gradients: starts from losses, visits of ops from the last to the first, and updates of
weights. The order of the visits is such that all gradients for the result of an op wait when the op is visited.
-/
namespace TensorGraph

open TensorGraph.Graph

/-! ## Visits from the last op to the first -/

namespace Graph

/-- Whatever feeds an op of the list, and is one that counts, comes later in it. -/
def Backward (g : Graph) (p : OpId → Bool) : List OpId → Prop
  | [] => True
  | o :: l => (∀ q, g.Feeds q o → p q = true → q ∈ l) ∧ Backward g p l

theorem Backward.filter {g : Graph} {p : OpId → Bool} : ∀ {l : List OpId}, Backward g (fun _ => true) l →
    Backward g p (l.filter p)
  | [], _ => trivial
  | o :: l, h => by
    rw [List.filter_cons]
    split
    · exact ⟨fun q hq hp => List.mem_filter.2 ⟨h.1 q hq rfl, hp⟩, h.2.filter⟩
    · exact h.2.filter

/-- A schedule backwards. -/
theorem Schedule.backward {g : Graph} : ∀ {l done : List OpId}, Schedule g done l →
    Backward g (fun _ => true) done → Backward g (fun _ => true) (l.reverse ++ done)
  | [], _, _, hd => hd
  | o :: l, done, h, hd => by
    rw [List.reverse_cons, List.append_assoc]
    exact backward h.2.2.2 ⟨fun q hq _ => h.2.2.1 q hq, hd⟩

/-- The relevant ops of a graph, as ops of a graph that it grew to, from the last to the first. -/
theorem Grows.backward {G g : Graph} (h : Grows G g) {order : List OpId} (ho : g.order = .ok order)
    (relevant : SortedSet OpId) : Backward G relevant.contains (order.reverse.filter relevant.contains) := by
  have hfeeds : ∀ {p q}, G.Feeds p q → g.Feeds p q := by
    rintro p q ⟨op, hq, t, ht, hp⟩
    obtain ⟨op', hq', -, hin, -⟩ := h.ops hq
    exact ⟨op', hq', t, hin ▸ ht, h.producer?_eq hp⟩
  have hmono : ∀ {l : List OpId}, Backward g (fun _ => true) l → Backward G (fun _ => true) l := by
    intro l
    induction l with
    | nil => exact id
    | cons o l ih => exact fun hb => ⟨fun q hq => hb.1 q (hfeeds hq), ih hb.2⟩
  have hall := (order_complete h.linked ho).schedule.backward trivial
  rw [List.append_nil] at hall
  exact (hmono hall).filter

end Graph

/-! ## Starts -/

/-- The first operand of the op that computes a loss. -/
def Loss.target? (g : Graph) (loss : Loss) : Option TensorId :=
  ((g.producer? loss.output).bind g.op?).bind (·.inputs.head?)

/-- The gradient of a loss has the info of the first operand of the loss. -/
theorem Loss.gradKind_infer (loss : Loss) {i info : TensorInfo} {infos : List TensorInfo}
    (h : loss.gradKind.infer (i :: infos) = .ok info) : info = i := by
  cases loss with
  | nll =>
    match infos, h with
    | [_, _], h => exact (Except.ok.inj h).symm
  | l1 =>
    match infos, h with
    | [_], h => exact (Except.ok.inj h).symm

namespace Synthesis

variable {R : TensorInfo → TensorInfo → Prop} {G g : Graph} {s s' : Synthesis} {relevant : SortedSet OpId}
  {t : TensorId} {losses : List Loss} {o : OpId}

theorem relevant_lt (hG : G.WellFormed) : ∀ o ∈ relevantOps G losses, o < G.nextOp := by
  intro o ho
  obtain ⟨op, hop, -⟩ := op_of_relevant ho
  exact hG.opBound hop

/-- The result of a relevant op needs a gradient. -/
theorem needsGrad_of_relevant (ho : o ∈ relevant) (hp : G.producer? t = some o) :
    needsGrad G relevant t = true := by
  obtain ⟨x, hx, hxp⟩ := producer?_eq_some.1 hp
  exact needsGrad_iff.2 ⟨x, hx, .inr ⟨o, ho, hxp⟩⟩

/-- Only what an op that counts produces waits for that op. -/
theorem relevant_of_needsGrad (hG : G.WellFormed) (h : needsGrad G relevant t = true) (hp : G.producer? t = some o) :
    o ∈ relevant := by
  obtain ⟨x, hx, hxp⟩ := producer?_eq_some.1 hp
  obtain ⟨x', hx', hcase⟩ := needsGrad_iff.1 h
  cases hx.symm.trans hx'
  rcases hcase with hweight | ⟨o', ho', hxo⟩
  · rw [hG.produced hx hxp] at hweight
    cases hweight
  · cases hxp.symm.trans hxo
    exact ho'

/-- What needs a gradient keeps its info. -/
theorem info?_of_needsGrad (h : Grows G g) (ht : needsGrad G relevant t = true) :
    ∃ i, G.info? t = some i ∧ g.info? t = some i := by
  obtain ⟨x, hx, hcase⟩ := needsGrad_iff.1 ht
  have hkeep : x.type ≠ .actGrad ∨ x.producer ≠ none := by
    rcases hcase with hw | ⟨o, -, hp⟩
    · exact .inl (by rw [hw]; exact nofun)
    · exact .inr (by rw [hp]; exact nofun)
  have hi : G.info? t = some x.info := by rw [info?, hx, Option.map_some]
  exact ⟨x.info, hi, (h.info?_eq hx hkeep).trans hi⟩

/-- An op that computes the gradient of a loss for its first operand. -/
structure Seed where
  loss : Loss
  target : TensorId
  op : OpId
  output : TensorId

/-- The losses whose first operand needs a gradient, with that operand. -/
def counted (G : Graph) (relevant : SortedSet OpId) (losses : List Loss) : List (Loss × TensorId) :=
  losses.filterMap fun loss => ((loss.target? G).filter (needsGrad G relevant)).map (loss, ·)

theorem needsGrad_of_counted {loss : Loss}
    (h : (loss, t) ∈ counted G relevant losses) : needsGrad G relevant t = true := by
  obtain ⟨loss', -, h⟩ := List.mem_filterMap.1 h
  obtain ⟨t', h, heq⟩ := Option.map_eq_some_iff.1 h
  cases heq
  exact (Option.filter_eq_some_iff.1 h).2

/-- The op of a start is in the graph: it reads what the loss reads, and the scaling of losses. -/
def Seed.Stands (σ : Seed) (G g : Graph) : Prop :=
  ∃ o lossOp op, G.producer? σ.loss.output = some o ∧ G.op? o = some lossOp ∧ g.op? σ.op = some op ∧
    op.kind = σ.loss.gradKind ∧ op.inputs = lossOp.inputs ++ [Sgd.lossScalingId] ∧ op.outputs = [σ.output]

/-- What a start from a loss does: nothing if its first operand needs no gradient, otherwise it adds one op. -/
theorem startFrom_ok {loss : Loss} (hrun : (startFrom relevant loss).run s = (.ok (), s')) :
    ∃ o owner target, s.graph.producer? loss.output = some o ∧ s.graph.op? o = some owner ∧
      owner.inputs.head? = some target ∧ ((needsGrad s.graph relevant target = false ∧ s' = s) ∨
        (needsGrad s.graph relevant target = true ∧ ∃ p s₁,
          (GradM.addFresh owner loss.gradKind (owner.inputs ++ [Sgd.lossScalingId]) target).run s = (.ok p, s₁) ∧
            s' = s₁.note target ⟨o, 0, p⟩)) := by
  replace hrun := Stateful.of_get_bind hrun
  obtain ⟨o, ho, hrun⟩ := Stateful.run_liftM_bind_ok.1 hrun
  rw [Outcome.orFail_eq_ok] at ho
  obtain ⟨owner, howner, hrun⟩ := Stateful.run_liftM_bind_ok.1 hrun
  rw [Outcome.orFail_eq_ok] at howner
  obtain ⟨target, htarget, hrun⟩ := Stateful.run_liftM_bind_ok.1 hrun
  rw [Op.input, Outcome.promised_eq_ok, ← List.head?_eq_getElem?] at htarget
  refine ⟨o, owner, target, ho, howner, htarget, ?_⟩
  split at hrun
  · rename_i hneeds
    obtain ⟨p, s₁, hadd, hrun⟩ := Stateful.run_bind_ok.1 hrun
    cases hrun
    exact .inr ⟨hneeds, p, s₁, hadd, rfl⟩
  · rename_i hneeds
    cases hrun
    exact .inl ⟨Bool.not_eq_true _ ▸ hneeds, rfl⟩

/-- The start of a synthesis. -/
theorem Grown.start (hG : G.WellFormed) : Grown R G { graph := G } :=
  ⟨.refl hG.linked fun _ _ => hG.opBound, nofun, .nil⟩

/-- The same for a loss that was there before any gradient. -/
theorem startFrom_cases (hG : G.Linked) (hrel : ∀ o ∈ relevant, o < G.nextOp) (h : Grown R G s) {loss : Loss}
    (hloss : ∃ o, G.producer? loss.output = some o) (hrun : (startFrom relevant loss).run s = (.ok (), s')) :
    ∃ o lossOp target, G.producer? loss.output = some o ∧ G.op? o = some lossOp ∧
      lossOp.inputs.head? = some target ∧ ((needsGrad G relevant target = false ∧ s' = s) ∨
        (needsGrad G relevant target = true ∧ ∃ owner p s₁,
          (GradM.addFresh owner loss.gradKind (lossOp.inputs ++ [Sgd.lossScalingId]) target).run s = (.ok p, s₁) ∧
            s' = s₁.note target ⟨o, 0, p⟩)) := by
  obtain ⟨o, ho⟩ := hloss
  obtain ⟨lossOp, hlossOp, -⟩ := hG.op_of_producer ho
  obtain ⟨op, hop, -, hin, -⟩ := h.grows.ops hlossOp
  obtain ⟨o', owner, target, ho', howner, htarget, hcases⟩ := startFrom_ok hrun
  cases (h.grows.producer?_eq ho).symm.trans ho'
  cases hop.symm.trans howner
  rw [hin] at htarget hcases
  have hhas := hasTensor_iff.2 (hG.hasTensor_of_input hlossOp (List.mem_of_head? htarget))
  rw [h.grows.needsGrad_eq hrel hhas] at hcases
  exact ⟨o, lossOp, target, ho, hlossOp, htarget, hcases.imp_right fun ⟨hneeds, p, s₁, hadd, heq⟩ =>
    ⟨hneeds, op, p, s₁, hadd, heq⟩⟩

/-- The gradient of a loss that is added has the info of the first operand of the loss. -/
theorem seed_info (h : Grows G s.graph) {loss : Loss} {target p : TensorId} {inputs : List TensorId}
    {info : TensorInfo} (hneeds : needsGrad G relevant target = true) (htarget : inputs.head? = some target)
    (ha : Added s.graph loss.gradKind (inputs ++ [Sgd.lossScalingId]) p info s'.graph) :
    ∃ i, G.info? target = some i ∧ s'.graph.info? p = some i := by
  obtain ⟨i, hi, hi'⟩ := info?_of_needsGrad h hneeds
  obtain ⟨x, hx, -, hinfo, -⟩ := ha.result
  obtain ⟨infos, hinfos, hinfer⟩ := ha.infers
  obtain ⟨rest, rfl⟩ := List.head?_eq_some_iff.1 htarget
  refine ⟨i, hi, info?_eq_some.2 ⟨x, hx, ?_⟩⟩
  rw [Outcome.mapM_eq_ok] at hinfos
  cases hinfos with
  | cons hfirst _ =>
    rw [Graph.info, Outcome.orFail_eq_ok, hi', Option.some.injEq] at hfirst
    subst hfirst
    rw [hinfo, loss.gradKind_infer hinfer]

/-- After a start from a loss, the gradient of the loss waits if it counts. -/
theorem startFrom_seeds (hR : ∀ i, R i i) (hG : G.Linked) (hrel : ∀ o ∈ relevant, o < G.nextOp) (h : Grown R G s) {loss : Loss}
    (hloss : ∃ o, G.producer? loss.output = some o) (hrun : (startFrom relevant loss).run s = (.ok (), s')) :
    ∃ seeds : List Seed, seeds.map (fun σ => (σ.loss, σ.target)) = counted G relevant [loss] ∧
      (∀ σ ∈ seeds, σ.Stands G s'.graph ∧ s.graph.nextOp ≤ σ.op) ∧ (seeds.map Seed.op).Nodup ∧
      s.graph.nextOp ≤ s'.graph.nextOp ∧ Grown R G s' ∧ Carries id s s' ∧
      s'.waiting.Perm (seeds.map (fun σ => (σ.target, σ.output)) ++ s.waiting) := by
  obtain ⟨o, lossOp, target, ho, hlossOp, htarget, hcases⟩ := startFrom_cases hG hrel h hloss hrun
  have htarget? : loss.target? G = some target := by
    rw [Loss.target?, ho, Option.bind_some, hlossOp, Option.bind_some, htarget]
  rcases hcases with ⟨hneeds, rfl⟩ | ⟨hneeds, owner, p, s₁, hadd, rfl⟩
  · have hcounted : counted G relevant [loss] = [] := by simp [counted, htarget?, hneeds]
    exact ⟨[], hcounted.symm, nofun, .nil, Nat.le_refl _, h, .refl s', .refl _⟩
  · have hcounted : counted G relevant [loss] = [(loss, target)] := by simp [counted, htarget?, hneeds]
    obtain ⟨-, -, info, ha⟩ := GradM.addFresh_ok h.grows.linked h.grows.numbered hadd
    have hgraph : (s₁.note target ⟨o, 0, p⟩).graph = s₁.graph := rfl
    obtain ⟨hgrown, hcarries, hperm⟩ := h.noted (m := [(target, p)]) (.cons hadd (.nil s₁)) hgraph
      (waiting_note s₁ target ⟨o, 0, p⟩) (.refl _) fun {t q} hmem => by
        cases List.mem_singleton.1 hmem
        obtain ⟨i, hi, hi'⟩ := seed_info h.grows hneeds htarget ha
        exact ⟨i, i, hi, hi', hR i⟩
    obtain ⟨op, hop, hkind, hin, hout⟩ := ha.found
    refine ⟨[⟨loss, target, s.graph.nextOp, p⟩], hcounted.symm, ?_, List.nodup_singleton _,
      Nat.le.intro ha.nextOp_eq.symm, hgrown, hcarries, hperm⟩
    intro σ hσ
    cases List.mem_singleton.1 hσ
    exact ⟨⟨o, lossOp, op, ho, hlossOp, hop, hkind, hin, hout⟩, Nat.le_refl _⟩

/-- Tensors of the start keep their names. -/
theorem Grown.laterName_eq (h : Grown R G s) {φ : TensorId → TensorId} (hc : Carries φ s s')
    (ht : G.hasTensor t = true) : φ t = t := by
  refine (hc.fixed (h.grows.hasTensor ht) fun hw => ?_).1
  obtain ⟨⟨t', p⟩, hp, rfl⟩ := List.mem_map.1 hw
  obtain ⟨x, hx⟩ := hasTensor_iff.1 ht
  rw [(h.waits hp).1] at hx
  cases hx

/-- Starts stay, with their results renamed. -/
theorem Seed.Stands.carry (hG : G.Linked) (hscaling : G.hasTensor Sgd.lossScalingId = true) (h : Grown R G s)
    {φ : TensorId → TensorId} (hc : Carries φ s s') {σ : Seed} (hσ : σ.Stands G s.graph) :
    Stands { σ with output := φ σ.output } G s'.graph := by
  obtain ⟨o, lossOp, op, ho, hlossOp, hop, hkind, hin, hout⟩ := hσ
  have hproducer := (h.grows.linked.producer?_iff_of_outputs hop hout).2 rfl
  obtain ⟨op', -, hop', hkind', hin', hout', -⟩ := hc.embeds.op hproducer hop
  refine ⟨o, lossOp, op', ho, hlossOp, hop', hkind'.trans hkind, ?_, by rw [hout', hout]; rfl⟩
  rw [hin', hin]
  conv_rhs => rw [← List.map_id (lossOp.inputs ++ [Sgd.lossScalingId])]
  refine List.map_congr_left fun i hi => h.laterName_eq hc ?_
  rcases List.mem_append.1 hi with hi | hi
  · exact hasTensor_iff.2 (hG.hasTensor_of_input hlossOp hi)
  · rw [List.mem_singleton.1 hi]
    exact hscaling

/-- All losses are started from, one after the other. -/
theorem starts_ok (hR : ∀ i, R i i) (hG : G.Linked) (hscaling : G.hasTensor Sgd.lossScalingId = true)
    (hrel : ∀ o ∈ relevant, o < G.nextOp) : ∀ {losses : List Loss} {s s' : Synthesis}, Grown R G s →
      (∀ loss ∈ losses, ∃ o, G.producer? loss.output = some o) →
      (losses.forM (startFrom relevant)).run s = (.ok (), s') →
      ∃ seeds : List Seed, seeds.map (fun σ => (σ.loss, σ.target)) = counted G relevant losses ∧
        (∀ σ ∈ seeds, σ.Stands G s'.graph ∧ s.graph.nextOp ≤ σ.op) ∧ (seeds.map Seed.op).Nodup ∧
        Grown R G s' ∧ Carries id s s' ∧ s'.waiting.Perm (seeds.map (fun σ => (σ.target, σ.output)) ++ s.waiting)
  | [], s, s', h, _, hrun => by
    cases hrun
    exact ⟨[], rfl, nofun, .nil, h, .refl s, .refl _⟩
  | loss :: losses, s, s', h, hlosses, hrun => by
    obtain ⟨_, s₁, hfirst, hrun⟩ := Stateful.run_bind_ok.1 hrun
    obtain ⟨first, hmap, hstands, hnodup, hle, hgrown, hcarries, hperm⟩ :=
      startFrom_seeds hR hG hrel h (hlosses loss (by simp)) hfirst
    obtain ⟨rest, hmap', hstands', hnodup', hgrown', hcarries', hperm'⟩ :=
      starts_ok hR hG hscaling hrel hgrown (fun l hl => hlosses l (List.mem_cons_of_mem _ hl)) hrun
    refine ⟨first ++ rest, ?_, fun σ hσ => ?_, ?_, hgrown', hcarries.trans hcarries', ?_⟩
    · rw [List.map_append, hmap, hmap']
      exact (List.filterMap_append (l := [loss])).symm
    · rcases List.mem_append.1 hσ with hσ | hσ
      · exact ⟨(hstands σ hσ).1.carry hG hscaling hgrown hcarries', (hstands σ hσ).2⟩
      · exact ⟨(hstands' σ hσ).1, hle.trans (hstands' σ hσ).2⟩
    · -- the numbers of the first ops were given before those of the rest
      rw [List.map_append, List.nodup_append']
      refine ⟨hnodup, hnodup', fun o ho ho' => ?_⟩
      obtain ⟨σ, hσ, rfl⟩ := List.mem_map.1 ho
      obtain ⟨σ', hσ', heq⟩ := List.mem_map.1 ho'
      obtain ⟨-, -, op, -, -, hop, -⟩ := (hstands σ hσ).1
      exact Nat.lt_irrefl _ ((hgrown.grows.numbered σ.op op hop).trans_le (heq ▸ (hstands' σ' hσ').2))
    · rw [List.map_append, List.append_assoc]
      refine hperm'.trans ((hperm.append_left _).trans ?_)
      rw [← List.append_assoc, ← List.append_assoc]
      exact List.perm_append_comm.append_right _

/-- After the starts, the gradients of all losses wait, and nothing else. -/
theorem starts_wait (hR : ∀ i, R i i) (hG : G.WellFormed) (hscaling : G.hasTensor Sgd.lossScalingId = true)
    (hlosses : ∀ loss ∈ losses, ∃ o, G.producer? loss.output = some o)
    (hrun : (losses.forM (startFrom (relevantOps G losses))).run { graph := G } = (.ok (), s)) :
    ∃ seeds : List Seed, seeds.map (fun σ => (σ.loss, σ.target)) = counted G (relevantOps G losses) losses ∧
      (∀ σ ∈ seeds, σ.Stands G s.graph) ∧ (seeds.map Seed.op).Nodup ∧ Grown R G s ∧
      s.waiting.Perm (seeds.map fun σ => (σ.target, σ.output)) := by
  obtain ⟨seeds, hcounted, hstands, hnodup, hgrown, -, hperm⟩ :=
    starts_ok hR hG.linked hscaling (relevant_lt hG) (.start hG) hlosses hrun
  have hempty : ({ graph := G } : Synthesis).waiting = [] := rfl
  rw [hempty, List.append_nil] at hperm
  exact ⟨seeds, hcounted, fun σ hσ => (hstands σ hσ).1, hnodup, hgrown, hperm⟩

/-! ## Visits -/

variable {rules : GradRegistry} {op : Op} {incoming : TensorId}
  {gradients : List (Option TensorId)}

/-- A visit of an op. -/
def visit (rules : GradRegistry) (relevant : SortedSet OpId) (o : OpId) : GradM Unit := do
  match (← get).graph.op? o with
  | none => return
  | some op => stepBack rules relevant op

theorem visit_run (h : s.graph.op? o = some op) :
    (visit rules relevant o).run s = (stepBack rules relevant op).run s := by
  change (match s.graph.op? o with | none => pure () | some op => stepBack rules relevant op).run s = _
  rw [h]

/-- The states of the sweep over the relevant ops, with the ops that are still to be visited. -/
inductive Sweeps (rules : GradRegistry) (losses : List Loss) (G : Graph) : Synthesis → List OpId → Prop
  | start {s : Synthesis} {order : List OpId}
      (hs : (losses.forM (startFrom (relevantOps G losses))).run { graph := G } = (.ok (), s))
      (ho : s.graph.order = .ok order) :
      Sweeps rules losses G s (order.reverse.filter (relevantOps G losses).contains)
  | visit {s s' : Synthesis} {o : OpId} {l : List OpId} (hs : Sweeps rules losses G s (o :: l))
      (hv : (visit rules (relevantOps G losses) o).run s = (.ok (), s')) : Sweeps rules losses G s' l

/-- A visit that a gradient has reached. The gradients for the result `t` of the op become `incoming`, in the state
`s₁`, and the rule for the op gives `gradients`. -/
structure Visits (rules : GradRegistry) (relevant : SortedSet OpId) (s : Synthesis) (op : Op) (t : TensorId)
    (s₁ : Synthesis) (incoming : TensorId) (gradients : List (Option TensorId)) (s' : Synthesis) : Prop where
  output : op.output = .ok t
  settle : (settle t op).run s = (.ok (some incoming), s₁)
  rule : ∃ rule, rules.rule? op.kind = some rule ∧
    (rule { op, needs := op.inputs.map (needsGrad s₁.graph relevant), incoming }).run s₁ = (.ok gradients, s')

/-- Where no rules were registered, the rule is that of the kind of the op. -/
theorem Visits.rule_ofKind {s₁ : Synthesis} (hv : Visits .empty relevant s op t s₁ incoming gradients s') :
    ∃ rule, GradRule.ofKind? op.kind = some rule ∧
      (rule { op, needs := op.inputs.map (needsGrad s₁.graph relevant), incoming }).run s₁ = (.ok gradients, s') := by
  obtain ⟨rule, hrule, hrun⟩ := hv.rule
  rw [GradRegistry.rule?_empty] at hrule
  exact ⟨rule, hrule, hrun⟩

theorem stepBack_ok (h : (stepBack rules relevant op).run s = (.ok (), s')) :
    (∃ t, op.output = .ok t ∧ (settle t op).run s = (.ok none, s')) ∨
      ∃ t s₁ incoming gradients s₂, Visits rules relevant s op t s₁ incoming gradients s₂ ∧ s'.graph = s₂.graph ∧
        s'.waiting.Perm (given op.inputs gradients ++ s₂.waiting) ∧
        s' = noteAll op.id (op.inputs.zip gradients) 0 s₂ := by
  obtain ⟨t, ht, h⟩ := Stateful.run_liftM_bind_ok.1 h
  obtain ⟨result, s₁, hsettle, h⟩ := Stateful.run_bind_ok.1 h
  cases result with
  | none =>
    cases h
    exact .inl ⟨t, ht, hsettle⟩
  | some incoming =>
    obtain ⟨rule, hrule, h⟩ := Stateful.run_liftM_bind_ok.1 h
    rw [Outcome.orFail_eq_ok] at hrule
    replace h := Stateful.of_get_bind h
    obtain ⟨gradients, s₂, hgradients, h⟩ := Stateful.run_bind_ok.1 h
    cases h
    obtain ⟨hgraph, hperm⟩ := waiting_noteAll op.id (op.inputs.zip gradients) 0 s₂
    exact .inr ⟨t, s₁, incoming, gradients, s₂, ⟨ht, hsettle, rule, hrule, hgradients⟩, hgraph, hperm, rfl⟩

theorem mem_given {inputs : List TensorId} {i p : TensorId} (h : (i, p) ∈ given inputs gradients) :
    ∃ k : Nat, inputs[k]? = some i ∧ gradients[k]? = some (some p) := by
  obtain ⟨⟨i', gradient⟩, hmem, heq⟩ := List.mem_filterMap.1 h
  obtain ⟨k, hk⟩ := List.mem_iff_getElem?.1 hmem
  obtain ⟨hi, hg⟩ := List.getElem?_zip_eq_some.1 hk
  obtain ⟨p', rfl, hp⟩ := Option.map_eq_some_iff.1 heq
  cases hp
  exact ⟨k, hi, hg⟩

theorem given_sublist : ∀ (inputs : List TensorId) (gradients : List (Option TensorId)),
    ((given inputs gradients).map Prod.snd).Sublist (gradients.flatMap Option.toList)
  | [], _ => List.nil_sublist _
  | _ :: _, [] => .refl _
  | _ :: inputs, none :: gradients => given_sublist inputs gradients
  | _ :: inputs, some p :: gradients => (given_sublist inputs gradients).cons_cons p

/-- What a visit does to the state, once the gradients for the result of the op have become one: the gradients that
the rule gives wait for operands that need them. -/
theorem Visits.grown (hrules : ∀ type rule, rules.get? type = some rule → rule.Lawful)
    (hrel : ∀ o ∈ relevant, o < G.nextOp) {s₁ s₂ : Synthesis}
    (hv : Visits rules relevant s op t s₁ incoming gradients s₂) (hop : ∀ i ∈ op.inputs, G.hasTensor i = true)
    (h : Grown R G s₁)
    (hgoes : ∀ {i p}, (i, p) ∈ given op.inputs gradients →
      ∃ x y, s₂.graph.info? i = some x ∧ s₂.graph.info? p = some y ∧ R x y)
    (hg : s'.graph = s₂.graph) (hw : s'.waiting.Perm (given op.inputs gradients ++ s₂.waiting)) :
    Grown R G s' ∧ Carries id s₁ s' ∧ s'.waiting.Perm (given op.inputs gradients ++ s₁.waiting) ∧
      ∀ {i p}, (i, p) ∈ given op.inputs gradients → needsGrad G relevant i = true := by
  obtain ⟨rule, hrule, hrun⟩ := hv.rule
  obtain ⟨l, hl, hsub, hneeded⟩ := GradRegistry.lawful hrules hrule _ s₁ gradients s₂ hrun
  have hneeds : ∀ {i p}, (i, p) ∈ given op.inputs gradients → needsGrad G relevant i = true := by
    intro i p hmem
    obtain ⟨k, hi, hp⟩ := mem_given hmem
    have hk := hneeded k p hp
    rw [Nat.zero_add, GradCall.isNeeded, List.getD_eq_getElem?_getD, List.getElem?_map, hi, Option.map_some,
      Option.getD_some, h.grows.needsGrad_eq hrel (hop i (List.mem_of_getElem? hi))] at hk
    exact hk
  obtain ⟨hgrown, -⟩ := h.emits hl
  obtain ⟨hgrown', hcarries, hperm⟩ := h.noted hl hg hw ((given_sublist _ _).trans hsub) fun {i p} hmem => by
    obtain ⟨x, y, hx, hy, heq⟩ := hgoes hmem
    obtain ⟨x', hx', hx''⟩ := info?_of_needsGrad hgrown.grows (hneeds hmem)
    cases hx.symm.trans hx''
    exact ⟨x, y, hx', hy, heq⟩
  exact ⟨hgrown', hcarries, hperm, hneeds⟩

/-! ## Updates -/

/-- The operands of the update of a weight. -/
def updateInputs (weight : TensorId) : List TensorId :=
  [weight, gradId weight, Sgd.learningRateId, Sgd.weightDecayId, Sgd.lossScalingId]

/-- What an update does: nothing if no gradient waits for the weight, otherwise the gradients become one, which belongs
to the op of the first of them, and one op is added. -/
theorem update_cases {weight : TensorId} {result : Option TensorId} (hrun : (update weight).run s = (.ok result, s')) :
    (result = none ∧ s' = s ∧ ∀ p, (weight, p) ∉ s.waiting) ∨
      result = some weight ∧ ∃ first template s₁ info g, first ∈ (s.partials.get? weight).getD [] ∧
        s.graph.op? first.op = some template ∧
        (settle weight template).run s = (.ok (some (gradId weight)), s₁) ∧
        AddedOp s₁.graph .sgdVarUpdate (updateInputs weight) (updatedId weight) .weightUpdate info g ∧
        s' = { s₁ with
          graph := g.modifyOp s₁.graph.nextOp fun op => { op with virtualGraph := template.virtualGraph } } := by
  replace hrun := Stateful.of_get_bind hrun
  split at hrun
  · rename_i hnone
    cases hrun
    refine .inl ⟨rfl, rfl, fun p hp => ?_⟩
    obtain ⟨l, hl, hne⟩ := get?_of_waiting hp
    rw [hl, Option.bind_some, List.head?_eq_none_iff] at hnone
    exact hne hnone
  rename_i first hfirst
  have hmem : first ∈ (s.partials.get? weight).getD [] := by
    obtain ⟨l, hl, hhead⟩ := Option.bind_eq_some_iff.1 hfirst
    rw [hl]
    exact List.mem_of_head? hhead
  obtain ⟨template, htemplate, hrun⟩ := Stateful.run_liftM_bind_ok.1 hrun
  rw [Outcome.orFail_eq_ok] at htemplate
  obtain ⟨settled, s₁, hsettle, hrun⟩ := Stateful.run_bind_ok.1 hrun
  rcases settle_cases hsettle with ⟨hnil, -⟩ | ⟨rfl, -⟩
  · rw [hnil] at hmem
    cases hmem
  obtain ⟨_, s₂, hadd, hrun⟩ := Stateful.run_bind_ok.1 hrun
  cases hrun
  obtain ⟨g', hcall, rfl⟩ := GradM.run_onGraph_ok hadd
  obtain ⟨id, g₁, hcall', hmodify⟩ := Stateful.run_bind_ok.1 hcall
  obtain ⟨output, info, hout, rfl, ha⟩ := Graph.addOp_ok (Stateful.run_change_ok.1 hcall')
  cases hout
  obtain rfl := (Prod.ext_iff.1 hmodify).2
  exact .inr ⟨rfl, first, template, s₁, info, g₁, hmem, htemplate, hsettle, ha, rfl⟩

/-- The op of an update is added, and what waits stays. -/
theorem Grown.updated (h : Grown R G s) {weight : TensorId} {info : TensorInfo} {g₁ : Graph}
    (ha : AddedOp s.graph .sgdVarUpdate (updateInputs weight) (updatedId weight) .weightUpdate info g₁)
    {place : Option Int} (hs : s' = { s with
      graph := g₁.modifyOp s.graph.nextOp fun op => { op with virtualGraph := place } }) :
    Added s.graph .sgdVarUpdate (updateInputs weight) (updatedId weight) info s'.graph ∧ Grown R G s' ∧
      Carries id s s' ∧ s'.waiting = s.waiting ∧ updatedId weight ∉ s'.waiting.map Prod.snd := by
  subst hs
  have hadded := Added.of_addedOp h.grows.linked h.grows.numbered ha
    (f := fun op => { op with virtualGraph := place }) (fun _ => rfl) (fun _ => rfl) (fun _ => rfl) fun _ => rfl
  obtain ⟨hgrown, hcarries, hnot⟩ : Grown R G { s with graph := _ } ∧ _ := h.added (l := []) hadded (.refl _)
  exact ⟨hadded, hgrown, hcarries, rfl, hnot⟩

/-! ## The parts of a synthesis -/

/-- The ops that are visited are the relevant ones. -/
theorem mem_visited (h : Grown R G s) {order : List OpId} (horder : s.graph.order = .ok order) {o : OpId} :
    o ∈ order.reverse.filter (relevantOps G losses).contains ↔ o ∈ relevantOps G losses := by
  rw [List.mem_filter, SortedSet.contains_iff, List.mem_reverse, (order_complete h.grows.linked horder).mem_iff,
    and_iff_right_iff_imp]
  intro ho
  obtain ⟨op, hop, -⟩ := op_of_relevant ho
  obtain ⟨op', hop', -⟩ := h.grows.ops hop
  exact ⟨op', hop'⟩

/-- A synthesis starts from the losses, visits the relevant ops from the last to the first, and updates the weights. -/
theorem run_parts {updated : List TensorId} (hrun : (run rules losses).run { graph := G } = (.ok updated, s')) :
    ∃ s₁ s₂ order results, (losses.forM (startFrom (relevantOps G losses))).run { graph := G } = (.ok (), s₁) ∧
      s₁.graph.order = .ok order ∧
      ((order.reverse.filter (relevantOps G losses).contains).forM (visit rules (relevantOps G losses))).run s₁ =
        (.ok (), s₂) ∧
      (s₂.graph.weights.mapM update).run s₂ = (.ok results, s') ∧ updated = results.filterMap id := by
  replace hrun := Stateful.of_get_bind hrun
  obtain ⟨_, s₁, hstarts, hrun⟩ := Stateful.run_bind_ok.1 hrun
  replace hrun := Stateful.of_get_bind hrun
  obtain ⟨order, _, horder, hrun⟩ := Stateful.run_bind_ok.1 hrun
  rw [Stateful.run_lift, Prod.mk.injEq] at horder
  obtain ⟨horder, rfl⟩ := horder
  obtain ⟨_, s₂, hsweep, hrun⟩ := Stateful.run_bind_ok.1 hrun
  replace hrun := Stateful.of_get_bind hrun
  obtain ⟨results, s₃, hupdates, hrun⟩ := Stateful.run_bind_ok.1 hrun
  cases hrun
  exact ⟨s₁, s₂, order, results, hstarts, horder, hsweep, hupdates, rfl⟩

end Synthesis

/-! ## The whole synthesis -/

/-- A synthesis that succeeds is a run on the graph, which has the settings of the optimizer. -/
theorem synthesizeGradients_run {rules : GradRegistry} {losses : List Loss} {b b' : Build} {summary : GradSummary}
    (h : (synthesizeGradients rules losses).run b = (.ok summary, b')) :
    (∀ id ∈ Sgd.ids, b.graph.hasTensor id = true) ∧ ∃ s' : Synthesis, b'.graph = s'.graph ∧
      summary.gradOps = s'.added ∧
      (Synthesis.run rules losses).run { graph := b.graph } = (.ok summary.updated, s') := by
  unfold synthesizeGradients at h
  by_cases hempty : losses.isEmpty = true
  · simp only [hempty, if_true] at h
    obtain ⟨_, _, hfail, -⟩ := Stateful.run_bind_ok.1 h
    cases hfail
  · simp only [hempty, Bool.false_eq_true, if_false] at h
    replace h := Stateful.of_get_bind h
    split at h
    · cases h
    · rename_i hfind
      have hids : ∀ id ∈ Sgd.ids, b.graph.hasTensor id = true := by
        intro id hid
        have hscaling := List.find?_eq_none.1 hfind id hid
        simpa using hscaling
      obtain ⟨⟨updated, added⟩, b₁, hcall, h⟩ := Stateful.run_bind_ok.1 h
      cases h
      rw [BuildM.onGraph, Stateful.run_focus, Stateful.run_focus, Prod.mk.injEq] at hcall
      obtain ⟨s', s₁, hrun, hget⟩ := Stateful.run_bind_ok.1 (Stateful.eq_ok_of_fst hcall.1)
      obtain ⟨s₂, _, hs₂, hpure⟩ := Stateful.run_bind_ok.1 hget
      cases hs₂
      obtain ⟨hpair, hstate⟩ := Prod.mk.inj hpure
      cases hpair
      refine ⟨hids, s₁, ?_, rfl, hrun⟩
      rw [← hcall.2, ← hstate]

/-- A synthesis that succeeds is a run on the graph, which has the scaling of losses. -/
theorem synthesizeGradients_ok {rules : GradRegistry} {losses : List Loss} {b b' : Build} {summary : GradSummary}
    (h : (synthesizeGradients rules losses).run b = (.ok summary, b')) :
    b.graph.hasTensor Sgd.lossScalingId = true ∧ ∃ s' : Synthesis, b'.graph = s'.graph ∧
      (Synthesis.run rules losses).run { graph := b.graph } = (.ok summary.updated, s') := by
  obtain ⟨hids, s', hgraph, -, hrun⟩ := synthesizeGradients_run h
  exact ⟨hids _ (by simp [Sgd.ids]), s', hgraph, hrun⟩

end TensorGraph
