import TensorGraph.Engine.Executable
import TensorGraph.Proofs.Graph.Meaning
import TensorGraph.Proofs.Graph.Order

/-!
What a program is made of. Its steps are the ops of the graph in their order, cut into phases; the phases of a mode
put behind each other are again a schedule, because no op reads what a later phase produces.
-/
namespace TensorGraph

open TensorGraph.Graph

variable {g : Graph} {e : Executable} {o p q : OpId} {t : TensorId}

namespace Graph

/-- No op reads a tensor that is produced in a later phase. -/
def PhaseMonotone (g : Graph) : Prop :=
  ∀ p q a b, g.Feeds p q → g.op? p = some a → g.op? q = some b → a.phase.rank ≤ b.phase.rank

/-! ## Schedules as lists without a feed backwards -/

theorem Schedule.append : ∀ {l l' done : List OpId},
    Schedule g done (l ++ l') ↔ Schedule g done l ∧ Schedule g (l.reverse ++ done) l'
  | [], l', done => by simp [Schedule]
  | a :: l, l', done => by
    simp only [List.cons_append, Schedule, append, List.reverse_cons, List.append_assoc, List.nil_append]
    tauto

/-- Ops of which none is fed from behind, and that have all that feeds them, are a schedule. -/
theorem Schedule.of_pairwise : ∀ {l done : List OpId}, l.Nodup → (∀ o ∈ l, o ∉ done) →
    (∀ o ∈ l, ∃ op, g.op? o = some op) → l.Pairwise (fun a b => ¬ g.Feeds b a) →
    (∀ o ∈ l, ∀ p, g.Feeds p o → p ≠ o ∧ (p ∈ l ∨ p ∈ done)) → Schedule g done l
  | [], _, _, _, _, _, _ => trivial
  | a :: l, done, hnodup, hdone, hop, hpair, hfeeds => by
    rw [List.nodup_cons] at hnodup
    rw [List.pairwise_cons] at hpair
    refine ⟨hdone a (by simp), hop a (by simp), fun p hp => ?_, of_pairwise hnodup.2 ?_ ?_ hpair.2 ?_⟩
    · obtain ⟨hne, hmem | hmem⟩ := hfeeds a (by simp) p hp
      · exact absurd hp (hpair.1 p ((List.mem_cons.1 hmem).resolve_left hne))
      · exact hmem
    · intro o ho hd
      rcases List.mem_cons.1 hd with rfl | hd
      · exact hnodup.1 ho
      · exact hdone o (List.mem_cons_of_mem _ ho) hd
    · exact fun o ho => hop o (List.mem_cons_of_mem _ ho)
    · intro o ho p hp
      obtain ⟨hne, hmem | hmem⟩ := hfeeds o (List.mem_cons_of_mem _ ho) p hp
      · rcases List.mem_cons.1 hmem with rfl | hmem
        · exact ⟨hne, .inr (by simp)⟩
        · exact ⟨hne, .inl hmem⟩
      · exact ⟨hne, .inr (List.mem_cons_of_mem _ hmem)⟩

end Graph

/-! ## The phases of a mode -/

namespace RunMode

variable {mode : RunMode}

theorem phases_ascending (mode : RunMode) : mode.phases.Pairwise fun a b => a.rank < b.rank := by
  cases mode <;> decide

theorem mem_phases_train (p : Phase) : p ∈ train.phases := by
  cases p <;> decide

theorem mem_phases_of_le {a b : Phase} (hb : b ∈ mode.phases) (hab : a.rank ≤ b.rank) : a ∈ mode.phases := by
  cases mode <;> cases a <;> cases b <;> simp_all [phases, Phase.rank]

end RunMode

/-- The ops of a list that run in a mode, phase by phase. -/
def RunMode.select (mode : RunMode) (ops : List Op) : List Op :=
  mode.phases.flatMap fun p => ops.filter (·.phase = p)

theorem RunMode.mem_select {mode : RunMode} {ops : List Op} {op : Op} :
    op ∈ mode.select ops ↔ op ∈ ops ∧ op.phase ∈ mode.phases := by
  simp only [select, List.mem_flatMap, List.mem_filter, decide_eq_true_eq]
  constructor
  · rintro ⟨p, hp, hop, rfl⟩
    exact ⟨hop, hp⟩
  · rintro ⟨hop, hp⟩
    exact ⟨op.phase, hp, hop, rfl⟩

/-- The phases of a mode, put behind each other, are a schedule. -/
theorem RunMode.select_schedule (mode : RunMode) (hl : g.Linked) {l : List OpId} (hc : Complete g l)
    (hmono : g.PhaseMonotone) : Schedule g [] ((mode.select (l.filterMap g.op?)).map (·.id)) := by
  have hfound : ∀ op ∈ l.filterMap g.op?, g.op? op.id = some op := by
    intro op hop
    obtain ⟨o, -, ho⟩ := List.mem_filterMap.1 hop
    rw [hl.opId ho, ho]
  -- distinct ops of the order have distinct numbers, and none feeds an earlier one
  have hpair : (l.filterMap g.op?).Pairwise fun a b => a.id ≠ b.id ∧ ¬ g.Feeds b.id a.id := by
    rw [List.pairwise_filterMap]
    refine (List.Pairwise.and hc.schedule.nodup hc.schedule.pairwise).imp fun {a b} hab x hx y hy => ?_
    rw [hl.opId hx, hl.opId hy]
    exact hab
  have hsel : (mode.select (l.filterMap g.op?)).Pairwise fun a b => a.id ≠ b.id ∧ ¬ g.Feeds b.id a.id := by
    unfold select
    rw [List.pairwise_flatMap]
    refine ⟨fun p _ => hpair.filter _, mode.phases_ascending.imp fun {p q} hpq x hx y hy => ?_⟩
    obtain ⟨hxl, hxp⟩ := List.mem_filter.1 hx
    obtain ⟨hyl, hyq⟩ := List.mem_filter.1 hy
    simp only [decide_eq_true_eq] at hxp hyq
    subst hxp hyq
    refine ⟨fun heq => ?_, fun hf => ?_⟩
    · have hxy := (hfound x hxl).symm.trans (heq ▸ hfound y hyl)
      cases hxy
      exact Nat.lt_irrefl _ hpq
    · exact absurd (hmono _ _ _ _ hf (hfound y hyl) (hfound x hxl)) (Nat.not_le.2 hpq)
  refine Schedule.of_pairwise ?_ (fun _ _ => List.not_mem_nil) ?_ ?_ ?_
  · exact List.pairwise_map.2 (hsel.imp And.left)
  · intro o ho
    obtain ⟨op, hop, rfl⟩ := List.mem_map.1 ho
    exact ⟨op, hfound op (mem_select.1 hop).1⟩
  · exact List.pairwise_map.2 (hsel.imp And.right)
  · intro o ho p hf
    obtain ⟨op, hop, rfl⟩ := List.mem_map.1 ho
    obtain ⟨hopl, hphase⟩ := mem_select.1 hop
    refine ⟨?_, .inl ?_⟩
    · rintro rfl
      exact hc.acyclic _ (.single hf)
    · obtain ⟨op', hp⟩ := hl.op_of_feeds hf
      have hle := hmono _ _ _ _ hf hp (hfound op hopl)
      refine List.mem_map.2 ⟨op', mem_select.2 ⟨?_, mem_phases_of_le hphase hle⟩, hl.opId hp⟩
      exact List.mem_filterMap.2 ⟨p, hc.all hp, hp⟩

/-! ## Steps -/

/-- What a step takes from its op. Names and virtual graphs are left out, which no run depends on. -/
structure CompiledFrom (g : Graph) (op : Op) (c : CompiledOp) : Prop where
  kind : c.kind = op.kind
  inputs : c.inputs = op.inputs
  outputs : c.outputs = op.outputs
  phase : c.phase = op.phase
  inPlace : c.inPlace = op.inPlace
  infos : op.outputs.mapM g.info = .ok c.infos

/-- Two ops that are compiled to the same step, up to its name and its virtual graph. -/
structure Op.StepsAlike (op op' : Op) : Prop where
  kind : op.kind = op'.kind
  inputs : op.inputs = op'.inputs
  outputs : op.outputs = op'.outputs
  phase : op.phase = op'.phase
  inPlace : op.inPlace = op'.inPlace

theorem CompiledFrom.congr {op op' : Op} {c : CompiledOp} (h : CompiledFrom g op c) (hop : op.StepsAlike op')
    (hinfo : g.info? = g'.info?) : CompiledFrom g' op' c := by
  refine ⟨h.kind.trans hop.kind, h.inputs.trans hop.inputs, h.outputs.trans hop.outputs, h.phase.trans hop.phase,
    h.inPlace.trans hop.inPlace, ?_⟩
  have hinfo' : g'.info = g.info := funext fun id => by rw [Graph.info, Graph.info, hinfo]
  rw [← hop.outputs, hinfo']
  exact h.infos

theorem Executable.compileOp_ok {op : Op} {c : CompiledOp} {u : Option (TensorId × TensorId)}
    (h : compileOp g op = .ok (c, u)) : CompiledFrom g op c ∧ c.virtualGraph = op.virtualGraph.getD 0 := by
  obtain ⟨infos, hinfos, h⟩ := Outcome.bind_eq_ok.1 h
  obtain ⟨u', -, h⟩ := Outcome.bind_eq_ok.1 h
  cases h
  exact ⟨⟨rfl, rfl, rfl, rfl, rfl, hinfos⟩, rfl⟩

namespace Executable

theorem mem_ops {c : CompiledOp} : c ∈ e.ops ↔ ∃ p, c ∈ e.fragment p := by
  rw [ops, List.mem_flatten]
  constructor
  · rintro ⟨cs, hcs, hc⟩
    obtain ⟨p, hp⟩ := Dict.mem_values.1 hcs
    exact ⟨p, by rwa [fragment, hp]⟩
  · rintro ⟨p, hc⟩
    rw [fragment] at hc
    cases hp : e.fragments.get? p with
    | none => simp [hp] at hc
    | some cs => exact ⟨cs, Dict.mem_values.2 ⟨p, hp⟩, by simpa [hp] using hc⟩

theorem mem_typed (hlinked : g.Linked) {type : TensorType} {ti : TensorId × TensorInfo} :
    ti ∈ typed g type ↔ ∃ x, g.tensor? ti.1 = some x ∧ x.type = type ∧ x.info = ti.2 := by
  simp only [typed, List.mem_map, List.mem_filter, decide_eq_true_eq]
  constructor
  · rintro ⟨x, ⟨hmem, htype⟩, rfl⟩
    obtain ⟨t, ht⟩ := Dict.mem_values.1 hmem
    exact ⟨x, by rwa [hlinked.tensorId ht], htype, rfl⟩
  · rintro ⟨x, hx, htype, hinfo⟩
    refine ⟨x, ⟨Dict.mem_values.2 ⟨ti.1, hx⟩, htype⟩, ?_⟩
    rw [hlinked.tensorId hx, hinfo]

/-- What a program lists of its graph. -/
theorem compile_lists {n : Nat} {hash : UInt64} (h : compile g n hash = .ok e) :
    e.virtualGraphs = n ∧ e.streams = g.streams.filterMap (fun id => (g.info? id).map fun info => (id, info)) ∧
      e.weights = typed g .weight ∧ e.optimizerStreams = typed g .optimizerStream ∧
      e.infos = g.tensors.map fun _ t => t.info := by
  obtain ⟨ops, -, h⟩ := Outcome.bind_eq_ok.1 h
  obtain ⟨steps, -, h⟩ := Outcome.bind_eq_ok.1 h
  obtain ⟨constants, -, h⟩ := Outcome.bind_eq_ok.1 h
  cases h
  exact ⟨rfl, rfl, rfl, rfl, rfl⟩

theorem get?_foldl_addStep (p : Phase) : ∀ (cs : List CompiledOp) (d : Dict Phase (List CompiledOp)),
    ((cs.foldl addStep d).get? p).getD [] = (d.get? p).getD [] ++ cs.filter (·.phase = p)
  | [], d => by simp
  | c :: cs, d => by
    rw [List.foldl_cons, get?_foldl_addStep p cs, addStep, Dict.get?_insert]
    by_cases hp : c.phase = p
    · subst hp
      simp
    · simp [hp]

/-- What compilation makes of a graph: the steps of its ops in order, the updates among them, and its constants. -/
structure Compiled (g : Graph) (l : List OpId) (e : Executable) : Prop where
  order : g.order = .ok l
  fragment : ∀ p, List.Forall₂ (CompiledFrom g) ((l.filterMap g.op?).filter (·.phase = p)) (e.fragment p)
  updates : ∀ u w, (u, w) ∈ e.updates ↔ ∃ op ∈ l.filterMap g.op?, op.kind = .sgdVarUpdate ∧
    op.outputs.head? = some u ∧ op.inputs.head? = some w
  constants : ∀ t v, (t, v) ∈ e.constants ↔ ∃ x, g.tensor? t = some x ∧ x.type = .const ∧ x.data = some v
  fixed : ∀ t x, g.tensor? t = some x → x.type = .const → ∃ v, x.data = some v

/-- Every step of a phase is compiled from an op of this phase. -/
theorem Compiled.step {l : List OpId} (h : Compiled g l e) {p : Phase} {c : CompiledOp} (hc : c ∈ e.fragment p) :
    ∃ o op, g.op? o = some op ∧ op.phase = p ∧ CompiledFrom g op c := by
  obtain ⟨op, hop, hfrom⟩ := exists_of_forall₂ (h.fragment p).flip c hc
  obtain ⟨hmem, hphase⟩ := List.mem_filter.1 hop
  obtain ⟨o, -, ho⟩ := List.mem_filterMap.1 hmem
  exact ⟨o, op, ho, of_decide_eq_true hphase, hfrom⟩

/-- A program of a graph is one of any other with the same infos and constants, if their ops in order are compiled to
the same steps. -/
theorem Compiled.congr {l l' : List OpId} (h : Compiled g l e) (horder : g'.order = .ok l')
    (hops : List.Forall₂ Op.StepsAlike (l.filterMap g.op?) (l'.filterMap g'.op?)) (hinfo : g.info? = g'.info?)
    (hto : ∀ {t x}, g.tensor? t = some x → x.type = .const → ∃ x', g'.tensor? t = some x' ∧ x'.type = .const ∧ x'.data = x.data)
    (hfrom : ∀ {t x'}, g'.tensor? t = some x' → x'.type = .const →
      ∃ x, g.tensor? t = some x ∧ x.type = .const ∧ x.data = x'.data) : Compiled g' l' e := by
  refine ⟨horder, fun p => ?_, fun u w => (h.updates u w).trans ⟨?_, ?_⟩, fun t v => (h.constants t v).trans ⟨?_, ?_⟩,
    fun t x' hx' hconst => ?_⟩
  · have hphase : List.Forall₂ Op.StepsAlike ((l.filterMap g.op?).filter (·.phase = p))
        ((l'.filterMap g'.op?).filter (·.phase = p)) := List.rel_filter (fun op op' hop => by simp [hop.phase]) hops
    exact forall₂_trans (fun hop hc => hc.congr hop hinfo) hphase.flip (h.fragment p)
  · rintro ⟨op, hmem, hk, hu, hw⟩
    obtain ⟨op', hmem', hop⟩ := exists_of_forall₂ hops op hmem
    exact ⟨op', hmem', hop.kind ▸ hk, hop.outputs ▸ hu, hop.inputs ▸ hw⟩
  · rintro ⟨op', hmem', hk, hu, hw⟩
    obtain ⟨op, hmem, hop⟩ := exists_of_forall₂ hops.flip op' hmem'
    exact ⟨op, hmem, hop.kind ▸ hk, hop.outputs ▸ hu, hop.inputs ▸ hw⟩
  · rintro ⟨x, hx, hconst, hv⟩
    obtain ⟨x', hx', hconst', hdata⟩ := hto hx hconst
    exact ⟨x', hx', hconst', hdata.trans hv⟩
  · rintro ⟨x', hx', hconst, hv⟩
    obtain ⟨x, hx, hconst', hdata⟩ := hfrom hx' hconst
    exact ⟨x, hx, hconst', hdata.trans hv⟩
  · obtain ⟨x, hx, hconst', hdata⟩ := hfrom hx' hconst
    obtain ⟨v, hv⟩ := h.fixed t x hx hconst'
    exact ⟨v, hdata.symm.trans hv⟩

theorem constantOf_ok {x : Tensor} {tv : TensorId × HostTensor} :
    constantOf x = .ok tv ↔ tv.1 = x.id ∧ x.data = some tv.2 := by
  unfold constantOf
  rw [Outcome.bind_eq_ok]
  simp only [Outcome.orFail_eq_ok]
  constructor
  · rintro ⟨v, hv, h⟩
    cases h
    exact ⟨rfl, hv⟩
  · rintro ⟨hid, hv⟩
    exact ⟨tv.2, hv, by rw [← hid]; rfl⟩

theorem updateOf_ok {op : Op} {x : Option (TensorId × TensorId)} (h : updateOf op = .ok x) (u w : TensorId) :
    x = some (u, w) ↔ op.kind = .sgdVarUpdate ∧ op.outputs.head? = some u ∧ op.inputs.head? = some w := by
  unfold updateOf at h
  split at h
  · rename_i hk
    obtain ⟨w', hw, h⟩ := Outcome.bind_eq_ok.1 h
    obtain ⟨u', hu, h⟩ := Outcome.bind_eq_ok.1 h
    cases h
    rw [Outcome.orFail_eq_ok] at hw
    rw [Op.output, Outcome.promised_eq_ok] at hu
    simp [hk, hu, hw]
  · rename_i hk
    cases h
    simp [hk]

theorem compileOp_update {op : Op} {s : CompiledOp × Option (TensorId × TensorId)} (h : compileOp g op = .ok s)
    (u w : TensorId) :
    s.2 = some (u, w) ↔ op.kind = .sgdVarUpdate ∧ op.outputs.head? = some u ∧ op.inputs.head? = some w := by
  obtain ⟨infos, -, h⟩ := Outcome.bind_eq_ok.1 h
  obtain ⟨x, hx, h⟩ := Outcome.bind_eq_ok.1 h
  cases h
  exact updateOf_ok hx u w

/-- The updates of a program are those of the ops that it is compiled from. -/
theorem mem_updates {ops : List Op} {steps : List (CompiledOp × Option (TensorId × TensorId))}
    (h : List.Forall₂ (fun op s => compileOp g op = .ok s) ops steps) (u w : TensorId) :
    (u, w) ∈ steps.filterMap (·.2) ↔
      ∃ op ∈ ops, op.kind = .sgdVarUpdate ∧ op.outputs.head? = some u ∧ op.inputs.head? = some w := by
  rw [List.mem_filterMap]
  constructor
  · rintro ⟨s, hs, hu⟩
    obtain ⟨op, hop, hcomp⟩ := exists_of_forall₂ h.flip s hs
    exact ⟨op, hop, (compileOp_update hcomp u w).1 hu⟩
  · rintro ⟨op, hop, hu⟩
    obtain ⟨s, hs, hcomp⟩ := exists_of_forall₂ h op hop
    exact ⟨s, hs, (compileOp_update hcomp u w).2 hu⟩

/-- Each constant of the graph has data, which the program holds. -/
theorem constants_of_const {x : Tensor} {constants : List (TensorId × HostTensor)}
    (h : List.Forall₂ (fun x c => constantOf x = .ok c) (g.tensors.values.filter (·.type = .const)) constants)
    (hx : g.tensor? t = some x) (hc : x.type = .const) : ∃ v, (x.id, v) ∈ constants ∧ x.data = some v := by
  have hmem : x ∈ g.tensors.values.filter (·.type = .const) :=
    List.mem_filter.2 ⟨Dict.mem_values.2 ⟨t, hx⟩, by simpa using hc⟩
  obtain ⟨⟨id, v⟩, hv, hof⟩ := exists_of_forall₂ h x hmem
  obtain ⟨rfl, hdata⟩ := constantOf_ok.1 hof
  exact ⟨v, hv, hdata⟩

/-- The constants of a program are those of the graph with their data. -/
theorem mem_constants {constants : List (TensorId × HostTensor)} (hlinked : g.Linked)
    (h : List.Forall₂ (fun x c => constantOf x = .ok c) (g.tensors.values.filter (·.type = .const)) constants) (v : HostTensor) :
    (t, v) ∈ constants ↔ ∃ x, g.tensor? t = some x ∧ x.type = .const ∧ x.data = some v := by
  constructor
  · intro htv
    obtain ⟨x, hx, hof⟩ := exists_of_forall₂ h.flip _ htv
    obtain ⟨hid, hv⟩ := constantOf_ok.1 hof
    obtain ⟨hx, hc⟩ := List.mem_filter.1 hx
    obtain ⟨k, hk⟩ := Dict.mem_values.1 hx
    have hkt : k = t := (hlinked.tensorId hk).symm.trans hid.symm
    exact ⟨x, hkt ▸ hk, by simpa using hc, hv⟩
  · rintro ⟨x, hx, hc, hv⟩
    obtain ⟨v', hmem, hv'⟩ := constants_of_const h hx hc
    cases hv.symm.trans hv'
    exact hlinked.tensorId hx ▸ hmem

theorem compile_ok {n : Nat} {hash : UInt64} (hlinked : g.Linked) (h : compile g n hash = .ok e) :
    ∃ l, Compiled g l e := by
  unfold compile at h
  obtain ⟨ops, hops, h⟩ := Outcome.bind_eq_ok.1 h
  obtain ⟨l, hl, hops⟩ := Outcome.bind_eq_ok.1 hops
  cases hops
  obtain ⟨steps, hsteps, h⟩ := Outcome.bind_eq_ok.1 h
  obtain ⟨constants, hconstants, h⟩ := Outcome.bind_eq_ok.1 h
  cases h
  rw [Outcome.mapM_eq_ok] at hsteps hconstants
  refine ⟨l, hl, fun p => ?_, mem_updates hsteps, fun _ => mem_constants hlinked hconstants, fun _ _ hx hc => ?_⟩
  · have hfragment : List.Forall₂ (CompiledFrom g) (l.filterMap g.op?) (steps.map (·.1)) := by
      rw [List.forall₂_map_right_iff]
      exact hsteps.imp fun op s hs => (compileOp_ok hs).1
    change List.Forall₂ _ _ ((((steps.map (·.1)).foldl addStep .empty).get? p).getD [])
    rw [get?_foldl_addStep]
    refine List.rel_filter (fun op c hc => ?_) hfragment
    simp [hc.phase]
  · obtain ⟨v, -, hv⟩ := constants_of_const hconstants hx hc
    exact ⟨v, hv⟩

/-- Every step is compiled from an op. -/
theorem compile_step {n : Nat} {hash : UInt64} (h : compile g n hash = .ok e) {c : CompiledOp} (hc : c ∈ e.ops) :
    ∃ o op, g.op? o = some op ∧ CompiledFrom g op c ∧ c.virtualGraph = op.virtualGraph.getD 0 := by
  unfold compile at h
  obtain ⟨ops, hops, h⟩ := Outcome.bind_eq_ok.1 h
  obtain ⟨l, -, hops⟩ := Outcome.bind_eq_ok.1 hops
  cases hops
  obtain ⟨steps, hsteps, h⟩ := Outcome.bind_eq_ok.1 h
  obtain ⟨constants, -, h⟩ := Outcome.bind_eq_ok.1 h
  cases h
  obtain ⟨p, hc⟩ := mem_ops.1 hc
  change c ∈ ((((steps.map (·.1)).foldl addStep .empty).get? p).getD []) at hc
  rw [get?_foldl_addStep] at hc
  obtain ⟨s, hs, rfl⟩ := List.mem_map.1 (List.mem_filter.1 hc).1
  obtain ⟨op, hop, hstep⟩ := exists_of_forall₂ (Outcome.mapM_eq_ok.1 hsteps).flip s hs
  obtain ⟨o, -, ho⟩ := List.mem_filterMap.1 hop
  exact ⟨o, op, ho, compileOp_ok hstep⟩

end Executable

end TensorGraph
