import TensorGraph.Graph.Import
import TensorGraph.Proofs.Op.Extent
import TensorGraph.Proofs.Session.Steady
import TensorGraph.Proofs.Tensor.Host
import TensorGraph.Train.Optimizer

/-!
What the graph of a session holds of its model and of its optimizer: a weight for each initializer, and a tensor for
each setting of the optimizer. No other tensors are weights or streamed settings.
-/
namespace TensorGraph

/-- Only forward ops stand in models. -/
theorem OpKind.isPrimal_ofNode {n : Node} {kind : OpKind} (h : OpKind.ofNode n = .ok kind) : kind.isPrimal = true := by
  unfold OpKind.ofNode at h
  split at h
  case h_25 | h_26 | h_28 =>
    obtain ⟨_, -, h⟩ := Outcome.bind_eq_ok.1 h
    cases h
    rfl
  case h_27 =>
    obtain ⟨_, -, h⟩ := Outcome.bind_eq_ok.1 h
    obtain ⟨_, -, h⟩ := Outcome.bind_eq_ok.1 h
    obtain ⟨_, -, h⟩ := Outcome.bind_eq_ok.1 h
    cases h
    rfl
  case h_32 => cases h
  all_goals
    cases h
    rfl

/-- What the tensor of a setting is given. -/
def OptimizerValue.given (v : OptimizerValue) : TensorType × TensorInfo × Option HostTensor :=
  (if v.isConst then .const else .optimizerStream, .scalar .float, some (.ofSingle v.value))

namespace Graph

variable {g g' : Graph} {l : List NamedTensor} {settings : List (TensorId × OptimizerValue)} {V : Int → Prop}

/-! ## Single additions -/

/-- A node adds a constant, or a forward op on the virtual graph that the node names. -/
theorem importNode_cases (hs : g.Sound) {n : Node} (h : g.importNode n = .ok g') :
    (∃ name value data, n.tensor? "value" = some value ∧ data.info = value.info ∧
      g.addTensor name value.info .const (some data) = .ok g') ∨
      ∃ op output info, Enters g op output info g' ∧ op.kind.isPrimal = true ∧ op.phase = .forward ∧
        op.forwardOp = none ∧ op.inPlace = false ∧ op.virtualGraph = n.int? virtualGraphAttribute := by
  unfold Graph.importNode at h
  split at h
  · obtain ⟨value, hvalue, h⟩ := Outcome.bind_eq_ok.1 h
    obtain ⟨output, -, h⟩ := Outcome.bind_eq_ok.1 h
    obtain ⟨data, hdata, h⟩ := Outcome.bind_eq_ok.1 h
    exact .inl ⟨output, value, data, Outcome.orFail_eq_ok.1 hvalue, congrArg HostTensor.info (HostTensor.ofStorage_ok hdata).1, h⟩
  · obtain ⟨kind, hkind, h⟩ := Outcome.bind_eq_ok.1 h
    split at h
    · cases h
    · obtain ⟨⟨id, added⟩, hadd, h⟩ := Outcome.bind_eq_ok.1 h
      obtain ⟨output, info, -, rfl, ha⟩ := addOp_ok hadd
      cases h
      exact .inr ⟨_, output, info, .of_addedOp hs ha (fun _ => rfl) (fun _ => rfl) (fun _ => rfl) fun _ => rfl,
        OpKind.isPrimal_ofNode hkind, rfl, rfl, rfl, rfl⟩

/-- A loss adds an op on the virtual graph of another one, and its result is kept. -/
theorem attachLoss_ok (hs : g.Sound) {loss : Loss} {id : OpId} (h : g.attachLoss loss = .ok (id, g')) :
    ∃ op info g₁, Enters g op loss.output info g₁ ∧ g' = g₁.keep loss.output ∧ op.kind = loss.kind ∧ op.phase = .loss ∧
      op.forwardOp = none ∧ op.inPlace = false ∧
      ∀ v, op.virtualGraph = some v → ∃ o op', g.op? o = some op' ∧ op'.virtualGraph = some v := by
  unfold Graph.attachLoss at h
  split at h
  · cases h
  · obtain ⟨⟨id, added⟩, hadd, h⟩ := Outcome.bind_eq_ok.1 h
    obtain ⟨output, info, hout, rfl, ha⟩ := addOp_ok hadd
    cases hout
    cases h
    have he := Enters.of_addedOp hs ha
      (f := fun op => { op with virtualGraph := loss.inputs.head?.bind added.placementOf })
      (fun _ => rfl) (fun _ => rfl) (fun _ => rfl) fun _ => rfl
    refine ⟨_, info, _, he, rfl, rfl, rfl, rfl, rfl, fun v hv => ?_⟩
    obtain ⟨t, -, hv⟩ := Option.bind_eq_some_iff.1 hv
    obtain ⟨op', hop', hv⟩ := Option.bind_eq_some_iff.1 hv
    obtain ⟨o, -, hop'⟩ := Option.bind_eq_some_iff.1 hop'
    rw [ha.op?_eq] at hop'
    split at hop'
    · cases hop'
      cases hv
    · exact ⟨o, op', hop', hv⟩

/-! ## Weights and settings -/

/-- The graph holds the initializers `l` and the settings. -/
structure Holds (l : List NamedTensor) (settings : List (TensorId × OptimizerValue)) (g : Graph) : Prop where
  weight : ∀ init ∈ l, ∃ x, g.tensor? init.name = some x ∧ x.given = (.weight, init.info, some ⟨init.info, init.data⟩)
  data : ∀ init ∈ l, HostTensor.ofStorage init.info init.data = .ok ⟨init.info, init.data⟩
  names : (l.map (·.name)).Nodup
  setting : ∀ e ∈ settings, e.1 ∈ g.kept ∧ ∃ x, g.tensor? e.1 = some x ∧ x.given = e.2.given
  held : ∀ {t x}, g.tensor? t = some x → x.type.isHeld = true → x.type = .weight ∧ (∃ init ∈ l, init.name = t) ∨
    x.type = .optimizerStream ∧ ∃ v, (t, v) ∈ settings ∧ v.isConst = false
  streams : g.StreamsTyped
  fit : g.ConstantsFit

namespace Holds

theorem empty : Graph.empty.Holds [] [] :=
  ⟨nofun, nofun, .nil, nofun, fun hx _ => absurd hx nofun, fun _ ht => absurd ht List.not_mem_nil,
    fun hx => absurd hx nofun⟩

theorem sources (h : g.Holds l settings) (hs : KeepsSources g g') : g'.Holds l settings := by
  refine ⟨fun init hinit => ?_, h.data, h.names, fun e he => ?_, fun {t x'} hx' hheld => ?_, hs.typed h.streams,
    hs.fit h.fit⟩
  · obtain ⟨x, hx, hgiven⟩ := h.weight init hinit
    have htype : x.type = .weight := congrArg (·.1) hgiven
    obtain ⟨⟨x', hx', hsame⟩, -⟩ := hs.stays hx (by rw [htype]; nofun) (by rw [htype]; nofun)
    exact ⟨x', hx', hsame.trans hgiven⟩
  · obtain ⟨hkept, x, hx, hgiven⟩ := h.setting e he
    have htype : x.type ≠ .actGrad := by
      rw [show x.type = _ from congrArg (·.1) hgiven, OptimizerValue.given]
      split <;> nofun
    obtain ⟨⟨x', hx', hsame⟩, hkeeps⟩ := hs.stays hx htype fun _ => hkept
    exact ⟨hkeeps hkept, x', hx', hsame.trans hgiven⟩
  · obtain ⟨x, hx, hsame⟩ := hs.origin hx' hheld
    rw [← hsame] at hheld ⊢
    exact h.held hx hheld

/-- A tensor is added that is no stream, with a value of its info. -/
theorem addTensor (h : g.Holds l settings) {name : TensorId} {info : TensorInfo} {type : TensorType}
    {v : HostTensor} (ha : g.addTensor name info type (some v) = .ok g') (htype : type ≠ .stream) (hv : v.info = info) :
    (∀ init ∈ l, ∃ x, g'.tensor? init.name = some x ∧ x.given = (.weight, init.info, some ⟨init.info, init.data⟩)) ∧
      (∀ e ∈ settings, e.1 ∈ g'.kept ∧ ∃ x, g'.tensor? e.1 = some x ∧ x.given = e.2.given) ∧
      (∃ x, g'.tensor? name = some x ∧ x.given = (type, info, some v)) ∧
      (∀ init ∈ l, init.name ≠ name) ∧
      (∀ {t x}, g'.tensor? t = some x → t = name ∧ x.type = type ∨ g.tensor? t = some x) ∧ g'.StreamsTyped ∧
      g'.ConstantsFit := by
  have hlook := tensor?_addTensor ha
  obtain ⟨hnew, rfl⟩ := addTensor_ok ha
  have hstays : ∀ {t x}, g.tensor? t = some x → name ≠ t := by
    rintro t x hx rfl
    rw [hnew] at hx
    cases hx
  refine ⟨fun init hinit => ?_, fun e he => ?_, ⟨_, by rw [hlook, if_pos rfl], rfl⟩, fun init hinit => ?_,
    fun {t x} hx => ?_, fun t ht => ?_, fun {t x w} hx hconst hw => ?_⟩
  · obtain ⟨x, hx, hgiven⟩ := h.weight init hinit
    exact ⟨x, by rw [hlook, if_neg (hstays hx), hx], hgiven⟩
  · obtain ⟨hkept, x, hx, hgiven⟩ := h.setting e he
    exact ⟨hkept, x, by rw [hlook, if_neg (hstays hx), hx], hgiven⟩
  · obtain ⟨x, hx, -⟩ := h.weight init hinit
    exact (hstays hx).symm
  · rw [hlook] at hx
    split at hx
    · rename_i heq
      cases hx
      exact .inl ⟨heq.symm, rfl⟩
    · exact .inr hx
  · -- what is streamed was there before
    dsimp only at ht
    rw [if_neg htype] at ht
    obtain ⟨x, hx, hstream⟩ := h.streams t ht
    exact ⟨x, by rw [hlook, if_neg (hstays hx), hx], hstream⟩
  · rw [hlook] at hx
    split at hx
    · cases hx
      cases hw
      exact hv
    · exact h.fit hx hconst hw

theorem importInitializer (h : g.Holds l settings) {init : NamedTensor} (hi : g.importInitializer init = .ok g') :
    g'.Holds (l ++ [init]) settings := by
  obtain ⟨v, hv, hi⟩ := Outcome.bind_eq_ok.1 hi
  obtain ⟨rfl, -⟩ := HostTensor.ofStorage_ok hv
  obtain ⟨hweights, hsettings, hnew, hnames, hcases, hstreams, hfit⟩ := h.addTensor hi nofun rfl
  refine ⟨?_, ?_, ?_, hsettings, fun {t x} hx hheld => ?_, hstreams, hfit⟩
  · rw [List.forall_mem_append, List.forall_mem_singleton]
    exact ⟨hweights, hnew⟩
  · rw [List.forall_mem_append, List.forall_mem_singleton]
    exact ⟨h.data, hv⟩
  · rw [List.map_append, List.map_singleton, List.nodup_append]
    refine ⟨h.names, List.nodup_singleton _, fun a ha b hb => ?_⟩
    obtain ⟨other, hother, rfl⟩ := List.mem_map.1 ha
    exact List.mem_singleton.1 hb ▸ hnames other hother
  · rcases hcases hx with ⟨rfl, htype⟩ | hx
    · exact .inl ⟨htype, init, by simp, rfl⟩
    · exact (h.held hx hheld).imp_left fun ⟨htype, other, hother, hname⟩ =>
        ⟨htype, other, List.mem_append_left _ hother, hname⟩

theorem addSetting (h : g.Holds l settings) {id : TensorId} {v : OptimizerValue} (hset : g.addSetting id v = .ok g') :
    g'.Holds l (settings ++ [(id, v)]) := by
  obtain ⟨g₁, hadd, rfl⟩ : ∃ g₁, g.addTensor id (.scalar .float) v.given.1 (some (.ofSingle v.value)) = .ok g₁ ∧
      g' = g₁.keep id := by
    unfold Graph.addSetting at hset
    split at hset <;> obtain ⟨g₁, hadd, hpure⟩ := Outcome.bind_eq_ok.1 hset <;> cases hpure
    · rename_i hconst
      exact ⟨g₁, by rw [OptimizerValue.given, if_pos hconst]; exact hadd, rfl⟩
    · rename_i hconst
      exact ⟨g₁, by rw [OptimizerValue.given, if_neg hconst]; exact hadd, rfl⟩
  obtain ⟨hweights, hsettings, hnew, -, hcases, hstreams, hfit⟩ := h.addTensor hadd (by
    rw [OptimizerValue.given]
    split <;> nofun) rfl
  refine ⟨hweights, h.data, h.names, ?_, fun {t x} hx hheld => ?_, hstreams, hfit⟩
  · rw [List.forall_mem_append, List.forall_mem_singleton]
    exact ⟨fun e he => ⟨SortedSet.mem_insert.2 (.inr (hsettings e he).1), (hsettings e he).2⟩,
      SortedSet.mem_insert.2 (.inl rfl), hnew⟩
  · rcases hcases hx with ⟨rfl, htype⟩ | hx
    · refine .inr ?_
      rw [OptimizerValue.given] at htype
      split at htype
      · rw [htype] at hheld
        cases hheld
      · rename_i hconst
        exact ⟨htype, v, by simp, Bool.not_eq_true _ ▸ hconst⟩
    · exact (h.held hx hheld).imp_right fun ⟨htype, w, hw, hconst⟩ => ⟨htype, w, List.mem_append_left _ hw, hconst⟩

end Holds

/-! ## Models -/

/-- The graph of a model while it is made: it holds the initializers, and its ops are drafts. -/
structure Sketch (l : List NamedTensor) (V : Int → Prop) (g : Graph) : Prop where
  sound : g.Sound
  holds : g.Holds l []
  drafted : g.Drafted V

namespace Sketch

theorem empty : Graph.empty.Sketch [] V := ⟨.empty, .empty, by intro o op ho; cases ho⟩

theorem importInitializer (h : g.Sketch l V) {init : NamedTensor} (hi : g.importInitializer init = .ok g') :
    g'.Sketch (l ++ [init]) V := by
  refine ⟨h.sound.importInitializer hi, h.holds.importInitializer hi, ?_⟩
  obtain ⟨v, -, hi⟩ := Outcome.bind_eq_ok.1 hi
  obtain ⟨-, rfl⟩ := addTensor_ok hi
  exact h.drafted

theorem importInitializers : ∀ {todo l : List NamedTensor} {g g' : Graph}, g.Sketch l V →
    todo.foldlM Graph.importInitializer g = .ok g' → g'.Sketch (l ++ todo) V
  | [], l, g, g', h, hi => by
    cases hi
    rwa [List.append_nil]
  | init :: todo, l, g, g', h, hi => by
    rw [List.foldlM_cons] at hi
    obtain ⟨g₁, hfirst, hi⟩ := Outcome.bind_eq_ok.1 hi
    rw [List.append_cons]
    exact importInitializers (h.importInitializer hfirst) hi

theorem addTensor (h : g.Sketch l V) {name : TensorId} {info : TensorInfo} {type : TensorType}
    {data : Option HostTensor} (ha : g.addTensor name info type data = .ok g') (htype : type.isHeld = false)
    (hdata : ∀ {v}, type = .const → data = some v → v.info = info) : g'.Sketch l V := by
  refine ⟨h.sound.addTensor ha, h.holds.sources (.addTensor ha htype hdata), ?_⟩
  obtain ⟨-, rfl⟩ := addTensor_ok ha
  exact h.drafted

theorem importInput (h : g.Sketch l V) {infos : Dict TensorId TensorInfo} {input : NamedInfo}
    (hi : Graph.importInput infos g input = .ok g') : g'.Sketch l V := by
  unfold Graph.importInput at hi
  split at hi
  · cases hi
    exact h
  · exact h.addTensor hi rfl nofun

theorem importNode (h : g.Sketch l V) {n : Node} (hi : g.importNode n = .ok g')
    (hV : ∀ v, n.int? virtualGraphAttribute = some v → V v) : g'.Sketch l V := by
  rcases importNode_cases h.sound hi with ⟨name, value, data, -, hinfo, hadd⟩ | ⟨op, output, info, he, -, -, -, hmark, hplace⟩
  · refine h.addTensor hadd rfl fun _ hv => ?_
    cases hv
    exact hinfo
  · exact ⟨he.sound, h.holds.sources he.keepsSources, he.drafted h.drafted ⟨hmark, fun v hv => hV v (hplace.symm.trans hv)⟩⟩

theorem importOutput (h : g.Sketch l V) {output : NamedInfo} (hi : g.importOutput output = .ok g') : g'.Sketch l V := by
  have hs := h.sound.importOutput hi
  unfold Graph.importOutput at hi
  split at hi
  · cases hi
    have hsources : KeepsSources g { g with outputs := g.outputs ++ [output.name] } := .of_given rfl rfl fun _ => rfl
    exact ⟨hs, h.holds.sources (hsources.trans (.addedKept _ _)), h.drafted⟩
  · cases hi

/-- The graph of a model holds its initializers, and its ops are on the virtual graphs that the nodes name. -/
theorem ofModel {m : Model} {infos : Dict TensorId TensorInfo} (h : Graph.ofModel m infos = .ok g)
    (hV : ∀ n ∈ m.nodes, ∀ v, n.int? virtualGraphAttribute = some v → V v) : g.Sketch m.initializers V := by
  obtain ⟨weights, hw, h⟩ := Outcome.bind_eq_ok.1 h
  obtain ⟨streams, hs, h⟩ := Outcome.bind_eq_ok.1 h
  obtain ⟨nodes, hn, h⟩ := Outcome.bind_eq_ok.1 h
  have hweights : weights.Sketch m.initializers V := importInitializers empty hw
  have hstreams : streams.Sketch m.initializers V :=
    Outcome.foldlM_keeps (Sketch m.initializers V) (fun _ _ _ _ hg hi => hg.importInput hi) hweights hs
  have hnodes : nodes.Sketch m.initializers V :=
    Outcome.foldlM_keeps (Sketch m.initializers V) (fun n hmem _ _ hg hi => hg.importNode hi (hV n hmem)) hstreams hn
  exact Outcome.foldlM_keeps (Sketch m.initializers V) (fun _ _ _ _ hg hi => hg.importOutput hi) hnodes h

/-! ## Losses and optimizers -/

theorem attachLosses : ∀ {losses : List Loss} {g g' : Graph} {ids : List OpId}, g.Sketch l V →
    (Graph.attachLosses losses).run g = (.ok ids, g') → g'.Sketch l V
  | [], g, g', ids, h, hrun => by
    cases hrun
    exact h
  | loss :: losses, g, g', ids, h, hrun => by
    rw [Graph.attachLosses, List.mapM_cons] at hrun
    obtain ⟨id, g₁, hfirst, hrun⟩ := Stateful.run_bind_ok.1 hrun
    obtain ⟨rest, g₂, hrest, hrun⟩ := Stateful.run_bind_ok.1 hrun
    cases hrun
    obtain ⟨op, info, g₃, he, rfl, -, -, -, hmark, hplace⟩ := attachLoss_ok h.sound (Stateful.run_change_ok.1 hfirst)
    have hdrafted : g₃.Drafted V := he.drafted h.drafted ⟨hmark, fun v hv => by
      obtain ⟨o, op', ho, hop⟩ := hplace v hv
      exact (h.drafted o op' ho).2 v hop⟩
    refine attachLosses ⟨?_, h.holds.sources (he.keepsSources.trans (.addedKept _ _)), hdrafted⟩ hrest
    exact he.sound.keep loss.output

end Sketch

theorem addSetting_sound (hs : g.Sound) {id : TensorId} {v : OptimizerValue} (hset : g.addSetting id v = .ok g') :
    g'.Sound := by
  unfold Graph.addSetting at hset
  split at hset <;> obtain ⟨g₁, hadd, hpure⟩ := Outcome.bind_eq_ok.1 hset <;> cases hpure <;>
    exact (hs.addTensor hadd).keep id

/-- A graph that holds something holds the settings of an optimizer too when they have been added. -/
theorem Holds.addOptimizer (h : g.Holds l []) (hs : g.Sound) {s : Sgd}
    (hrun : (Graph.addOptimizer s).run g = (.ok (), g')) :
    g'.Holds l s.values ∧ (g.Drafted V → g'.Drafted V) := by
  have hall : ∀ {todo done : List (TensorId × OptimizerValue)} {g g' : Graph}, g.Holds l done → g.Sound →
      (todo.forM fun e => Stateful.change fun g : Graph => do return ((), ← g.addSetting e.1 e.2)).run g = (.ok (), g') →
      g'.Holds l (done ++ todo) ∧ (g.Drafted V → g'.Drafted V) := by
    intro todo
    induction todo with
    | nil =>
      intro done g g' hg _ hrun
      cases hrun
      rw [List.append_nil]
      exact ⟨hg, id⟩
    | cons e todo ih =>
      intro done g g' hg hs hrun
      obtain ⟨_, g₁, hfirst, hrun⟩ := Stateful.run_bind_ok.1 hrun
      obtain ⟨g₂, hset, hpure⟩ := Outcome.bind_eq_ok.1 (Stateful.run_change_ok.1 hfirst)
      cases hpure
      obtain ⟨hholds, hdrafted⟩ := ih (hg.addSetting hset) (addSetting_sound hs hset) hrun
      rw [List.append_cons]
      refine ⟨hholds, fun hd => hdrafted ?_⟩
      unfold Graph.addSetting at hset
      split at hset <;> obtain ⟨g₃, hadd, hpure⟩ := Outcome.bind_eq_ok.1 hset <;> cases hpure <;>
        obtain ⟨-, rfl⟩ := addTensor_ok hadd <;> exact hd
  exact hall h hs hrun

end Graph

end TensorGraph
