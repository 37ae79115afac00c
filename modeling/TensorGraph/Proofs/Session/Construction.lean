import TensorGraph.Proofs.Gradient.Upkeep
import TensorGraph.Proofs.Pattern.Pipeline
import TensorGraph.Proofs.Session.Holdings
import TensorGraph.Session.Open

/-!
The graphs of sessions, from the model to the last pass over the graph. A graph that is made from a model, and to which
losses, settings of an optimizer and gradients are added, has right infos and is ready for patterns; gradients keep
infos right where the model names no extent below zero.
-/
namespace TensorGraph

open TensorGraph.Graph

/-- A node of the model names the virtual graph `v`. -/
def Model.NamesGraph (m : Model) (v : Int) : Prop := ∃ n ∈ m.nodes, n.int? Graph.virtualGraphAttribute = some v

/-- No extent of what a model says of tensors is below zero; `infos` overrides what it says of its inputs. -/
structure Model.Sized (m : Model) (infos : Dict TensorId TensorInfo) : Prop where
  initializers : ∀ t ∈ m.initializers, t.info.shape.Sized
  inputs : ∀ i ∈ m.inputs, ((infos.get? i.name).getD i.info).shape.Sized
  constants : ∀ n ∈ m.nodes, ∀ v, n.tensor? "value" = some v → v.info.shape.Sized

namespace Graph

variable {C : Prop} {φ : Phase} {g g' : Graph} {op : Op} {output : TensorId} {info : TensorInfo}

/-! ## Graphs without gradients -/

/-- A graph of a session before gradients are added to it: all its ops stand in models or compute losses, and are of the
phase `φ` or an earlier one; where `C` holds, no extent is below zero. -/
structure Plain (C : Prop) (φ : Phase) (g : Graph) : Prop where
  steady : g.Steady none
  typed : g.Typed
  primal : ∀ o op, g.op? o = some op → op.kind.isPrimal = true
  capped : g.Capped φ
  sized : C → ∀ {t i}, g.info? t = some i → i.shape.Sized

namespace Plain

theorem empty : Graph.empty.Plain C φ := by
  refine ⟨.empty, .empty, fun _ _ ho => ?_, fun _ _ ho => ?_, fun _ _ _ hi => ?_⟩ <;> contradiction

theorem mono {ψ : Phase} (h : g.Plain C φ) (hle : φ.rank ≤ ψ.rank) : g.Plain C ψ :=
  ⟨h.steady, h.typed, h.primal, fun o op ho => (h.capped o op ho).trans hle, h.sized⟩

/-- A tensor is added that is not computed. -/
theorem sources (h : g.Plain C φ) {name : TensorId} {type : TensorType} {data : Option HostTensor}
    (ha : g.addTensor name info type data = .ok g') (htype : type ≠ .actGrad) (hinfo : C → info.shape.Sized) :
    g'.Plain C φ := by
  have hsteady := h.steady.sources ha htype
  have hlook : ∀ t, g'.info? t = if name = t then some info else g.info? t := by
    intro t
    rw [info?, tensor?_addTensor ha]
    split <;> rfl
  obtain ⟨hnew, rfl⟩ := addTensor_ok ha
  refine ⟨hsteady, h.typed.of_ops (fun ho => ho) fun {o op t} ho ht => ?_, h.primal, h.capped, fun hC t i hi => ?_⟩
  · rw [hlook, if_neg]
    rintro rfl
    exact h.steady.sound.linked.not_mentioned hnew ho ht
  · rw [hlook] at hi
    split at hi
    · cases hi
      exact hinfo hC
    · exact h.sized hC hi

/-- An op is added that stands in models or computes a loss. -/
theorem enters (h : g.Plain C φ) (he : Enters g op output info g') (hkind : op.kind.isPrimal = true)
    (hphase : op.phase = φ) (hforward : op.forwardOp = none) : g'.Plain C φ := by
  have hfresh := h.steady.tensor?_of_free he.added.free
  refine ⟨h.steady.enters he hfresh (fun i _ => hphase ▸ h.capped.below i) fun f hf => ?_,
    h.typed.enters_new h.steady.sound he hfresh fun f hk => ?_, fun o op' ho => ?_, h.capped.enters he (by rw [hphase]),
    fun hC t i hi => ?_⟩
  · rw [hforward] at hf
    cases hf
  · rw [hk] at hkind
    cases hkind
  · rcases he.op_cases ho with ⟨-, rfl⟩ | ⟨-, ho⟩
    · exact hkind
    · exact h.primal o op' ho
  · by_cases ht : t = output
    · rw [ht, he.info?_output, Option.some.injEq] at hi
      obtain ⟨infos, hinfos, hinfer⟩ := he.added.infers
      rw [mapM_info_eq_ok, mapM_eq_some_iff] at hinfos
      refine hi ▸ OpKind.infer_sized hkind (fun j hj => ?_) hinfer
      obtain ⟨t', -, ht'⟩ := exists_of_forall₂ hinfos.flip j hj
      exact h.sized hC ht'
    · rw [info?_congr (he.added.bare_eq t ht)] at hi
      exact h.sized hC hi

/-- Which tensors are kept or are outputs does not matter. -/
theorem of_lookups (h : g.Plain C φ) (hs : g'.Sound) (hop : ∀ o, g'.op? o = g.op? o)
    (htensor : ∀ t, g'.tensor? t = g.tensor? t) : g'.Plain C φ := by
  have hinfo : ∀ t, g'.info? t = g.info? t := fun t => by rw [info?, info?, htensor]
  exact ⟨h.steady.of_lookups hs hop htensor, h.typed.of_ops (fun ho => hop _ ▸ ho) fun _ _ => hinfo _,
    fun o op ho => h.primal o op (hop o ▸ ho), fun o op ho => h.capped o op (hop o ▸ ho), fun hC t i hi => h.sized hC (hinfo t ▸ hi)⟩

theorem keep (h : g.Plain C φ) (t : TensorId) : (g.keep t).Plain C φ :=
  h.of_lookups (h.steady.keep t).sound (fun _ => rfl) fun _ => rfl

/-! ## Models -/

theorem importInput (h : g.Plain C φ) {infos : Dict TensorId TensorInfo} {input : NamedInfo}
    (hi : Graph.importInput infos g input = .ok g')
    (hinfo : C → ((infos.get? input.name).getD input.info).shape.Sized) : g'.Plain C φ := by
  unfold Graph.importInput at hi
  split at hi
  · cases hi
    exact h
  · exact h.sources hi nofun hinfo

theorem importNode (h : g.Plain C .forward) {n : Node} (hi : g.importNode n = .ok g')
    (hinfo : C → ∀ v, n.tensor? "value" = some v → v.info.shape.Sized) : g'.Plain C .forward := by
  rcases importNode_cases h.steady.sound hi with ⟨name, value, data, hvalue, -, hadd⟩ |
    ⟨op, output, info, he, hkind, hphase, hforward, -⟩
  · exact h.sources hadd nofun fun hC => hinfo hC value hvalue
  · exact h.enters he hkind hphase hforward

theorem importOutput (h : g.Plain C φ) {output : NamedInfo} (hi : g.importOutput output = .ok g') : g'.Plain C φ := by
  have hs := h.steady.sound.importOutput hi
  unfold Graph.importOutput at hi
  split at hi
  · cases hi
    exact h.of_lookups hs (fun _ => rfl) fun _ => rfl
  · cases hi

/-- The graph of a model. -/
theorem ofModel {m : Model} {infos : Dict TensorId TensorInfo} (h : Graph.ofModel m infos = .ok g) :
    g.Plain (m.Sized infos) .forward := by
  unfold Graph.ofModel at h
  obtain ⟨weights, hw, h⟩ := Outcome.bind_eq_ok.1 h
  obtain ⟨streams, hs, h⟩ := Outcome.bind_eq_ok.1 h
  obtain ⟨nodes, hn, h⟩ := Outcome.bind_eq_ok.1 h
  have hweights : weights.Plain (m.Sized infos) .forward := by
    refine Outcome.foldlM_keeps (Plain (m.Sized infos) .forward) (fun init hmem _ _ hg hi => ?_) empty hw
    obtain ⟨data, -, hi⟩ := Outcome.bind_eq_ok.1 hi
    exact hg.sources hi nofun fun hC => hC.initializers init hmem
  have hstreams : streams.Plain (m.Sized infos) .forward :=
    Outcome.foldlM_keeps (Plain (m.Sized infos) .forward)
      (fun input hmem _ _ hg hi => hg.importInput hi fun hC => hC.inputs input hmem) hweights hs
  have hnodes : nodes.Plain (m.Sized infos) .forward :=
    Outcome.foldlM_keeps (Plain (m.Sized infos) .forward)
      (fun n hmem _ _ hg hi => hg.importNode hi fun hC => hC.constants n hmem) hstreams hn
  exact Outcome.foldlM_keeps (Plain (m.Sized infos) .forward) (fun _ _ _ _ hg hi => hg.importOutput hi) hnodes h

/-! ## Losses and optimizers -/

theorem attachLoss (h : g.Plain C .loss) {loss : Loss} {id : OpId} (ha : g.attachLoss loss = .ok (id, g')) :
    g'.Plain C .loss := by
  obtain ⟨op, info, g₁, he, rfl, hkind, hphase, hforward, -⟩ := attachLoss_ok h.steady.sound ha
  exact (h.enters he (by rw [hkind, loss.kind_isPrimal]) hphase hforward).keep loss.output

theorem attachLosses : ∀ {losses : List Loss} {g g' : Graph} {ids : List OpId}, g.Plain C .loss →
    (Graph.attachLosses losses).run g = (.ok ids, g') → g'.Plain C .loss
  | [], g, g', ids, h, hrun => by
    cases hrun
    exact h
  | loss :: losses, g, g', ids, h, hrun => by
    rw [Graph.attachLosses, List.mapM_cons] at hrun
    obtain ⟨id, g₁, hfirst, hrun⟩ := Stateful.run_bind_ok.1 hrun
    obtain ⟨rest, g₂, hrest, hrun⟩ := Stateful.run_bind_ok.1 hrun
    cases hrun
    exact attachLosses (h.attachLoss (Stateful.run_change_ok.1 hfirst)) hrest

theorem addOptimizer (h : g.Plain C φ) {settings : Sgd} (hrun : (Graph.addOptimizer settings).run g = (.ok (), g')) :
    g'.Plain C φ := by
  refine Stateful.run_forM_keeps (Plain C φ) (fun (id, v) _ {g g'} hg hcall => ?_) h hrun
  obtain ⟨added, hset, hpure⟩ := Outcome.bind_eq_ok.1 (Stateful.run_change_ok.1 hcall)
  cases hpure
  unfold Graph.addSetting at hset
  have hscalar : C → Shape.Sized [] := fun _ _ hd => nomatch hd
  split at hset
  · obtain ⟨added, hadd, hpure⟩ := Outcome.bind_eq_ok.1 hset
    cases hpure
    exact (hg.sources hadd nofun hscalar).keep id
  · obtain ⟨added, hadd, hpure⟩ := Outcome.bind_eq_ok.1 hset
    cases hpure
    exact (hg.sources hadd nofun hscalar).keep id

/-! ## Gradients -/

/-- Gradients of any losses, by fitting rules. -/
theorem synthesize {rules : GradRegistry} (hrules : rules.Fitting) {losses : List Loss} {b b' : Build}
    {summary : GradSummary} (h : b.graph.Plain C .loss)
    (hrun : (synthesizeGradients rules losses).run b = (.ok summary, b')) :
    b'.graph.Steady none ∧ (C → b'.graph.Typed) ∧ Redraws b.graph b'.graph := by
  obtain ⟨-, s', hgraph, hrun⟩ := synthesizeGradients_ok hrun
  have hbasis : Synthesis.Basis C b.graph (Synthesis.relevantOps b.graph losses) :=
    ⟨h.steady, fun _ => h.typed, h.sized, fun _ ho => Synthesis.op_of_relevant ho⟩
  have hupkeep := Synthesis.run_upkeep hrules hbasis (h.mono (ψ := .backward) (by decide)).capped hrun
  rw [hgraph]
  exact ⟨hupkeep.steady, hupkeep.typed, hupkeep.redraws⟩

end Plain

/-! ## Whole graphs -/

/-- A graph of a session to which all is added that is asked for: it holds the initializers `l` and the settings of the
optimizer, updates are of weights, and no op runs in place. Where `C` holds, all infos are right. -/
structure Equipped (C : Prop) (l : List NamedTensor) (optimizer : Option Sgd) (V : Int → Prop) (g : Graph) : Prop where
  steady : g.Steady none
  typed : C → g.Typed
  holds : g.Holds l ((optimizer.map Sgd.values).getD [])
  updating : g.Updating
  drafted : g.Drafted V

theorem Equipped.keep {C : Prop} {l : List NamedTensor} {optimizer : Option Sgd} {V : Int → Prop} {g : Graph}
    (h : g.Equipped C l optimizer V) (t : TensorId) : (g.keep t).Equipped C l optimizer V where
  steady := h.steady.keep t
  typed hC := (h.typed hC).of_ops (fun ho => ho) fun _ _ => rfl
  holds := h.holds.sources (.addedKept g t)
  updating := h.updating
  drafted := h.drafted

end Graph

namespace SessionConfig

variable {C : Prop} {l : List NamedTensor} {optimizer : Option Sgd} {V : Int → Prop} {b b' : Build}

theorem equip_ok {rules : GradRegistry} (hrules : rules.Fitting) {attached : List Loss}
    {differentiated : Option (List Loss)} (h : b.graph.Plain C .forward) (hsketch : b.graph.Sketch l V)
    (hrun : (equip rules attached optimizer differentiated).run b = (.ok (), b')) :
    b'.graph.Equipped (C ∨ differentiated = none) l optimizer V := by
  obtain ⟨ids, b₁, hlosses, hrun⟩ := Stateful.run_bind_ok.1 hrun
  obtain ⟨_, b₂, hoptimizer, hgradients⟩ := Stateful.run_bind_ok.1 hrun
  have h₁ : b₁.graph.Plain C .loss := (h.mono (by decide)).attachLosses (Pass.run_onGraph_ok hlosses)
  have hsketch₁ : b₁.graph.Sketch l V := hsketch.attachLosses (Pass.run_onGraph_ok hlosses)
  have h₂ : b₂.graph.Plain C .loss ∧ b₂.graph.Holds l ((optimizer.map Sgd.values).getD []) ∧ b₂.graph.Drafted V := by
    cases optimizer with
    | none =>
      cases hoptimizer
      exact ⟨h₁, hsketch₁.holds, hsketch₁.drafted⟩
    | some settings =>
      obtain ⟨hholds, hdrafted⟩ := hsketch₁.holds.addOptimizer hsketch₁.sound (Pass.run_onGraph_ok hoptimizer)
      exact ⟨h₁.addOptimizer (Pass.run_onGraph_ok hoptimizer), hholds, hdrafted hsketch₁.drafted⟩
  obtain ⟨hplain, hholds, hdrafted⟩ := h₂
  have hupdating : b₂.graph.Updating := .of_no_updates fun ho hk => by
    have hprimal := hplain.primal _ _ ho
    rw [hk] at hprimal
    cases hprimal
  cases differentiated with
  | none =>
    cases hgradients
    exact ⟨hplain.steady, fun _ => hplain.typed, hholds, hupdating, hdrafted⟩
  | some losses =>
    obtain ⟨summary, b₃, hsynthesis, hpure⟩ := Stateful.run_bind_ok.1 hgradients
    cases hpure
    obtain ⟨hsteady, htyped, hredraws⟩ := hplain.synthesize hrules hsynthesis
    exact ⟨hsteady, fun hC => htyped (hC.resolve_right nofun), hholds.sources hredraws.sources,
      hredraws.updating hupdating, hredraws.drafted hdrafted⟩

/-- Anchors are kept, and nothing else changes. -/
theorem keepAnchors_ok {anchors : List TensorId} {g g' : Graph} (h : g.Equipped C l optimizer V)
    (hrun : (anchors.forM keepAnchor).run g = (.ok (), g')) : g'.Equipped C l optimizer V := by
  refine Stateful.run_forM_keeps (fun g => g.Equipped C l optimizer V) (fun id _ {g₁ g₂} h₁ hcall => ?_) h hrun
  replace hcall := Stateful.of_get_bind hcall
  split at hcall
  · cases hcall
    exact h₁.keep id
  · cases hcall

/-- What was kept still is, and so are the anchors. -/
theorem keepAnchors_kept : ∀ {anchors : List TensorId} {g g' : Graph}, (anchors.forM keepAnchor).run g = (.ok (), g') →
    ∀ t, t ∈ g.kept ∨ t ∈ anchors → t ∈ g'.kept
  | [], g, g', hrun, t, ht => by
    cases hrun
    exact ht.resolve_right List.not_mem_nil
  | id :: anchors, g, g', hrun, t, ht => by
    rw [Stateful.forM_cons] at hrun
    obtain ⟨_, g₁, hcall, hrun⟩ := Stateful.run_bind_ok.1 hrun
    refine keepAnchors_kept hrun t ?_
    replace hcall := Stateful.of_get_bind hcall
    split at hcall
    · cases hcall
      rw [List.mem_cons] at ht
      rcases ht with ht | rfl | ht
      · exact .inl (SortedSet.mem_insert.2 (.inr ht))
      · exact .inl (SortedSet.mem_insert.2 (.inl rfl))
      · exact .inr ht
    · cases hcall

end SessionConfig

theorem Backend.lawful_named {name : Option String} : ∀ b ∈ name.bind Backend.named?, b.Lawful := by
  intro b hb
  obtain ⟨name, -, hb⟩ := Option.bind_eq_some_iff.1 hb
  unfold Backend.named? at hb
  split at hb
  · cases hb
    exact Backend.reference_lawful name
  · cases hb

namespace SessionConfig

section

variable {m : Model} {infos : Dict TensorId TensorInfo} {attached : List Loss} {optimizer : Option Sgd}
  {differentiated : Option (List Loss)} {anchors : List TensorId} {selection : Selection} {backend : Option String}
  {limit : Nat} {imported : Graph} {equipped kept simplified : Build} {stats : PassStats}

/-- What the patterns leave of an equipped graph whose anchors are kept. -/
theorem constructed_ok {rules : GradRegistry} {patterns : PatternRegistry} (hrules : rules.Fitting)
    (hregistered : patterns.Fitting) (himport : Graph.ofModel m infos = .ok imported)
    (hequip : (equip rules attached optimizer differentiated).run { graph := imported } = (.ok (), equipped))
    (hanchors : (BuildM.onGraph (anchors.forM keepAnchor)).run equipped = (.ok (), kept))
    (hpatterns : (Stage.runAll (selection.pipeline patterns (backend.bind Backend.named?) limit)).run kept =
      (.ok stats, simplified)) :
    kept.graph.Equipped (m.Sized infos ∨ differentiated = none) m.initializers optimizer m.NamesGraph ∧
      Rewritten kept.graph simplified.graph ∧ simplified.graph.Acyclic ∧
      simplified.graph.NamesOnly m.NamesGraph ∧ simplified.graph.MarkedSafely := by
  have hplain : ({ graph := imported } : Build).graph.Plain (m.Sized infos) .forward := .ofModel himport
  have hsketch : ({ graph := imported } : Build).graph.Sketch m.initializers m.NamesGraph :=
    .ofModel himport fun n hn v hv => ⟨n, hn, hv⟩
  have hequipped := keepAnchors_ok (equip_ok hrules hplain hsketch hequip) (Pass.run_onGraph_ok hanchors)
  obtain ⟨hrewritten, hacyclic, hmarks⟩ := Selection.pipeline_rewritten hregistered Backend.lawful_named
    hequipped.steady hpatterns
  exact ⟨hequipped, hrewritten, hacyclic, hmarks hequipped.drafted⟩

/-- The same without rules and patterns of a user. -/
theorem constructed_rewritten (himport : Graph.ofModel m infos = .ok imported)
    (hequip : (equip .empty attached optimizer differentiated).run { graph := imported } = (.ok (), equipped))
    (hanchors : (BuildM.onGraph (anchors.forM keepAnchor)).run equipped = (.ok (), kept))
    (hpatterns : (Stage.runAll (selection.pipeline .empty (backend.bind Backend.named?) limit)).run kept =
      (.ok stats, simplified)) :
    Rewritten kept.graph simplified.graph ∧ simplified.graph.Acyclic ∧
      (m.Sized infos ∨ differentiated = none → kept.graph.Typed) := by
  obtain ⟨hequipped, hrewritten, hacyclic, -⟩ :=
    constructed_ok GradRegistry.fitting_empty PatternRegistry.fitting_empty himport hequip hanchors hpatterns
  exact ⟨hrewritten, hacyclic, hequipped.typed⟩

/-- The graph of a session is well formed and has an order, no op reads what a later phase produces, every computed
tensor has a producer, and what was to be kept is still there. Without gradients, or where the model names no extent
below zero, all infos are inferred, and what was to be kept has the info that it had. -/
theorem constructed_graph_sound (himport : Graph.ofModel m infos = .ok imported)
    (hequip : (equip .empty attached optimizer differentiated).run { graph := imported } = (.ok (), equipped))
    (hanchors : (BuildM.onGraph (anchors.forM keepAnchor)).run equipped = (.ok (), kept))
    (hpatterns : (Stage.runAll (selection.pipeline .empty (backend.bind Backend.named?) limit)).run kept =
      (.ok stats, simplified)) :
    simplified.graph.WellFormed ∧ simplified.graph.Acyclic ∧ (∃ order, simplified.graph.order = .ok order) ∧
      simplified.graph.Phased ∧
      (∀ t x, simplified.graph.tensor? t = some x → x.type = .actGrad → ∃ o, x.producer = some o) ∧
      (∀ t ∈ kept.graph.kept, kept.graph.hasTensor t = true → simplified.graph.hasTensor t = true) ∧
      (m.Sized infos ∨ differentiated = none → simplified.graph.Inferred ∧
        ∀ t ∈ kept.graph.kept, kept.graph.hasTensor t = true →
          simplified.graph.info? t = kept.graph.info? t) := by
  obtain ⟨hrewritten, hacyclic, htyped⟩ := constructed_rewritten himport hequip hanchors hpatterns
  have hsound := hrewritten.steady.sound
  refine ⟨hsound.wellFormed, hacyclic, hacyclic.order_ok hsound.linked, hrewritten.steady.phased,
    fun t x => hrewritten.steady.producer_of_computed, fun t => hrewritten.has, fun hC => ?_⟩
  obtain ⟨htyped', hinfo⟩ := hrewritten.typed (htyped hC)
  exact ⟨htyped'.inferred, fun t => hinfo⟩

end

/-! ### Graphs made step by step -/

/-- What the graph of a session is made from that attaches and differentiates the same losses. -/
structure Blueprint where
  model : Model
  losses : List Loss
  anchors : List TensorId
  selection : Selection

namespace Blueprint

variable (s : Blueprint)

def imported : Graph := (Graph.ofModel s.model .empty).toOption.getD .empty

def equipped : Outcome Unit × Build :=
  (equip .empty s.losses (some (.constant .one)) (some s.losses)).run { graph := s.imported }

def kept : Outcome Unit × Build := (BuildM.onGraph (s.anchors.forM keepAnchor)).run s.equipped.2

def simplified : Outcome PassStats × Build :=
  (Stage.runAll (s.selection.pipeline .empty (none.bind Backend.named?) 1)).run s.kept.2

/-- All calls succeed. -/
def Succeeds : Prop :=
  Graph.ofModel s.model .empty = .ok s.imported ∧ s.equipped = (.ok (), s.equipped.2) ∧
    s.kept = (.ok (), s.kept.2) ∧ ∃ stats, s.simplified = (.ok stats, s.simplified.2)

variable {s}

theorem succeeds (himport : (Graph.ofModel s.model .empty).isOk = true) (hequip : s.equipped.1 = .ok ())
    (hkept : s.kept.1 = .ok ()) (hsimplified : s.simplified.1.isOk = true) : s.Succeeds := by
  obtain ⟨g, hg⟩ := Outcome.exists_of_isOk himport
  obtain ⟨stats, hstats⟩ := Outcome.exists_of_isOk hsimplified
  exact ⟨by rw [imported, hg]; rfl, Stateful.eq_ok_of_fst hequip, Stateful.eq_ok_of_fst hkept, stats,
    Stateful.eq_ok_of_fst hstats⟩

end Blueprint

/-- A weight is added to a stream of the given extent, and the exponentials of what is positive are joined with
another stream. The gradient for what the exponential reads is kept, and only the gradients of exponentials are
lowered. -/
def joined (extent : Int) : Blueprint where
  model :=
    { name := "joined"
      nodes :=
        [{ name := "", opType := "Add", domain := "", inputs := ["s", "w"], outputs := ["a"], attributes := .empty },
          { name := "", opType := "Relu", domain := "", inputs := ["a"], outputs := ["r"], attributes := .empty },
          { name := "", opType := "Exp", domain := "", inputs := ["r"], outputs := ["e"], attributes := .empty },
          { name := "", opType := "Concat", domain := "", inputs := ["e", "y"], outputs := ["c"],
            attributes := .empty }]
      inputs := [⟨"s", ⟨.float, [extent]⟩⟩, ⟨"y", ⟨.float, [3]⟩⟩]
      outputs := [⟨"c", ⟨.float, [extent + 3]⟩⟩]
      initializers := [⟨"w", ⟨.float, [1]⟩, .f32 [.one]⟩]
      valueInfo := [] }
  losses := [.l1 "c" "loss" .one .sum]
  anchors := ["d__r"]
  selection := ⟨[.lowerExpGrad], .empty⟩

/-- With one element in the stream, the gradient that is kept has the info that it had, and all infos are inferred. -/
theorem constructed_graph_sound_joined : (joined 1).Succeeds ∧ (joined 1).simplified.2.graph.Inferred ∧
    (joined 1).simplified.2.graph.info? "d__r" = (joined 1).kept.2.graph.info? "d__r" := by
  have hrun : ((Graph.ofModel (joined 1).model .empty).isOk = true ∧ (joined 1).equipped.1 = .ok () ∧
      (joined 1).kept.1 = .ok () ∧ (joined 1).simplified.1.isOk = true) ∧
      (joined 1).kept.2.graph.kept.contains "d__r" = true ∧ (joined 1).kept.2.graph.hasTensor "d__r" = true := by
    decide +kernel
  obtain ⟨⟨himport, hequip, hkept, hsimplified⟩, hmem, hhas⟩ := hrun
  have hsucceeds := Blueprint.succeeds himport hequip hkept hsimplified
  refine ⟨hsucceeds, ?_⟩
  obtain ⟨himport, hequip, hkept, stats, hsimplified⟩ := hsucceeds
  have hsized : (joined 1).model.Sized .empty := by
    refine ⟨?_, ?_, ?_⟩ <;> simp [joined, Shape.Sized, Node.tensor?, Dict.get?_empty]
  obtain ⟨-, -, -, -, -, -, hinfos⟩ := constructed_graph_sound himport hequip hkept hsimplified
  obtain ⟨hinferred, hinfo⟩ := hinfos (.inl hsized)
  exact ⟨hinferred, hinfo "d__r" (SortedSet.contains_iff.1 hmem) hhas⟩

/-- With an extent below zero, the part of the gradient that goes back to the stream has another shape than the stream.
The lowering of the exponential stretches it, so the gradient that is kept gets another info, and what reads it keeps an
info that is not the inferred one. -/
theorem constructed_graph_stale : (joined (-1)).Succeeds ∧ "d__r" ∈ (joined (-1)).kept.2.graph.kept ∧
    (joined (-1)).kept.2.graph.info? "d__r" = some ⟨.float, [1]⟩ ∧
    (joined (-1)).simplified.2.graph.info? "d__r" = some ⟨.float, [-1]⟩ ∧
    ¬ (joined (-1)).simplified.2.graph.Inferred := by
  have hrun : ((Graph.ofModel (joined (-1)).model .empty).isOk = true ∧ (joined (-1)).equipped.1 = .ok () ∧
      (joined (-1)).kept.1 = .ok () ∧ (joined (-1)).simplified.1.isOk = true) ∧
      ((joined (-1)).kept.2.graph.kept.contains "d__r" = true ∧
        (joined (-1)).kept.2.graph.info? "d__r" = some ⟨.float, [1]⟩ ∧
        (joined (-1)).simplified.2.graph.info? "d__r" = some ⟨.float, [-1]⟩) ∧
      ((joined (-1)).simplified.2.graph.op? 8).map (fun op => (op.kind, op.inputs, op.outputs)) =
        some (.unaryGrad .relu, ["d__r", "r"], ["d__a"]) ∧
      ["d__r", "r"].mapM (joined (-1)).simplified.2.graph.info? = some [⟨.float, [-1]⟩, ⟨.float, [-1]⟩] ∧
      (joined (-1)).simplified.2.graph.info? "d__a" = some ⟨.float, [1]⟩ := by
    decide +kernel
  obtain ⟨⟨himport, hequip, hkept, hsimplified⟩, ⟨hmem, hbefore, hafter⟩, hop, hin, hout⟩ := hrun
  refine ⟨Blueprint.succeeds himport hequip hkept hsimplified, SortedSet.contains_iff.1 hmem, hbefore, hafter, fun h => ?_⟩
  obtain ⟨op, ho, hfields⟩ := Option.map_eq_some_iff.1 hop
  obtain ⟨output, infos, info, houtput, hinfos, hinfer, hinfo⟩ := h 8 op ho
  simp only [Prod.mk.injEq] at hfields
  obtain ⟨hk, hi, ho'⟩ := hfields
  rw [hi, hin] at hinfos
  rw [ho'] at houtput
  cases houtput
  cases hinfos
  rw [hk] at hinfer
  rw [hout] at hinfo
  cases hinfer
  cases hinfo

end SessionConfig

end TensorGraph
