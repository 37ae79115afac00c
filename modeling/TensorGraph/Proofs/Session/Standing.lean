import TensorGraph.Proofs.Placement.Following
import TensorGraph.Proofs.Session.Calls

/-!
What stands in a session after any calls. Its ops may have moved, and its program, if it has one, was compiled from its
graph; nothing is on the device before there is a program.
-/
namespace TensorGraph

open Stateful

namespace Graph

variable {g g' : Graph}

/-! ## Graphs whose ops have moved -/

theorem Relocated.keepsSources (h : Relocated g g') : KeepsSources g g' :=
  .of_given (by rw [h.frame]) (by rw [h.frame]) fun t => by rw [h.moved.tensor?_eq]

theorem Relocated.steady (h : Relocated g g') (hg : g.Steady none) : g'.Steady none := by
  have hop : ∀ {o op'}, g'.op? o = some op' → ∃ op, g.op? o = some op ∧ op' = { op with virtualGraph := op'.virtualGraph } :=
    fun ho => h.moved.op ho
  have hsound : g'.Sound := by
    refine hg.sound.of_bare (h.moved.linked hg.sound.linked) (fun {o op'} ho => ?_) (fun t => by rw [h.moved.tensor?_eq])
      (by rw [h.frame]) (by rw [h.frame])
    obtain ⟨op, hop, -⟩ := hop ho
    exact ⟨op, hop⟩
  refine hg.of_follows (ψ := id) hsound (fun o op' ho => ?_) (fun {o op'} ho => ?_) (fun {t x} hx => ?_)
    (fun {o op i p pop} ho hi hp hpop => ?_) (fun {o op op'} ho ho' e grad t he hk hmade hread => .inl ?_)
    fun _ _ hknown x hx => hknown x (h.moved.tensor?_eq _ ▸ hx)
  · obtain ⟨op, ho, heq⟩ := hop ho
    exact ⟨op, ho, by rw [heq], by rw [heq], by rw [heq], by rw [heq]; exact (List.map_id _).symm⟩
  · obtain ⟨op, ho, heq⟩ := hop ho
    obtain ⟨t, ht⟩ := hg.single ho
    exact ⟨t, by rw [heq]; exact ht⟩
  · rw [h.moved.tensor?_eq] at hx
    exact hg.computed hx
  · exact hg.phased o op ho i hi p pop (h.moved.producer?_eq _ ▸ hp) hpop
  · obtain ⟨grad', he', heq⟩ := h.moved.symm.op he
    exact ⟨grad', he', by rw [heq], by rw [heq]; exact (List.map_id _).symm, by rw [heq] at hmade; exact hmade⟩

theorem Serving.relocated {l : List NamedTensor} {settings : List (TensorId × OptimizerValue)} (hg : g.Serving l settings)
    (h : Relocated g g') : g'.Serving l settings := by
  refine ⟨h.steady hg.steady, hg.acyclic.of_feeds fun hf => .single (h.moved.feeds hf), hg.holds.sources h.keepsSources,
    hg.updating.of_ops h.keepsSources (ψ := id) (fun {o op'} ho hk => ?_) fun _ _ => rfl, fun o op' ho hflag => ?_⟩
  · obtain ⟨op, ho, heq⟩ := h.moved.op ho
    rw [heq] at hk ⊢
    exact ⟨op, ho, hk, (List.map_id _).symm, (List.map_id _).symm, fun u _ => by rw [h.moved.info?_eq]; rfl⟩
  · obtain ⟨op, ho, heq⟩ := h.moved.op ho
    rw [heq] at hflag ⊢
    have hkept : ∀ t, g'.isKept t = g.isKept t := fun t => by rw [isKept, isKept, h.frame]
    have hsafe := hg.marked o op ho hflag
    unfold mayOverwrite at hsafe ⊢
    simpa only [h.moved.tensor?_eq, h.moved.info?_eq, hkept] using hsafe

end Graph

namespace Session

variable {W : Prop} {V : HostTensor → Prop} {s t u : Session} {n : Nat} {e : Executable} {r : Runtime}

/-! ## Programs that are made -/

theorem placement_eq_some {mode : Placement.Mode} (h : s.placement = .ok (some (mode, n))) :
    s.options.enableVirtualGraphs = true ∧ n ≤ s.device.device.ipus ∧ (0 < s.device.device.ipus → 0 < n) := by
  unfold placement at h
  split at h
  · cases h
  rename_i hon
  split at h
  · cases h
    exact ⟨Bool.not_eq_false _ ▸ hon, Nat.le_refl _, id⟩
  dsimp only at h
  split at h
  · cases h
  rename_i hwanted
  cases h
  exact ⟨Bool.not_eq_false _ ▸ hon, Nat.not_lt.1 hwanted, fun _ => Nat.lt_of_lt_of_le Nat.zero_lt_one (Nat.le_max_right ..)⟩

/-- A layout of the graph of a session on `n` virtual graphs: the ops stand as they did and there is one virtual graph,
or they have been placed, on one of `n` unless the device has none. -/
structure Lays (s : Session) (g : Graph) (n : Nat) : Prop where
  relocated : Graph.Relocated s.graph g
  off : s.options.enableVirtualGraphs = false → n = 1 ∧ g = s.graph
  on : s.options.enableVirtualGraphs = true → n ≤ s.device.device.ipus ∧ (0 < s.device.device.ipus →
    0 < n ∧ ∀ o op, g.op? o = some op → ∃ v, op.virtualGraph = some v ∧ Placement.InRange n v)

theorem Lays.trans {g : Graph} (h : t.Lays g n) (hrelocated : Graph.Relocated s.graph t.graph)
    (hstill : s.options.enableVirtualGraphs = false → t.graph = s.graph) (hoptions : t.options = s.options)
    (hdevice : t.device = s.device) : s.Lays g n := by
  obtain ⟨hg, hoff, hon⟩ := h
  rw [hoptions] at hoff hon
  rw [hdevice] at hon
  exact ⟨hrelocated.trans hg, fun h => ⟨(hoff h).1, (hoff h).2.trans (hstill h)⟩, hon⟩

theorem place_ok (hs : s.graph.Steady none) (h : place.run s = (.ok n, t)) : s.Lays t.graph n := by
  replace h := of_get_bind h
  obtain ⟨where_, hplacement, h⟩ := run_liftM_bind_ok.1 h
  split at h
  · cases h
    have hoff := Along.placement_eq_none hplacement
    exact ⟨.refl _, fun _ => ⟨rfl, rfl⟩, fun hon => absurd (hoff.symm.trans hon) nofun⟩
  · rename_i mode m
    obtain ⟨summary, t', hrun, h⟩ := run_bind_ok.1 h
    cases h
    obtain ⟨hon, hle, hpos⟩ := placement_eq_some hplacement
    rw [onBuild, run_focus, Prod.mk.injEq] at hrun
    obtain ⟨hsummary, rfl⟩ := hrun
    have hplaced := eq_ok_of_fst hsummary
    obtain ⟨order, placed, -, -, -, -, hm, -⟩ := Placement.runBy_eq_ok.1 hplaced
    have hrelocated : Graph.Relocated s.graph ((Placement.run mode m s.isTraining).run ⟨s.graph, s.log⟩).2.graph :=
      Placement.keeps_run ⟨s.graph, s.log⟩ (.refl s.graph)
    rw [hm]
    refine ⟨hrelocated, fun hoff => absurd (hoff.symm.trans hon) nofun, fun _ => ⟨hle, fun hipus => ⟨hpos hipus, ?_⟩⟩⟩
    exact (Placement.placed_in_range (b := ⟨s.graph, s.log⟩) hs (hpos hipus) hplaced).2.1

theorem compile_ok (hs : s.graph.Steady none) (h : compile.run s = (.ok e, t)) :
    ∃ n, s.Lays t.graph n ∧ Executable.compile t.graph n t.graphHash = .ok e := by
  obtain ⟨n, t', hplace, h⟩ := run_bind_ok.1 h
  replace h := of_get_bind h
  rw [run_liftM, Prod.mk.injEq] at h
  obtain ⟨hcompile, rfl⟩ := h
  exact ⟨n, place_ok hs hplace, hcompile⟩

/-! ## What stands after any calls -/

/-- The session `t` has come from the session `s`. -/
structure Descends (s t : Session) : Prop where
  model : t.model = s.model
  dataFlow : t.dataFlow = s.dataFlow
  options : t.options = s.options
  device : t.device = s.device
  graphHash : t.graphHash = s.graphHash
  relocated : Graph.Relocated s.graph t.graph
  still : s.options.enableVirtualGraphs = false → t.graph = s.graph
  weights : ∀ id, (t.hostWeights.get? id).isSome = (s.hostWeights.get? id).isSome
  constructed : t.state = .constructed → t.engine = none
  unloaded : t.engine = none → t.weightsUploaded = false ∧ t.optimizerUploaded = false
  backend : ∀ r, t.engine = some r → r.backend = .reference s.device.device.type.word
  compiled : ∀ r, t.engine = some r → s.Compiles r.executable
  made : ∀ r, t.engine = some r → t.cacheHit = false →
    ∃ g n, s.Lays g n ∧ Executable.compile g n s.graphHash = .ok r.executable

theorem Opened.descends (h : s.Opened) : Descends s s :=
  ⟨rfl, rfl, rfl, rfl, rfl, .refl _, fun _ => rfl, fun _ => rfl, fun _ => h.engine, fun _ => ⟨h.weightsUploaded, h.optimizerUploaded⟩,
    fun _ hr => absurd (h.engine.symm.trans hr) nofun, fun _ hr => absurd (h.engine.symm.trans hr) nofun,
    fun _ hr => absurd (h.engine.symm.trans hr) nofun⟩

theorem Along.options (h : Along s t) : t.options = s.options := by rw [h.same]

theorem Along.device (h : Along s t) : t.device = s.device := by rw [h.same]

theorem Along.graphHash (h : Along s t) : t.graphHash = s.graphHash := by rw [h.same]

namespace Descends

/-- A program of a later session is one of the session that it came from. -/
theorem compiles (h : Descends s t) (he : t.Compiles e) : s.Compiles e := by
  obtain ⟨g, n, hrelocated | ⟨s₁, hopened, ⟨g₀, hback, hencodable⟩, hrelocated⟩, hcompile⟩ := he
  · exact ⟨g, n, .inl (h.relocated.trans hrelocated), h.graphHash ▸ hcompile⟩
  · exact ⟨g, n, .inr ⟨s₁, hopened, ⟨g₀, h.relocated.trans hback, hencodable⟩, hrelocated⟩, h.graphHash ▸ hcompile⟩

/-- Ops have moved. -/
theorem along (h : Descends s t) (halong : Along t u) : Descends s u := by
  obtain ⟨hrelocated, hstill, hsame⟩ := halong
  generalize u.graph = g, u.log = log at hrelocated hstill hsame
  subst hsame
  refine ⟨h.model, h.dataFlow, h.options, h.device, h.graphHash, h.relocated.trans hrelocated, fun hoff => ?_, h.weights,
    h.constructed, h.unloaded, h.backend, h.compiled, h.made⟩
  exact (hstill (h.options ▸ hoff)).trans (h.still hoff)

/-- A program is loaded that was found or made. -/
theorem prepared (hs : s.graph.Steady none) (h : Descends s t) {p : Platform}
    (hfound : ∀ e h, findEngine.run ⟨p, t⟩ = (.ok (some e), h) → t.Compiles e) (hp : Prepared ⟨p, t⟩ u) : Descends s u := by
  have hnone : t.engine = none := h.constructed hp.constructed
  have hloaded : ∀ r, u.engine = some r → ∃ e, r = .load (.reference t.device.device.type.word) e ∧ Loads ⟨p, t⟩ u e := by
    intro r hr
    rcases hp.engine with ⟨-, heq⟩ | ⟨e, heq, hloads⟩
    · exact absurd (hr.symm.trans (heq.trans hnone)) nofun
    · exact ⟨e, Option.some.inj (hr.symm.trans heq), hloads⟩
  have hcompiled : ∀ e, Loads ⟨p, t⟩ u e → s.Compiles e ∧ (u.cacheHit = false →
      ∃ g n, s.Lays g n ∧ Executable.compile g n s.graphHash = .ok e) := by
    rintro e (⟨hhit, h₁, hfind⟩ | ⟨-, s₀, s₁, halong, hcompile, -⟩)
    · exact ⟨h.compiles (hfound e h₁ hfind), fun hmiss => absurd (hhit.symm.trans hmiss) nofun⟩
    · have hrelocated := h.relocated.trans halong.relocated
      obtain ⟨n, hlays, hprogram⟩ := compile_ok (hrelocated.steady hs) hcompile
      have hhash : s₁.graphHash = s.graphHash := by
        have hkeeps := Along.keeps_compile s₀ (.refl s₀)
        rw [hcompile] at hkeeps
        exact hkeeps.graphHash.trans (halong.graphHash.trans h.graphHash)
      have hlays := hlays.trans hrelocated (fun hoff => (halong.still (h.options ▸ hoff)).trans (h.still hoff))
        (halong.options.trans h.options) (halong.device.trans h.device)
      rw [hhash] at hprogram
      exact ⟨⟨s₁.graph, n, .inl hlays.relocated, hprogram⟩, fun _ => ⟨s₁.graph, n, hlays, hprogram⟩⟩
  refine ⟨?_, ?_, ?_, ?_, ?_, h.relocated.trans hp.relocated, fun hoff => (hp.still (h.options ▸ hoff)).trans (h.still hoff), ?_,
    ?_, fun _ => ?_, fun r hr => ?_, fun r hr => ?_, fun r hr hmiss => ?_⟩
  · rw [hp.same]
    exact h.model
  · rw [hp.same]
    exact h.dataFlow
  · rw [hp.same]
    exact h.options
  · rw [hp.same]
    exact h.device
  · rw [hp.same]
    exact h.graphHash
  · rw [hp.same]
    exact h.weights
  · rw [hp.same]
    nofun
  · rw [hp.same]
    exact h.unloaded hnone
  all_goals obtain ⟨e, rfl, hloads⟩ := hloaded r hr
  · rw [h.device]
    rfl
  · exact (hcompiled e hloads).1
  · exact (hcompiled e hloads).2 hmiss

/-- Another value of the same program, or other flags. -/
theorem of_engine (h : Descends s t) (hsame : u.model = t.model ∧ u.dataFlow = t.dataFlow ∧ u.options = t.options ∧
      u.device = t.device ∧ u.graphHash = t.graphHash ∧ u.graph = t.graph ∧ u.cacheHit = t.cacheHit)
    (hweights : ∀ id, (u.hostWeights.get? id).isSome = (t.hostWeights.get? id).isSome)
    (hstate : u.state = .constructed → u.engine = none)
    (hunloaded : u.engine = none → u.weightsUploaded = false ∧ u.optimizerUploaded = false)
    (hengine : ∀ r', u.engine = some r' → ∃ r, t.engine = some r ∧ r.Same r') : Descends s u := by
  obtain ⟨hmodel, hflow, hoptions, hdevice, hhash, hgraph, hhit⟩ := hsame
  refine ⟨hmodel.trans h.model, hflow.trans h.dataFlow, hoptions.trans h.options, hdevice.trans h.device, hhash.trans h.graphHash,
    hgraph ▸ h.relocated, fun hoff => hgraph.trans (h.still hoff), fun id => (hweights id).trans (h.weights id), hstate,
    hunloaded, fun r' hr' => ?_, fun r' hr' => ?_, fun r' hr' hhit' => ?_⟩ <;> obtain ⟨r, hr, hsame⟩ := hengine r' hr'
  · exact hsame.1.trans (h.backend r hr)
  · exact hsame.2 ▸ h.compiled r hr
  · exact hsame.2 ▸ h.made r hr (hhit ▸ hhit')

/-- What stands after some turns stands after one more. -/
theorem turn (hs : s.graph.Steady none) (h : Descends s t) (ht : Turn W V t u) : Descends s u := by
  have hstate : ∀ {r}, t.engine = some r → t.state ≠ .constructed := fun hr hc =>
    absurd ((h.constructed hc).symm.trans hr) nofun
  have hreplaced : ∀ {id current value}, t.hostWeights.get? id = some current → ∀ id',
      ((t.hostWeights.insert id value).get? id').isSome = (t.hostWeights.get? id').isSome := by
    intro id current value hid id'
    rw [Dict.get?_insert]
    split
    · rename_i heq
      rw [← heq, hid]
      rfl
    · rfl
  cases ht with
  | note state hnote stepsRun random log =>
    refine h.of_engine ⟨rfl, rfl, rfl, rfl, rfl, rfl, rfl⟩ (fun _ => rfl) (fun hc => ?_) h.unloaded fun r' hr' => ⟨r', hr', .refl r'⟩
    rcases hnote with rfl | ⟨-, hne⟩
    · exact h.constructed hc
    · exact absurd hc hne
  | place hc hit halong =>
    have hnone := h.constructed hc
    have hhit : Descends s { t with cacheHit := hit } :=
      ⟨h.model, h.dataFlow, h.options, h.device, h.graphHash, h.relocated, h.still, h.weights, h.constructed, h.unloaded, h.backend, h.compiled,
        fun r hr => absurd (hnone.symm.trans hr) nofun⟩
    exact hhit.along halong
  | prepare p hfound hp => exact h.prepared hs hfound hp
  | uploadWeights hr =>
    refine h.of_engine ⟨rfl, rfl, rfl, rfl, rfl, rfl, rfl⟩ (fun _ => rfl) (fun hc => absurd hc (hstate hr)) nofun fun r' hr' => ⟨_, hr, ?_⟩
    cases hr'
    exact Runtime.same_withValues _ _
  | uploadOptimizer hr =>
    refine h.of_engine ⟨rfl, rfl, rfl, rfl, rfl, rfl, rfl⟩ (fun _ => rfl) (fun hc => absurd hc (hstate hr)) nofun fun r' hr' => ⟨_, hr, ?_⟩
    cases hr'
    exact Runtime.same_withValues _ _
  | updateOptimizer =>
    exact h.of_engine ⟨rfl, rfl, rfl, rfl, rfl, rfl, rfl⟩ (fun _ => rfl) h.constructed (fun hnone => ⟨(h.unloaded hnone).1, rfl⟩)
      fun r' hr' => ⟨r', hr', .refl r'⟩
  | writeWeight _ hid =>
    refine h.of_engine ⟨rfl, rfl, rfl, rfl, rfl, rfl, rfl⟩ (hreplaced hid) (fun hc => ?_) (fun hnone => h.unloaded ?_) fun r' hr' => ?_
    · change (if _ then _ else _) = _
      rw [h.constructed hc]
      split <;> rfl
    · change (if _ then _ else _) = _ at hnone
      split at hnone
      · exact Option.map_eq_none_iff.1 hnone
      · exact hnone
    · change (if _ then _ else _) = _ at hr'
      split at hr'
      · obtain ⟨r, hr, rfl⟩ := Option.map_eq_some_iff.1 hr'
        exact ⟨r, hr, rfl, rfl⟩
      · exact ⟨r', hr', .refl r'⟩
  | resetWeight _ hid =>
    exact h.of_engine ⟨rfl, rfl, rfl, rfl, rfl, rfl, rfl⟩ (hreplaced hid) h.constructed h.unloaded fun r' hr' => ⟨r', hr', .refl r'⟩
  | serve _ hr hdriven =>
    refine h.of_engine ⟨rfl, rfl, rfl, rfl, rfl, rfl, rfl⟩ (fun _ => rfl) (fun hc => absurd hc (hstate hr)) nofun fun r' hr' => ⟨_, hr, ?_⟩
    cases hr'
    exact hdriven.same

end Descends

/-- What each turn keeps, any calls keep. -/
theorem calls_keep {P : Session → Prop} (hP : ∀ {t u}, P t → Turn W V t u → P u) (hs : P s)
    (hcalls : Relation.ReflTransGen (Called W V) s t) : P t := by
  induction hcalls with
  | refl => exact hs
  | tail _ hcalled ih =>
    have hturns := hcalled.turns
    clear hcalled
    induction hturns with
    | refl => exact ih
    | tail _ hturn ihturn => exact hP ihturn hturn

theorem Opened.descends_calls (h : s.Opened) (hcalls : Relation.ReflTransGen (Called W V) s t) : Descends s t :=
  calls_keep (fun ht hturn => ht.turn h.serving.steady hturn) h.descends hcalls

end Session

end TensorGraph
