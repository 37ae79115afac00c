import TensorGraph.Proofs.Graph.InPlace
import TensorGraph.Proofs.Placement.Placing
import TensorGraph.Proofs.Session.Construction
import TensorGraph.Session.Prepare

/-!
Sessions that have been opened. Their graphs hold the weights of the model and the settings of the optimizer, update
weights only, keep the anchors, and write over nothing but results that are not kept; nothing is on the device yet.

What the preparation of a session leaves. It places ops, reports, and loads a program that it finds or compiles; a
preparation that fails leaves the session without a program.
-/
namespace TensorGraph

open TensorGraph.Graph

/-- What a user has registered keeps to what built-in patterns and rules do. -/
structure Platform.Fitting (p : Platform) : Prop where
  patterns : p.patterns.Fitting
  rules : p.rules.Fitting

theorem Platform.fitting_of_empty {p : Platform} (hpatterns : p.patterns = .empty) (hrules : p.rules = .empty) :
    p.Fitting := by
  refine ⟨?_, ?_⟩
  · rw [hpatterns]
    exact PatternRegistry.fitting_empty
  · rw [hrules]
    exact GradRegistry.fitting_empty

/-- A graph that a session can have: what it holds of the initializers and of the settings, and what it does to them. -/
structure Graph.Serving (l : List NamedTensor) (settings : List (TensorId × OptimizerValue)) (g : Graph) : Prop where
  steady : g.Steady none
  acyclic : g.Acyclic
  holds : g.Holds l settings
  updating : g.Updating
  marked : g.MarkedSafely

theorem DataFlow.fits_nothing : ∀ a ∈ (Dict.empty : Dict TensorId ReturnType).entries, a.2.Fits 1 :=
  fun _ h => absurd h List.not_mem_nil

/-- A flow of single batches that nothing is read back from. -/
def DataFlow.unread : DataFlow := ⟨1, .empty, Nat.zero_lt_one, fits_nothing⟩

namespace Session

/-- The settings of the optimizer, if there is one. -/
def settings (s : Session) : List (TensorId × OptimizerValue) := (s.optimizer.map Sgd.values).getD []

/-- A session that has just been opened. -/
structure Opened (s : Session) : Prop where
  decoded : ∃ bytes, Model.ofBytes bytes = .ok s.model
  serving : s.graph.Serving s.model.initializers s.settings
  names : s.graph.NamesOnly s.model.NamesGraph
  anchors : ∀ {id t}, s.dataFlow.anchors.get? id = some t → id ∈ s.graph.kept
  hostWeights : s.hostWeights = SessionConfig.weightsOf s.graph
  state : s.state = .constructed
  engine : s.engine = none
  weightsUploaded : s.weightsUploaded = false
  optimizerUploaded : s.optimizerUploaded = false

theorem opened_ok {c : SessionConfig} {p p' : Platform} {s : Session} (hp : p.Fitting)
    (h : (open_ c).run p = (.ok s, p')) : s.Opened := by
  replace h := Stateful.of_get_bind h
  obtain ⟨model, hmodel, h⟩ := Stateful.run_liftM_bind_ok.1 h
  obtain ⟨imported, himport, h⟩ := Stateful.run_liftM_bind_ok.1 h
  rcases hbuild : (c.build p).run { graph := imported } with ⟨built, b⟩
  simp only [hbuild] at h
  obtain ⟨_, _, hbuilt, h⟩ := Stateful.run_bind_ok.1 h
  rw [Stateful.run_lift, Prod.mk.injEq] at hbuilt
  obtain ⟨rfl, rfl⟩ := hbuilt
  obtain ⟨hash, -, h⟩ := Stateful.run_liftM_bind_ok.1 h
  obtain ⟨lease, _, -, h⟩ := Stateful.run_bind_ok.1 h
  cases h
  unfold SessionConfig.build at hbuild
  split at hbuild
  · obtain ⟨_, _, hfail, -⟩ := Stateful.run_bind_ok.1 hbuild
    cases hfail
  obtain ⟨_, equipped, hequip, hbuild⟩ := Stateful.run_bind_ok.1 hbuild
  obtain ⟨_, kept, hanchors, hbuild⟩ := Stateful.run_bind_ok.1 hbuild
  obtain ⟨stats, simplified, hpatterns, hpure⟩ := Stateful.run_bind_ok.1 hbuild
  cases hpure
  have hpatterns : (Stage.runAll (c.patterns.pipeline p.patterns ((some c.device.device.type.word).bind Backend.named?)
      c.options.patternLimit)).run kept = (.ok stats, b) := hpatterns
  obtain ⟨hequipped, hrewritten, hacyclic, hnames, hsafe⟩ :=
    SessionConfig.constructed_ok hp.rules hp.patterns himport hequip hanchors hpatterns
  have hkeeps := SessionConfig.keepAnchors_kept (Pass.run_onGraph_ok hanchors)
  refine ⟨⟨_, hmodel⟩, ⟨hrewritten.steady, hacyclic, hequipped.holds.sources hrewritten.sources,
    hrewritten.updating hequipped.updating, hsafe⟩, hnames, fun {id t} ht => ?_, rfl, rfl, rfl, rfl, rfl⟩
  change id ∈ b.graph.kept
  rw [hrewritten.kept]
  exact hkeeps id (.inr (Dict.mem_keys.2 ⟨t, ht⟩))

end Session

/-! ## Preparations -/

open Stateful

namespace Placement

variable {mode : Mode} {n : Nat} {training : Bool}

/-- A placement moves ops, also if it fails. -/
theorem keeps_run {g : Graph} : Keeps (fun b : Build => Graph.Relocated g b.graph) (run mode n training) := by
  unfold run runBy
  refine .get_bind fun b hb => .bind (.lift _) fun order => .bind (.lift _) fun placed =>
    .bind (.modify fun _ _ => hb.trans (relocated_placeAll ..)) fun _ => .bind (.lift _) fun _ => .bind (.lift _) fun _ =>
    .bind (.modify fun _ h => h) fun _ => .pure _

end Placement

namespace Session

variable {s s' : Session}

/-- The session `s'` is `s`, but for reports, and for the places of ops if it places them. -/
structure Along (s s' : Session) : Prop where
  relocated : Graph.Relocated s.graph s'.graph
  still : s.options.enableVirtualGraphs = false → s'.graph = s.graph
  same : s' = { s with graph := s'.graph, log := s'.log }

namespace Along

theorem refl (s : Session) : Along s s := ⟨.refl _, fun _ => rfl, rfl⟩

theorem trans {s'' : Session} (h : Along s s') (h' : Along s' s'') : Along s s'' := by
  refine ⟨h.relocated.trans h'.relocated, fun hoff => ?_, ?_⟩
  · have hoptions : s'.options = s.options := by rw [h.same]
    rw [h'.still (hoptions ▸ hoff), h.still hoff]
  · rw [h'.same, h.same]

theorem report (h : Along s s') (d : Diagnostic) : Along s { s' with log := s'.log ++ [d] } := by
  refine ⟨h.relocated, h.still, ?_⟩
  rw [h.same]

theorem keeps_report (d : Diagnostic) : Keeps (Along s) (Session.report d) := .modify fun _ h => h.report d

theorem placement_eq_none (h : s.placement = .ok none) : s.options.enableVirtualGraphs = false := by
  unfold placement at h
  split at h
  · assumption
  split at h
  · cases h
  dsimp only at h
  split at h <;> cases h

theorem place_off (h : s.options.enableVirtualGraphs = false) : place.run s = (.ok 1, s) := by
  have hplacement : s.placement = .ok none := by rw [placement, if_pos h]
  simp only [place, run_bind, run_get, run_liftM, hplacement]
  rfl

theorem keeps_place : Keeps (Along s) place := by
  intro s₁ h₁
  cases hon : s₁.options.enableVirtualGraphs with
  | false =>
    rw [place_off hon]
    exact h₁
  | true =>
    have hon' : s.options.enableVirtualGraphs = true := by
      rw [h₁.same] at hon
      exact hon
    have hkeeps : Keeps (fun s' => Graph.Relocated s.graph s'.graph ∧ s' = { s with graph := s'.graph, log := s'.log })
        place := by
      refine .get_bind fun s₂ h₂ => .bind (.liftM _) fun where_ => ?_
      split
      · exact .pure _
      · rename_i mode n
        refine .bind (fun s₃ ⟨hrelocated, hsame⟩ => ⟨Placement.keeps_run _ hrelocated, ?_⟩) fun _ => .pure _
        rw [onBuild, run_focus]
        rw [hsame]
    obtain ⟨hrelocated, hsame⟩ := hkeeps s₁ ⟨h₁.relocated, h₁.same⟩
    exact ⟨hrelocated, fun hoff => absurd (hon'.symm.trans hoff) nofun, hsame⟩

theorem keeps_compile : Keeps (Along s) compile :=
  .bind keeps_place fun _ => .get_bind fun _ _ => .liftM _

end Along

end Session

namespace Hosted

variable {s : Session} {α : Type}

/-- What is kept of the session alone. -/
theorem keeps_onSession {P : Session → Prop} {x : SessionM α} (hx : Keeps P x) :
    Keeps (fun h : Hosted => P h.session) (onSession x) := fun h hh => hx h.session hh

theorem keeps_onPlatform {P : Session → Prop} (x : PlatformM α) :
    Keeps (fun h : Hosted => P h.session) (onPlatform x) := fun _ hh => hh

end Hosted

namespace Session

open Hosted

variable {h h' : Hosted} {s : Session}

theorem findEngine_of_uncached {h : Hosted} (huncached : h.session.usesCache = false) :
    findEngine.run h = (.ok none, h) := by
  simp [findEngine, run_bind, huncached]

theorem keeps_findEngine : Keeps (fun h : Hosted => Along s h.session) findEngine := by
  refine .get_bind fun h₁ _ => ?_
  dsimp only
  split
  · exact .bind (keeps_onPlatform _) fun _ => .bind (keeps_onSession (Along.keeps_report _)) fun _ => .pure _
  · exact .pure _

/-! ## Whole preparations -/

/-- The program `e` that a preparation loads is one that was found, or one that was compiled from the graph that the
preparation left. -/
def Loads (h : Hosted) (s' : Session) (e : Executable) : Prop :=
  s'.cacheHit = true ∧ (∃ h₁, findEngine.run h = (.ok (some e), h₁)) ∨
    s'.cacheHit = false ∧ ∃ s₀ s₁, Along { h.session with cacheHit := false } s₀ ∧ compile.run s₀ = (.ok e, s₁) ∧
      s'.graph = s₁.graph

/-- What a preparation leaves: a session with a program, or as before where none is to be compiled. -/
structure Prepared (h : Hosted) (s' : Session) : Prop where
  constructed : h.session.state = .constructed
  relocated : Graph.Relocated h.session.graph s'.graph
  still : h.session.options.enableVirtualGraphs = false → s'.graph = h.session.graph
  same : s' = { h.session with
    graph := s'.graph, log := s'.log, cacheHit := s'.cacheHit, state := .prepared, engine := s'.engine }
  engine : h.session.options.compileEngine = false ∧ s'.engine = h.session.engine ∨
    ∃ e, s'.engine = some (.load (.reference h.session.device.device.type.word) e) ∧ Loads h s' e

/-- A program that is made is compiled from the graph that is left. -/
theorem makeEngine_ends (h : Hosted) : Ends
    (fun e h' => Along h.session h'.session ∧
      ∃ s₁, compile.run h.session = (.ok e, s₁) ∧ h'.session.graph = s₁.graph)
    (fun _ h' => Along h.session h'.session) makeEngine h := by
  refine Ends.bind (R := fun e h₁ => Along h.session h₁.session ∧ compile.run h.session = (.ok e, h₁.session))
    (.of_eq rfl (fun e he => ⟨Along.keeps_compile _ (.refl _), Prod.ext he rfl⟩)
      fun _ _ => Along.keeps_compile _ (.refl _)) fun e h₁ ⟨halong, hrun⟩ => .get_bind ?_
  -- keeping the program changes neither the session nor its graph
  let Q (s' : Session) : Prop := Along h.session s' ∧ s'.graph = h₁.session.graph
  have hkeeps {α : Type} {x : HostedM α} (hx : Keeps (fun h' : Hosted => Q h'.session) x) {h' : Hosted} (hQ : Q h'.session) :
      Ends (fun _ h' => Q h'.session) (fun _ h' => Along h.session h'.session) x h' :=
    (Ends.of_keeps hx hQ).mono (fun _ _ hQ => hQ) fun _ _ hQ => hQ.1
  have hreport (d : Diagnostic) : Keeps Q (Session.report d) := .modify fun _ hs => ⟨hs.1.report d, hs.2⟩
  dsimp only
  split
  · exact .bind (hkeeps (keeps_onPlatform _) ⟨halong, rfl⟩) fun path _ hstored =>
      .bind (hkeeps (keeps_onSession (hreport _)) hstored) fun _ _ ⟨h₃along, h₃graph⟩ =>
      .pure ⟨h₃along, _, hrun, h₃graph⟩
  · exact .pure ⟨halong, _, hrun, rfl⟩

/-- A program is drawn and loaded. -/
theorem load_ends {found : Bool} {e : Executable} (halong : Along { h.session with cacheHit := found } h'.session)
    (hloads : Loads h h'.session e) : Ends
    (fun _ h'' => ∃ s, Along { h.session with cacheHit := found } s ∧ Loads h s e ∧
      h''.session = { s with engine := some (.load (.reference h.session.device.device.type.word) e) })
    (fun _ h'' => ∃ hit, Along { h.session with cacheHit := hit } h''.session)
    (do
      let s := (← get).session
      if s.options.exportDot then exportDrawing e
      Hosted.onSession (modify fun s =>
        { s with engine := some (Runtime.load (.reference s.device.device.type.word) e) })) h' := by
  have hmodify {h₁ : Hosted} (halong : Along { h.session with cacheHit := found } h₁.session)
      (hloads : Loads h h₁.session e) : Ends
      (fun _ h'' => ∃ s, Along { h.session with cacheHit := found } s ∧ Loads h s e ∧
        h''.session = { s with engine := some (.load (.reference h.session.device.device.type.word) e) })
      (fun _ h'' => ∃ hit, Along { h.session with cacheHit := hit } h''.session)
      (onSession (modify fun s => { s with engine := some (Runtime.load (.reference s.device.device.type.word) e) }))
      h₁ := by
    refine .of_eq rfl (fun _ _ => ⟨_, halong, hloads, ?_⟩) nofun
    have hdevice : h₁.session.device = h.session.device := by rw [halong.same]
    rw [← hdevice]
  refine .get_bind ?_
  dsimp only
  split
  · -- a drawing changes files only
    let P (s : Session) : Prop := Along { h.session with cacheHit := found } s ∧ Loads h s e
    have hdraw : Keeps (fun h₁ : Hosted => P h₁.session) (exportDrawing e) := .get_bind fun _ _ => keeps_onPlatform _
    refine ((Ends.of_keeps hdraw ⟨halong, hloads⟩).mono (fun _ _ h => h) fun _ _ h => ⟨_, h.1⟩).bind
      fun _ h₁ ⟨halong, hloads⟩ => hmodify halong hloads
  · exact hmodify halong hloads

/-- The program of a session is found or made, and loaded. -/
theorem loadEngine_ends (h : Hosted) : Ends
    (fun _ h' => ∃ found s e, Along { h.session with cacheHit := found } s ∧ Loads h s e ∧
      h'.session = { s with engine := some (.load (.reference h.session.device.device.type.word) e) })
    (fun _ h' => ∃ hit, Along { h.session with cacheHit := hit } h'.session) loadEngine h := by
  have hfind : Ends (fun found h₁ => Along h.session h₁.session ∧ findEngine.run h = (.ok found, h₁))
      (fun _ h' => ∃ hit, Along { h.session with cacheHit := hit } h'.session) findEngine h :=
    .of_eq rfl (fun found hfound => ⟨keeps_findEngine h (.refl _), Prod.ext hfound rfl⟩)
      fun _ _ => ⟨_, keeps_findEngine h (.refl _)⟩
  refine hfind.bind fun found h₁ ⟨halong, hfound⟩ => ?_
  have hnoted : Ends (fun _ h₂ => Along { h.session with cacheHit := found.isSome } h₂.session)
      (fun _ h' => ∃ hit, Along { h.session with cacheHit := hit } h'.session)
      (onSession (modify fun s => { s with cacheHit := found.isSome })) h₁ :=
    .of_eq rfl (fun _ _ => ⟨halong.relocated, halong.still, by rw [show h₁.session = _ from halong.same]⟩) nofun
  refine hnoted.bind fun _ h₂ hnoted => ?_
  cases found with
  | some e =>
    exact load_ends hnoted (.inl ⟨by rw [hnoted.same]; rfl, h₁, hfound⟩) |>.mono (fun _ _ ⟨s, hs⟩ => ⟨_, s, _, hs⟩)
      fun _ _ h => h
  | none =>
    have hmade : Ends (fun e h₃ => Along { h.session with cacheHit := false } h₃.session ∧ Loads h h₃.session e)
        (fun _ h' => ∃ hit, Along { h.session with cacheHit := hit } h'.session) makeEngine h₂ := by
      refine (makeEngine_ends h₂).mono (fun e h₃ ⟨hmade, s₁, hrun, hgraph⟩ => ?_)
        fun _ _ hmade => ⟨_, hnoted.trans hmade⟩
      have hall := hnoted.trans hmade
      exact ⟨hall, .inr ⟨by rw [hall.same]; rfl, _, s₁, hnoted, hrun, hgraph⟩⟩
    exact hmade.bind fun e h₃ ⟨halong, hloads⟩ =>
      (load_ends halong hloads).mono (fun _ _ ⟨s, hs⟩ => ⟨_, s, _, hs⟩) fun _ _ h => h

theorem run_enter {target : SessionState} (h : s.state ≠ target) : (enter target).run s =
    (.ok ⟨⟩, { s with state := target, log := s.log ++ [.stateChanged s.state.label target.label] }) := by
  unfold enter
  simp only [run_bind, run_get, if_pos h]
  rfl

/-- What a preparation leaves that fails: a session where ops have moved, or the same if it was prepared before. -/
def Unprepared (s s' : Session) : Prop :=
  s.state = .constructed ∧ (∃ hit, Along { s with cacheHit := hit } s') ∨ s' = s

/-- A preparation leaves the session prepared; one that fails moves ops at most. -/
theorem prepare_ends (h : Hosted) :
    Ends (fun _ h' => Prepared h h'.session) (fun _ h' => Unprepared h.session h'.session) prepare h := by
  have hmoved {found : Bool} {s : Session} (halong : Along { h.session with cacheHit := found } s)
      (hstate : h.session.state = .constructed) (engine : Option Runtime)
      (hengine : h.session.options.compileEngine = false ∧ engine = h.session.engine ∨
        ∃ e, engine = some (.load (.reference h.session.device.device.type.word) e) ∧ Loads h s e)
      {h₁ : Hosted} (hs : h₁.session = { s with engine := engine }) :
      Ends (fun _ h' => Prepared h h'.session) (fun _ h' => Unprepared h.session h'.session)
        (onSession (enter .prepared)) h₁ := by
    have hne : h₁.session.state ≠ .prepared := by
      rw [hs, halong.same]
      simp [hstate]
    refine .focus (.of_eq (run_enter hne) (fun _ _ => ⟨hstate, ?_, fun hoff => ?_, ?_, ?_⟩) nofun)
    · rw [hs]
      exact halong.relocated
    · rw [hs]
      exact halong.still hoff
    · dsimp only
      rw [hs, halong.same]
    · rw [hs]
      exact hengine
  refine .get_bind ?_
  dsimp only
  split
  · exact .fail (.inr rfl)
  · rename_i hprepared
    have hstate : h.session.state = .constructed := by simpa [isPrepared] using hprepared
    refine .bind (R := fun _ h₁ => h₁ = h) (.lift (fun _ _ => rfl) fun _ _ => .inr rfl) fun _ h₁ e₁ => ?_
    subst e₁
    split
    · refine ((loadEngine_ends h₁).mono (fun _ _ h => h) fun _ _ halong => .inl ⟨hstate, halong⟩).bind
        fun _ h₂ ⟨found, s, e, halong, hloads, hs⟩ => ?_
      exact hmoved halong hstate _ (.inr ⟨e, rfl, hloads⟩) hs
    · rename_i hcompile
      have hplaced := Ends.of_keeps (keeps_onSession Along.keeps_place) (Along.refl h₁.session)
      refine (hplaced.mono (fun _ _ h => h) fun _ _ halong => .inl ⟨hstate, _, halong⟩).bind fun _ h₂ halong => ?_
      have hengine : h₂.session.engine = h₁.session.engine := by rw [halong.same]
      have hunnoted : Along { h₁.session with cacheHit := h₁.session.cacheHit } h₂.session := halong
      exact hmoved hunnoted hstate _
        (.inl ⟨Bool.eq_false_iff.2 hcompile, rfl⟩) (by rw [← hengine])

end Session

end TensorGraph
