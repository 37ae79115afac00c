import TensorGraph.Proofs.Session.Programs

/-!
The settings of the optimizer in a session that trains. Fixed settings stay what was built in, and streamed ones are on
the device as they are: whenever they are replaced, training waits until they have been put there again.
-/
namespace TensorGraph

/-! ## Replaced settings -/

/-- The setting `b` stands for the setting `a` that a graph was built with: streamed if `a` is, else of the same value. -/
structure OptimizerValue.Follows (a b : OptimizerValue) : Prop where
  isConst : b.isConst = a.isConst
  value : a.isConst = true → a.value = b.value ∨ a.value.numEq b.value = true

namespace OptimizerValue.Follows

variable {a b c : OptimizerValue}

theorem refl (a : OptimizerValue) : Follows a a := ⟨rfl, fun _ => .inl rfl⟩

theorem of_replaceableBy (h : a.replaceableBy b = true) : Follows a b := by
  rw [replaceableBy, Bool.and_eq_true, Bool.or_eq_true, beq_iff_eq, Bool.not_eq_true'] at h
  exact ⟨h.1.symm, fun hconst => .inr (h.2.resolve_left (by rw [hconst]; nofun))⟩

theorem trans (h : Follows a b) (h' : Follows b c) : Follows a c := by
  refine ⟨h'.isConst.trans h.isConst, fun hconst => ?_⟩
  rcases h.value hconst with heq | hab <;> rcases h'.value (h.isConst.trans hconst) with heq' | hbc
  · exact .inl (heq.trans heq')
  · exact .inr (heq ▸ hbc)
  · exact .inr (heq' ▸ hab)
  · exact .inr (Single.numEq_trans hab hbc)

end OptimizerValue.Follows

/-- Each setting of `b` stands for that of `a`. -/
structure Sgd.Follows (a b : Sgd) : Prop where
  learningRate : a.learningRate.Follows b.learningRate
  weightDecay : a.weightDecay.Follows b.weightDecay
  lossScaling : a.lossScaling.Follows b.lossScaling

namespace Sgd.Follows

variable {a b c : Sgd}

theorem refl (a : Sgd) : Follows a a := ⟨.refl _, .refl _, .refl _⟩

theorem of_replaceableBy (h : a.replaceableBy b = true) : Follows a b := by
  simp only [replaceableBy, Bool.and_eq_true] at h
  exact ⟨.of_replaceableBy h.1.1, .of_replaceableBy h.1.2, .of_replaceableBy h.2⟩

theorem trans (h : Follows a b) (h' : Follows b c) : Follows a c :=
  ⟨h.learningRate.trans h'.learningRate, h.weightDecay.trans h'.weightDecay, h.lossScaling.trans h'.lossScaling⟩

theorem values (h : Follows a b) : List.Forall₂ (fun x y => x.1 = y.1 ∧ x.2.Follows y.2) a.values b.values :=
  .cons ⟨rfl, h.learningRate⟩ (.cons ⟨rfl, h.weightDecay⟩ (.cons ⟨rfl, h.lossScaling⟩ .nil))

end Sgd.Follows

/-- A setting is found under its name. -/
theorem Sgd.lookup_values (o : Sgd) {id : TensorId} {v : OptimizerValue} (h : (id, v) ∈ o.values) :
    o.values.lookup id = some v := by
  rcases List.mem_cons.1 h with h | h
  · cases h
    rfl
  rcases List.mem_cons.1 h with h | h
  · cases h
    rfl
  · cases List.mem_singleton.1 h
    rfl

namespace Session

variable {V : HostTensor → Prop} {s t u : Session} {r : Runtime} {o : Sgd}

/-! ## Settings on the device -/

/-- The settings that the session `t`, which has come from `s`, has and has put on the device. -/
structure Tuned (s t : Session) : Prop where
  trains : t.optimizer.isSome = s.optimizer.isSome
  optimizer : ∀ o, t.optimizer = some o → ∃ o₀, s.optimizer = some o₀ ∧ o₀.Follows o
  uploaded : t.optimizerUploaded = true → ∀ r o, t.engine = some r → t.optimizer = some o →
    ∀ id v, (id, v) ∈ o.values → v.isConst = false → r.memory.tensor? id = some (.ofSingle v.value)

theorem Opened.tuned (h : s.Opened) : Tuned s s :=
  ⟨rfl, fun o ho => ⟨o, ho, .refl o⟩, fun hup => absurd (h.optimizerUploaded.symm.trans hup) nofun⟩

/-- The tensor of a setting is what the session was opened with. -/
theorem Tuned.setting (h : Tuned s t) (hs : s.Opened) (ho : t.optimizer = some o) {id : TensorId} {v : OptimizerValue}
    (hv : (id, v) ∈ o.values) :
    ∃ (v₀ : OptimizerValue) (x : Tensor), v₀.Follows v ∧ s.graph.tensor? id = some x ∧ x.given = v₀.given := by
  obtain ⟨o₀, ho₀, hfollows⟩ := h.optimizer o ho
  obtain ⟨⟨id₀, v₀⟩, hv₀, heq, hfollowed⟩ := exists_of_forall₂ hfollows.values.flip _ hv
  obtain rfl : id₀ = id := heq
  obtain ⟨-, x, hx, hgiven⟩ := hs.serving.holds.setting (id₀, v₀) (by rwa [settings, ho₀])
  exact ⟨v₀, x, hfollowed, hx, hgiven⟩

theorem Tuned.streamed (h : Tuned s t) (hs : s.Opened) (ho : t.optimizer = some o) {id : TensorId} {v : OptimizerValue}
    (hv : (id, v) ∈ o.values) (hconst : v.isConst = false) :
    ∃ x, s.graph.tensor? id = some x ∧ x.type = .optimizerStream := by
  obtain ⟨v₀, x, hfollowed, hx, hgiven⟩ := h.setting hs ho hv
  refine ⟨x, hx, (congrArg (·.1) hgiven).trans ?_⟩
  rw [OptimizerValue.given, if_neg]
  rw [← hfollowed.isConst, hconst]
  exact Bool.false_ne_true

/-- A value that is set at a weight is set at no streamed setting. -/
theorem Tuned.weight_ne (h : Tuned s t) (hs : s.Opened) (hd : Descends s t) (ho : t.optimizer = some o)
    {id w : TensorId} {v : OptimizerValue} (hv : (id, v) ∈ o.values) (hconst : v.isConst = false) {current : HostTensor}
    (hw : t.hostWeights.get? w = some current) : w ≠ id := by
  rintro rfl
  obtain ⟨x, hx, hstream⟩ := h.streamed hs ho hv hconst
  obtain ⟨y, hy, hweight⟩ := (hd.hostWeight_iff hs).1 ⟨current, hw⟩
  cases hx.symm.trans hy
  rw [hstream] at hweight
  cases hweight

/-- Settings that are on the device stay there while a program is fed and run. -/
theorem Tuned.driven (h : Tuned s t) (hs : s.Opened) (hd : Descends s t) (hup : t.optimizerUploaded = true)
    (hr : t.engine = some r) (ho : t.optimizer = some o) {id : TensorId} {v : OptimizerValue} (hv : (id, v) ∈ o.values)
    (hconst : v.isConst = false) {mode : RunMode} {r' : Runtime} (hdriven : Runtime.Driven mode r r') :
    r'.memory.tensor? id = some (.ofSingle v.value) := by
  have hserves := (hd.compiled r hr).serves hs
  obtain ⟨x, hx, hstream⟩ := h.streamed hs ho hv hconst
  exact hserves.driven (X := (· = some (.ofSingle v.value))) hx (by rw [hstream]; nofun) (by rw [hstream]; nofun)
    (.inr (by rw [hstream]; nofun)) hdriven (h.uploaded hup r o hr ho id v hv hconst)

/-- Settings that are on the device stay there when weights are put there. -/
theorem Tuned.turn (hs : s.Opened) (hd : Descends s t) (h : Tuned s t) (hturn : Turn True V t u) : Tuned s u := by
  have hserves : ∀ {r}, t.engine = some r → r.executable.Serves s.graph := fun hr => (hd.compiled _ hr).serves hs
  cases hturn with
  | note => exact ⟨h.trains, h.optimizer, h.uploaded⟩
  | place hc hit halong =>
    have hnone := hd.constructed hc
    obtain ⟨-, -, hsame⟩ := halong
    generalize u.graph = g, u.log = log at hsame
    subst hsame
    exact ⟨h.trains, h.optimizer, fun _ r _ hr => absurd (hnone.symm.trans hr) nofun⟩
  | prepare p _ hp =>
    have hoff := (hd.unloaded (hd.constructed hp.constructed)).2
    obtain ⟨-, -, -, hsame, -⟩ := hp
    rw [hsame]
    exact ⟨h.trains, h.optimizer, fun hup => absurd (hoff.symm.trans hup) nofun⟩
  | @uploadWeights r hr =>
    refine ⟨h.trains, h.optimizer, fun hup r' o hr' ho id v hv hconst => ?_⟩
    cases hr'
    refine Runtime.withValues_at (X := (· = some (.ofSingle v.value))) (fun iv hiv heq => ?_)
      (.inl (h.uploaded hup r o hr ho id v hv hconst))
    exact absurd heq (h.weight_ne hs hd ho hv hconst (Dict.mem_entries.1 hiv))
  | @uploadOptimizer r o hr ho =>
    refine ⟨h.trains, h.optimizer, fun _ r' o' hr' ho' id v hv hconst => ?_⟩
    cases hr'
    cases ho.symm.trans ho'
    have hlookup := o.lookup_values hv
    obtain ⟨x, hx, hstream⟩ := h.streamed hs ho hv hconst
    refine Runtime.withValues_at (X := (· = some (.ofSingle v.value))) (fun iv hiv heq => ?_) (.inr ?_)
    · obtain ⟨ti, -, hti⟩ := List.mem_filterMap.1 hiv
      obtain ⟨v', hv', rfl⟩ := Option.map_eq_some_iff.1 hti
      obtain rfl : ti.1 = id := heq
      cases hlookup.symm.trans hv'
      rfl
    · refine ⟨(id, .ofSingle v.value), List.mem_filterMap.2 ⟨(id, x.info), ?_, by rw [hlookup]; rfl⟩, rfl⟩
      exact ((hserves hr).settings _).2 ⟨x, hx, hstream, rfl⟩
  | @updateOptimizer o o' ho hreplace =>
    refine ⟨?_, fun o₁ ho₁ => ?_, nofun⟩
    · rw [← h.trains, ho]
      rfl
    cases ho₁
    obtain ⟨o₀, ho₀, hfollows⟩ := h.optimizer o ho
    exact ⟨o₀, ho₀, hfollows.trans (.of_replaceableBy hreplace)⟩
  | @writeWeight _ w current value hid =>
    refine ⟨h.trains, h.optimizer, fun hup r' o hr' ho id v hv hconst => ?_⟩
    change (if _ then _ else _) = _ at hr'
    split at hr'
    · obtain ⟨r, hr, rfl⟩ := Option.map_eq_some_iff.1 hr'
      change (r.memory.store w value).tensor? id = _
      rw [DeviceMemory.tensor?_store, if_neg (h.weight_ne hs hd ho hv hconst hid)]
      exact h.uploaded hup r o hr ho id v hv hconst
    · exact h.uploaded hup r' o hr' ho id v hv hconst
  | resetWeight => exact ⟨h.trains, h.optimizer, h.uploaded⟩
  | @serve mode _ r r' hr hdriven =>
    refine ⟨h.trains, h.optimizer, fun hup r₁ o hr₁ ho id v hv hconst => ?_⟩
    cases hr₁
    exact h.driven hs hd hup hr ho hv hconst hdriven

end Session

/-! ## Settings that training reads -/

/-- A program is built for an optimizer: the settings that it takes are the streamed ones, and the others are constants
of the same value. -/
structure Executable.BuiltFor (e : Executable) (o : Sgd) : Prop where
  streams : ∀ id, id ∈ e.optimizerStreams.map (·.1) ↔ ∃ v, (id, v) ∈ o.values ∧ v.isConst = false
  constants : ∀ id v, (id, v) ∈ o.values → v.isConst = true →
    ∃ x : Single, (x = v.value ∨ x.numEq v.value = true) ∧ ∀ y, (id, y) ∈ e.constants ↔ y = .ofSingle x

namespace Session

variable {s t : Session} {r : Runtime} {o : Sgd}

theorem Tuned.builtFor (h : Tuned s t) (hs : s.Opened) (hd : Descends s t) (hr : t.engine = some r)
    (ho : t.optimizer = some o) : r.executable.BuiltFor o := by
  have hserves := (hd.compiled r hr).serves hs
  refine ⟨fun id => ⟨fun hid => ?_, fun ⟨v, hv, hconst⟩ => ?_⟩, fun id v hv hconst => ?_⟩
  · obtain ⟨ti, hti, rfl⟩ := List.mem_map.1 hid
    obtain ⟨x, hx, hstream, -⟩ := (hserves.settings ti).1 hti
    obtain ⟨hweight, -⟩ | ⟨-, v₀, hv₀, hconst⟩ := hs.serving.holds.held hx (by rw [hstream]; rfl)
    · rw [hstream] at hweight
      cases hweight
    obtain ⟨o₀, ho₀, hfollows⟩ := h.optimizer o ho
    rw [settings, ho₀] at hv₀
    obtain ⟨⟨id, v⟩, hv, heq, hfollowed⟩ := exists_of_forall₂ hfollows.values _ hv₀
    obtain rfl : ti.1 = id := heq
    exact ⟨v, hv, hfollowed.isConst.trans hconst⟩
  · obtain ⟨x, hx, hstream⟩ := h.streamed hs ho hv hconst
    exact List.mem_map.2 ⟨(id, x.info), (hserves.settings _).2 ⟨x, hx, hstream, rfl⟩, rfl⟩
  · obtain ⟨v₀, x, hfollowed, hx, hgiven⟩ := h.setting hs ho hv
    have hfixed : v₀.isConst = true := hfollowed.isConst.symm.trans hconst
    rw [OptimizerValue.given, if_pos hfixed] at hgiven
    refine ⟨v₀.value, hfollowed.value hfixed, fun y => (hserves.constants id y).trans ⟨?_, ?_⟩⟩
    · rintro ⟨x', hx', -, hdata⟩
      cases hx.symm.trans hx'
      exact Option.some.inj (hdata.symm.trans (congrArg (·.2.2) hgiven))
    · rintro rfl
      exact ⟨x, hx, congrArg (·.1) hgiven, congrArg (·.2.2) hgiven⟩

/-- Once settings were put on the device, all that a program streams are there. -/
theorem Tuned.isSome (h : Tuned s t) (hs : s.Opened) (hd : Descends s t) (hr : t.engine = some r)
    (hup : t.optimizerUploaded = true) {ti : TensorId × TensorInfo} (hti : ti ∈ r.executable.optimizerStreams) :
    (r.memory.tensor? ti.1).isSome = true := by
  obtain ⟨x, hx, hstream, -⟩ := (((hd.compiled r hr).serves hs).settings ti).1 hti
  obtain ⟨hweight, -⟩ | ⟨-, v₀, hv₀, -⟩ := hs.serving.holds.held hx (by rw [hstream]; rfl)
  · cases hstream.symm.trans hweight
  -- there are settings only where there is an optimizer
  have htrains : t.optimizer.isSome = true := by
    rw [h.trains]
    cases ho : s.optimizer with
    | some _ => rfl
    | none =>
      rw [settings, ho] at hv₀
      exact absurd hv₀ List.not_mem_nil
  obtain ⟨o, ho⟩ := Option.isSome_iff_exists.1 htrains
  obtain ⟨v, hv, hconst⟩ := ((h.builtFor hs hd hr ho).streams ti.1).1 (List.mem_map_of_mem hti)
  rw [h.uploaded hup r o hr ho ti.1 v hv hconst]
  rfl

theorem weights_of_checkCanRun {mode : RunMode} (h : t.checkCanRun mode = .ok r) :
    t.weightsUploaded = true ∨ ∀ id v, t.hostWeights.get? id ≠ some v := by
  obtain ⟨r', -, h⟩ := Outcome.bind_eq_ok.1 h
  split at h
  · cases h
  split at h
  · cases h
  split at h
  · cases h
  rename_i huploaded
  rw [not_and_or, Bool.not_eq_false, Bool.not_eq_false] at huploaded
  refine huploaded.imp_right fun hnone id v hv => ?_
  have hmem : (id, v) ∈ t.hostWeights.entries := Dict.mem_entries.2 hv
  rw [List.isEmpty_iff.1 hnone] at hmem
  exact absurd hmem List.not_mem_nil

theorem optimizer_of_checkCanRun (h : t.checkCanRun .train = .ok r) : ∃ o, t.optimizer = some o ∧
    (t.optimizerUploaded = true ∨ r.executable.optimizerStreams = []) := by
  obtain ⟨r', -, h⟩ := Outcome.bind_eq_ok.1 h
  split at h
  · cases h
  rename_i htraining
  split at h
  · cases h
  split at h
  · cases h
  split at h
  · cases h
  rename_i huploaded
  cases h
  simp only [true_and, Bool.not_eq_false, isTraining, Option.isSome_iff_exists] at htraining
  obtain ⟨o, ho⟩ := htraining
  refine ⟨o, ho, ?_⟩
  rw [← List.isEmpty_iff]
  simpa [imp_iff_not_or, or_comm] using huploaded

end Session

end TensorGraph
