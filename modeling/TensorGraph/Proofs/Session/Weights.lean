import TensorGraph.Proofs.Session.Programs

/-!
The weights of a session. All that is ever given to a weight fits it: values of the host are checked, and the results of
updates have as many elements of the width that they are asked for. Where weights are neither replaced nor trained they
stay what the model says.
-/
namespace TensorGraph

variable {g : Graph} {e : Executable} {t : TensorId} {x : Tensor} {info : TensorInfo} {xs ys : List HostTensor}
  {y : HostTensor} {name : String}

/-! ## Updates -/

namespace Backend

theorem kind_ofDoubles (k : StorageKind) (v : List Double) : (Storage.ofDoubles k v).kind = k := by
  cases k <;> rfl

/-- The result of an update fits the info that it is asked for. -/
theorem run_update (h : run .sgdVarUpdate xs info = .ok y) : HostTensor.ofStorage info y.data = .ok y := by
  obtain ⟨plan, hplan, h⟩ := Outcome.bind_eq_ok.1 h
  obtain ⟨result, hresult, h⟩ := Outcome.bind_eq_ok.1 h
  obtain ⟨count, hcount, h⟩ := Outcome.bind_eq_ok.1 h
  split at h
  · cases h
  rename_i hlen
  cases h
  obtain ⟨values, rfl⟩ : ∃ values, plan = .values values := by
    simp only [Kernel.plan] at hplan
    split at hplan
    · obtain ⟨values, -, hplan⟩ := Outcome.bind_eq_ok.1 hplan
      cases hplan
      exact ⟨values, rfl⟩
    · cases hplan
  obtain ⟨values, -, hresult⟩ := Outcome.bind_eq_ok.1 hresult
  cases hresult
  have hfits : (Storage.ofDoubles info.dtype.storage values).fits info.dtype = true :=
    beq_iff_eq.2 (kind_ofDoubles ..)
  refine Outcome.bind_eq_ok.2 ⟨count, hcount, ?_⟩
  rw [if_neg hlen, if_neg (by rw [hfits]; nofun)]
  rfl

theorem runAll_update (h : (reference name).execute .sgdVarUpdate xs [info] = .ok ys) :
    ∃ y, ys = [y] ∧ HostTensor.ofStorage info y.data = .ok y := by
  obtain ⟨y, hy, h⟩ := Outcome.bind_eq_ok.1 h
  cases h
  exact ⟨y, rfl, run_update hy⟩

theorem runInPlace_update {shared : Bool} {target : HostTensor}
    (h : (reference name).executeInPlace .sgdVarUpdate target shared xs info = .ok y) :
    HostTensor.ofStorage info y.data = .ok y := by
  change runInPlace .sgdVarUpdate target shared xs info = .ok y at h
  simp only [runInPlace] at h
  split at h
  · exact run_update h
  · exact run_update h

end Backend

/-! ## Values of weights -/

namespace Executable

/-- The tensor is a weight, or a program makes the updated value of one there. -/
def Weighty (e : Executable) (g : Graph) (t : TensorId) : Prop :=
  (∃ x, g.tensor? t = some x ∧ x.type = .weight) ∨ ∃ w, (t, w) ∈ e.updates

/-- The value fits the tensor if this is a weight or the updated value of one. -/
def Suits (e : Executable) (g : Graph) (t : TensorId) (v : HostTensor) : Prop :=
  e.Weighty g t → ∀ info, g.info? t = some info → HostTensor.ofStorage info v.data = .ok v

/-- A step makes nothing weighty but updates, which have the info of the tensor. -/
theorem Serves.weighty_output (h : e.Serves g) {p : Phase} {c : CompiledOp} (hc : c ∈ e.fragment p) (ht : t ∈ c.outputs)
    (hw : e.Weighty g t) : c.kind = .sgdVarUpdate ∧ ∀ info, g.info? t = some info → c.infos = [info] := by
  rcases hw with ⟨x, hx, htype⟩ | ⟨w, hw⟩
  · exact absurd ht (h.outputs hx (by rw [htype]; nofun) p c hc)
  · obtain ⟨x, y, -, -, hy, -, hinfo, hall⟩ := h.updates hw
    obtain ⟨hkind, hinfos⟩ := hall p c hc ht
    refine ⟨hkind, fun info hknown => ?_⟩
    rw [Graph.info?, hy, Option.map_some, Option.some.injEq] at hknown
    rw [hinfos, ← hinfo, hknown]

theorem Serves.gives (h : e.Serves g) : (Backend.reference name).Gives e (e.Suits g) := by
  refine ⟨fun {p c xs ys} hc hys ty hty hw info hinfo => ?_, fun {p c t xs ys y} hc hout hys hy hw info hinfo => ?_,
    fun {p c t x shared rest info' y} hc hout hinfos _ hy hw info hinfo => ?_, fun {u w v} huw hv hw info hinfo => ?_⟩
  · obtain ⟨ht, hmem⟩ := List.of_mem_zip hty
    obtain ⟨hkind, hinfos⟩ := h.weighty_output hc ht hw
    rw [hkind, hinfos info hinfo] at hys
    obtain ⟨y, rfl, hy⟩ := Backend.runAll_update hys
    rwa [List.mem_singleton.1 hmem]
  · obtain ⟨hkind, hinfos⟩ := h.weighty_output hc (hout ▸ List.mem_singleton_self t) hw
    rw [hkind, hinfos info hinfo] at hys
    obtain ⟨y', rfl, hy'⟩ := Backend.runAll_update hys
    cases hy
    exact hy'
  · obtain ⟨hkind, hknown⟩ := h.weighty_output hc (hout ▸ List.mem_singleton_self t) hw
    rw [hknown info hinfo, List.singleton_inj] at hinfos
    rw [hkind, ← hinfos] at hy
    exact Backend.runInPlace_update hy
  · obtain ⟨x, z, hx, -, hz, -, hsame, -⟩ := h.updates huw
    rw [Graph.info?, hx, Option.map_some, Option.some.injEq] at hinfo
    refine hv (.inr ⟨w, huw⟩) info ?_
    rw [Graph.info?, hz, Option.map_some, hsame, hinfo]

/-- What is neither a weight nor computed is not weighty. -/
theorem Serves.not_weighty (h : e.Serves g) (hx : g.tensor? t = some x) (hweight : x.type ≠ .weight)
    (hcomputed : x.type ≠ .actGrad) : ¬ e.Weighty g t := by
  rintro (⟨y, hy, htype⟩ | ⟨w, hw⟩)
  · cases hx.symm.trans hy
    exact hweight htype
  · obtain ⟨-, y, -, -, hy, htype, -⟩ := h.updates hw
    cases hx.symm.trans hy
    exact hcomputed htype

end Executable

/-! ## Weights through calls -/

/-- The value may be given to the weight of an initializer: it has the same info, and as many elements of its width. -/
def NamedTensor.Takes (init : NamedTensor) (v : HostTensor) : Prop := HostTensor.ofStorage init.info v.data = .ok v

namespace NamedTensor.Takes

variable {init : NamedTensor} {v : HostTensor}

theorem eq (h : init.Takes v) : v = ⟨init.info, v.data⟩ := (HostTensor.ofStorage_ok h).1

theorem of_checked (h : v.Checked) (hinfo : v.info = init.info) : init.Takes v := by
  rw [Takes, ← hinfo]
  exact h

end NamedTensor.Takes

namespace Session

variable {W : Prop} {V : HostTensor → Prop} {s t u : Session} {init : NamedTensor} {v : HostTensor} {r r' : Runtime} {id : TensorId}
  {P : NamedTensor → HostTensor → Prop}

/-- The weights in the session `t`, which has come from `s`: the host has a value for each, and so has the device once
weights were put there, and these values satisfy `P`. All that is in memory fits the weight that it is for. -/
structure Weighed (P : NamedTensor → HostTensor → Prop) (s t : Session) : Prop where
  host : ∀ init ∈ s.model.initializers, ∃ v, t.hostWeights.get? init.name = some v ∧ P init v
  loaded : ∀ r, t.engine = some r →
    r.Valued (.reference s.device.device.type.word) r.executable (r.executable.Suits s.graph)
  device : t.weightsUploaded = true → ∀ r, t.engine = some r → ∀ init ∈ s.model.initializers,
    ∃ v, r.memory.tensor? init.name = some v ∧ P init v

theorem Opened.initializer (hs : s.Opened) (hinit : init ∈ s.model.initializers) :
    ∃ x, s.graph.tensor? init.name = some x ∧ x.type = .weight ∧ x.info = init.info := by
  obtain ⟨x, hx, hgiven⟩ := hs.serving.holds.weight init hinit
  exact ⟨x, hx, congrArg (·.1) hgiven, congrArg (·.2.1) hgiven⟩

theorem Opened.initializer_inj (hs : s.Opened) {init' : NamedTensor} (hinit : init ∈ s.model.initializers)
    (hinit' : init' ∈ s.model.initializers) (hname : init.name = init'.name) : init = init' :=
  List.inj_on_of_nodup_map hs.serving.holds.names hinit hinit' hname

/-- The host has values for the initializers, and for nothing else. -/
theorem Descends.initializer_iff (hs : s.Opened) (hd : Descends s t) :
    (∃ v, t.hostWeights.get? id = some v) ↔ ∃ init ∈ s.model.initializers, init.name = id := by
  rw [hd.hostWeight_iff hs]
  constructor
  · rintro ⟨x, hx, htype⟩
    obtain ⟨init, hinit, hname, -⟩ := hs.weight hx htype
    exact ⟨init, hinit, hname⟩
  · rintro ⟨init, hinit, rfl⟩
    obtain ⟨x, hx, htype, -⟩ := hs.initializer hinit
    exact ⟨x, hx, htype⟩

namespace Weighed

theorem of_host (h : Weighed P s t) (hs : s.Opened) (hd : Descends s t) (hid : t.hostWeights.get? id = some v) :
    ∃ init ∈ s.model.initializers, init.name = id ∧ P init v := by
  obtain ⟨init, hinit, rfl⟩ := (hd.initializer_iff hs).1 ⟨v, hid⟩
  obtain ⟨v', hv', hP⟩ := h.host init hinit
  cases hid.symm.trans hv'
  exact ⟨init, hinit, rfl, hP⟩

/-- A value that may be given to a weight may stand in memory. -/
theorem suits (hs : s.Opened) (hinit : init ∈ s.model.initializers) (h : init.Takes v) : e.Suits s.graph init.name v := by
  intro _ info hinfo
  obtain ⟨x, hx, -, hsame⟩ := hs.initializer hinit
  rw [Graph.info?, hx, Option.map_some, Option.some.injEq, hsame] at hinfo
  rw [← hinfo]
  exact h

/-- A weight that is given another value on the host. -/
theorem insert (h : ∀ init ∈ s.model.initializers, ∃ v, t.hostWeights.get? init.name = some v ∧ P init v)
    (hP : ∀ init ∈ s.model.initializers, init.name = id → P init v) :
    ∀ init ∈ s.model.initializers, ∃ v', (t.hostWeights.insert id v).get? init.name = some v' ∧ P init v' := by
  intro init hinit
  rw [Dict.get?_insert]
  split
  · rename_i heq
    exact ⟨v, rfl, hP init hinit heq.symm⟩
  · exact h init hinit

/-- Feeding a program and running it keeps the weights on the device, or gives them what fits them. -/
theorem driven (h : Weighed P s t) (hs : s.Opened) (hd : Descends s t) {mode : RunMode}
    (hP : ∀ init v, mode = .train → init.Takes v → P init v) (hr : t.engine = some r) (hdriven : Runtime.Driven mode r r') :
    r'.Valued (.reference s.device.device.type.word) r'.executable (r'.executable.Suits s.graph) ∧
      (t.weightsUploaded = true → ∀ init ∈ s.model.initializers,
        ∃ v, r'.memory.tensor? init.name = some v ∧ P init v) := by
  have hserves := (hd.compiled r hr).serves hs
  have hsound := hs.serving.steady.sound
  have hvalued : r'.Valued (.reference s.device.device.type.word) r.executable (r.executable.Suits s.graph) := by
    refine hdriven.valued hserves.gives (fun ti hti v _ hw => absurd hw ?_) (h.loaded r hr)
    obtain ⟨x, hx, hstream⟩ := hserves.streams ti hti
    exact hserves.not_weighty hx (by rw [hstream]; nofun) (by rw [hstream]; nofun)
  refine ⟨by rwa [hdriven.same.2], fun hup init hinit => ?_⟩
  obtain ⟨v, hv, hPv⟩ := h.device hup r hr init hinit
  obtain ⟨x, hx, hweight, hinfo⟩ := hs.initializer hinit
  have hsource : x.type ≠ .actGrad := by rw [hweight]; nofun
  have hfed : x.type ≠ .stream := by rw [hweight]; nofun
  by_cases hmode : mode = .train
  · -- an update may have given it any value that fits
    have hsome := hserves.driven (X := (·.isSome = true)) hx hsource hfed (.inl fun _ => rfl) hdriven (by rw [hv]; rfl)
    obtain ⟨v', hv'⟩ := Option.isSome_iff_exists.1 hsome
    refine ⟨v', hv', hP init v' hmode (hvalued.values hv' (.inl ⟨x, hx, hweight⟩) init.info ?_)⟩
    rw [Graph.info?, hx, Option.map_some, hinfo]
  · exact ⟨v, (hdriven.at (X := (· = some v)) (hserves.not_fed hx hfed)
      (.runBatch_untrained (hserves.spares hx hsource) (hserves.outputs hx hsource) hmode) ⟨rfl, hv⟩).value, hPv⟩

/-- A program is loaded: its constants are no weights. -/
theorem prepared (h : Weighed P s t) (hs : s.Opened) (hd : Descends s t) {p : Platform}
    (hfound : ∀ e h, findEngine.run ⟨p, t⟩ = (.ok (some e), h) → t.Compiles e) (hp : Prepared ⟨p, t⟩ u) :
    Weighed P s u := by
  have hnone := hd.constructed hp.constructed
  have hd' := hd.prepared hs.serving.steady hfound hp
  refine ⟨fun init hinit => ?_, fun r hr => ?_, fun hup r hr => ?_⟩
  · rw [hp.same]
    exact h.host init hinit
  · have hserves := (hd'.compiled r hr).serves hs
    rcases hp.engine with ⟨-, heq⟩ | ⟨e, heq, -⟩
    · exact absurd (hr.symm.trans (heq.trans hnone)) nofun
    cases hr.symm.trans heq
    rw [← hd.device]
    refine .load fun kv hkv hw => absurd hw ?_
    obtain ⟨x, hx, hconst, -⟩ := (hserves.constants kv.1 kv.2).1 hkv
    exact hserves.not_weighty hx (by rw [hconst]; nofun) (by rw [hconst]; nofun)
  · rw [hp.same] at hup
    exact absurd ((hd.unloaded hnone).1.symm.trans hup) nofun

/-- The weights of the host are put on the device. -/
theorem weightsUploaded (h : Weighed P s t) (hs : s.Opened) (hd : Descends s t)
    (htakes : ∀ init ∈ s.model.initializers, ∀ v, P init v → init.Takes v) (hr : t.engine = some r) :
    Weighed P s { t with engine := some (r.withValues t.hostWeights.entries), weightsUploaded := true } := by
  have hvalues : ∀ iv ∈ t.hostWeights.entries, ∃ init ∈ s.model.initializers, init.name = iv.1 ∧ P init iv.2 :=
    fun iv hiv => h.of_host hs hd (Dict.mem_entries.1 hiv)
  refine ⟨h.host, fun r' hr' => ?_, fun _ r' hr' init hinit => ?_⟩ <;> cases hr'
  · rw [(Runtime.same_withValues _ _).2]
    refine (h.loaded r hr).withValues fun iv hiv => ?_
    obtain ⟨init, hinit, hname, hPv⟩ := hvalues iv hiv
    exact hname ▸ suits hs hinit (htakes init hinit iv.2 hPv)
  · obtain ⟨v, hv, hPv⟩ := h.host init hinit
    refine Runtime.withValues_at (X := fun x => ∃ v, x = some v ∧ P init v) (fun iv hiv heq => ⟨iv.2, rfl, ?_⟩)
      (.inr ⟨(init.name, v), Dict.mem_entries.2 hv, rfl⟩)
    obtain ⟨init', hinit', hname, hPv'⟩ := hvalues iv hiv
    rwa [← hs.initializer_inj hinit' hinit (hname.trans heq)]

/-- The settings of an optimizer are put on the device: they are no weights. -/
theorem settingsUploaded (h : Weighed P s t) (hs : s.Opened) (hd : Descends s t) {o : Sgd} (hr : t.engine = some r) :
    Weighed P s { t with engine := some (r.withValues (o.streamedValues r.executable)), optimizerUploaded := true } := by
  have hserves := (hd.compiled r hr).serves hs
  have hstream : ∀ iv ∈ o.streamedValues r.executable, ∃ x, s.graph.tensor? iv.1 = some x ∧ x.type = .optimizerStream := by
    intro iv hiv
    obtain ⟨ti, hti, hiv⟩ := List.mem_filterMap.1 hiv
    obtain ⟨_, -, rfl⟩ := Option.map_eq_some_iff.1 hiv
    obtain ⟨x, hx, htype, -⟩ := (hserves.settings ti).1 hti
    exact ⟨x, hx, htype⟩
  refine ⟨h.host, fun r' hr' => ?_, fun hup r' hr' init hinit => ?_⟩ <;> cases hr'
  · rw [(Runtime.same_withValues _ _).2]
    refine (h.loaded r hr).withValues fun iv hiv hw => absurd hw ?_
    obtain ⟨x, hx, htype⟩ := hstream iv hiv
    exact hserves.not_weighty hx (by rw [htype]; nofun) (by rw [htype]; nofun)
  · refine Runtime.withValues_at (X := fun x => ∃ v, x = some v ∧ P init v) (fun iv hiv heq => ?_)
      (.inl (h.device hup r hr init hinit))
    obtain ⟨x, hx, htype⟩ := hstream iv hiv
    obtain ⟨y, hy, hweight, -⟩ := hs.initializer hinit
    rw [heq, hy, Option.some.injEq] at hx
    rw [← hx, hweight] at htype
    cases htype

/-- A weight is given another value, on the host and, once weights were put there, on the device. -/
theorem written (h : Weighed P s t) (hs : s.Opened) (hinit : init ∈ s.model.initializers) (htaken : init.Takes v)
    (hP : P init v) : Weighed P s { t with
      hostWeights := t.hostWeights.insert init.name v
      engine := if t.weightsUploaded then t.engine.map (·.upload init.name v) else t.engine } := by
  have hvalue : ∀ init' ∈ s.model.initializers, init'.name = init.name → P init' v := fun init' hinit' hname =>
    hs.initializer_inj hinit hinit' hname.symm ▸ hP
  refine ⟨insert h.host hvalue, fun r' hr' => ?_, fun hup r' hr' init' hinit' => ?_⟩ <;>
    change (if _ then _ else _) = _ at hr'
  · split at hr'
    · obtain ⟨r, hr, rfl⟩ := Option.map_eq_some_iff.1 hr'
      exact (h.loaded r hr).upload (suits hs hinit htaken)
    · exact h.loaded r' hr'
  · rw [if_pos hup] at hr'
    obtain ⟨r, hr, rfl⟩ := Option.map_eq_some_iff.1 hr'
    change ∃ x, (r.memory.store init.name v).tensor? init'.name = some x ∧ P init' x
    rw [DeviceMemory.tensor?_store]
    split
    · rename_i heq
      exact ⟨v, rfl, hvalue init' hinit' heq.symm⟩
    · exact h.device hup r hr init' hinit'

/-- No turn gives a weight a value that does not fit it, and none gives it any other value unless weights may change. -/
theorem turn (hs : s.Opened) (hd : Descends s t) (htakes : ∀ init ∈ s.model.initializers, ∀ v, P init v → init.Takes v)
    (hV : ∀ v, V v → v.Checked) (hP : W → ∀ init v, init.Takes v → P init v) (h : Weighed P s t) (hturn : Turn W V t u) :
    Weighed P s u := by
  cases hturn with
  | note => exact ⟨h.host, h.loaded, h.device⟩
  | place hc hit halong =>
    have hnone := hd.constructed hc
    obtain ⟨-, -, hsame⟩ := halong
    generalize u.graph = g, u.log = log at hsame
    subst hsame
    exact ⟨h.host, fun r hr => absurd (hnone.symm.trans hr) nofun, fun _ r hr => absurd (hnone.symm.trans hr) nofun⟩
  | prepare p hfound hp => exact h.prepared hs hd hfound hp
  | uploadWeights hr => exact h.weightsUploaded hs hd htakes hr
  | uploadOptimizer hr ho => exact h.settingsUploaded hs hd hr
  | updateOptimizer => exact ⟨h.host, h.loaded, h.device⟩
  | @writeWeight hw id current value hid hinfo hvalue =>
    obtain ⟨init, hinit, rfl, hcurrent⟩ := h.of_host hs hd hid
    have htaken : init.Takes value :=
      .of_checked (hV value hvalue) (hinfo.symm.trans (congrArg HostTensor.info (htakes _ hinit _ hcurrent).eq))
    exact h.written hs hinit htaken (hP hw init value htaken)
  | @resetWeight hw given current value hid hinfo hvalue =>
    obtain ⟨init₀, hinit₀, hname, hcurrent⟩ := h.of_host hs hd hid
    have hsame : given.info = init₀.info := hinfo.symm.trans (congrArg HostTensor.info (htakes _ hinit₀ _ hcurrent).eq)
    have htaken : init₀.Takes value := by
      obtain ⟨rfl, -⟩ := HostTensor.ofStorage_ok hvalue
      rw [hsame] at hvalue ⊢
      exact hvalue
    refine ⟨insert h.host fun init hinit heq => ?_, h.loaded, h.device⟩
    exact hs.initializer_inj hinit₀ hinit (hname.trans heq.symm) ▸ hP hw init₀ value htaken
  | @serve mode hw r r' hr hdriven =>
    obtain ⟨hloaded, hdevice⟩ := h.driven hs hd (fun init v hmode => hP (hw hmode) init v) hr hdriven
    refine ⟨h.host, fun r₁ hr₁ => ?_, fun hup r₁ hr₁ => ?_⟩ <;> cases hr₁
    · exact hloaded
    · exact hdevice hup

end Weighed

end Session

end TensorGraph
