import TensorGraph.Proofs.Engine.Coverage
import TensorGraph.Proofs.Engine.Labels
import TensorGraph.Proofs.Engine.Supply
import TensorGraph.Proofs.Session.Standing
import TensorGraph.Proofs.Tensor.Host

/-!
What the programs of a session do to the tensors that no op computes. Streams are fed, weights are given updated values,
and everything else has the value that it was last given, whatever runs. Whatever calls a session is given, its program
is one of its graph, values have the infos of their tensors, and constants and weights stay on the device.
-/
namespace TensorGraph

variable {g : Graph} {e : Executable} {t : TensorId} {x : Tensor} {X : Option HostTensor → Prop} {mode : RunMode}
  {r r' : Runtime}

/-! ## Programs and their graphs -/

/-- What a program takes from the graph of a session. No step computes a source or writes over it, and only weights are
given updated values, of their own info, by steps that make updates. -/
structure Executable.Serves (g : Graph) (e : Executable) : Prop where
  streams : ∀ ti ∈ e.streams, ∃ x, g.tensor? ti.1 = some x ∧ x.type = .stream
  settings : ∀ ti, ti ∈ e.optimizerStreams ↔ ∃ x, g.tensor? ti.1 = some x ∧ x.type = .optimizerStream ∧ x.info = ti.2
  constants : ∀ t v, (t, v) ∈ e.constants ↔ ∃ x, g.tensor? t = some x ∧ x.type = .const ∧ x.data = some v
  outputs : ∀ {t x}, g.tensor? t = some x → x.type ≠ .actGrad → ∀ p, ∀ c ∈ e.fragment p, t ∉ c.outputs
  spares : ∀ {t x}, g.tensor? t = some x → x.type ≠ .actGrad → e.Spares t
  weights : ∀ ti, ti ∈ e.weights ↔ ∃ x, g.tensor? ti.1 = some x ∧ x.type = .weight ∧ x.info = ti.2
  updates : ∀ {u w}, (u, w) ∈ e.updates → ∃ x y, g.tensor? w = some x ∧ x.type = .weight ∧ g.tensor? u = some y ∧
    y.type = .actGrad ∧ y.info = x.info ∧
      ∀ p, ∀ c ∈ e.fragment p, u ∈ c.outputs → c.kind = .sgdVarUpdate ∧ c.infos = [x.info]

/-- A tensor that no op computes has no producer. -/
theorem Graph.Sound.producer?_eq_none (h : g.Sound) (hx : g.tensor? t = some x) (htype : x.type ≠ .actGrad) :
    g.producer? t = none := by
  rw [producer?, hx, Option.bind_some]
  cases hp : x.producer with
  | none => rfl
  | some o => exact absurd (h.produced hx hp) htype

theorem Graph.Serving.serves {l : List NamedTensor} {settings : List (TensorId × OptimizerValue)}
    (hg : g.Serving l settings) {n : Nat} {hash : UInt64} (h : Executable.compile g n hash = .ok e) : e.Serves g := by
  have hsound := hg.steady.sound
  obtain ⟨l, hl⟩ := Executable.compile_ok hsound.linked h
  obtain ⟨-, hstreams, hweights, hsettings, -⟩ := Executable.compile_lists h
  have hstep : ∀ {p c}, c ∈ e.fragment p → ∃ o op, g.op? o = some op ∧ CompiledFrom g op c := fun hc => by
    obtain ⟨o, op, ho, hfrom, -⟩ := Executable.compile_step h (Executable.mem_ops.2 ⟨_, hc⟩)
    exact ⟨o, op, ho, hfrom⟩
  refine ⟨fun ti hti => ?_, fun ti => hsettings ▸ Executable.mem_typed hsound.linked, hl.constants,
    fun {t x} hx htype p c hc hout => ?_, fun {t x} hx htype p c hc hflag hhead => ?_,
    fun ti => hweights ▸ Executable.mem_typed hsound.linked, fun {u w} huw => ?_⟩
  · rw [hstreams] at hti
    obtain ⟨id, hid, hti⟩ := List.mem_filterMap.1 hti
    obtain ⟨info, -, rfl⟩ := Option.map_eq_some_iff.1 hti
    exact hg.holds.streams id hid
  · obtain ⟨o, op, ho, hfrom⟩ := hstep hc
    have hmade := hsound.linked.makes.2 ⟨op, ho, hfrom.outputs ▸ hout⟩
    rw [hsound.producer?_eq_none hx htype] at hmade
    cases hmade
  · obtain ⟨o, op, ho, hfrom⟩ := hstep hc
    have hover : g.Overwrites o t := ⟨op, ho, hfrom.inPlace ▸ hflag, hfrom.inputs ▸ hhead⟩
    obtain ⟨hproduced, -⟩ := hover.result hg.marked
    rw [hsound.producer?_eq_none hx htype] at hproduced
    cases hproduced
  · obtain ⟨op, hop, hk, hout, hin⟩ := (hl.updates u w).1 huw
    obtain ⟨o, -, ho⟩ := List.mem_filterMap.1 hop
    obtain ⟨w', x, u', hw, hx, htype, hu, hinfo⟩ := hg.updating o op ho hk
    cases hin.symm.trans hw
    obtain rfl : u' = u := by rwa [hu, List.head?_cons, Option.some.injEq] at hout
    have hmade := hsound.linked.makes.2 ⟨op, ho, hu ▸ List.mem_singleton_self u'⟩
    obtain ⟨y, hy, hproduced⟩ := producer?_eq_some.1 hmade
    rw [info?, hy] at hinfo
    refine ⟨x, y, hx, htype, hy, hsound.produced hy hproduced, Option.some.inj hinfo, fun p c hc hcu => ?_⟩
    -- nothing else computes the updated value
    obtain ⟨o', op', ho', hfrom⟩ := hstep hc
    cases hmade.symm.trans (hsound.linked.makes.2 ⟨op', ho', hfrom.outputs ▸ hcu⟩)
    cases ho.symm.trans ho'
    have hinfos := hfrom.infos
    rw [hu, Outcome.mapM_eq_ok, List.forall₂_cons_left_iff] at hinfos
    obtain ⟨info, rest, hfirst, hrest, heq⟩ := hinfos
    cases hrest
    rw [Graph.info, Outcome.orFail_eq_ok, info?, hy, hinfo, Option.some.injEq] at hfirst
    exact ⟨hfrom.kind.trans hk, by rw [heq, hfirst]⟩

namespace Executable.Serves

theorem relocated {g' : Graph} (h : e.Serves g') (hrelocated : Graph.Relocated g g') : e.Serves g := by
  obtain ⟨hstreams, hsettings, hconstants, houtputs, hspares, hweights, hupdates⟩ := h
  simp only [hrelocated.moved.tensor?_eq] at hstreams hsettings hconstants houtputs hspares hweights hupdates
  exact ⟨hstreams, hsettings, hconstants, houtputs, hspares, hweights, hupdates⟩

/-- A program serves all graphs with the same tensors. -/
theorem alike {g' : Graph} (h : e.Serves g) (hg : g.Linked) (hg' : g'.Linked)
    (htensors : List.Forall₂ Tensor.Alike g.tensors.values g'.tensors.values) : e.Serves g' := by
  have hto : ∀ {t x}, g.tensor? t = some x → ∃ x', g'.tensor? t = some x' ∧ x.Alike x' :=
    fun hx => Executable.tensor?_alike hg hg' htensors hx
  have hfrom : ∀ {t x}, g'.tensor? t = some x → ∃ x', g.tensor? t = some x' ∧ x.Alike x' :=
    fun hx => Executable.tensor?_alike hg' hg (Tensor.alike_symm htensors) hx
  have htyped : ∀ {t : TensorId} {type : TensorType} {info : TensorInfo},
      (∃ x, g.tensor? t = some x ∧ x.type = type ∧ x.info = info) ↔ ∃ x, g'.tensor? t = some x ∧ x.type = type ∧ x.info = info := by
    intro t type info
    constructor
    · rintro ⟨x, hx, rfl, rfl⟩
      obtain ⟨x', hx', hsame⟩ := hto hx
      exact ⟨x', hx', hsame.type.symm, hsame.info.symm⟩
    · rintro ⟨x, hx, rfl, rfl⟩
      obtain ⟨x', hx', hsame⟩ := hfrom hx
      exact ⟨x', hx', hsame.type.symm, hsame.info.symm⟩
  refine ⟨fun ti hti => ?_, fun ti => (h.settings ti).trans htyped, fun t v => (h.constants t v).trans ⟨?_, ?_⟩,
    fun hx htype p c hc hout => ?_, fun hx htype => ?_, fun ti => (h.weights ti).trans htyped, fun huw => ?_⟩
  · obtain ⟨x, hx, hstream⟩ := h.streams ti hti
    obtain ⟨x', hx', hsame⟩ := hto hx
    exact ⟨x', hx', hsame.type.symm.trans hstream⟩
  · rintro ⟨x, hx, hconst, hdata⟩
    obtain ⟨x', hx', hsame⟩ := hto hx
    exact ⟨x', hx', hsame.type.symm.trans hconst, (hsame.data hconst).symm.trans hdata⟩
  · rintro ⟨x, hx, hconst, hdata⟩
    obtain ⟨x', hx', hsame⟩ := hfrom hx
    exact ⟨x', hx', hsame.type.symm.trans hconst, (hsame.data hconst).symm.trans hdata⟩
  · obtain ⟨x', hx', hsame⟩ := hfrom hx
    exact h.outputs hx' (hsame.type ▸ htype) p c hc hout
  · obtain ⟨x', hx', hsame⟩ := hfrom hx
    exact h.spares hx' (hsame.type ▸ htype)
  · obtain ⟨x, y, hx, hweight, hy, hcomputed, hinfo, hall⟩ := h.updates huw
    obtain ⟨x', hx', hsame⟩ := hto hx
    obtain ⟨y', hy', hsame'⟩ := hto hy
    exact ⟨x', y', hx', hsame.type.symm.trans hweight, hy', hsame'.type.symm.trans hcomputed,
      (hsame'.info.symm.trans hinfo).trans hsame.info, fun p c hc hout => hsame.info ▸ hall p c hc hout⟩

end Executable.Serves

/-- Where its ops stand does not matter to what is a program of a graph. -/
theorem Executable.Compiled.relocated {g' : Graph} {l : List OpId} (h : Compiled g' l e) (hrelocated : Graph.Relocated g g') :
    Compiled g l e := by
  have hmoved := hrelocated.moved
  have hops : (l.filterMap g'.op?).map Op.unplaced = (l.filterMap g.op?).map Op.unplaced := by
    rw [List.map_filterMap, List.map_filterMap]
    exact congrArg (l.filterMap ·) (funext hmoved.ops)
  rw [← List.forall₂_eq_eq_eq, List.forall₂_map_left_iff, List.forall₂_map_right_iff] at hops
  refine h.congr (hmoved.order_eq.symm.trans h.order) (hops.imp fun op op' hop => ?_) hmoved.info?_eq
    (fun {t x} hx hconst => ⟨x, hmoved.tensor?_eq t ▸ hx, hconst, rfl⟩)
    fun {t x} hx hconst => ⟨x, (hmoved.tensor?_eq t).trans hx, hconst, rfl⟩
  have hfields : ∀ {β : Type} (f : Op → β), f op.unplaced = f op'.unplaced := fun f => congrArg f hop
  exact ⟨hfields Op.kind, hfields Op.inputs, hfields Op.outputs, hfields Op.phase, hfields Op.inPlace⟩

/-- Sessions that match have the same ops in their orders, and the same tensors. -/
theorem Session.Matches.alike {s s₁ : Session} (h : s.Matches s₁) (hs : s.Opened) (hs₁ : s₁.Opened) :
    ∃ g, Graph.Relocated s.graph g ∧ g.Linked ∧
      List.Forall₂ Tensor.Alike s₁.graph.tensors.values g.tensors.values ∧ ∃ l l₁, g.order = .ok l ∧
        s₁.graph.order = .ok l₁ ∧ List.Forall₂ Op.Alike (l₁.filterMap s₁.graph.op?) (l.filterMap g.op?) := by
  obtain ⟨g, hrelocated, hencodable, hencodable₁, hsignature⟩ := h
  have hserving := hs.serving.relocated hrelocated
  have hlinked := hserving.steady.sound.linked
  have hlinked₁ := hs₁.serving.steady.sound.linked
  obtain ⟨l, hl⟩ := hserving.acyclic.order_ok hlinked
  obtain ⟨l₁, hl₁⟩ := hs₁.serving.acyclic.order_ok hlinked₁
  obtain ⟨hops, htensors⟩ := Graph.alike_of_signature hlinked₁ hlinked hencodable₁ hencodable
    (Outcome.bind_eq_ok.2 ⟨l₁, hl₁, rfl⟩) (Outcome.bind_eq_ok.2 ⟨l, hl, rfl⟩) hsignature.symm
  exact ⟨g, hrelocated, hlinked, htensors, l, l₁, hl, hl₁, hops⟩

/-- A program of a session is one of its graph. -/
theorem Session.Compiles.compiled {s : Session} (hs : s.Opened) (h : s.Compiles e) :
    ∃ l, Executable.Compiled s.graph l e := by
  obtain ⟨g, n, hrelocated | ⟨s₁, hs₁, hmatches, hrelocated⟩, hcompile⟩ := h
  · obtain ⟨l, hl⟩ := Executable.compile_ok (hs.serving.relocated hrelocated).steady.sound.linked hcompile
    exact ⟨l, hl.relocated hrelocated⟩
  · obtain ⟨l₁, hl₁⟩ := Executable.compile_ok (hs₁.serving.relocated hrelocated).steady.sound.linked hcompile
    obtain ⟨g₀, hback, hlinked, htensors, l, l₀, hl, hl₀, hops⟩ := hmatches.alike hs hs₁
    have hown := hl₁.relocated hrelocated
    cases hown.order.symm.trans hl₀
    exact ⟨l, (hown.alike hs₁.serving.steady.sound.linked hlinked hl hops htensors).relocated hback⟩

theorem Session.Compiles.serves {s : Session} (hs : s.Opened) (h : s.Compiles e) : e.Serves s.graph := by
  obtain ⟨g, n, hrelocated | ⟨s₁, hs₁, hmatches, hrelocated⟩, hcompile⟩ := h
  · exact ((hs.serving.relocated hrelocated).serves hcompile).relocated hrelocated
  · have hserves := ((hs₁.serving.relocated hrelocated).serves hcompile).relocated hrelocated
    obtain ⟨g₀, hback, hlinked, htensors, -⟩ := hmatches.alike hs hs₁
    exact (hserves.alike hs₁.serving.steady.sound.linked hlinked htensors).relocated hback

/-- The weights of a graph are its tensors of this type, with their data. -/
theorem SessionConfig.get?_weightsOf (hg : g.Linked) {v : HostTensor} : (weightsOf g).get? t = some v ↔
    ∃ x, g.tensor? t = some x ∧ x.type = .weight ∧ x.data = some v := by
  have hids : ∀ e ∈ g.tensors.entries, e.2.id = e.1 := fun e he => hg.tensorId (Dict.mem_entries.1 he)
  have hascending : ((g.tensors.values.filter (·.type = .weight)).filterMap fun t => t.data.map fun d => (t.id, d)).Pairwise
      fun a b => compare a.1 b.1 = .lt := by
    rw [List.pairwise_filterMap]
    refine List.Pairwise.filter _ (List.pairwise_map.2 (g.tensors.ascending.imp_of_mem fun {a b} ha hb hab x hx y hy => ?_))
    obtain ⟨_, -, rfl⟩ := Option.map_eq_some_iff.1 hx
    obtain ⟨_, -, rfl⟩ := Option.map_eq_some_iff.1 hy
    rwa [hids a ha, hids b hb]
  rw [← Dict.mem_entries (e := (t, v)), weightsOf, Dict.entries_ofList hascending, List.mem_filterMap]
  constructor
  · rintro ⟨x, hx, hv⟩
    obtain ⟨hmem, htype⟩ := List.mem_filter.1 hx
    obtain ⟨d, hd, heq⟩ := Option.map_eq_some_iff.1 hv
    obtain ⟨k, hk⟩ := Dict.mem_values.1 hmem
    cases heq
    exact ⟨x, by rwa [hg.tensorId hk], of_decide_eq_true htype, hd⟩
  · rintro ⟨x, hx, htype, hd⟩
    refine ⟨x, List.mem_filter.2 ⟨Dict.mem_values.2 ⟨t, hx⟩, decide_eq_true htype⟩, ?_⟩
    rw [hd, Option.map_some, hg.tensorId hx]

/-- A weight is what the model says when a session is opened. -/
theorem Session.Opened.weight {s : Session} (hs : s.Opened) (hx : s.graph.tensor? t = some x) (htype : x.type = .weight) :
    ∃ init ∈ s.model.initializers, init.name = t ∧ x.given = (.weight, init.info, some ⟨init.info, init.data⟩) := by
  obtain ⟨-, init, hinit, rfl⟩ | ⟨hstream, -⟩ := hs.serving.holds.held hx (by rw [htype]; rfl)
  · obtain ⟨x', hx', hgiven⟩ := hs.serving.holds.weight init hinit
    cases hx.symm.trans hx'
    exact ⟨init, hinit, rfl, hgiven⟩
  · rw [htype] at hstream
    cases hstream

/-- The host has a value for each weight, and for nothing else. -/
theorem Session.Descends.hostWeight_iff {s u : Session} (hs : s.Opened) (h : Descends s u) :
    (∃ v, u.hostWeights.get? t = some v) ↔ ∃ x, s.graph.tensor? t = some x ∧ x.type = .weight := by
  rw [← Option.isSome_iff_exists, h.weights, hs.hostWeights, Option.isSome_iff_exists]
  simp only [SessionConfig.get?_weightsOf hs.serving.steady.sound.linked]
  constructor
  · rintro ⟨v, x, hx, htype, -⟩
    exact ⟨x, hx, htype⟩
  · rintro ⟨x, hx, htype⟩
    obtain ⟨init, -, -, hgiven⟩ := hs.weight hx htype
    exact ⟨_, x, hx, htype, congrArg (·.2.2) hgiven⟩

/-! ## Values on the device -/

namespace Runtime

variable {b : Backend} {F : TensorId → HostTensor → Prop}

/-- What is downloaded is what is there, checked. -/
theorem download_eq_ok {v : HostTensor} : r.download t = .ok v ↔ r.memory.tensor? t = some v ∧ v.Checked := by
  simp only [download, Outcome.bind_eq_ok, Outcome.orFail_eq_ok, Backend.download_eq_ok, DeviceMemory.tensor?,
    Option.map_eq_some_iff]
  constructor
  · rintro ⟨value, hvalue, rfl, hchecked⟩
    exact ⟨⟨value, hvalue, rfl⟩, hchecked⟩
  · rintro ⟨⟨value, hvalue, rfl⟩, hchecked⟩
    exact ⟨value, hvalue, rfl, hchecked⟩

/-- What satisfies `X` still does after values were put on the device, or does so now. -/
theorem withValues_at : ∀ {values : List (TensorId × HostTensor)} {r : Runtime},
    (∀ iv ∈ values, iv.1 = t → X (some iv.2)) → (X (r.memory.tensor? t) ∨ ∃ iv ∈ values, iv.1 = t) →
    X ((r.withValues values).memory.tensor? t)
  | [], r, _, h => h.resolve_right fun ⟨_, hiv, _⟩ => absurd hiv List.not_mem_nil
  | iv :: values, r, hvalues, h => by
    refine withValues_at (r := r.upload iv.1 iv.2) (fun jv hjv => hvalues jv (List.mem_cons_of_mem _ hjv)) ?_
    change X ((r.memory.store iv.1 iv.2).tensor? t) ∨ _
    rw [DeviceMemory.tensor?_store]
    split
    · rename_i heq
      exact .inl (hvalues iv (by simp) heq)
    · rename_i hne
      refine h.imp_right fun ⟨jv, hjv, heq⟩ => ⟨jv, (List.mem_cons.1 hjv).resolve_left ?_, heq⟩
      rintro rfl
      exact hne heq

theorem Valued.withValues : ∀ {l : List (TensorId × HostTensor)} {r : Runtime}, Valued b e F r →
    (∀ iv ∈ l, F iv.1 iv.2) → Valued b e F (r.withValues l)
  | [], _, h, _ => h
  | iv :: l, _, h, hl =>
    (h.upload (hl iv (by simp))).withValues (l := l) fun jv hjv => hl jv (List.mem_cons_of_mem _ hjv)

/-- Feeding and running gives tensors only what may be fed and what steps make. -/
theorem Driven.valued (h : Driven mode r r') (hF : b.Gives e F)
    (hfeed : ∀ ti ∈ e.streams, ∀ v, v.info = ti.2 → F ti.1 v) (hr : Valued b e F r) : Valued b e F r' := by
  induction h with
  | refl => exact hr
  | feed _ hid hx ih =>
    exact ih.upload (hfeed _ (ih.executable ▸ hid) _ (congrArg HostTensor.info (HostTensor.ofStorage_ok hx).1))
  | @batch r₁ _ ih =>
    have hends := ih.runBatch mode hF
    rcases hrun : (Runtime.runBatch mode).run r₁ with ⟨_ | _, r₂⟩
    · exact hends.error hrun
    · exact (hends.ok hrun).1
  | count _ _ ih => exact ⟨ih.backend, ih.executable, ih.values⟩

/-- What a batch keeps of a tensor that is not streamed, feeding and running keep. -/
theorem Driven.at (h : Driven mode r r') (hfed : t ∉ e.streams.map (·.1)) (hbatch : Stateful.Keeps (At e t X) (runBatch mode))
    (hr : At e t X r) : At e t X r' := by
  induction h with
  | refl => exact hr
  | feed _ hid _ ih =>
    refine ih.of_set _ rfl (DeviceMemory.tensor?_store ..) fun heq => absurd ?_ hfed
    rw [ih.executable] at hid
    exact heq ▸ List.mem_map_of_mem hid
  | batch _ ih => exact hbatch _ ih
  | count _ _ ih => exact ⟨ih.executable, ih.value⟩

end Runtime

namespace Executable.Serves

/-- What is no stream is not fed. -/
theorem not_fed (h : e.Serves g) (hx : g.tensor? t = some x) (htype : x.type ≠ .stream) : t ∉ e.streams.map (·.1) := by
  intro ht
  obtain ⟨ti, hti, rfl⟩ := List.mem_map.1 ht
  obtain ⟨y, hy, hstream⟩ := h.streams ti hti
  cases hx.symm.trans hy
  exact htype hstream

/-- Only weights are given values by updates. -/
theorem leaves (h : e.Serves g) (hx : g.tensor? t = some x) (htype : x.type ≠ .actGrad) (hweight : x.type ≠ .weight) :
    e.Leaves t := by
  refine ⟨h.outputs hx htype, fun uw huw heq => ?_⟩
  obtain ⟨y, -, hy, hupdated, -⟩ := h.updates huw
  rw [heq, hx, Option.some.injEq] at hy
  exact hweight (hy ▸ hupdated)

/-- What is neither computed nor a stream stays as it is while a program is fed and run. Of a weight, only what any value
satisfies is known. -/
theorem driven (h : r.executable.Serves g) (hx : g.tensor? t = some x) (hcomputed : x.type ≠ .actGrad)
    (hstream : x.type ≠ .stream) (hX : (∀ v, X (some v)) ∨ x.type ≠ .weight) (hdriven : Runtime.Driven mode r r')
    (hr : X (r.memory.tensor? t)) : X (r'.memory.tensor? t) :=
  (hdriven.at (h.not_fed hx hstream) (.runBatch (h.spares hx hcomputed) (hX.imp_right (h.leaves hx hcomputed)) mode)
    ⟨rfl, hr⟩).value

end Executable.Serves

/-! ## Infos of values -/

/-- Where updates are of weights, they have the infos of these. -/
theorem Graph.Updating.updatesAlike (h : g.Updating) : g.UpdatesAlike := by
  intro o op u w ho hk hu hw
  obtain ⟨w', x, u', hw', hx, -, hu', hinfo⟩ := h o op ho hk
  cases hw.symm.trans hw'
  rw [hu', List.head?_cons, Option.some.injEq] at hu
  rw [← hu, hinfo, info?, hx, Option.map_some]

theorem Graph.Updating.updatesWeights (h : g.Updating) : g.UpdatesWeights := by
  intro o op w ho hk hw
  obtain ⟨w', x, -, hw', hx, htype, -⟩ := h o op ho hk
  cases hw.symm.trans hw'
  exact ⟨x, hx, htype⟩

namespace Session

variable {W : Prop} {V : HostTensor → Prop} {s t u : Session} {id : TensorId} {v : HostTensor} {r r' : Runtime}

/-- Nothing in a program of a session writes over its constants. -/
theorem Compiles.spares (hs : s.Opened) (h : s.Compiles e) : e.SparesConstants := by
  obtain ⟨l, hl⟩ := h.compiled hs
  exact hl.sparesConstants hs.serving.steady.sound.wellFormed hs.serving.marked hs.serving.updating.updatesWeights

theorem Compiles.labels (hs : s.Opened) (h : s.Compiles e) : e.Labels s.graph := by
  have hcompiled : ∀ {l settings} {g₀ g : Graph} {n hash}, g₀.Serving l settings → Graph.Relocated g₀ g →
      Executable.compile g n hash = .ok e → e.Labels g₀ := by
    intro l settings g₀ g n hash hg hrelocated hcompile
    have hserving := hg.relocated hrelocated
    exact (Executable.compile_labels hserving.steady.sound hserving.updating.updatesAlike hcompile).congr
      hrelocated.moved.info?_eq
  obtain ⟨g, n, hrelocated | ⟨s₁, hs₁, hmatches, hrelocated⟩, hcompile⟩ := h
  · exact hcompiled hs.serving hrelocated hcompile
  · obtain ⟨g₀, hback, hlinked, htensors, -⟩ := hmatches.alike hs hs₁
    exact ((hcompiled hs₁.serving hrelocated hcompile).congr
      (Executable.info?_alike hs₁.serving.steady.sound.linked hlinked htensors)).congr hback.moved.info?_eq

/-- The constants of a program have the infos of their tensors. -/
theorem Compiles.constants (hs : s.Opened) (h : s.Compiles e) : ∀ kv ∈ e.constants, s.graph.info? kv.1 = some kv.2.info := by
  intro kv hkv
  obtain ⟨x, hx, hconst, hdata⟩ := ((h.serves hs).constants kv.1 kv.2).1 hkv
  rw [Graph.info?, hx, Option.map_some, hs.serving.holds.fit hx hconst hdata]

/-- The values of streamed settings have the infos of their tensors. -/
theorem Compiles.streamedValues (hs : s.Opened) (h : s.Compiles e) {o : Sgd} :
    ∀ iv ∈ o.streamedValues e, s.graph.info? iv.1 = some iv.2.info := by
  intro iv hiv
  obtain ⟨ti, hti, hiv⟩ := List.mem_filterMap.1 hiv
  obtain ⟨w, -, rfl⟩ := Option.map_eq_some_iff.1 hiv
  obtain ⟨x, hx, htype, -⟩ := ((h.serves hs).settings ti).1 hti
  obtain ⟨hweight, -⟩ | ⟨-, v, hv, -⟩ := hs.serving.holds.held hx (by rw [htype]; rfl)
  · cases htype.symm.trans hweight
  · obtain ⟨-, x', hx', hgiven⟩ := hs.serving.holds.setting (ti.1, v) hv
    cases hx.symm.trans hx'
    have hinfo : x.info = .scalar .float := congrArg (·.2.1) hgiven
    rw [Graph.info?, hx, Option.map_some, hinfo]
    rfl

/-- All values in the session `t`, which has come from `s`, have the infos of their tensors. Once it has been prepared it
has a program, unless it is to do without. -/
structure Conforming (s t : Session) : Prop where
  host : ∀ {id v}, t.hostWeights.get? id = some v → s.graph.info? id = some v.info
  device : ∀ r, t.engine = some r → r.Labelled s.graph r.executable
  loaded : t.isPrepared = true → s.options.compileEngine = true → t.engine.isSome = true

theorem Opened.conforming (hs : s.Opened) : Conforming s s := by
  refine ⟨fun {id v} hid => ?_, fun r hr => absurd (hs.engine.symm.trans hr) nofun, fun hprepared => ?_⟩
  · rw [hs.hostWeights, SessionConfig.get?_weightsOf hs.serving.steady.sound.linked] at hid
    obtain ⟨x, hx, htype, hdata⟩ := hid
    obtain ⟨init, -, -, hgiven⟩ := hs.weight hx htype
    have hinfo : x.info = init.info := congrArg (·.2.1) hgiven
    have hvalue : x.data = some ⟨init.info, init.data⟩ := congrArg (·.2.2) hgiven
    cases hdata.symm.trans hvalue
    rw [Graph.info?, hx, Option.map_some, hinfo]
  · exact absurd hs.state (of_decide_eq_true hprepared)

namespace Conforming

/-- A program is loaded. -/
theorem prepared (h : Conforming s t) (hs : s.Opened) (hd : Descends s t) {p : Platform}
    (hfound : ∀ e h, findEngine.run ⟨p, t⟩ = (.ok (some e), h) → t.Compiles e) (hp : Prepared ⟨p, t⟩ u) :
    Conforming s u := by
  have hd' := hd.prepared hs.serving.steady hfound hp
  refine ⟨?_, fun r hr => ?_, fun _ hcompile => ?_⟩
  · rw [hp.same]
    exact h.host
  · obtain ⟨-, heq⟩ | ⟨e, heq, -⟩ := hp.engine
    · exact absurd (hr.symm.trans (heq.trans (hd.constructed hp.constructed))) nofun
    cases hr.symm.trans heq
    have hcompiles := hd'.compiled _ hr
    exact .load (Backend.reference_labels _) (hcompiles.labels hs) (hcompiles.constants hs)
  · obtain ⟨hoff, -⟩ | ⟨e, heq, -⟩ := hp.engine
    · have hoff : t.options.compileEngine = false := hoff
      rw [hd.options, hcompile] at hoff
      cases hoff
    · rw [heq]
      rfl

/-- Values of the right infos are put on the device. -/
theorem withValues (h : Conforming s t) {l : List (TensorId × HostTensor)}
    (hl : ∀ iv ∈ l, s.graph.info? iv.1 = some iv.2.info) (hr : t.engine = some r) :
    (r.withValues l).Labelled s.graph (r.withValues l).executable := by
  have hlabelled := h.device r hr
  rw [(Runtime.same_withValues _ _).2]
  exact hlabelled.of_valued (hlabelled.valued.withValues hl)

/-- No turn gives a tensor a value of another info. -/
theorem turn (h : Conforming s t) (hs : s.Opened) (hd : Descends s t) (hturn : Turn W V t u) : Conforming s u := by
  have hinsert : ∀ {id current value}, t.hostWeights.get? id = some current → current.info = value.info →
      ∀ {id' v}, (t.hostWeights.insert id value).get? id' = some v → s.graph.info? id' = some v.info := by
    intro id current value hid hinfo id' v hv
    rw [Dict.get?_insert] at hv
    split at hv
    · rename_i heq
      cases hv
      rw [← heq, h.host hid, hinfo]
    · exact h.host hv
  cases hturn with
  | note state hstate =>
    refine ⟨h.host, h.device, fun hprepared hcompile => ?_⟩
    obtain rfl | ⟨hsome, -⟩ := hstate
    · exact h.loaded hprepared hcompile
    · exact hsome
  | place hc hit halong =>
    obtain ⟨-, -, hsame⟩ := halong
    generalize u.graph = g, u.log = log at hsame
    subst hsame
    exact ⟨h.host, h.device, h.loaded⟩
  | prepare p hfound hp => exact h.prepared hs hd hfound hp
  | uploadWeights hr =>
    refine ⟨h.host, fun r' hr' => ?_, fun _ _ => rfl⟩
    cases hr'
    exact h.withValues (fun iv hiv => h.host (Dict.mem_entries.1 hiv)) hr
  | uploadOptimizer hr =>
    refine ⟨h.host, fun r' hr' => ?_, fun _ _ => rfl⟩
    cases hr'
    exact h.withValues ((hd.compiled _ hr).streamedValues hs) hr
  | updateOptimizer => exact ⟨h.host, h.device, h.loaded⟩
  | writeWeight _ hid hinfo =>
    refine ⟨hinsert hid hinfo, fun r' hr' => ?_, fun hprepared hcompile => ?_⟩
    · change (if _ then _ else _) = _ at hr'
      split at hr'
      · obtain ⟨r, hr, rfl⟩ := Option.map_eq_some_iff.1 hr'
        exact (h.device r hr).upload ((h.host hid).trans (congrArg some hinfo))
      · exact h.device r' hr'
    · change (if _ then _ else _ : Option Runtime).isSome = true
      split
      · rw [Option.isSome_map, h.loaded hprepared hcompile]
      · exact h.loaded hprepared hcompile
  | resetWeight _ hid hinfo hvalue =>
    exact ⟨hinsert hid (hinfo.trans (congrArg HostTensor.info (HostTensor.ofStorage_ok hvalue).1).symm), h.device, h.loaded⟩
  | @serve _ _ r r' hr hdriven =>
    refine ⟨h.host, fun r₁ hr₁ => ?_, fun _ _ => rfl⟩
    cases hr₁
    have hlabelled := h.device r hr
    rw [hdriven.same.2]
    refine hlabelled.of_valued (hdriven.valued hlabelled.gives (fun ti hti v hinfo => ?_) hlabelled.valued)
    rw [hlabelled.labels.streams hti, hinfo]

end Conforming

/-! ## Values that are held -/

/-- What the program of a session has on the device: its constants, and a value for each weight once weights were put
there. -/
structure Supplied (t : Session) : Prop where
  constants : ∀ r, t.engine = some r → ∀ kv ∈ r.executable.constants, r.memory.tensor? kv.1 = some kv.2
  weights : t.weightsUploaded = true → ∀ r, t.engine = some r → ∀ ti ∈ r.executable.weights,
    (r.memory.tensor? ti.1).isSome = true

theorem Opened.supplied (hs : s.Opened) : Supplied s :=
  ⟨fun _ hr => absurd (hs.engine.symm.trans hr) nofun, fun _ _ hr => absurd (hs.engine.symm.trans hr) nofun⟩

namespace Supplied

/-- Values are put on the device for what is no constant. -/
theorem withValues (h : Supplied t) (hd : Descends s t) (hs : s.Opened) (hr : t.engine = some r)
    {l : List (TensorId × HostTensor)} (hl : ∀ iv ∈ l, ∃ x, s.graph.tensor? iv.1 = some x ∧ x.type ≠ .const) :
    ∀ kv ∈ r.executable.constants, (r.withValues l).memory.tensor? kv.1 = some kv.2 := by
  intro kv hkv
  refine Runtime.withValues_at (X := (· = some kv.2)) (fun iv hiv heq => ?_) (.inl (h.constants r hr kv hkv))
  obtain ⟨x, hx, hconst, -⟩ := (((hd.compiled r hr).serves hs).constants kv.1 kv.2).1 hkv
  obtain ⟨y, hy, htype⟩ := hl iv hiv
  rw [heq, hx, Option.some.injEq] at hy
  exact absurd (hy ▸ hconst) htype

/-- A program is loaded with its constants. -/
theorem prepared (hd : Descends s t) (hs : s.Opened) {p : Platform}
    (hfound : ∀ e h, findEngine.run ⟨p, t⟩ = (.ok (some e), h) → t.Compiles e) (hp : Prepared ⟨p, t⟩ u) : Supplied u := by
  have hnone := hd.constructed hp.constructed
  have hd' := hd.prepared hs.serving.steady hfound hp
  refine ⟨fun r hr => ?_, fun hup => ?_⟩
  · obtain ⟨-, heq⟩ | ⟨e, heq, -⟩ := hp.engine
    · exact absurd (hr.symm.trans (heq.trans hnone)) nofun
    cases hr.symm.trans heq
    exact (Runtime.Loaded.load ((hd'.compiled _ hr).spares hs) _).constants
  · rw [hp.same] at hup
    exact absurd ((hd.unloaded hnone).1.symm.trans hup) nofun

/-- No turn takes a constant or a weight from the device. -/
theorem turn (h : Supplied t) (hs : s.Opened) (hd : Descends s t) (hturn : Turn W V t u) : Supplied u := by
  have hserves : ∀ {r}, t.engine = some r → r.executable.Serves s.graph := fun hr => (hd.compiled _ hr).serves hs
  have hweight : ∀ {id v}, t.hostWeights.get? id = some v → ∃ x, s.graph.tensor? id = some x ∧ x.type = .weight :=
    fun hid => (hd.hostWeight_iff hs).1 ⟨_, hid⟩
  cases hturn with
  | note => exact ⟨h.constants, h.weights⟩
  | place hc hit halong =>
    have hnone := hd.constructed hc
    obtain ⟨-, -, hsame⟩ := halong
    generalize u.graph = g, u.log = log at hsame
    subst hsame
    exact ⟨fun r hr => absurd (hnone.symm.trans hr) nofun, fun _ r hr => absurd (hnone.symm.trans hr) nofun⟩
  | prepare p hfound hp => exact prepared hd hs hfound hp
  | @uploadWeights r hr =>
    refine ⟨fun r' hr' => ?_, fun _ r' hr' ti hti => ?_⟩ <;> cases hr'
    · rw [(Runtime.same_withValues _ _).2]
      refine h.withValues hd hs hr fun iv hiv => ?_
      obtain ⟨x, hx, htype⟩ := hweight (Dict.mem_entries.1 hiv)
      exact ⟨x, hx, by rw [htype]; nofun⟩
    · rw [(Runtime.same_withValues _ _).2] at hti
      obtain ⟨x, hx, htype, -⟩ := ((hserves hr).weights ti).1 hti
      obtain ⟨v, hv⟩ := (hd.hostWeight_iff hs).2 ⟨x, hx, htype⟩
      exact Runtime.withValues_at (X := (·.isSome = true)) (fun _ _ _ => rfl) (.inr ⟨(ti.1, v), Dict.mem_entries.2 hv, rfl⟩)
  | @uploadOptimizer r o hr ho =>
    refine ⟨fun r' hr' => ?_, fun hup r' hr' ti hti => ?_⟩ <;> cases hr'
    · rw [(Runtime.same_withValues _ _).2]
      refine h.withValues hd hs hr fun iv hiv => ?_
      obtain ⟨ti, hti, hiv⟩ := List.mem_filterMap.1 hiv
      obtain ⟨_, -, rfl⟩ := Option.map_eq_some_iff.1 hiv
      obtain ⟨x, hx, htype, -⟩ := ((hserves hr).settings ti).1 hti
      exact ⟨x, hx, by rw [htype]; nofun⟩
    · rw [(Runtime.same_withValues _ _).2] at hti
      exact Runtime.withValues_at (X := (·.isSome = true)) (fun _ _ _ => rfl) (.inl (h.weights hup r hr ti hti))
  | updateOptimizer => exact ⟨h.constants, h.weights⟩
  | @writeWeight _ w current value hid =>
    obtain ⟨x, hx, htype⟩ := hweight hid
    refine ⟨fun r' hr' kv hkv => ?_, fun hup r' hr' ti hti => ?_⟩ <;> change (if _ then _ else _) = _ at hr'
    · split at hr'
      · obtain ⟨r, hr, rfl⟩ := Option.map_eq_some_iff.1 hr'
        refine h.withValues hd hs hr (l := [(w, value)]) (fun iv hiv => ?_) kv hkv
        rw [List.mem_singleton.1 hiv]
        exact ⟨x, hx, by rw [htype]; nofun⟩
      · exact h.constants r' hr' kv hkv
    · rw [if_pos hup] at hr'
      obtain ⟨r, hr, rfl⟩ := Option.map_eq_some_iff.1 hr'
      change ((r.memory.store w value).tensor? ti.1).isSome = true
      rw [DeviceMemory.tensor?_store]
      split
      · rfl
      · exact h.weights hup r hr ti hti
  | resetWeight => exact ⟨h.constants, h.weights⟩
  | @serve mode _ r r' hr hdriven =>
    refine ⟨fun r₁ hr₁ kv hkv => ?_, fun hup r₁ hr₁ ti hti => ?_⟩ <;> cases hr₁
    · rw [hdriven.same.2] at hkv
      obtain ⟨x, hx, hconst, -⟩ := ((hserves hr).constants kv.1 kv.2).1 hkv
      exact (hserves hr).driven (X := (· = some kv.2)) hx (by rw [hconst]; nofun) (by rw [hconst]; nofun)
        (.inr (by rw [hconst]; nofun)) hdriven (h.constants r hr kv hkv)
    · rw [hdriven.same.2] at hti
      obtain ⟨x, hx, htype, -⟩ := ((hserves hr).weights ti).1 hti
      exact (hserves hr).driven (X := (·.isSome = true)) hx (by rw [htype]; nofun) (by rw [htype]; nofun)
        (.inl fun _ => rfl) hdriven (h.weights hup r hr ti hti)

end Supplied

end Session

/-! ## A small session that trains -/

namespace Session

/-- A weight is added to the input, and the sum is to become small. -/
def addingModel : Model where
  name := ""
  nodes := [⟨"n", "Add", "", ["x", "w"], ["y"], .empty⟩]
  inputs := [⟨"x", ⟨.float, [1]⟩⟩]
  outputs := [⟨"y", ⟨.float, [1]⟩⟩]
  initializers := [⟨"w", ⟨.float, [1]⟩, .f32 [.one]⟩]
  valueInfo := []

def addingConfig : SessionConfig where
  model := addingModel.toBytes
  dataFlow := .unread
  device := ⟨0, { type := .ipuModel, id := 0, ipus := 1, tiles := 2 }⟩
  losses := [.l1 "y" "loss" .one .sum]
  optimizer := some (.streamed .one .zero)
  patterns := .ofLevel .empty .none

/-- The session after it has been prepared. -/
def readied (s : Session) : Session := (prepare.run ⟨{}, s⟩).2.session

theorem readied_called {W : Prop} {V : HostTensor → Prop} {s : Session} (huncached : s.usesCache = false) :
    Called W V s s.readied :=
  .prepare {} fun e h hfound => by
    rw [findEngine_of_uncached huncached] at hfound
    cases hfound

end Session

end TensorGraph
