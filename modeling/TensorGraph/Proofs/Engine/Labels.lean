import TensorGraph.Proofs.Engine.Values

/-!
Infos of values on a device. Every value there has the info of its tensor: streams and weights are given such values,
a step asks its backend for results of the infos of its outputs, and an updated value has the info of its weight.
-/
namespace TensorGraph

open TensorGraph.Graph

variable {g : Graph} {e : Executable} {r : Runtime} {c : CompiledOp} {t : TensorId}

/-! ## Backends -/

/-- Results have the infos that were asked for. -/
structure Backend.Labels (b : Backend) : Prop where
  fresh : ∀ {kind xs infos ys}, b.execute kind xs infos = .ok ys → ys.map (·.info) = infos
  inPlace : ∀ {kind x shared rest info y}, b.executeInPlace kind x shared rest info = .ok y → y.info = info

theorem Backend.run_info {kind : OpKind} {xs : List HostTensor} {info : TensorInfo} {y : HostTensor}
    (h : run kind xs info = .ok y) : y.info = info := by
  obtain ⟨plan, -, hplan⟩ := run_ok h
  exact runPlan_info hplan

theorem Backend.reference_labels (name : String) : (reference name).Labels := by
  refine ⟨fun {kind xs infos ys} h => ?_, fun {kind x shared rest info y} h => ?_⟩
  · change runAll kind xs infos = .ok ys at h
    unfold runAll at h
    split at h
    · obtain ⟨y, hy, h⟩ := Outcome.bind_eq_ok.1 h
      cases h
      rw [List.map_singleton, run_info hy]
    · cases h
  · change runInPlace kind x shared rest info = .ok y at h
    unfold runInPlace at h
    simp only at h
    split at h
    · exact run_info h
    · rename_i hinfo
      obtain ⟨write, -, h⟩ := Outcome.bind_eq_ok.1 h
      split at h
      · split at h
        · exact run_info h
        · obtain ⟨values, -, h⟩ := Outcome.bind_eq_ok.1 h
          cases h
          exact not_not.1 hinfo
      · exact run_info h

/-! ## Programs -/

namespace Graph

/-- An updated value has the info of its weight. -/
def UpdatesAlike (g : Graph) : Prop :=
  ∀ {o op u w}, g.op? o = some op → op.kind = .sgdVarUpdate → op.outputs.head? = some u → op.inputs.head? = some w →
    g.info? u = g.info? w

end Graph

/-- A program knows the infos of its graph. -/
structure Executable.Labels (e : Executable) (g : Graph) : Prop where
  infos : ∀ t, e.infos.get? t = g.info? t
  streams : ∀ {t i}, (t, i) ∈ e.streams → g.info? t = some i
  nodup : (e.streams.map (·.1)).Nodup
  steps : ∀ {p c}, c ∈ e.fragment p → List.Forall₂ (fun t i => g.info? t = some i) c.outputs c.infos
  updates : ∀ {u w}, (u, w) ∈ e.updates → g.info? u = g.info? w

theorem Executable.compile_labels {n : Nat} {hash : UInt64} (hg : g.Sound) (hu : g.UpdatesAlike)
    (h : compile g n hash = .ok e) : e.Labels g := by
  obtain ⟨l, hl⟩ := compile_ok hg.linked h
  obtain ⟨-, hstreams, -, -, hinfos⟩ := compile_lists h
  refine ⟨fun t => ?_, fun {t i} hmem => ?_, ?_, fun {p c} hc => ?_, fun {u w} huw => ?_⟩
  · rw [hinfos, Dict.get?_map]
    rfl
  · rw [hstreams] at hmem
    obtain ⟨id, -, hid⟩ := List.mem_filterMap.1 hmem
    obtain ⟨info, hinfo, heq⟩ := Option.map_eq_some_iff.1 hid
    cases heq
    exact hinfo
  · rw [hstreams, List.map_filterMap]
    refine hg.streamsNodup.filterMap fun t t' id hid hid' => ?_
    simp only [Option.map_map, Option.mem_def, Option.map_eq_some_iff, Function.comp_apply] at hid hid'
    obtain ⟨-, -, rfl⟩ := hid
    obtain ⟨-, -, rfl⟩ := hid'
    rfl
  · obtain ⟨op, -, hfrom⟩ := exists_of_forall₂ (hl.fragment p).flip c hc
    obtain ⟨-, -, hout, -, -, hinfos⟩ := hfrom
    rw [hout]
    exact (Outcome.mapM_eq_ok.1 hinfos).imp fun t i hi => Outcome.orFail_eq_ok.1 hi
  · obtain ⟨op, hop, hk, hout, hin⟩ := (hl.updates u w).1 huw
    obtain ⟨o, -, ho⟩ := List.mem_filterMap.1 hop
    exact hu ho hk hout hin

/-- What a program knows of a graph it knows of all graphs with the same infos. -/
theorem Executable.Labels.congr {g' : Graph} (h : e.Labels g) (hinfo : g.info? = g'.info?) : e.Labels g' :=
  ⟨hinfo ▸ h.infos, hinfo ▸ h.streams, h.nodup, hinfo ▸ h.steps, hinfo ▸ h.updates⟩

/-! ## Memory -/

namespace Runtime

/-- A loaded program whose values have the infos of their tensors. -/
structure Labelled (g : Graph) (e : Executable) (r : Runtime) : Prop where
  backend : r.backend.Labels
  executable : r.executable = e
  labels : e.Labels g
  values : ∀ {t v}, r.memory.tensor? t = some v → g.info? t = some v.info

/-- What a labelled program gives. -/
theorem Labelled.gives (h : Labelled g e r) : r.backend.Gives e fun t v => g.info? t = some v.info := by
  refine ⟨fun {p c xs ys} hc hys => ?_, fun {p c t xs ys y} hc hout hys hy => ?_,
    fun {p c t x shared rest info y} hc hout hinfos _ hy => ?_, fun {u w v} huw hv => (h.labels.updates huw).symm.trans hv⟩
  · have hinfos := h.labels.steps hc
    rw [← h.backend.fresh hys, List.forall₂_map_right_iff] at hinfos
    exact fun ty hty => (List.forall₂_iff_zip.1 hinfos).2 hty
  · have hinfos := h.labels.steps hc
    rw [← h.backend.fresh hys, hout, List.forall₂_map_right_iff] at hinfos
    cases hinfos with
    | cons hfirst hrest =>
      cases hrest
      rw [List.getLast?_singleton, Option.some.injEq] at hy
      exact hy ▸ hfirst
  · have hsteps := h.labels.steps hc
    rw [hout, hinfos, List.forall₂_cons] at hsteps
    rw [h.backend.inPlace hy]
    exact hsteps.1

namespace Labelled

theorem valued (h : Labelled g e r) : Valued r.backend e (fun t v => g.info? t = some v.info) r :=
  ⟨rfl, h.executable, h.values⟩

theorem of_valued {r' : Runtime} (h : Labelled g e r) (hv : Valued r.backend e (fun t v => g.info? t = some v.info) r') :
    Labelled g e r' := ⟨hv.backend ▸ h.backend, hv.executable, h.labels, hv.values⟩

theorem congr {g' : Graph} (h : Labelled g e r) (hinfo : g.info? = g'.info?) : Labelled g' e r :=
  ⟨h.backend, h.executable, h.labels.congr hinfo, hinfo ▸ h.values⟩

theorem upload (h : Labelled g e r) {x : HostTensor} (hx : g.info? t = some x.info) : Labelled g e (r.upload t x) :=
  h.of_valued (h.valued.upload hx)

theorem load {b : Backend} (hb : b.Labels) (he : e.Labels g) (hdata : ∀ kv ∈ e.constants, g.info? kv.1 = some kv.2.info) :
    Labelled g e (Runtime.load b e) :=
  ⟨hb, rfl, he, (Valued.load (X := fun t v => g.info? t = some v.info) hdata).values⟩

/-- No batch, complete or not, gives a tensor a value of another info. -/
theorem runBatch (mode : RunMode) (h : Labelled g e r) :
    Stateful.Ends (fun _ => Labelled g e) (fun _ => Labelled g e) (runBatch mode) r :=
  (h.valued.runBatch mode h.gives).keeps.mono (fun _ _ hr => h.of_valued hr) fun _ _ hr => h.of_valued hr

end Labelled

end Runtime

end TensorGraph
