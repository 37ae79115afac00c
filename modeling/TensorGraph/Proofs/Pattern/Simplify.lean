import TensorGraph.Pattern.Structural
import TensorGraph.Proofs.Graph.DeadOps
import TensorGraph.Proofs.Graph.Sources
import TensorGraph.Proofs.Tensor.Host

/-!
Structural simplification keeps what a graph computes, bit for bit. Dropping an identity is rewiring its consumers to
an equal tensor and restricting the graph, folding puts a constant in the place of an op, and removing dead ops is
restricting the graph. Any sequence of them, at any ops, keeps the value of every tensor that must be kept and of
every update of a weight.
-/
namespace TensorGraph

namespace Graph

variable {g g' : Graph} {o : OpId} {t : TensorId} {b : Backend} {a ν : TensorId → Option HostTensor}

/-! ## What is promised of the rest of the graph -/

/-- The tensors to be kept are still there with their infos, and so are the updates of weights. -/
structure Retains (g g' : Graph) : Prop where
  kept : g'.kept = g.kept
  info : ∀ {t}, t ∈ g.kept → g.hasTensor t = true → g'.hasTensor t = true ∧ g'.info? t = g.info? t
  update : ∀ {o op}, g.op? o = some op → op.kind = .sgdVarUpdate →
    ∃ op', g'.op? o = some op' ∧ op'.kind = .sgdVarUpdate ∧ op'.outputs = op.outputs

namespace Retains

theorem refl (g : Graph) : Retains g g := ⟨rfl, fun _ ht => ⟨ht, rfl⟩, fun ho hk => ⟨_, ho, hk, rfl⟩⟩

theorem trans {g'' : Graph} (h : Retains g g') (h' : Retains g' g'') : Retains g g'' := by
  refine ⟨h'.kept.trans h.kept, fun hk ht => ?_, fun ho hu => ?_⟩
  · obtain ⟨ht', hinfo⟩ := h.info hk ht
    obtain ⟨ht'', hinfo'⟩ := h'.info (h.kept ▸ hk) ht'
    exact ⟨ht'', hinfo'.trans hinfo⟩
  · obtain ⟨op', ho', hu', hout⟩ := h.update ho hu
    obtain ⟨op'', ho'', hu'', hout'⟩ := h'.update ho' hu'
    exact ⟨op'', ho'', hu'', hout'.trans hout⟩

end Retains

end Graph

open TensorGraph.Graph

variable {g g' : Graph} {o : OpId} {op : Op} {t : TensorId} {b : Backend} {a ν : TensorId → Option HostTensor}
  {r r' : Editor}

namespace Editor

theorem run_onGraph_ok {α : Type} {x : GraphM α} {y : α} (h : (onGraph x).run r = (.ok y, r')) :
    x.run r.graph = (.ok y, r'.graph) := by
  unfold onGraph at h
  rw [Stateful.run_focus, Prod.mk.injEq] at h
  obtain ⟨h1, rfl⟩ := h
  exact Prod.ext h1 rfl

theorem foldl_graph {α : Type} {f : Editor → α → Editor} (hf : ∀ r a, (f r a).graph = r.graph) :
    ∀ (l : List α) (r : Editor), (l.foldl f r).graph = r.graph
  | [], _ => rfl
  | a :: l, r => (foldl_graph hf l (f r a)).trans (hf r a)

theorem bumpUsers_graph (id : TensorId) : (r.bumpUsers id).graph = r.graph :=
  foldl_graph (f := bump) (fun _ _ => rfl) _ r

theorem bumpProducer_graph (id : TensorId) : (r.bumpProducer id).graph = r.graph :=
  foldl_graph (f := bump) (fun _ _ => rfl) _ r

theorem run_erase_ok {u : Unit} (h : (erase op).run r = (.ok u, r')) :
    ∃ removed, r.graph.eraseOp op.id = .ok (removed, r'.graph) := by
  unfold erase at h
  obtain ⟨removed, r₁, h1, h2⟩ := Stateful.run_bind_ok.1 h
  refine ⟨removed, ?_⟩
  rw [Stateful.run_modify, Prod.mk.injEq] at h2
  obtain ⟨-, rfl⟩ := h2
  have hgraph : ((removed.inputs.foldl bumpProducer r₁).forget op.id).graph = r₁.graph :=
    foldl_graph (fun r i => bumpProducer_graph i) _ r₁
  rw [hgraph]
  exact Stateful.run_change_ok.1 (run_onGraph_ok h1)

theorem run_detach_ok {u : Unit} (h : (detach op).run r = (.ok u, r')) :
    ∃ removed, r.graph.detachOp op.id = .ok (removed, r'.graph) := by
  unfold detach at h
  obtain ⟨removed, r₁, h1, h2⟩ := Stateful.run_bind_ok.1 h
  refine ⟨removed, ?_⟩
  rw [Stateful.run_modify, Prod.mk.injEq] at h2
  obtain ⟨-, rfl⟩ := h2
  have hgraph : ((removed.outputs.foldl bumpUsers r₁).forget op.id).graph = r₁.graph :=
    foldl_graph (fun r i => bumpUsers_graph i) _ r₁
  rw [hgraph]
  exact Stateful.run_change_ok.1 (run_onGraph_ok h1)

theorem run_replaceAllUses_ok {u : Unit} {old new : TensorId} (h : (replaceAllUses old new).run r = (.ok u, r')) :
    (Graph.replaceAllUses old new).run r.graph = (.ok u, r'.graph) := by
  unfold replaceAllUses at h
  obtain ⟨s, r₀, h0, h⟩ := Stateful.run_bind_ok.1 h
  cases h0
  obtain ⟨v, r₁, h1, h2⟩ := Stateful.run_bind_ok.1 h
  rw [Stateful.run_modify, Prod.mk.injEq] at h2
  obtain ⟨-, rfl⟩ := h2
  rw [foldl_graph (f := bump) (fun _ _ => rfl) _ r₁]
  exact run_onGraph_ok h1

end Editor

namespace Graph

/-! ## Erasing and removing -/

theorem Retains.bypassed {old new : TensorId} (hb : Bypassed g old new g') : Retains g g' :=
  ⟨by rw [hb.frame], fun {t} _ ht => ⟨(hasTensor_congr (hb.bare_eq t)).trans ht, hb.info?_eq t⟩,
    fun {o op} ho hu => ⟨rewire old new op, by rw [hb.op?_eq, ho]; rfl, hu, rfl⟩⟩

/-- Erasing an op that produces nothing to be kept and updates no weight. -/
theorem Retains.eraseOp {id : OpId} {removed : Op} (h : g.eraseOp id = .ok (removed, g'))
    (hkept : ∀ t ∈ removed.outputs, t ∉ g.kept) (hkind : removed.kind ≠ .sgdVarUpdate) : Retains g g' := by
  obtain ⟨hd, -⟩ := eraseOp_ok h
  refine ⟨by rw [hd.frame], fun {t} hk ht => ?_, fun {o op} ho hu => ?_⟩
  · have hout : t ∉ removed.outputs := fun hout => hkept t hout hk
    have hsame := hd.bare_eq hout
    exact ⟨(hasTensor_congr hsame).trans ht, info?_congr hsame⟩
  · have hne : o ≠ id := by
      rintro rfl
      cases ho.symm.trans hd.found
      exact hkind hu
    exact ⟨op, by rw [hd.op?_eq, if_neg hne, ho], hu, rfl⟩

theorem Retains.removeTensor {id : TensorId} {x : Tensor} (h : g.removeTensor id = .ok (x, g')) (hkept : id ∉ g.kept) :
    Retains g g' := by
  have hlook := tensor?_removeTensor h
  obtain ⟨-, -, -, rfl⟩ := removeTensor_ok h
  refine ⟨rfl, fun {t} hk ht => ?_, fun ho hu => ⟨_, ho, hu, rfl⟩⟩
  have hne : id ≠ t := fun e => hkept (e ▸ hk)
  have hsame := (hlook t).trans (if_neg hne)
  exact ⟨(hasTensor_congr (by rw [hsame])).trans ht, info?_congr (by rw [hsame])⟩

end Graph

/-! ## Identities -/

namespace Pattern

/-- A dropped identity was not to be kept; its consumers were rewired and it was erased. -/
theorem dropIdentity_ok (hl : r.graph.Linked) (ho : r.graph.op? op.id = some op) {out : TensorId}
    (hout : op.outputs = [out]) (hrun : (dropIdentity.attempt op).run r = (.ok true, r')) :
    out ∉ r.graph.kept ∧ ∃ x g₁, op.inputs.head? = some x ∧ Bypassed r.graph out x g₁ ∧
      g₁.eraseOp op.id = .ok (rewire out x op, r'.graph) := by
  have houtput : op.output = .ok out := by simp [Op.output, hout, Outcome.promised]
  simp only [dropIdentity, houtput] at hrun
  obtain ⟨x, hx, hrun⟩ := Stateful.run_liftM_bind_ok.1 hrun
  rw [Op.input, Outcome.promised_eq_ok, ← List.head?_eq_getElem?] at hx
  obtain ⟨_, r₀, h0, hrun⟩ := Stateful.run_bind_ok.1 hrun
  cases h0
  obtain ⟨s, r₀, h0, hrun⟩ := Stateful.run_bind_ok.1 hrun
  cases h0
  split at hrun
  · cases hrun
  · rename_i hkept
    obtain ⟨u, r₁, h1, hrun⟩ := Stateful.run_bind_ok.1 hrun
    obtain ⟨v, r₂, h2, hrun⟩ := Stateful.run_bind_ok.1 hrun
    cases hrun
    obtain ⟨removed, herase⟩ := Editor.run_erase_ok h2
    have hcall := Editor.run_replaceAllUses_ok h1
    obtain ⟨g₁, hcall', hb⟩ := hl.replaceAllUses out (hl.hasTensor_of_input ho (List.mem_of_head? hx))
    cases hcall'.symm.trans hcall
    have hfound := (eraseOp_ok herase).1.found
    rw [hb.op?_eq, ho] at hfound
    cases hfound
    exact ⟨fun hmem => hkept (SortedSet.contains_iff.2 hmem), x, r₁.graph, hx, hb, herase⟩

/-- Dropping an identity keeps what the graph computes: its result and its operand have the same value. -/
theorem dropIdentity_means (hb : b.Lawful) (hm : r.graph.Means b a ν) (ho : r.graph.op? op.id = some op)
    (happ : dropIdentity.applies op = true) (hrun : (dropIdentity.attempt op).run r = (.ok true, r')) :
    r'.graph.Means b a ν ∧ Retains r.graph r'.graph := by
  have hkind : op.kind = .identity := by simpa [dropIdentity] using happ
  obtain ⟨x, out, info, hin, hout, hxinfo, houtinfo⟩ := hm.inferred.identity ho hkind
  obtain ⟨hkept, x', g₁, hx', hbypass, herase⟩ := dropIdentity_ok hm.linked ho hout hrun
  rw [hin, List.head?_cons, Option.some.injEq] at hx'
  subst hx'
  have hxmem : x ∈ op.inputs := by simp [hin]
  have houtmem : out ∈ op.outputs := by simp [hout]
  have hproducer : r.graph.producer? out = some op.id := hm.linked.makes.2 ⟨op, ho, houtmem⟩
  have hx := hm.linked.hasTensor_of_input ho hxmem
  -- the identity copies, and the value that it copies has the info of its result
  have hν : ν x = ν out := by
    obtain ⟨y, hy, hyop⟩ := hm.solves.op hproducer ho
    obtain ⟨xs, hxs, hyop⟩ := Option.bind_eq_some_iff.1 hyop
    rw [hin, mapM_eq_some_iff] at hxs
    obtain ⟨v, l, hv, hl, rfl⟩ := List.forall₂_cons_left_iff.1 hxs
    rw [List.forall₂_nil_left_iff] at hl
    subst hl
    have hvinfo := hm.info hb (hasTensor_iff.2 hx) hv
    rw [hxinfo, Option.some.injEq] at hvinfo
    rw [houtinfo, Option.bind_some, hkind, hvinfo] at hyop
    rw [hv, hy, hb.kernel_identity hyop]
  have hm₁ : g₁.Means b a ν := by
    refine hm.rewire hbypass (hxinfo.trans houtinfo.symm) hν fun {p} hp => ?_
    exact ⟨op.id, hproducer, op, ho, x, hxmem, hp⟩
  have hret₁ : Retains r.graph g₁ := .bypassed hbypass
  refine ⟨(Restricts.eraseOp hbypass.linked herase).means hm₁, hret₁.trans ?_⟩
  refine Retains.eraseOp herase ?_ ?_
  · intro t ht
    have htout : t = out := by simpa [rewire, hout] using ht
    rw [htout, hret₁.kept]
    exact hkept
  · change op.kind ≠ _
    rw [hkind]
    intro h
    cases h

/-! ## Constants -/

theorem constantValue?_eq_some {v : HostTensor} :
    constantValue? g t = some v ↔ ∃ x, g.tensor? t = some x ∧ x.type = .const ∧ x.data = some v := by
  unfold constantValue?
  rw [Option.bind_eq_some_iff]
  refine exists_congr fun x => and_congr_right fun _ => ?_
  by_cases hx : x.type = .const <;> simp [hx]

theorem evaluate_ok (hb : b.Lawful) {kind : OpKind} {xs ys : List HostTensor} {info : TensorInfo}
    (h : b.evaluate kind xs [info] = .ok ys) : ∃ y, ys = [y] ∧ b.kernel kind xs info = some y := by
  unfold Backend.evaluate at h
  obtain ⟨zs, hzs, h⟩ := Outcome.bind_eq_ok.1 h
  obtain ⟨z, rfl, -⟩ := hb.info hzs
  rw [Outcome.mapM_eq_ok] at h
  obtain ⟨y, l, hy, hl, rfl⟩ := List.forall₂_cons_left_iff.1 h
  rw [List.forall₂_nil_left_iff] at hl
  subst hl
  obtain ⟨rfl, -⟩ := Backend.download_eq_ok.1 hy
  exact ⟨y, rfl, Backend.kernel_eq_some.2 hzs⟩

/-- A folded op had constants for operands; its result on them took the place of the op. -/
theorem foldConstants_ok (hb : b.Lawful) {out : TensorId} (hout : op.outputs = [out])
    (hrun : ((foldConstants b).attempt op).run r = (.ok true, r')) :
    ∃ values info y removed g₁, op.inputs.mapM (constantValue? r.graph) = some values ∧
      r.graph.info? out = some info ∧ b.kernel op.kind values info = some y ∧
      r.graph.detachOp op.id = .ok (removed, g₁) ∧ g₁.makeConst out y = .ok r'.graph := by
  simp only [foldConstants] at hrun
  obtain ⟨s, r₀, h0, hrun⟩ := Stateful.run_bind_ok.1 hrun
  cases h0
  split at hrun
  · cases hrun
  · rename_i values hvalues
    obtain ⟨infos, r₁, h1, hrun⟩ := Stateful.run_bind_ok.1 hrun
    rw [Stateful.run_lift, Prod.mk.injEq, hout, Outcome.mapM_eq_ok] at h1
    obtain ⟨hinfos, rfl⟩ := h1
    obtain ⟨info, l, hinfo, hl, rfl⟩ := List.forall₂_cons_left_iff.1 hinfos
    rw [List.forall₂_nil_left_iff] at hl
    subst hl
    obtain ⟨ys, hys, hrun⟩ := Stateful.run_liftM_bind_ok.1 hrun
    obtain ⟨y, rfl, hkernel⟩ := evaluate_ok hb hys
    obtain ⟨u, r₁, h1, hrun⟩ := Stateful.run_bind_ok.1 hrun
    obtain ⟨removed, hdetach⟩ := Editor.run_detach_ok h1
    obtain ⟨v, r₂, h2, hrun⟩ := Stateful.run_bind_ok.1 hrun
    cases hrun
    rw [hout, List.zip_cons_cons, List.zip_nil_left, Stateful.forM_cons] at h2
    obtain ⟨w, r₃, h3, h4⟩ := Stateful.run_bind_ok.1 h2
    rw [Stateful.run_forM_nil, Prod.mk.injEq] at h4
    obtain ⟨-, rfl⟩ := h4
    have hmake := Stateful.run_change_ok.1 (Editor.run_onGraph_ok h3)
    obtain ⟨g₂, hg₂, hpure⟩ := Outcome.bind_eq_ok.1 hmake
    cases hpure
    rw [Graph.info, Outcome.orFail_eq_ok] at hinfo
    exact ⟨values, info, y, removed, r₁.graph, hvalues, hinfo, hkernel, hdetach, hg₂⟩

/-- A constant that has a value in the graph has its data for value. -/
theorem value_of_constant (hm : g.Means b a ν) {v w : HostTensor} (hv : constantValue? g t = some v)
    (hw : ν t = some w) : v = w := by
  obtain ⟨x, hx, htype, hdata⟩ := constantValue?_eq_some.1 hv
  have hnone : g.producer? t = none := by
    rw [producer?, hx, Option.bind_some, hm.constants t x hx htype]
  have hfed := (hm.solves.source (hasTensor_iff.2 ⟨x, hx⟩) hnone).symm.trans hw
  change g.fed a t = some w at hfed
  rw [fed, hx, Option.bind_some, htype, hdata] at hfed
  exact Option.some.inj (Option.filter_eq_some_iff.1 hfed).1

/-- Where the operands of an op are constants, the value of its result is what the kernel makes of them. -/
theorem value_of_constants (hm : g.Means b a ν) (ho : g.op? op.id = some op) {out : TensorId} (hout : out ∈ op.outputs)
    {values : List HostTensor} {info : TensorInfo} {y : HostTensor}
    (hvalues : op.inputs.mapM (constantValue? g) = some values) (hinfo : g.info? out = some info)
    (hkernel : b.kernel op.kind values info = some y) : ν out = some y := by
  obtain ⟨z, hz, hzop⟩ := hm.solves.op (hm.linked.makes.2 ⟨op, ho, hout⟩) ho
  obtain ⟨xs, hxs, hzop⟩ := Option.bind_eq_some_iff.1 hzop
  rw [hinfo, Option.bind_some] at hzop
  have hsame : op.inputs.mapM (constantValue? g) = op.inputs.mapM ν := by
    refine mapM_congr_of_mem fun i hi => ?_
    obtain ⟨v, hv⟩ := exists_of_mapM_eq_some hvalues i hi
    obtain ⟨w, hw⟩ := exists_of_mapM_eq_some hxs i hi
    rw [hv, hw, value_of_constant hm hv hw]
  obtain rfl : xs = values := Option.some.inj (hxs.symm.trans (hsame.symm.trans hvalues))
  change b.kernel op.kind xs info = some z at hzop
  rw [hz, ← hzop, hkernel]

/-- Folding keeps what the graph computes. The operands are constants, so the op is run on the values that they have
in the graph. -/
theorem foldConstants_means (hb : b.Lawful) (hm : r.graph.Means b a ν) (ho : r.graph.op? op.id = some op)
    (happ : (foldConstants b).applies op = true) (hrun : ((foldConstants b).attempt op).run r = (.ok true, r')) :
    r'.graph.Means b a ν ∧ Retains r.graph r'.graph := by
  obtain ⟨out, hout⟩ := hm.inferred.output ho
  have hkind : op.kind ≠ .sgdVarUpdate := by
    simp only [foldConstants, Bool.and_eq_true, bne_iff_ne] at happ
    exact happ.2
  obtain ⟨values, info, y, removed, g₁, hvalues, hinfo, hkernel, hdetach, hmake⟩ := foldConstants_ok hb hout hrun
  have hd := detachOp_ok hdetach
  cases hd.found.symm.trans ho
  have hf := hm.linked.folded hd hout hmake
  have hy := value_of_constants hm ho (hout ▸ List.mem_singleton_self out) hvalues hinfo hkernel
  refine ⟨hm.fold hf hy, by rw [hf.frame], fun {t} _ ht => ⟨(hf.hasTensor_eq t).trans ht, hf.info?_eq t⟩, ?_⟩
  intro o op' ho' hu
  refine ⟨op', hf.op?_eq_some.2 ⟨?_, ho'⟩, hu, rfl⟩
  rintro rfl
  cases ho.symm.trans ho'
  exact hkind hu

end Pattern

namespace Graph

/-! ## Dead ops -/

theorem type_of_restricts (h : Restricts g g') {x y : Tensor} (hx : g'.tensor? t = some x) (hy : g.tensor? t = some y) :
    x.type = y.type := by
  obtain ⟨z, hz, hsame⟩ := h.lookup hx
  cases hz.symm.trans hy
  exact hsame.type.symm

/-- Removing dead ops only restricts the graph, which has no cycles, and keeps what is needed in itself. -/
theorem removeDead_ok (hl : g.Linked) (hout : ∀ {o op}, g.op? o = some op → ∃ t, op.outputs = [t]) {n : Nat}
    (hrun : removeDead.run g = (.ok n, g')) :
    g.Acyclic ∧ Restricts g g' ∧ Retains g g' ∧ (g.Sound → g'.Sound ∧ KeepsSources g g') := by
  unfold removeDead at hrun
  obtain ⟨s, g₀, h0, hrun⟩ := Stateful.run_bind_ok.1 hrun
  cases h0
  obtain ⟨order, g₀, h0, hrun⟩ := Stateful.run_bind_ok.1 hrun
  rw [Stateful.run_lift, Prod.mk.injEq] at h0
  obtain ⟨horder, rfl⟩ := h0
  obtain ⟨u, g₁, h1, hrun⟩ := Stateful.run_bind_ok.1 hrun
  obtain ⟨s, g₀, h0, hrun⟩ := Stateful.run_bind_ok.1 hrun
  cases h0
  obtain ⟨v, g₂, h2, hrun⟩ := Stateful.run_bind_ok.1 hrun
  cases hrun
  have hops : Restricts g g₁ ∧ Retains g g₁ ∧ (g.Sound → g₁.Sound ∧ KeepsSources g g₁) := by
    refine Stateful.run_forM_keeps
      (fun cur => Restricts g cur ∧ Retains g cur ∧ (g.Sound → cur.Sound ∧ KeepsSources g cur)) ?_
      ⟨.refl hl, .refl g, fun hs => ⟨hs, .refl g⟩⟩ h1
    intro id hid cur next ⟨hres, hret, hs⟩ hstep
    obtain ⟨removed, herase⟩ := run_change_discard_ok.1 hstep
    have hdead : ¬ g.Needed id := by
      intro hneeded
      have hnot := (List.mem_filter.1 hid).2
      rw [SortedSet.contains_iff.2 ((mem_liveOps hl).2 hneeded)] at hnot
      cases hnot
    obtain ⟨hd, hfree⟩ := eraseOp_ok herase
    have hfound := hres.op hd.found
    obtain ⟨out, hout⟩ := hout hfound
    have hmem : out ∈ removed.outputs := by simp [hout]
    have hkind : removed.kind ≠ .sgdVarUpdate := fun hkind => hdead (.of_update hfound hmem hkind)
    refine ⟨hres.trans (.eraseOp hres.linked herase), hret.trans (.eraseOp herase (fun t ht hk => ?_) hkind), fun hg => ?_⟩
    · rw [hret.kept] at hk
      exact hdead (.of_kept hfound ht hk)
    · obtain ⟨hsound, hsources⟩ := hs hg
      exact ⟨hsound.dropOp hd fun _ => consumedOutput?_eq_none.1 hfree, hsources.trans (.dropOp hsound hd)⟩
  have htensors : Restricts g₁ g' ∧ Retains g₁ g' ∧ (g₁.Sound → g'.Sound) ∧ KeepsSources g₁ g' := by
    refine Stateful.run_forM_keeps
      (fun cur => Restricts g₁ cur ∧ Retains g₁ cur ∧ (g₁.Sound → cur.Sound) ∧ KeepsSources g₁ cur) ?_
      ⟨.refl hops.1.linked, .refl g₁, id, .refl g₁⟩ h2
    intro id hid cur next ⟨hres, hret, hs, hsources⟩ hstep
    obtain ⟨x, hremove⟩ := run_change_discard_ok.1 hstep
    obtain ⟨y, hy, htype, -, -, hkept⟩ := (mem_orphans hops.1.linked).1 hid
    rw [← hret.kept] at hkept
    have hsame := type_of_restricts hres (removeTensor_ok hremove).1 hy
    exact ⟨hres.trans (.removeTensor hres.linked hremove), hret.trans (.removeTensor hremove hkept),
      fun hg => (hs hg).removeTensor hremove, hsources.trans (.removeTensor hremove hkept (hsame ▸ htype))⟩
  refine ⟨(order_complete hl horder).acyclic, hops.1.trans htensors.1, hops.2.1.trans htensors.2.1, fun hg => ?_⟩
  obtain ⟨hsound, hsources⟩ := hops.2.2 hg
  exact ⟨htensors.2.2.1 hsound, hsources.trans htensors.2.2.2⟩

theorem removeDead_means (hm : g.Means b a ν) {n : Nat} (hrun : removeDead.run g = (.ok n, g')) :
    g'.Means b a ν ∧ Retains g g' := by
  obtain ⟨-, hres, hret, -⟩ := removeDead_ok hm.linked (fun ho => hm.inferred.output ho) hrun
  exact ⟨hres.means hm, hret⟩

/-! ## Any sequence of simplifications -/

/-- One successful simplification, at any op. -/
inductive Simplifies (b : Backend) : Graph → Graph → Prop
  | dropIdentity {r r' : Editor} (op : Op) (found : r.graph.op? op.id = some op)
      (applies : Pattern.dropIdentity.applies op = true)
      (run : (Pattern.dropIdentity.attempt op).run r = (.ok true, r')) : Simplifies b r.graph r'.graph
  | foldConstants {r r' : Editor} (op : Op) (found : r.graph.op? op.id = some op)
      (applies : (Pattern.foldConstants b).applies op = true)
      (run : ((Pattern.foldConstants b).attempt op).run r = (.ok true, r')) : Simplifies b r.graph r'.graph
  | removeDead {g g' : Graph} {n : Nat} (run : Graph.removeDead.run g = (.ok n, g')) : Simplifies b g g'

theorem Simplifies.means (h : Simplifies b g g') (hb : b.Lawful) (hm : g.Means b a ν) :
    g'.Means b a ν ∧ Retains g g' := by
  cases h with
  | dropIdentity op found applies run => exact Pattern.dropIdentity_means hb hm found applies run
  | foldConstants op found applies run => exact Pattern.foldConstants_means hb hm found applies run
  | removeDead run => exact removeDead_means hm run

/-- A sequence of simplifications keeps what the graph computes. -/
theorem simplifications_means (h : Relation.ReflTransGen (Simplifies b) g g') (hb : b.Lawful) (hm : g.Means b a ν) :
    g'.Means b a ν ∧ Retains g g' := by
  induction h with
  | refl => exact ⟨hm, .refl g⟩
  | tail _ hstep ih =>
    obtain ⟨hm', hret⟩ := hstep.means hb ih.1
    exact ⟨hm', ih.2.trans hret⟩

/-- Simplification keeps meaning bit for bit: after any sequence of dropped identities, folded constants and removals
of dead ops, every tensor to be kept is still there with its info and its value, and every update of a weight is still
there with the value of its result. -/
theorem simplifications_keep_values (hb : b.Lawful) (hl : g.Linked) (hconst : g.ConstantsFixed) (hacyclic : g.Acyclic)
    (hinfer : g.Inferred) (h : Relation.ReflTransGen (Simplifies b) g g') (a : TensorId → Option HostTensor)
    (heval : ∀ o op, g.op? o = some op → ∀ t ∈ op.outputs, (g.value? b a t).isSome = true) :
    (∀ t ∈ g.kept, g.hasTensor t = true →
      g'.hasTensor t = true ∧ g'.info? t = g.info? t ∧ g'.value? b a t = g.value? b a t) ∧
    ∀ o op, g.op? o = some op → op.kind = .sgdVarUpdate →
      ∃ op', g'.op? o = some op' ∧ op'.kind = .sgdVarUpdate ∧ op'.outputs = op.outputs ∧
        ∀ t ∈ op.outputs, g'.value? b a t = g.value? b a t := by
  have hm : g.Means b a (g.value? b a) :=
    ⟨hl, hconst, hacyclic, hinfer, Reading.solves_value? _ hacyclic hl fun ho ht => heval _ _ ho _ ht⟩
  obtain ⟨hm', hret⟩ := simplifications_means h hb hm
  refine ⟨fun t hk ht => ?_, fun o op ho hu => ?_⟩
  · obtain ⟨ht', hinfo⟩ := hret.info hk ht
    exact ⟨ht', hinfo, hm'.value?_eq ht'⟩
  · obtain ⟨op', ho', hu', hout⟩ := hret.update ho hu
    refine ⟨op', ho', hu', hout, fun t ht => hm'.value?_eq ?_⟩
    exact Restricts.has_of_producer (hm'.linked.makes.2 ⟨op', ho', hout ▸ ht⟩)

/-! ### A graph that simplifies in all three ways -/

/-- A stream passes through an identity, a constant is doubled, and both are joined into what is kept. -/
def sampleCalls : List Edit :=
  [.addTensor "x" ⟨.float, [2]⟩ .stream none, .addConst "c" ⟨⟨.float, [2]⟩, .f32 [.one, .zero]⟩,
    .addOp .identity ["x"] ["y"] .forward, .addOp (.concat 0) ["c", "c"] ["d"] .forward,
    .addOp (.concat 0) ["d", "y"] ["z"] .forward, .keep "z"]

def sample : Graph := sampleCalls.foldl (fun g e => (e.call.run g).2) Graph.empty

def samplePass : Op :=
  { id := 0, kind := .identity, name := "y", inputs := ["x"], outputs := ["y"], phase := .forward }

def sampleFold : Op :=
  { id := 1, kind := .concat 0, name := "d", inputs := ["c", "c"], outputs := ["d"], phase := .forward }

def sampleInputs (t : TensorId) : Option HostTensor :=
  if t = "x" then some ⟨⟨.float, [2]⟩, .f32 [.zero, .one]⟩ else none

theorem sample_sound : sample.Sound := by
  have h : Edited Graph.empty sample :=
    .call _ (.call _ (.call _ (.call _ (.call _ (.call _ .start trivial) trivial) trivial) trivial) trivial) trivial
  exact h.sound .empty

theorem sample_inferred : sample.Inferred := by
  have h : ∀ op ∈ sample.ops.values, ∃ output infos info, op.outputs = [output] ∧
      op.inputs.mapM sample.info? = some infos ∧ op.kind.infer infos = .ok info ∧
      sample.info? output = some info := by
    intro op hop
    fin_cases hop
    · exact ⟨"y", _, _, rfl, rfl, rfl, rfl⟩
    · exact ⟨"d", _, _, rfl, rfl, rfl, rfl⟩
    · exact ⟨"z", _, _, rfl, rfl, rfl, rfl⟩
  exact fun o op ho => h op (Dict.mem_values.2 ⟨o, ho⟩)

theorem sample_simplifies :
    ∃ g', Relation.ReflTransGen (Simplifies (.reference "cpu")) sample g' ∧ g'.ops.keys = [2] := by
  have hpass := Simplifies.dropIdentity (b := .reference "cpu") (r := ⟨sample, .empty⟩) samplePass
    (by decide) (by decide) (Stateful.eq_ok_of_fst (by decide +kernel))
  have hfold := Simplifies.foldConstants (b := .reference "cpu")
    (r := ((Pattern.dropIdentity.attempt samplePass).run ⟨sample, .empty⟩).2) sampleFold
    (by decide) (by decide) (Stateful.eq_ok_of_fst (by decide +kernel))
  have hdead := Simplifies.removeDead (b := .reference "cpu") (n := 0)
    (g := (((Pattern.foldConstants (.reference "cpu")).attempt sampleFold).run
      ((Pattern.dropIdentity.attempt samplePass).run ⟨sample, .empty⟩).2).2.graph)
    (Stateful.eq_ok_of_fst (by decide +kernel))
  exact ⟨_, ((Relation.ReflTransGen.single hpass).tail hfold).tail hdead, by decide +kernel⟩

theorem simplifications_keep_values_sample :
    ∃ g', Relation.ReflTransGen (Simplifies (.reference "cpu")) sample g' ∧ g'.ops.keys = [2] ∧
      g'.value? (.reference "cpu") sampleInputs "z" = sample.value? (.reference "cpu") sampleInputs "z" ∧
      sample.value? (.reference "cpu") sampleInputs "z" =
        some ⟨⟨.float, [6]⟩, .f32 [.one, .zero, .one, .zero, .zero, .one]⟩ := by
  obtain ⟨g', hsteps, hops⟩ := sample_simplifies
  have hl := sample_sound.linked
  have hacyclic := (order_complete hl (l := [0, 1, 2]) (by decide)).acyclic
  have heval : ∀ op ∈ sample.ops.values, ∀ t ∈ op.outputs,
      (sample.value? (.reference "cpu") sampleInputs t).isSome = true := by decide
  have hkeep := simplifications_keep_values (Backend.reference_lawful "cpu") hl
    sample_sound.wellFormed.constantsFixed hacyclic sample_inferred hsteps sampleInputs
    fun o op ho => heval op (Dict.mem_values.2 ⟨o, ho⟩)
  exact ⟨g', hsteps, hops, (hkeep.1 "z" (SortedSet.contains_iff.1 (by decide)) (by decide)).2.2, by decide⟩

end Graph

end TensorGraph
