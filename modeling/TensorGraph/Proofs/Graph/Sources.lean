import TensorGraph.Proofs.Graph.WellFormed

/-!
What a change of a graph leaves of its sources and of its updates. Sources are the tensors that no op computes: streams,
weights, settings of the optimizer, and constants as far as they must be kept. An update is one of a weight, and its
result has the info of the weight.
-/
namespace TensorGraph

/-- What a tensor is given, beside its name: the type, the info and the data. -/
def Tensor.given (x : Tensor) : TensorType × TensorInfo × Option HostTensor := (x.type, x.info, x.data)

/-- Weights and streamed settings of the optimizer: they are on the device before anything runs, and stay there. -/
def TensorType.isHeld : TensorType → Bool
  | .weight | .optimizerStream => true
  | _ => false

namespace Graph

variable {g g' g'' : Graph} {o : OpId} {op : Op} {t : TensorId} {x x' : Tensor}

/-! ## Sources -/

/-- What is streamed has the type of a stream. -/
def StreamsTyped (g : Graph) : Prop := ∀ t ∈ g.streams, ∃ x, g.tensor? t = some x ∧ x.type = .stream

/-- The values of constants have the infos of these. -/
def ConstantsFit (g : Graph) : Prop := ∀ {t x v}, g.tensor? t = some x → x.type = .const → x.data = some v → v.info = x.info

/-- All sources of `g` are still there, with what they are given, and those of them that must be kept still must. No
weights and no settings of the optimizer are new, and no constants with values of other infos. -/
structure KeepsSources (g g' : Graph) : Prop where
  stays : ∀ {t x}, g.tensor? t = some x → x.type ≠ .actGrad → (x.type = .const → t ∈ g.kept) →
    (∃ x', g'.tensor? t = some x' ∧ x'.given = x.given) ∧ (t ∈ g.kept → t ∈ g'.kept)
  origin : ∀ {t x'}, g'.tensor? t = some x' → x'.type.isHeld = true → ∃ x, g.tensor? t = some x ∧ x.type = x'.type
  typed : g.StreamsTyped → g'.StreamsTyped
  fit : g.ConstantsFit → g'.ConstantsFit

theorem type_eq_of_given (h : x'.given = x.given) : x'.type = x.type := congrArg (·.1) h

theorem info_eq_of_given (h : x'.given = x.given) : x'.info = x.info := congrArg (·.2.1) h

/-- No stream is new, and sources stay what they are. -/
theorem StreamsTyped.of_subset (h : g.StreamsTyped) (hsub : ∀ t ∈ g'.streams, t ∈ g.streams)
    (hstays : ∀ {t x}, g.tensor? t = some x → x.type ≠ .actGrad → (x.type = .const → t ∈ g.kept) →
      (∃ x', g'.tensor? t = some x' ∧ x'.given = x.given) ∧ (t ∈ g.kept → t ∈ g'.kept)) : g'.StreamsTyped := by
  intro t ht
  obtain ⟨x, hx, htype⟩ := h t (hsub t ht)
  obtain ⟨⟨x', hx', hgiven⟩, -⟩ := hstays hx (by rw [htype]; nofun) (by rw [htype]; nofun)
  exact ⟨x', hx', (type_eq_of_given hgiven).trans htype⟩

/-- No constants are new. -/
theorem ConstantsFit.of_given (h : g.ConstantsFit)
    (hold : ∀ {t x'}, g'.tensor? t = some x' → x'.type = .const → ∃ x, g.tensor? t = some x ∧ x.given = x'.given) :
    g'.ConstantsFit := by
  intro t x' v hx' hconst hdata
  obtain ⟨x, hx, hgiven⟩ := hold hx' hconst
  have hvalue : x.data = x'.data := congrArg (·.2.2) hgiven
  exact (h hx ((type_eq_of_given hgiven).trans hconst) (hvalue.trans hdata)).trans (info_eq_of_given hgiven)

theorem given_of_bare (h : (g'.tensor? t).map bare = (g.tensor? t).map bare) (hx : g.tensor? t = some x) :
    ∃ x', g'.tensor? t = some x' ∧ x'.given = x.given := by
  obtain ⟨x', hx', hsame⟩ := lookup_of_bare h hx
  exact ⟨x', hx', by rw [Tensor.given, Tensor.given, hsame.type, hsame.info, hsame.data]⟩

namespace KeepsSources

theorem refl (g : Graph) : KeepsSources g g := ⟨fun hx _ _ => ⟨⟨_, hx, rfl⟩, id⟩, fun hx _ => ⟨_, hx, rfl⟩, id, id⟩

/-- A change after which no more tensors are streams or constants. -/
theorem of_streams (hsub : ∀ t ∈ g'.streams, t ∈ g.streams)
    (hstays : ∀ {t x}, g.tensor? t = some x → x.type ≠ .actGrad → (x.type = .const → t ∈ g.kept) →
      (∃ x', g'.tensor? t = some x' ∧ x'.given = x.given) ∧ (t ∈ g.kept → t ∈ g'.kept))
    (horigin : ∀ {t x'}, g'.tensor? t = some x' → x'.type.isHeld = true → ∃ x, g.tensor? t = some x ∧ x.type = x'.type)
    (hconst : ∀ {t x'}, g'.tensor? t = some x' → x'.type = .const → ∃ x, g.tensor? t = some x ∧ x.given = x'.given) :
    KeepsSources g g' := ⟨hstays, horigin, fun h => h.of_subset hsub hstays, fun h => h.of_given hconst⟩

theorem trans (h : KeepsSources g g') (h' : KeepsSources g' g'') : KeepsSources g g'' := by
  refine ⟨fun {t x} hx htype hconst => ?_, fun {t x''} hx'' htype => ?_, h'.typed ∘ h.typed, fun hg => h'.fit (h.fit hg)⟩
  · obtain ⟨⟨x', hx', hgiven⟩, hkept⟩ := h.stays hx htype hconst
    have hsame := type_eq_of_given hgiven
    obtain ⟨⟨x'', hx'', hgiven'⟩, hkept'⟩ :=
      h'.stays hx' (hsame ▸ htype) fun hc => hkept (hconst (hsame.symm.trans hc))
    exact ⟨⟨x'', hx'', hgiven'.trans hgiven⟩, hkept' ∘ hkept⟩
  · obtain ⟨x', hx', hsame⟩ := h'.origin hx'' htype
    obtain ⟨x, hx, hsame'⟩ := h.origin hx' (hsame ▸ htype)
    exact ⟨x, hx, hsame'.trans hsame⟩

/-- A change that leaves what tensors are given as it is. -/
theorem of_given (hstreams : g'.streams = g.streams) (hkept : g'.kept = g.kept)
    (h : ∀ t, (g'.tensor? t).map Tensor.given = (g.tensor? t).map Tensor.given) : KeepsSources g g' := by
  have hold : ∀ {t x'}, g'.tensor? t = some x' → ∃ x, g.tensor? t = some x ∧ x.given = x'.given := by
    intro t x' hx'
    have hsame := h t
    rw [hx'] at hsame
    exact Option.map_eq_some_iff.1 hsame.symm
  refine of_streams (fun t ht => hstreams ▸ ht) (fun {t x} hx _ _ => ⟨?_, fun hk => hkept ▸ hk⟩) (fun {t x'} hx' _ => ?_)
    fun hx' _ => hold hx'
  · have hsame := h t
    rw [hx] at hsame
    exact Option.map_eq_some_iff.1 hsame
  · obtain ⟨x, hx, hgiven⟩ := hold hx'
    exact ⟨x, hx, type_eq_of_given hgiven⟩

theorem of_bare (hstreams : g'.streams = g.streams) (hkept : g'.kept = g.kept)
    (h : ∀ t, (g'.tensor? t).map bare = (g.tensor? t).map bare) : KeepsSources g g' := by
  refine of_given hstreams hkept fun t => ?_
  have hmap := congrArg (Option.map Tensor.given) (h t)
  rwa [Option.map_map, Option.map_map] at hmap

theorem bypassed {old new : TensorId} (hb : Bypassed g old new g') : KeepsSources g g' :=
  of_bare (by rw [hb.frame]) (by rw [hb.frame]) hb.bare_eq

theorem addedKept (g : Graph) (t : TensorId) : KeepsSources g (g.keep t) :=
  of_streams (fun _ ht => ht) (fun hx _ _ => ⟨⟨_, hx, rfl⟩, fun hk => SortedSet.mem_insert.2 (.inr hk)⟩)
    (fun hx _ => ⟨_, hx, rfl⟩) fun hx _ => ⟨_, hx, rfl⟩

/-- The results of an op are no sources. -/
theorem dropOp (hs : g.Sound) {id : OpId} {erased : Bool} (hd : DroppedOp g id op erased g') : KeepsSources g g' := by
  have hkept : g'.kept = g.kept := by rw [hd.frame]
  have hstreams : g'.streams = g.streams := by rw [hd.frame]
  refine of_streams (fun t ht => hstreams ▸ ht)
    (fun {t x} hx htype _ => ⟨given_of_bare (hd.bare_eq fun hout => htype ?_) hx, fun hk => hkept ▸ hk⟩)
    (fun {t x'} hx' _ => ?_) fun {t x'} hx' _ => ?_
  · obtain ⟨y, hy, hp⟩ := hs.linked.hasTensor_of_output hd.found hout
    cases hx.symm.trans hy
    exact hs.produced hx hp
  · obtain ⟨x, hx, rfl⟩ := hd.lookup hx'
    exact ⟨x, hx, rfl⟩
  · obtain ⟨x, hx, rfl⟩ := hd.lookup hx'
    exact ⟨x, hx, rfl⟩

/-- A tensor is removed that is computed, or a constant that need not be kept. -/
theorem removeTensor {id : TensorId} (h : g.removeTensor id = .ok (x, g')) (hkept : id ∉ g.kept)
    (htype : x.type = .const ∨ x.type = .actGrad) : KeepsSources g g' := by
  have hlook := tensor?_removeTensor h
  have hold : ∀ {t y}, g'.tensor? t = some y → g.tensor? t = some y := by
    intro t y hy
    rw [hlook] at hy
    split at hy
    · cases hy
    · exact hy
  obtain ⟨hx, -, -, rfl⟩ := removeTensor_ok h
  refine of_streams (fun t ht => (List.mem_filter.1 ht).1)
    (fun {t y} hy hactGrad hconst => ⟨⟨y, ?_, rfl⟩, fun hk => hk⟩) (fun {t y} hy _ => ⟨y, hold hy, rfl⟩)
    fun {t y} hy _ => ⟨y, hold hy, rfl⟩
  rw [hlook, if_neg, hy]
  rintro rfl
  cases hx.symm.trans hy
  exact htype.elim (fun hc => hkept (hconst hc)) hactGrad

/-- A tensor is added that is neither a weight nor a setting of the optimizer. -/
theorem addTensor {name : TensorId} {info : TensorInfo} {type : TensorType} {data : Option HostTensor}
    (ha : g.addTensor name info type data = .ok g') (htype : type.isHeld = false)
    (hdata : ∀ {v}, type = .const → data = some v → v.info = info) : KeepsSources g g' := by
  have hlook := tensor?_addTensor ha
  obtain ⟨hnew, rfl⟩ := addTensor_ok ha
  refine ⟨fun {t x} hx _ _ => ⟨⟨x, ?_, rfl⟩, fun hk => hk⟩, fun {t x} hx hheld => ⟨x, ?_, rfl⟩,
    fun h t ht => ?_, fun h {t x v} hx hconst hv => ?_⟩
  · rw [hlook, if_neg, hx]
    rintro rfl
    rw [hnew] at hx
    cases hx
  · rw [hlook] at hx
    split at hx
    · cases hx
      rw [htype] at hheld
      cases hheld
    · exact hx
  · rw [hlook]
    split
    · rename_i heq
      subst heq
      refine ⟨_, rfl, ?_⟩
      dsimp only at ht
      split at ht
      · rename_i hstream
        exact hstream
      · obtain ⟨x, hx, -⟩ := h _ ht
        cases hnew.symm.trans hx
    · rename_i hne
      refine h t ?_
      dsimp only at ht
      split at ht
      · exact (List.mem_append.1 ht).resolve_right fun hmem => hne (List.mem_singleton.1 hmem).symm
      · exact ht
  · rw [hlook] at hx
    split at hx
    · cases hx
      exact hdata hconst hv
    · exact h hx hconst hv

/-- A computed tensor becomes a constant. -/
theorem makeConst {id : TensorId} {value : HostTensor} (h : g.makeConst id value = .ok g')
    (htype : ∀ {x}, g.tensor? id = some x → x.type = .actGrad) : KeepsSources g g' := by
  obtain ⟨y, hy, -, hinfo, hg'⟩ := makeConst_ok h
  have horigin : ∀ {t x}, g'.tensor? t = some x → x.type.isHeld = true → ∃ x', g.tensor? t = some x' ∧ x'.type = x.type := by
    intro t x hx hheld
    rw [hg', tensor?_modifyTensor] at hx
    split at hx
    · obtain ⟨z, -, rfl⟩ := Option.map_eq_some_iff.1 hx
      cases hheld
    · exact ⟨x, hx, rfl⟩
  subst hg'
  have hstays : ∀ {t x}, g.tensor? t = some x → x.type ≠ .actGrad →
      (g.modifyTensor id fun x => { x with type := .const, data := some value }).tensor? t = some x := by
    intro t x hx hactGrad
    rw [tensor?_modifyTensor, if_neg, hx]
    rintro rfl
    exact hactGrad (htype hx)
  refine ⟨fun {t x} hx hactGrad _ => ⟨⟨x, hstays hx hactGrad, rfl⟩, fun hk => hk⟩, horigin,
    fun hg => hg.of_subset (fun _ ht => ht) fun {t x} hx hactGrad _ => ⟨⟨x, hstays hx hactGrad, rfl⟩, fun hk => hk⟩,
    fun hg {t x v} hx hconst hv => ?_⟩
  · rw [tensor?_modifyTensor] at hx
    split at hx
    · rename_i heq
      subst heq
      obtain ⟨z, hz, rfl⟩ := Option.map_eq_some_iff.1 hx
      cases hy.symm.trans hz
      cases hv
      exact hinfo.symm
    · exact hg hx hconst hv

/-- A computed tensor gets another name. -/
theorem renamed {old new : TensorId} (hr : Renamed g old new x g') (htype : x.type = .actGrad) : KeepsSources g g' := by
  have hsame : ∀ {t y}, y.type ≠ .actGrad → (g'.tensor? t = some y ↔ g.tensor? t = some y) := by
    intro t y hy
    rw [hr.tensor?_eq]
    split
    · rename_i heq
      subst heq
      constructor <;> intro h
      · cases h
        exact absurd htype hy
      · exact absurd rfl (hr.ne_new h)
    · split
      · rename_i heq
        subst heq
        constructor <;> intro h
        · cases h
        · cases hr.found.symm.trans h
          exact absurd htype hy
      · rfl
  have horigin : ∀ {t y}, g'.tensor? t = some y → y.type.isHeld = true → g.tensor? t = some y := by
    refine fun {t y} hy hheld => (hsame ?_).1 hy
    intro heq
    rw [heq] at hheld
    cases hheld
  refine ⟨fun {t y} hy htype' _ => ⟨⟨y, (hsame htype').2 hy, rfl⟩, fun hk => ?_⟩,
    fun {t y} hy hheld => ⟨y, horigin hy hheld, rfl⟩, fun h t ht => ?_,
    fun h {t y v} hy hconst => h ((hsame (by rw [hconst]; nofun)).1 hy) hconst⟩
  · have hne : t ≠ old := by
      rintro rfl
      cases hr.found.symm.trans hy
      exact htype' htype
    rw [hr.kept_eq]
    split
    · exact SortedSet.mem_insert.2 (.inr (SortedSet.mem_erase.2 ⟨hk, hne⟩))
    · exact hk
  · rw [hr.streams_eq] at ht
    rcases mem_substitute.1 ht with ⟨ht, -⟩ | ⟨-, hold⟩
    · obtain ⟨y, hy, hstream⟩ := h t ht
      exact ⟨y, (hsame (by simp [hstream])).2 hy, hstream⟩
    · -- what gets another name is computed
      obtain ⟨y, hy, hstream⟩ := h old hold
      cases hr.found.symm.trans hy
      cases htype.symm.trans hstream

end KeepsSources

/-! ## Updates -/

/-- Every update is one of a weight, and its result has the info of the weight. -/
def Updating (g : Graph) : Prop := ∀ o op, g.op? o = some op → op.kind = .sgdVarUpdate → ∃ w x u,
  op.inputs.head? = some w ∧ g.tensor? w = some x ∧ x.type = .weight ∧ op.outputs = [u] ∧ g.info? u = some x.info

namespace Updating

theorem of_no_updates (h : ∀ {o op}, g.op? o = some op → op.kind ≠ .sgdVarUpdate) : g.Updating :=
  fun _ _ ho hk => absurd hk (h ho)

/-- The updates of a graph that keeps sources are those of another one, under other names for what is computed. -/
theorem of_ops (h : g.Updating) (hs : KeepsSources g g') {ψ : TensorId → TensorId}
    (hop : ∀ {o op'}, g'.op? o = some op' → op'.kind = .sgdVarUpdate → ∃ op, g.op? o = some op ∧
      op.kind = .sgdVarUpdate ∧ op'.inputs = op.inputs.map ψ ∧ op'.outputs = op.outputs.map ψ ∧
      ∀ u ∈ op.outputs, g'.info? (ψ u) = g.info? u)
    (hsource : ∀ {t x}, g.tensor? t = some x → x.type = .weight → ψ t = t) : g'.Updating := by
  intro o op' ho' hk'
  obtain ⟨op, ho, hk, hin, hout, hinfo⟩ := hop ho' hk'
  obtain ⟨w, x, u, hw, hx, htype, hu, hi⟩ := h o op ho hk
  obtain ⟨⟨x', hx', hgiven⟩, -⟩ := hs.stays hx (by rw [htype]; nofun) (by rw [htype]; nofun)
  refine ⟨w, x', ψ u, ?_, hx', (type_eq_of_given hgiven).trans htype, ?_, ?_⟩
  · rw [hin, List.head?_map, hw, Option.map_some, hsource hx htype]
  · rw [hout, hu, List.map_singleton]
  · rw [hinfo u (by simp [hu]), hi, info_eq_of_given hgiven]

/-- Fewer ops, with the tensors that they had. -/
theorem of_fewer (h : g.Updating) (hs : KeepsSources g g') (hop : ∀ {o op}, g'.op? o = some op → g.op? o = some op)
    (hinfo : ∀ {o op u}, g'.op? o = some op → u ∈ op.outputs → g'.info? u = g.info? u) : g'.Updating :=
  h.of_ops hs (ψ := id)
    (fun {_ op} ho hk => ⟨op, hop ho, hk, (List.map_id _).symm, (List.map_id _).symm, fun _ hu => hinfo ho hu⟩)
    fun _ _ => rfl

/-- A computed tensor gets another name. -/
theorem renamed (h : g.Updating) (hl : g.Linked) {old new : TensorId} (hr : Renamed g old new x g')
    (htype : x.type = .actGrad) : g'.Updating := by
  refine h.of_ops (.renamed hr htype) (ψ := fun i => if i = old then new else i) (fun {o op'} ho' hk' => ?_)
    fun {t y} hy hweight => if_neg ?_
  · rw [hr.op?_eq] at ho'
    obtain ⟨op, ho, rfl⟩ := Option.map_eq_some_iff.1 ho'
    refine ⟨op, ho, hk', rfl, rfl, fun u hu => ?_⟩
    obtain ⟨y, hy, -⟩ := hl.hasTensor_of_output ho hu
    exact hr.info?_later hy
  · rintro rfl
    cases hr.found.symm.trans hy
    rw [htype] at hweight
    cases hweight

/-- All ops read another tensor for a computed one. -/
theorem bypassed (h : g.Updating) (hl : g.Linked) {old new : TensorId} {id : OpId} {op : Op} (hb : Bypassed g old new g')
    (ho : g.op? id = some op) (hkind : op.kind ≠ .sgdVarUpdate) (hout : old ∈ op.outputs)
    (hold : ∀ x, g.tensor? old = some x → x.type = .actGrad) : g'.Updating := by
  refine h.of_ops (.bypassed hb) (ψ := fun i => if i = old then new else i) (fun {o op'} ho' hk => ?_)
    fun {t y} hy hweight => if_neg ?_
  · obtain ⟨other, hother, rfl⟩ := hb.op_of ho'
    have hnot : old ∉ other.outputs := by
      intro hmem
      cases hl.producer_unique ho hother hout hmem
      cases ho.symm.trans hother
      exact hkind hk
    refine ⟨other, hother, hk, rfl, (substitute_of_not_mem hnot).symm, fun u hu => ?_⟩
    have hne : u ≠ old := fun heq => hnot (heq ▸ hu)
    rw [if_neg hne, hb.info?_eq]
  · rintro rfl
    rw [hold y hy] at hweight
    cases hweight

end Updating

/-! ## Drafts -/

/-- The virtual graphs that ops name satisfy `V`. -/
def NamesOnly (V : Int → Prop) (g : Graph) : Prop := ∀ o op, g.op? o = some op → ∀ v, op.virtualGraph = some v → V v

/-- No op runs in place yet, and the virtual graphs that ops name satisfy `V`. -/
def Drafted (V : Int → Prop) (g : Graph) : Prop :=
  ∀ o op, g.op? o = some op → op.inPlace = false ∧ ∀ v, op.virtualGraph = some v → V v

theorem Drafted.of_ops {V : Int → Prop} (h : g.Drafted V) (hop : ∀ {o op'}, g'.op? o = some op' →
    ∃ o' op, g.op? o' = some op ∧ op'.inPlace = op.inPlace ∧ op'.virtualGraph = op.virtualGraph) : g'.Drafted V := by
  intro o op' ho'
  obtain ⟨o', op, ho, hmark, hgraph⟩ := hop ho'
  rw [hmark, hgraph]
  exact h o' op ho

theorem Drafted.bypassed {V : Int → Prop} (h : g.Drafted V) {old new : TensorId} (hb : Bypassed g old new g') :
    g'.Drafted V := h.of_ops fun {o op'} ho' => by
  obtain ⟨op, ho, rfl⟩ := hb.op_of ho'
  exact ⟨o, op, ho, rfl, rfl⟩

theorem Drafted.namesOnly {V : Int → Prop} (h : g.Drafted V) : g.NamesOnly V := fun o op ho => (h o op ho).2

/-- What a change of a draft leaves: its sources, updates that are all of weights, and the virtual graphs that ops
name. -/
structure Redraws (g g' : Graph) : Prop where
  sources : KeepsSources g g'
  updating : g.Updating → g'.Updating
  drafted : ∀ {V}, g.Drafted V → g'.Drafted V

namespace Redraws

theorem refl (g : Graph) : Redraws g g := ⟨.refl g, id, id⟩

theorem trans (h : Redraws g g') (h' : Redraws g' g'') : Redraws g g'' :=
  ⟨h.sources.trans h'.sources, h'.updating ∘ h.updating, fun hg => h'.drafted (h.drafted hg)⟩

theorem renamed (hl : g.Linked) {old new : TensorId} (hr : Renamed g old new x g') (htype : x.type = .actGrad) :
    Redraws g g' := by
  refine ⟨.renamed hr htype, fun hg => hg.renamed hl hr htype, fun hg => hg.of_ops fun {o op'} ho' => ?_⟩
  rw [hr.op?_eq] at ho'
  obtain ⟨op, ho, rfl⟩ := Option.map_eq_some_iff.1 ho'
  exact ⟨o, op, ho, rfl, rfl⟩

end Redraws

end Graph

end TensorGraph
