import TensorGraph.Graph.Import
import TensorGraph.Proofs.Graph.Linked

/-!
The representation invariant of graphs. `WellFormed` is what users of a graph rely on; `Sound` is the invariant that
each change keeps, which also says what may stand in the list of streams. A graph that is built by the changes of
`TensorGraph.Graph.Edit`, from nothing or from a model, is sound after every call, and a call that fails leaves it as
it was.
-/
namespace TensorGraph

namespace Graph

variable {g g' : Graph} {o : OpId} {t : TensorId}

/-- A graph whose tables tell the same story: names are the names they are stored under, ops are numbered below the
next number, operands and results are tensors of the graph, producers and consumers are those that the ops name,
only computed tensors are produced, and a stream stands in the list of streams exactly once. -/
structure WellFormed (g : Graph) : Prop where
  opId : ∀ {o op}, g.op? o = some op → op.id = o
  tensorId : ∀ {t x}, g.tensor? t = some x → x.id = t
  opBound : ∀ {o op}, g.op? o = some op → o < g.nextOp
  inputs : ∀ {o op t}, g.op? o = some op → t ∈ op.inputs → g.hasTensor t = true
  outputs : ∀ {o op t}, g.op? o = some op → t ∈ op.outputs → g.hasTensor t = true
  reads : ∀ {o t}, o ∈ g.consumers t ↔ ∃ op, g.op? o = some op ∧ t ∈ op.inputs
  makes : ∀ {o t}, g.producer? t = some o ↔ ∃ op, g.op? o = some op ∧ t ∈ op.outputs
  produced : ∀ {t x o}, g.tensor? t = some x → x.producer = some o → x.type = .actGrad
  streams : ∀ {t x}, g.tensor? t = some x → x.type = .stream → g.streams.count t = 1

theorem WellFormed.linked (h : g.WellFormed) : g.Linked := ⟨h.opId, h.tensorId, h.reads, h.makes⟩

/-- No op produces a constant. -/
def ConstantsFixed (g : Graph) : Prop := ∀ t x, g.tensor? t = some x → x.type = .const → x.producer = none

theorem WellFormed.constantsFixed (h : g.WellFormed) : g.ConstantsFixed := by
  intro t x hx ht
  cases hp : x.producer with
  | none => rfl
  | some o =>
    rw [h.produced hx hp] at ht
    cases ht

/-- What every change keeps. Beside the streams, the list of streams may name tensors that were streams before they
were given a fixed value, but no computed ones. -/
structure Sound (g : Graph) : Prop where
  linked : g.Linked
  opBound : ∀ {o op}, g.op? o = some op → o < g.nextOp
  produced : ∀ {t x o}, g.tensor? t = some x → x.producer = some o → x.type = .actGrad
  streamsNodup : g.streams.Nodup
  streamsKnown : ∀ {t}, t ∈ g.streams → ∃ x, g.tensor? t = some x ∧ x.type ≠ .actGrad
  streamsAll : ∀ {t x}, g.tensor? t = some x → x.type = .stream → t ∈ g.streams

namespace Sound

theorem wellFormed (h : g.Sound) : g.WellFormed where
  opId := h.linked.opId
  tensorId := h.linked.tensorId
  opBound := h.opBound
  inputs ho ht := hasTensor_iff.2 (h.linked.hasTensor_of_input ho ht)
  outputs ho ht := by
    obtain ⟨x, hx, -⟩ := h.linked.hasTensor_of_output ho ht
    exact hasTensor_iff.2 ⟨x, hx⟩
  reads := h.linked.reads
  makes := h.linked.makes
  produced := h.produced
  streams hx hs := List.count_eq_one_of_mem h.streamsNodup (h.streamsAll hx hs)

theorem op?_nextOp (h : g.Sound) : g.op? g.nextOp = none := by
  cases hop : g.op? g.nextOp with
  | none => rfl
  | some op => exact absurd (h.opBound hop) (Nat.lt_irrefl _)

/-! ## Each change -/

theorem empty : Graph.empty.Sound := by
  refine ⟨.empty, ?_, ?_, .nil, ?_, ?_⟩ <;> intros <;> contradiction

/-- A change of the consumers of tensors and of what ops say of themselves. -/
theorem of_bare (h : g.Sound) (hl : g'.Linked) (hop : ∀ {o op'}, g'.op? o = some op' → ∃ op, g.op? o = some op)
    (hb : ∀ t, (g'.tensor? t).map bare = (g.tensor? t).map bare) (hs : g'.streams = g.streams)
    (hn : g'.nextOp = g.nextOp) : g'.Sound := by
  refine ⟨hl, ?_, ?_, hs ▸ h.streamsNodup, ?_, ?_⟩
  · intro o op' ho
    obtain ⟨op, ho⟩ := hop ho
    exact hn ▸ h.opBound ho
  · intro t x o hx hp
    obtain ⟨y, hy, hyx⟩ := lookup_of_bare (hb t).symm hx
    exact hyx.type ▸ h.produced hy (hyx.producer.trans hp)
  · intro t ht
    obtain ⟨y, hy, hne⟩ := h.streamsKnown (hs ▸ ht)
    obtain ⟨x, hx, hxy⟩ := lookup_of_bare (hb t) hy
    exact ⟨x, hx, hxy.type ▸ hne⟩
  · intro t x hx hst
    obtain ⟨y, hy, hyx⟩ := lookup_of_bare (hb t).symm hx
    exact hs ▸ h.streamsAll hy (hyx.type.trans hst)

theorem bypassed (h : g.Sound) {old new : TensorId} (hb : Bypassed g old new g') : g'.Sound := by
  refine h.of_bare hb.linked (fun {o op'} ho' => ?_) hb.bare_eq (by rw [hb.frame]) (by rw [hb.frame])
  obtain ⟨op, ho, -⟩ := hb.op_of ho'
  exact ⟨op, ho⟩

theorem addTensor (h : g.Sound) {id : TensorId} {info : TensorInfo} {type : TensorType} {data : Option HostTensor}
    (hadd : g.addTensor id info type data = .ok g') : g'.Sound := by
  have hl := h.linked.addTensor hadd
  have hlook := tensor?_addTensor hadd
  obtain ⟨hnew, rfl⟩ := addTensor_ok hadd
  have hid : id ∉ g.streams := by
    intro hmem
    obtain ⟨x, hx, -⟩ := h.streamsKnown hmem
    rw [hnew] at hx
    cases hx
  refine ⟨hl, h.opBound, ?_, ?_, ?_, ?_⟩
  · intro t x o hx hp
    rw [hlook] at hx
    split at hx
    · cases hx
      cases hp
    · exact h.produced hx hp
  · show (if type = .stream then g.streams ++ [id] else g.streams).Nodup
    split
    · exact List.nodup_append.2 ⟨h.streamsNodup, List.nodup_singleton id, by
        intro a ha b hb
        rw [List.mem_singleton] at hb
        exact fun e => hid (hb ▸ e ▸ ha)⟩
    · exact h.streamsNodup
  · intro t ht
    change t ∈ (if type = .stream then g.streams ++ [id] else g.streams) at ht
    rw [hlook]
    split at ht
    · rename_i hstream
      rcases List.mem_append.1 ht with ht | ht
      · have hne : id ≠ t := fun e => hid (e ▸ ht)
        rw [if_neg hne]
        exact h.streamsKnown ht
      · rw [List.mem_singleton] at ht
        rw [if_pos ht.symm]
        exact ⟨_, rfl, by simp [hstream]⟩
    · have hne : id ≠ t := fun e => hid (e ▸ ht)
      rw [if_neg hne]
      exact h.streamsKnown ht
  · intro t x hx hst
    show t ∈ (if type = .stream then g.streams ++ [id] else g.streams)
    rw [hlook] at hx
    split at hx
    · rename_i heq
      cases hx
      rw [if_pos hst]
      simp [heq]
    · have hmem := h.streamsAll hx hst
      split
      · exact List.mem_append_left _ hmem
      · exact hmem

theorem addOp (h : g.Sound) {kind : OpKind} {inputs : List TensorId} {output : TensorId} {phase : Phase}
    {info : TensorInfo} (ha : AddedOp g kind inputs output phase info g') : g'.Sound := by
  refine ⟨h.linked.addOp h.op?_nextOp ha, ?_, ?_, ha.streams_eq ▸ h.streamsNodup, ?_, ?_⟩
  · intro o op ho
    rw [ha.nextOp_eq]
    rw [ha.op?_eq] at ho
    split at ho
    · rename_i heq
      exact heq ▸ Nat.lt_succ_self _
    · exact Nat.lt_succ_of_lt (h.opBound ho)
  · intro t x' o hx' hp
    obtain ⟨x, hx, rfl⟩ | ⟨-, -, -, rfl⟩ := ha.lookup hx'
    · by_cases ht : t = output
      · exact (isFree_iff.1 ha.free x (ht ▸ hx)).2
      · simp only [ht, if_false] at hp
        have htype := h.produced hx hp
        exact htype
    · rfl
  · intro t ht
    obtain ⟨x, hx, hne⟩ := h.streamsKnown (ha.streams_eq ▸ ht)
    have ht' : t ≠ output := fun e => hne (isFree_iff.1 ha.free x (e ▸ hx)).2
    rw [ha.tensor?_eq, hx, if_neg ht']
    refine ⟨_, rfl, ?_⟩
    split <;> exact hne
  · intro t x' hx' hst
    rw [ha.streams_eq]
    obtain ⟨x, hx, rfl⟩ | ⟨-, -, -, rfl⟩ := ha.lookup hx'
    · have hmem := h.streamsAll hx hst
      exact hmem
    · cases hst

theorem dropOp (h : g.Sound) {id : OpId} {op : Op} {erased : Bool} (hd : DroppedOp g id op erased g')
    (hfree : erased = true → ∀ t ∈ op.outputs, ∀ o ∈ g.consumers t, o = op.id) : g'.Sound := by
  have hs : g'.streams = g.streams := by rw [hd.frame]
  have hn : g'.nextOp = g.nextOp := by rw [hd.frame]
  refine ⟨h.linked.dropOp hd hfree, ?_, ?_, hs ▸ h.streamsNodup, ?_, ?_⟩
  · intro o op' ho
    exact hn ▸ h.opBound (hd.op?_eq_some.1 ho).2
  · intro t x' o hx' hp
    obtain ⟨x, hx, rfl⟩ := hd.lookup hx'
    by_cases hout : t ∈ op.outputs
    · simp [hout] at hp
    · simp only [hout, if_false] at hp
      have htype := h.produced hx hp
      exact htype
  · intro t ht
    obtain ⟨x, hx, hne⟩ := h.streamsKnown (hs ▸ ht)
    have hout : t ∉ op.outputs := by
      intro hout
      obtain ⟨y, hy, hp⟩ := h.linked.hasTensor_of_output hd.found hout
      rw [hx] at hy
      cases hy
      exact hne (h.produced hx hp)
    rw [hd.tensor?_eq, hx]
    exact ⟨_, if_neg fun hc => hout hc.2, hne⟩
  · intro t x' hx' hst
    obtain ⟨x, hx, rfl⟩ := hd.lookup hx'
    rw [hs]
    have hmem := h.streamsAll hx hst
    exact hmem

theorem removeTensor (h : g.Sound) {id : TensorId} {x : Tensor} (hr : g.removeTensor id = .ok (x, g')) :
    g'.Sound := by
  have hl := h.linked.removeTensor hr
  have hlook := tensor?_removeTensor hr
  obtain ⟨-, -, -, rfl⟩ := removeTensor_ok hr
  refine ⟨hl, h.opBound, ?_, h.streamsNodup.filter _, ?_, ?_⟩
  · intro t y o hy hp
    rw [hlook] at hy
    split at hy
    · cases hy
    · exact h.produced hy hp
  · intro t ht
    obtain ⟨hmem, hne⟩ := List.mem_filter.1 ht
    have hne' : id ≠ t := fun e => by simp [e] at hne
    rw [hlook, if_neg hne']
    exact h.streamsKnown hmem
  · intro t y hy hst
    rw [hlook] at hy
    split at hy
    · cases hy
    · rename_i hne
      have hne' : t ≠ id := fun e => hne e.symm
      exact List.mem_filter.2 ⟨h.streamsAll hy hst, by simp [hne']⟩

theorem nodup_substitute {old new : TensorId} {l : List TensorId} (h : l.Nodup) (hnew : new ∉ l) :
    (substitute old new l).Nodup := by
  refine List.Nodup.map_on ?_ h
  intro a ha b hb hab
  split at hab <;> split at hab <;> simp_all

theorem rename (h : g.Sound) {old new : TensorId} {x : Tensor} (hr : Renamed g old new x g') : g'.Sound := by
  have hnew : new ∉ g.streams := by
    intro hmem
    obtain ⟨y, hy, -⟩ := h.streamsKnown hmem
    exact hr.ne_new hy rfl
  refine ⟨h.linked.rename hr, ?_, ?_, hr.streams_eq ▸ nodup_substitute h.streamsNodup hnew, ?_, ?_⟩
  · intro o op' ho
    rw [hr.op?_eq] at ho
    obtain ⟨op, ho, -⟩ := Option.map_eq_some_iff.1 ho
    exact hr.nextOp_eq ▸ h.opBound ho
  · intro t y o hy hp
    rw [hr.tensor?_eq] at hy
    split at hy
    · cases hy
      have htype := h.produced hr.found hp
      exact htype
    · split at hy
      · cases hy
      · exact h.produced hy hp
  · intro t ht
    rw [hr.streams_eq] at ht
    rw [hr.tensor?_eq]
    rcases mem_substitute.1 ht with ⟨hmem, hto⟩ | ⟨rfl, hmem⟩
    · have htn : t ≠ new := fun e => hnew (e ▸ hmem)
      rw [if_neg htn, if_neg hto]
      exact h.streamsKnown hmem
    · obtain ⟨y, hy, hne⟩ := h.streamsKnown hmem
      rw [hr.found] at hy
      cases hy
      exact ⟨_, if_pos rfl, hne⟩
  · intro t y hy hst
    rw [hr.streams_eq]
    rw [hr.tensor?_eq] at hy
    split at hy
    · rename_i htn
      cases hy
      exact mem_substitute.2 (.inr ⟨htn, h.streamsAll hr.found hst⟩)
    · split at hy
      · cases hy
      · rename_i hto
        exact mem_substitute.2 (.inl ⟨h.streamsAll hy hst, hto⟩)

theorem makeConst (h : g.Sound) {id : TensorId} {value : HostTensor} (hm : g.makeConst id value = .ok g') :
    g'.Sound := by
  obtain ⟨x, hx, hnone, -, rfl⟩ := makeConst_ok hm
  refine ⟨h.linked.modifyTensor id (fun _ => rfl) (fun _ => rfl) (fun _ => rfl), h.opBound, ?_, h.streamsNodup,
    ?_, ?_⟩
  · intro t y o hy hp
    rw [tensor?_modifyTensor] at hy
    split at hy
    · rename_i hid
      subst hid
      rw [hx] at hy
      cases hy
      rw [hnone] at hp
      cases hp
    · exact h.produced hy hp
  · intro t ht
    obtain ⟨y, hy, hne⟩ := h.streamsKnown ht
    rw [tensor?_modifyTensor, hy]
    split
    · exact ⟨_, rfl, by simp⟩
    · exact ⟨y, rfl, hne⟩
  · intro t y hy hst
    rw [tensor?_modifyTensor] at hy
    split at hy
    · obtain ⟨z, -, rfl⟩ := Option.map_eq_some_iff.1 hy
      cases hst
    · exact h.streamsAll hy hst

theorem modifyOp (h : g.Sound) (id : OpId) {f : Op → Op} (hid : ∀ op, (f op).id = op.id)
    (hin : ∀ op, (f op).inputs = op.inputs) (hout : ∀ op, (f op).outputs = op.outputs) :
    (g.modifyOp id f).Sound := by
  refine h.of_bare (h.linked.modifyOp id hid hin hout) ?_ (fun _ => rfl) rfl rfl
  intro o op' ho
  rw [op?_modifyOp] at ho
  split at ho
  · obtain ⟨op, ho, -⟩ := Option.map_eq_some_iff.1 ho
    exact ⟨op, ho⟩
  · exact ⟨op', ho⟩

theorem keep (h : g.Sound) (t : TensorId) : (g.keep t).Sound :=
  h.of_bare (h.linked.of_lookups (fun _ => rfl) fun _ => rfl) (fun ho => ⟨_, ho⟩) (fun _ => rfl) rfl rfl

/-! ## Models -/

theorem importInitializer (h : g.Sound) {init : NamedTensor} (hi : g.importInitializer init = .ok g') : g'.Sound := by
  unfold Graph.importInitializer at hi
  obtain ⟨data, -, hi⟩ := Outcome.bind_eq_ok.1 hi
  exact h.addTensor hi

theorem importInput (h : g.Sound) {infos : Dict TensorId TensorInfo} {input : NamedInfo}
    (hi : Graph.importInput infos g input = .ok g') : g'.Sound := by
  unfold Graph.importInput at hi
  split at hi
  · cases hi
    exact h
  · exact h.addTensor hi

theorem importConstant (h : g.Sound) {n : Node} (hi : g.importConstant n = .ok g') : g'.Sound := by
  unfold Graph.importConstant at hi
  obtain ⟨value, -, hi⟩ := Outcome.bind_eq_ok.1 hi
  obtain ⟨output, -, hi⟩ := Outcome.bind_eq_ok.1 hi
  obtain ⟨data, -, hi⟩ := Outcome.bind_eq_ok.1 hi
  exact h.addTensor hi

theorem importOp (h : g.Sound) {n : Node} (hi : g.importOp n = .ok g') : g'.Sound := by
  unfold Graph.importOp at hi
  obtain ⟨kind, -, hi⟩ := Outcome.bind_eq_ok.1 hi
  split at hi
  · cases hi
  · obtain ⟨⟨id, added⟩, hadd, hi⟩ := Outcome.bind_eq_ok.1 hi
    obtain ⟨output, info, -, -, ha⟩ := addOp_ok hadd
    cases hi
    exact (h.addOp ha).modifyOp id (fun _ => rfl) (fun _ => rfl) (fun _ => rfl)

theorem importNode (h : g.Sound) {n : Node} (hi : g.importNode n = .ok g') : g'.Sound := by
  unfold Graph.importNode at hi
  split at hi
  · exact h.importConstant hi
  · exact h.importOp hi

theorem importOutput (h : g.Sound) {output : NamedInfo} (hi : g.importOutput output = .ok g') : g'.Sound := by
  unfold Graph.importOutput at hi
  split at hi
  · cases hi
    exact h.of_bare (h.linked.of_lookups (fun _ => rfl) fun _ => rfl) (fun ho => ⟨_, ho⟩) (fun _ => rfl) rfl rfl
  · cases hi

/-- The graph of a model is sound. -/
theorem ofModel {m : Model} {infos : Dict TensorId TensorInfo} (h : Graph.ofModel m infos = .ok g) : g.Sound := by
  unfold Graph.ofModel at h
  obtain ⟨weights, hw, h⟩ := Outcome.bind_eq_ok.1 h
  obtain ⟨streams, hs, h⟩ := Outcome.bind_eq_ok.1 h
  obtain ⟨nodes, hn, h⟩ := Outcome.bind_eq_ok.1 h
  have hweights : weights.Sound := Outcome.foldlM_keeps Sound (fun _ _ _ _ hg hi => hg.importInitializer hi) empty hw
  have hstreams : streams.Sound := Outcome.foldlM_keeps Sound (fun _ _ _ _ hg hi => hg.importInput hi) hweights hs
  have hnodes : nodes.Sound := Outcome.foldlM_keeps Sound (fun _ _ _ _ hg hi => hg.importNode hi) hstreams hn
  exact Outcome.foldlM_keeps Sound (fun _ _ _ _ hg hi => hg.importOutput hi) hnodes h

end Sound

/-! ## Calls -/

/-- A call that changes a graph. -/
inductive Edit where
  | addTensor (id : TensorId) (info : TensorInfo) (type : TensorType) (data : Option HostTensor)
  | addConst (id : TensorId) (value : HostTensor)
  | addOp (kind : OpKind) (inputs outputs : List TensorId) (phase : Phase)
  | detachOp (id : OpId)
  | eraseOp (id : OpId)
  | removeTensor (id : TensorId)
  | replaceAllUses (old new : TensorId)
  | replaceInput (op : OpId) (old new : TensorId)
  | renameTensor (old new : TensorId)
  | makeConst (id : TensorId) (value : HostTensor)
  | keep (id : TensorId)
  | tempId (base : String)

namespace Edit

/-- Makes the call. What it returns beside the graph is left out. -/
def call : Edit → GraphM Unit
  | addTensor id info type data => Stateful.change fun g => do return ((), ← g.addTensor id info type data)
  | addConst id value => Stateful.change fun g => do return ((), ← g.addConst id value)
  | addOp kind inputs outputs phase => do let _ ← Stateful.change fun g => g.addOp kind inputs outputs phase
  | detachOp id => do let _ ← Stateful.change fun g => g.detachOp id
  | eraseOp id => do let _ ← Stateful.change fun g => g.eraseOp id
  | removeTensor id => do let _ ← Stateful.change fun g => g.removeTensor id
  | replaceAllUses old new => Graph.replaceAllUses old new
  | replaceInput op old new => Stateful.change fun g => do return ((), ← g.replaceInput op old new)
  | renameTensor old new => Stateful.change fun g => do return ((), ← g.renameTensor old new)
  | makeConst id value => Stateful.change fun g => do return ((), ← g.makeConst id value)
  | keep id => modify fun g => g.keep id
  | tempId base => modify fun g => (g.tempId base).2

/-- When a call may be made: rewiring one op asks that it reads the old tensor and that the new one is there. All
other calls may be made at any time. -/
def Allowed (g : Graph) : Edit → Prop
  | replaceInput op old new => (∃ x, g.op? op = some x ∧ old ∈ x.inputs) ∧ g.hasTensor new = true
  | _ => True

/-- A call that either succeeds and leaves a sound graph, or fails and leaves the graph as it was. -/
def Settles (g : Graph) (x : GraphM Unit) : Prop :=
  (∃ g', x.run g = (.ok (), g') ∧ g'.Sound) ∨ ∃ e, x.run g = (.error e, g)

theorem settles_change {f : Graph → Outcome Graph} (hf : ∀ {g'}, f g = .ok g' → g'.Sound) :
    Settles g (Stateful.change fun g => do return ((), ← f g)) := by
  unfold Settles
  rw [Stateful.run_change]
  cases hfg : f g with
  | error e => exact .inr ⟨e, rfl⟩
  | ok g' => exact .inl ⟨g', rfl, hf hfg⟩

theorem settles_change_discard {α : Type} {f : Graph → Outcome (α × Graph)}
    (hf : ∀ {a g'}, f g = .ok (a, g') → g'.Sound) :
    Settles g (do let _ ← Stateful.change f) := by
  unfold Settles
  rw [Stateful.run_bind, Stateful.run_change]
  cases hfg : f g with
  | error e => exact .inr ⟨e, rfl⟩
  | ok r => exact .inl ⟨r.2, rfl, hf hfg⟩

/-- The step of the invariant: what one call does to a sound graph. -/
theorem settles (h : g.Sound) : ∀ {e : Edit}, e.Allowed g → Settles g e.call
  | addTensor .., _ => settles_change fun hg => h.addTensor hg
  | addConst .., _ => settles_change fun hg => h.addTensor hg
  | addOp .., _ => settles_change_discard fun hg => by
    obtain ⟨output, info, -, -, ha⟩ := addOp_ok hg
    exact h.addOp ha
  | detachOp _, _ => settles_change_discard fun hg => h.dropOp (detachOp_ok hg) nofun
  | eraseOp _, _ => settles_change_discard fun hg => by
    obtain ⟨hd, hfree⟩ := eraseOp_ok hg
    exact h.dropOp hd fun _ => consumedOutput?_eq_none.1 hfree
  | removeTensor _, _ => settles_change_discard fun hg => h.removeTensor hg
  | replaceAllUses old new, _ => by
    cases hnew : g.tensor? new with
    | some x =>
      obtain ⟨g', hrun, hb⟩ := h.linked.replaceAllUses old ⟨x, hnew⟩
      exact .inl ⟨g', hrun, h.bypassed hb⟩
    | none => exact .inr ⟨_, replaceAllUses_none hnew⟩
  | replaceInput o old new, ha => by
    obtain ⟨⟨op, ho, hold⟩, hnew⟩ := ha
    refine settles_change fun {g'} hg => ?_
    obtain ⟨g'', hrun, hr, hl⟩ := h.linked.replaceInput ho hold (hasTensor_iff.1 hnew)
    cases hrun.symm.trans hg
    refine h.of_bare hl ?_ hr.bare_eq (by rw [hr.frame]) (by rw [hr.frame])
    intro o op' ho
    rw [hr.op?_eq] at ho
    obtain ⟨op, ho, -⟩ := Option.map_eq_some_iff.1 ho
    exact ⟨op, ho⟩
  | renameTensor .., _ => settles_change fun hg => by
    obtain ⟨x, hr⟩ := renameTensor_ok h.linked hg
    exact h.rename hr
  | makeConst .., _ => settles_change fun hg => h.makeConst hg
  | keep id, _ => .inl ⟨g.keep id, rfl,
      h.of_bare (h.linked.of_lookups (fun _ => rfl) fun _ => rfl) (fun ho => ⟨_, ho⟩) (fun _ => rfl) rfl rfl⟩
  | tempId base, _ => .inl ⟨(g.tempId base).2, rfl,
      h.of_bare (h.linked.of_lookups (fun _ => rfl) fun _ => rfl) (fun ho => ⟨_, ho⟩) (fun _ => rfl) rfl rfl⟩

end Edit

/-- `Edited g g'` says that a sequence of allowed calls, failed ones among them, led from `g` to `g'`. -/
inductive Edited (g : Graph) : Graph → Prop
  | start : Edited g g
  | call {g' : Graph} (e : Edit) : Edited g g' → e.Allowed g' → Edited g (e.call.run g').2

theorem Edited.sound (h : Edited g g') (hg : g.Sound) : g'.Sound := by
  induction h with
  | start => exact hg
  | call e _ ha ih =>
    rcases Edit.settles ih ha with ⟨g'', hrun, hsound⟩ | ⟨f, hrun⟩
    · rw [hrun]
      exact hsound
    · rw [hrun]
      exact ih

/-- From the empty graph or from a model, every sequence of calls leads to well-formed graphs only, and a call that
fails leaves the graph as it was. -/
theorem Edited.wellFormed_and_failure_unchanged (hstart : g = Graph.empty ∨ ∃ m infos, Graph.ofModel m infos = .ok g)
    (h : Edited g g') :
    g'.WellFormed ∧ ∀ e : Edit, e.Allowed g' → ∀ f, (e.call.run g').1 = .error f → (e.call.run g').2 = g' := by
  have hg : g.Sound := by
    rcases hstart with rfl | ⟨m, infos, hm⟩
    · exact .empty
    · exact .ofModel hm
  have hg' := h.sound hg
  refine ⟨hg'.wellFormed, fun e ha f hf => ?_⟩
  rcases Edit.settles hg' ha with ⟨g'', hrun, -⟩ | ⟨f', hrun⟩
  · rw [hrun] at hf
    cases hf
  · rw [hrun]

/-- A stream and an op that reads it: the graph is well-formed, and the stream cannot be removed. -/
theorem Edited.wellFormed_of_read_stream :
    let g := ((Edit.addOp .identity ["x"] ["y"] .forward).call.run
      ((Edit.addTensor "x" ⟨.float, [2]⟩ .stream none).call.run Graph.empty).2).2
    g.ops.keys = [0] ∧ g.WellFormed ∧
      ((Edit.removeTensor "x").call.run g).1 = .error (.error (.graph (.stillConnected "x"))) ∧
      ((Edit.removeTensor "x").call.run g).2 = g := by
  have h := Edited.wellFormed_and_failure_unchanged (.inl rfl)
    (.call (.addOp .identity ["x"] ["y"] .forward) (.call (.addTensor "x" ⟨.float, [2]⟩ .stream none) .start trivial)
      trivial)
  exact ⟨by decide, h.1, by decide, h.2 (.removeTensor "x") trivial (.error (.graph (.stillConnected "x"))) (by decide)⟩

end Graph

end TensorGraph
