import TensorGraph.Proofs.Engine.Labels
import TensorGraph.Proofs.Session.Arrays
import TensorGraph.Proofs.Tensor.Host
import TensorGraph.Session.Run

/-!
The batches of a step on data in arrays. One batch takes the next batch of every stream, runs the program and gives back
what the anchors ask for; whatever fails on the way, all places stay whole batches from the start of their arrays.
-/
namespace TensorGraph

open TensorGraph.Graph

variable {g : Graph} {e : Executable} {flow : DataFlow} {r r' : Runtime} {st st' : Stepping ArrayIo} {io io' : ArrayIo}
  {p : StepPlan} {id : TensorId} {info : TensorInfo} {s : Session} {typed : Prop}

/-! ## Values that go in and out -/

namespace Runtime

/-- Gives some tensors values, one after the other. -/
def fed (r : Runtime) (l : List (TensorId × HostTensor)) : Runtime := l.foldl (fun r (id, v) => r.upload id v) r

/-- What is taken from the device has the info of its tensor, and the elements that it promises. -/
theorem Labelled.download (h : Labelled g e r) {v : HostTensor} (hv : r.download id = .ok v) :
    r.memory.tensor? id = some v ∧ g.info? id = some v.info ∧ v.data.length = v.info.count ∧
      v.data.kind = v.info.dtype.storage := by
  obtain ⟨x, hx, hv⟩ := Outcome.bind_eq_ok.1 hv
  have hx : r.memory.tensor? id = some x.tensor := by
    rw [DeviceMemory.tensor?, Outcome.orFail_eq_ok.1 hx]
    rfl
  obtain ⟨rfl, hchecked⟩ := Backend.download_eq_ok.1 hv
  obtain ⟨-, hlen, hkind⟩ := HostTensor.ofStorage_ok hchecked
  exact ⟨hx, h.values hx, hlen, hkind⟩

theorem Labelled.fed : ∀ {l : List (TensorId × HostTensor)} {r : Runtime}, (∀ iv ∈ l, g.info? iv.1 = some iv.2.info) →
    Labelled g e r → Labelled g e (r.fed l)
  | [], _, _, h => h
  | iv :: l, _, hl, h =>
    fed (l := l) (fun jv hjv => hl jv (List.mem_cons_of_mem _ hjv)) (h.upload (hl iv (by simp)))

end Runtime

/-! ## Places -/

namespace ReturnType

variable {t : ReturnType} {n : Nat}

theorem returns_pos (hn : 0 < n) (h : t.Fits n) : 0 < t.returns n := by
  cases t with
  | everyN period =>
    obtain ⟨hpos, hmod⟩ := h
    rw [returns, Nat.max_eq_left hpos]
    exact Nat.div_pos (Nat.le_of_dvd hn (Nat.dvd_of_mod_eq_zero hmod)) hpos
  | all => exact hn
  | final => exact Nat.one_pos
  | sum => exact Nat.one_pos

theorem count_bufferInfo (t : ReturnType) (n : Nat) (info : TensorInfo) :
    (t.bufferInfo n info).count = t.returns n * info.count := by
  unfold bufferInfo
  split
  · rename_i hone
    rw [hone, Nat.one_mul]
  · rfl

end ReturnType

namespace StepPlan

/-- What a plan takes from the program and the data flow. -/
structure Follows (g : Graph) (e : Executable) (flow : DataFlow) (mode : RunMode) (p : StepPlan) : Prop where
  runs : p.mode = mode
  batches : p.batches = flow.batches
  streams : p.streams = e.streamsFor mode
  anchors : ∀ a ∈ p.anchors, flow.anchors.get? a.id = some a.returns ∧ g.info? a.id = some a.info
  complete : ∀ {id t}, flow.anchors.get? id = some t → ∃ a ∈ p.anchors, a.id = id ∧ a.returns = t
  nodup : (p.anchors.map (·.id)).Nodup

/-- The values of the streams in one batch. -/
def fills (p : StepPlan) (data : TensorId → Storage) : List (TensorId × HostTensor) :=
  p.streams.map fun (id, info) => (id, ⟨info, data id⟩)

theorem Follows.fed_labelled {mode : RunMode} (hp : p.Follows g e flow mode) (data : TensorId → Storage)
    (h : r.Labelled g e) : (r.fed (p.fills data)).Labelled g e := by
  refine .fed (fun iv hiv => ?_) h
  obtain ⟨ti, hti, rfl⟩ := List.mem_map.1 hiv
  rw [hp.streams] at hti
  exact h.labels.streams (List.mem_filter.1 hti).1

/-- What is taken from the device for an anchor has its info and elements. -/
theorem Follows.value {mode : RunMode} (hp : p.Follows g e flow mode) {a : StepAnchor} (ha : a ∈ p.anchors)
    (h : r.Labelled g e) {v : HostTensor} (hv : r.download a.id = .ok v) :
    v = ⟨a.info, v.data⟩ ∧ v.data.length = a.info.count ∧ v.data.kind = a.info.dtype.storage := by
  obtain ⟨-, hinfo, hlen, hkind⟩ := h.download hv
  have hsame : v.info = a.info := Option.some.inj (hinfo.symm.trans (hp.anchors a ha).2)
  rw [hsame] at hlen hkind
  exact ⟨by rw [← hsame], hlen, hkind⟩

end StepPlan

namespace ArrayIo

/-- All places are whole batches from the start, and if `typed` holds the buffers have the widths of their anchors. -/
structure Placed (typed : Prop) (g : Graph) (e : Executable) (flow : DataFlow) (io : ArrayIo) : Prop where
  inputs : ∀ {id info}, (id, info) ∈ e.streams → ∃ k < flow.batches, io.inputOffset id = k * info.count
  outputs : ∀ {id t info}, flow.anchors.get? id = some t → g.info? id = some info →
    ∃ k < t.returns flow.batches, io.outputOffset id = k * info.count
  kinds : typed → ∀ {id t info x}, flow.anchors.get? id = some t → g.info? id = some info → io.outputs.get? id = some x →
    x.data.kind = info.dtype.storage

/-- Arrays and buffers have the elements of a whole step. -/
structure Sized (p : StepPlan) (io : ArrayIo) : Prop where
  inputs : ∀ {id info}, (id, info) ∈ p.streams → ∃ t, io.inputs.get? id = some t ∧ t.data.length = p.batches * info.count
  outputs : ∀ {a}, a ∈ p.anchors → ∃ t, io.outputs.get? a.id = some t ∧
    t.data.length = a.returns.returns p.batches * a.info.count

theorem Took.sized {data : Storage} (h : Took id info data io io') (hs : Sized p io) : Sized p io' :=
  ⟨fun hid => h.inputs ▸ hs.inputs hid, fun ha => h.outputs ▸ hs.outputs ha⟩

theorem Took.placed {mode : RunMode} {data : Storage} (h : Took id info data io io') (he : e.Labels g)
    (hp : p.Follows g e flow mode) (hs : Sized p io) (hid : (id, info) ∈ p.streams) (hplaced : Placed typed g e flow io) :
    Placed typed g e flow io' := by
  refine ⟨fun {id' info'} hid' => ?_, fun {id' t info'} ht hinfo => ?_, fun hyes => ?_⟩
  · obtain ⟨k, hk, hoffset⟩ := hplaced.inputs hid'
    by_cases heq : id = id'
    · subst heq
      have hmem : (id, info) ∈ e.streams := by
        rw [hp.streams] at hid
        exact (List.mem_filter.1 hid).1
      obtain rfl : info = info' := Option.some.inj ((he.streams hmem).symm.trans (he.streams hid'))
      obtain ⟨t, ht, -, hnext⟩ := h.array
      obtain ⟨t', ht', hlen⟩ := hs.inputs hid
      cases ht.symm.trans ht'
      rw [hnext, hoffset, hlen, hp.batches, advance_batch hk]
      exact ⟨_, Nat.mod_lt _ flow.batches_pos, rfl⟩
    · exact ⟨k, hk, (h.others id' heq).trans hoffset⟩
  · rw [outputOffset, h.outputCursors]
    exact hplaced.outputs ht hinfo
  · rw [h.outputs]
    exact hplaced.kinds hyes

theorem Wrote.sized {value : Storage} (h : Wrote id value io io') (hs : Sized p io) : Sized p io' := by
  refine ⟨fun hid => h.inputs ▸ hs.inputs hid, fun {a} ha => ?_⟩
  obtain ⟨t, ht, hlen⟩ := hs.outputs ha
  by_cases heq : id = a.id
  · subst heq
    obtain ⟨t', data, ht', hwrite, hout, -⟩ := h.buffer
    cases ht.symm.trans ht'
    exact ⟨_, hout, (Storage.write?_eq_some hwrite).2.2.1.trans hlen⟩
  · exact ⟨t, (h.others a.id heq).1.trans ht, hlen⟩

theorem Wrote.placed {mode : RunMode} {a : StepAnchor} {value : Storage} (h : Wrote a.id value io io')
    (hp : p.Follows g e flow mode) (hs : Sized p io) (ha : a ∈ p.anchors) (hvalue : value.length = a.info.count)
    (hplaced : Placed typed g e flow io) : Placed typed g e flow io' := by
  refine ⟨fun {id' info'} hid' => ?_, fun {id' t info'} ht hinfo => ?_, fun hyes {id' t info' x} ht hinfo hx => ?_⟩
  · rw [inputOffset, h.inputCursors]
    exact hplaced.inputs hid'
  · obtain ⟨k, hk, hoffset⟩ := hplaced.outputs ht hinfo
    by_cases heq : a.id = id'
    · subst heq
      obtain ⟨hreturns, hinfo'⟩ := hp.anchors a ha
      cases hreturns.symm.trans ht
      cases hinfo'.symm.trans hinfo
      obtain ⟨t, data, ht, -, -, hnext⟩ := h.buffer
      obtain ⟨t', ht', hlen⟩ := hs.outputs ha
      cases ht.symm.trans ht'
      rw [hnext, hoffset, hlen, hp.batches, hvalue, advance_batch hk]
      exact ⟨_, Nat.mod_lt _ (Nat.zero_lt_of_lt hk), rfl⟩
    · exact ⟨k, hk, (h.others id' heq).2.trans hoffset⟩
  · by_cases heq : a.id = id'
    · subst heq
      obtain ⟨y, data, hy, hwrite, hout, -⟩ := h.buffer
      cases hx.symm.trans hout
      exact (Storage.write?_eq_some hwrite).2.2.2.1.trans (hplaced.kinds hyes ht hinfo hy)
    · exact hplaced.kinds hyes ht hinfo ((h.others id' heq).1 ▸ hx)

end ArrayIo

namespace Session

/-- A session that runs steps on data of the host: a loaded program of its graph, with labelled values. -/
structure Serves (g : Graph) (e : Executable) (flow : DataFlow) (r : Runtime) (s : Session) : Prop where
  graph : s.graph = g
  dataFlow : s.dataFlow = flow
  host : s.options.effectiveSynthetic = .off
  engine : s.engine = some r
  labelled : r.Labelled g e

theorem Serves.loaded (h : Serves g e flow r s) (h' : r'.Labelled g e) :
    Serves g e flow r' { s with engine := some r' } := ⟨h.graph, h.dataFlow, h.host, rfl, h'⟩

theorem onEngine_ends {α : Type} {Q : α → Runtime → Prop} {E : Failure → Runtime → Prop} {x : RuntimeM α} (call : String)
    (hr : s.engine = some r) (hx : Stateful.Ends Q E x r) (hE : ∀ f, E f r) :
    Stateful.Ends (fun a s' => ∃ r', Q a r' ∧ s' = { s with engine := some r' })
      (fun f s' => ∃ r', E f r' ∧ s' = { s with engine := some r' }) (onEngine call x) s := by
  have hself : s = { s with engine := some r } := by rw [← hr]
  refine .get_bind (.bind (R := fun _ s' => s' = s) (.liftM (fun _ _ => rfl) fun f _ => ⟨r, hE f, hself⟩) ?_)
  rintro engine _ rfl
  refine .focus ?_
  rw [hr, Option.getD_some]
  exact hx.mono (fun _ r' h => ⟨r', h, rfl⟩) fun _ r' h => ⟨r', h, rfl⟩

/-! ## Feeding -/

/-- One stream was fed: it has the value of its next batch. -/
structure Fed (id : TensorId) (info : TensorInfo) (r : Runtime) (st st' : Stepping ArrayIo) : Prop where
  fed : ∃ data, ArrayIo.Took id info data st.data st'.data ∧
    st'.session = { st.session with engine := some (r.upload id ⟨info, data⟩) }

theorem feed_ends (call : String) (hr : st.session.engine = some r) (hoff : st.session.options.effectiveSynthetic = .off) :
    Stateful.Ends (fun _ st' => Fed id info r st st')
      (fun _ st' => st'.session = st.session ∧ (st'.data = st.data ∨ ∃ data, ArrayIo.Took id info data st.data st'.data))
      (feed ArrayIo.io call id info) st := by
  have hdata : Stateful.Ends (fun data st' => ArrayIo.Took id info data st.data st'.data ∧ st'.session = st.session)
      (fun _ st' => st' = st) (streamData ArrayIo.io id info) st := by
    refine .get_bind ?_
    simp only [hoff]
    refine .focus ((ArrayIo.take_ends id info st.data).mono (fun _ _ h => ⟨h, rfl⟩) fun _ _ h => ?_)
    rw [h]
  refine .bind (R := fun data st' => ArrayIo.Took id info data st.data st'.data ∧ st'.session = st.session)
    ⟨hdata.ok, fun h => ⟨by rw [hdata.error h], .inl (by rw [hdata.error h])⟩⟩ fun data st₁ h₁ => ?_
  refine .bind (R := fun v st' => v = ⟨info, data⟩ ∧ st' = st₁)
    (.liftM (fun v hv => ⟨(HostTensor.ofStorage_ok hv).1, rfl⟩) fun _ _ => ⟨h₁.2, .inr ⟨data, h₁.1⟩⟩) ?_
  rintro _ _ ⟨rfl, rfl⟩
  refine .focus ((onEngine_ends (E := fun _ r' => r' = r) call (h₁.2 ▸ hr)
    (.modify (Q := fun _ r' => r' = r.upload id ⟨info, data⟩) rfl) fun _ => rfl).mono ?_ ?_)
  · rintro _ _ ⟨_, rfl, rfl⟩
    exact ⟨data, h₁.1, by rw [h₁.2]⟩
  · rintro _ _ ⟨_, rfl, rfl⟩
    exact ⟨by rw [h₁.2, ← hr], .inr ⟨data, h₁.1⟩⟩

/-- All streams of a list were fed. -/
structure FedAll (l : List (TensorId × TensorInfo)) (r : Runtime) (data : TensorId → Storage) (st st' : Stepping ArrayIo) :
    Prop where
  taken : ∀ {id info}, (id, info) ∈ l → ∃ t, st.data.inputs.get? id = some t ∧
    t.data.slice? (st.data.inputOffset id) info.count = some (data id) ∧
    st'.data.inputOffset id = ArrayIo.advance (st.data.inputOffset id) info.count t.data.length
  others : ∀ {id}, id ∉ l.map (·.1) → st'.data.inputOffset id = st.data.inputOffset id
  inputs : st'.data.inputs = st.data.inputs
  outputs : st'.data.outputs = st.data.outputs
  outputCursors : st'.data.outputCursors = st.data.outputCursors
  session : st'.session = { st.session with engine := some (r.fed (l.map fun (id, info) => (id, ⟨info, data id⟩))) }

theorem FedAll.nil (hr : st.session.engine = some r) (data : TensorId → Storage) : FedAll [] r data st st :=
  ⟨fun h => absurd h List.not_mem_nil, fun _ => rfl, rfl, rfl, rfl, by rw [List.map_nil, Runtime.fed, List.foldl_nil, ← hr]⟩

/-- One stream, and then the others: what the first has took is put before what the others have. -/
theorem FedAll.cons {l : List (TensorId × TensorInfo)} {data : TensorId → Storage} {d : Storage} (hnew : id ∉ l.map (·.1))
    (htook : ArrayIo.Took id info d st.data st₁.data)
    (hsession : st₁.session = { st.session with engine := some (r.upload id ⟨info, d⟩) })
    (h : FedAll l (r.upload id ⟨info, d⟩) data st₁ st') :
    FedAll ((id, info) :: l) r (fun t => if t = id then d else data t) st st' := by
  have hne : ∀ ti ∈ l, ti.1 ≠ id := by
    rintro ti hti rfl
    exact hnew (List.mem_map.2 ⟨ti, hti, rfl⟩)
  refine ⟨fun {id' info'} hid' => ?_, fun {id'} hid' => ?_, h.inputs.trans htook.inputs, h.outputs.trans htook.outputs,
    h.outputCursors.trans htook.outputCursors, ?_⟩
  · rcases List.mem_cons.1 hid' with heq | hrest
    · cases heq
      obtain ⟨t, ht, hslice, hoffset⟩ := htook.array
      refine ⟨t, ht, ?_, (h.others hnew).trans hoffset⟩
      rw [if_pos rfl]
      exact hslice
    · have hne := hne _ hrest
      rw [if_neg hne, ← htook.others id' hne.symm, ← htook.inputs]
      exact h.taken hrest
  · rw [List.map_cons, List.mem_cons, not_or] at hid'
    exact (h.others hid'.2).trans (htook.others id' (Ne.symm hid'.1))
  · have hsame : (l.map fun (t, i) => ((t, ⟨i, data t⟩) : TensorId × HostTensor)) =
        l.map fun (t, i) => (t, ⟨i, if t = id then d else data t⟩) :=
      List.map_congr_left fun ti hti => by simp only [if_neg (hne ti hti)]
    rw [h.session, hsession, hsame, List.map_cons, Runtime.fed, Runtime.fed, List.foldl_cons]
    simp only [if_true]

/-- What every end of a step leaves: a session that serves, and places at batches. -/
structure Stands (typed : Prop) (g : Graph) (e : Executable) (flow : DataFlow) (st : Stepping ArrayIo) : Prop where
  serves : ∃ r, st.session.Serves g e flow r
  placed : st.data.Placed typed g e flow

theorem feedAll_ends {mode : RunMode} (call : String) (hp : p.Follows g e flow mode) :
    ∀ {l : List (TensorId × TensorInfo)} {r : Runtime} {st : Stepping ArrayIo}, l ⊆ p.streams → (l.map (·.1)).Nodup →
    st.session.Serves g e flow r → st.data.Placed typed g e flow → st.data.Sized p →
    Stateful.Ends (fun _ st' => (∃ data, FedAll l r data st st') ∧ st'.data.Placed typed g e flow ∧ st'.data.Sized p)
      (fun _ st' => Stands typed g e flow st') (l.forM fun (id, info) => feed ArrayIo.io call id info) st
  | [], r, st, _, _, hserves, hplaced, hsized => .pure ⟨⟨_, .nil hserves.engine fun _ => .f32 []⟩, hplaced, hsized⟩
  | (id, info) :: l, r, st, hl, hnodup, hserves, hplaced, hsized => by
    have hmem : (id, info) ∈ p.streams := hl (by simp)
    rw [List.map_cons, List.nodup_cons] at hnodup
    have hinfo : g.info? id = some info := by
      rw [hp.streams] at hmem
      exact hserves.labelled.labels.streams (List.mem_filter.1 hmem).1
    have hlabels := hserves.labelled.labels
    rw [Stateful.forM_cons]
    refine .bind (R := fun _ st' => Fed id info r st st')
      ((feed_ends call hserves.engine hserves.host).mono (fun _ _ h => h) fun _ st' hend => ?_) fun _ st₁ h₁ => ?_
    · obtain ⟨hsession, hdata | ⟨data, htook⟩⟩ := hend
      · exact ⟨⟨r, hsession ▸ hserves⟩, hdata ▸ hplaced⟩
      · exact ⟨⟨r, hsession ▸ hserves⟩, htook.placed hlabels hp hsized hmem hplaced⟩
    · obtain ⟨d, htook, hsession⟩ := h₁
      have hserves₁ : st₁.session.Serves g e flow (r.upload id ⟨info, d⟩) := by
        rw [hsession]
        exact hserves.loaded (hserves.labelled.upload hinfo)
      refine (feedAll_ends call hp (fun x hx => hl (List.mem_cons_of_mem _ hx)) hnodup.2 hserves₁
        (htook.placed hlabels hp hsized hmem hplaced) (htook.sized hsized)).mono ?_ fun _ _ h => h
      rintro _ st' ⟨⟨data, h⟩, hends⟩
      exact ⟨⟨_, h.cons hnodup.1 htook hsession⟩, hends⟩

/-! ## Giving back -/

/-- What is summed up for an anchor after the value `v`. -/
inductive Adds (v : Storage) : Option Storage → Storage → Prop
  | first : Adds v none v
  | next {t : Storage} {x : Option Storage} (h : t.accumulate v = .ok x) : Adds v (some t) (x.getD t)

/-- What there is of an anchor while a step runs: its buffer, the place of the next value in it, and the sum so far. -/
structure Slot where
  buffer : Option HostTensor
  offset : Nat
  sum : Option Storage

/-- The slot of an anchor. -/
def slot (io : ArrayIo) (sums : Dict TensorId Storage) (id : TensorId) : Slot :=
  ⟨io.outputs.get? id, io.outputOffset id, sums.get? id⟩

/-- A value was written. -/
def Slot.Puts (x : Storage) (s s' : Slot) : Prop :=
  ∃ t data, s.buffer = some t ∧ t.data.write? s.offset x = some data ∧ s'.buffer = some { t with data } ∧
    s'.offset = ArrayIo.advance s.offset x.length t.data.length

/-- What batch `i` does for an anchor. -/
structure Gave (batches i : Nat) (r : Runtime) (a : StepAnchor) (s s' : Slot) : Prop where
  unsummed : a.returns ≠ .sum → s'.sum = s.sum
  summed : a.returns = .sum → ∃ v total, r.download a.id = .ok v ∧ Adds v.data s.sum total ∧ s'.sum = some total
  skipped : a.returns.writes i batches = false → s'.buffer = s.buffer ∧ s'.offset = s.offset
  written : a.returns.writes i batches = true → ∃ x, s.Puts x s' ∧ (a.returns = .sum → s'.sum = some x) ∧
    (a.returns ≠ .sum → ∃ v, r.download a.id = .ok v ∧ v.data = x)

/-- Sums have the elements of their anchors. -/
def Summed (p : StepPlan) (sums : Dict TensorId Storage) : Prop :=
  ∀ a ∈ p.anchors, ∀ t, sums.get? a.id = some t → t.length = a.info.count ∧ t.kind = a.info.dtype.storage

theorem deviceValue_ends (call : String) (hr : st.session.engine = some r) :
    Stateful.Ends (fun data st' => st' = st ∧ ∃ v, r.download id = .ok v ∧ v.data = data) (fun _ st' => st' = st)
      (deviceValue call id) st := by
  refine .get_bind (.bind (R := fun engine st' => engine = r ∧ st' = st) (.liftM (fun engine h => ⟨?_, rfl⟩) fun _ _ => rfl) ?_)
  · unfold engineFor at h
    split at h
    · rw [Outcome.orFail_eq_ok, hr, Option.some.injEq] at h
      exact h.symm
    · cases h
  · rintro engine st₁ ⟨hengine, rfl⟩
    rw [hengine]
    exact .bind (R := fun v st' => r.download id = .ok v ∧ st' = st₁) (.liftM (fun v hv => ⟨hv, rfl⟩) fun _ _ => rfl)
      fun v st' h => .pure ⟨h.2, v, h.1, rfl⟩

theorem addTo_ok {sums sums' : Dict TensorId Storage} {v : Storage} (h : addTo sums id v = .ok sums') :
    ∃ total, Adds v (sums.get? id) total ∧ sums' = sums.insert id total := by
  unfold addTo at h
  split at h
  · rename_i hnone
    cases h
    exact ⟨v, by rw [hnone]; exact .first, rfl⟩
  · rename_i t hsome
    obtain ⟨x, hx, h⟩ := Outcome.bind_eq_ok.1 h
    cases h
    exact ⟨_, by rw [hsome]; exact .next hx, rfl⟩

theorem Adds.sized {v total : Storage} {old : Option Storage} {n : Nat} {k : StorageKind} (h : Adds v old total)
    (hv : v.length = n ∧ v.kind = k) (hold : ∀ t, old = some t → t.length = n ∧ t.kind = k) :
    total.length = n ∧ total.kind = k := by
  cases h with
  | first => exact hv
  | next h =>
    rename_i t x
    obtain ⟨hlen, hkind⟩ := hold t rfl
    obtain ⟨y, rfl, hadded⟩ := Storage.accumulate_ok (hlen.trans hv.1.symm) (hkind.trans hv.2.symm) h
    exact ⟨hadded.same.1.trans hlen, hadded.same.2.trans hkind⟩

theorem Summed.insert {mode : RunMode} {a : StepAnchor} {sums : Dict TensorId Storage} {total : Storage} (h : Summed p sums)
    (hp : p.Follows g e flow mode) (ha : a ∈ p.anchors)
    (htotal : total.length = a.info.count ∧ total.kind = a.info.dtype.storage) : Summed p (sums.insert a.id total) := by
  intro a' ha' t ht
  rw [Dict.get?_insert] at ht
  split at ht
  · rename_i heq
    cases ht
    obtain rfl := List.inj_on_of_nodup_map hp.nodup ha ha' heq
    exact htotal
  · exact h a' ha' t ht

/-- What holds between the batches of a step. -/
structure Ongoing (typed : Prop) (g : Graph) (e : Executable) (flow : DataFlow) (p : StepPlan) (r : Runtime) (st : Stepping ArrayIo)
    (sums : Dict TensorId Storage) : Prop where
  serves : st.session.Serves g e flow r
  placed : st.data.Placed typed g e flow
  sized : st.data.Sized p
  summed : Summed p sums

theorem Ongoing.stands {sums : Dict TensorId Storage} (h : Ongoing typed g e flow p r st sums) : Stands typed g e flow st :=
  ⟨⟨r, h.serves⟩, h.placed⟩

/-- Nothing has changed but the slots of some anchors. -/
structure SameBut (ids : List TensorId) (st : Stepping ArrayIo) (sums : Dict TensorId Storage) (st' : Stepping ArrayIo)
    (sums' : Dict TensorId Storage) : Prop where
  session : st'.session = st.session
  inputs : st'.data.inputs = st.data.inputs
  inputCursors : st'.data.inputCursors = st.data.inputCursors
  slots : ∀ {id}, id ∉ ids → slot st'.data sums' id = slot st.data sums id

theorem write_ends {mode : RunMode} {a : StepAnchor} {sums : Dict TensorId Storage} {x : Storage}
    (hp : p.Follows g e flow mode) (ha : a ∈ p.anchors) (hx : x.length = a.info.count) (h : Ongoing typed g e flow p r st sums) :
    Stateful.Ends (fun _ st' => Ongoing typed g e flow p r st' sums ∧ SameBut [a.id] st sums st' sums ∧
        (slot st.data sums a.id).Puts x (slot st'.data sums a.id))
      (fun _ st' => Stands typed g e flow st') (Stepping.onData (ArrayIo.io.output a.id x)) st := by
  refine .focus ((ArrayIo.output_ends a.id x st.data).mono (fun _ io' hwrote => ⟨?_, ⟨rfl, hwrote.inputs, hwrote.inputCursors,
    fun {id} hid => ?_⟩, hwrote.buffer⟩) fun _ io' hsame => hsame ▸ h.stands)
  · exact ⟨h.serves, hwrote.placed hp h.sized ha hx h.placed, hwrote.sized h.sized, h.summed⟩
  · obtain ⟨hbuffer, hoffset⟩ := hwrote.others id fun heq => hid (by simp [heq])
    simp only [slot, hbuffer, hoffset]

theorem Ongoing.add {mode : RunMode} {a : StepAnchor} {sums : Dict TensorId Storage} {total : Storage}
    (hp : p.Follows g e flow mode) (ha : a ∈ p.anchors) (h : Ongoing typed g e flow p r st sums)
    (htotal : total.length = a.info.count ∧ total.kind = a.info.dtype.storage) :
    Ongoing typed g e flow p r st (sums.insert a.id total) :=
  ⟨h.serves, h.placed, h.sized, h.summed.insert hp ha htotal⟩

theorem Ongoing.deviceValue_ends {a : StepAnchor} {sums : Dict TensorId Storage} (call : String)
    (h : Ongoing typed g e flow p r st sums) :
    Stateful.Ends (fun data st' => st' = st ∧ ∃ v, r.download a.id = .ok v ∧ v.data = data)
      (fun _ st' => Stands typed g e flow st') (deviceValue call a.id) st := by
  refine (Session.deviceValue_ends call h.serves.engine).mono (fun _ _ h => h) ?_
  rintro _ _ rfl
  exact h.stands

theorem giveBack_sum_ends {mode : RunMode} {a : StepAnchor} {sums : Dict TensorId Storage} (i : Nat)
    (hp : p.Follows g e flow mode) (ha : a ∈ p.anchors) (hsum : a.returns = .sum) (h : Ongoing typed g e flow p r st sums) :
    Stateful.Ends (fun sums' st' => Ongoing typed g e flow p r st' sums' ∧ SameBut [a.id] st sums st' sums' ∧
        Gave p.batches i r a (slot st.data sums a.id) (slot st'.data sums' a.id))
      (fun _ st' => Stands typed g e flow st') (giveBack ArrayIo.io p i sums a) st := by
  simp only [giveBack, if_pos hsum]
  refine .bind (h.deviceValue_ends p.mode.label) ?_
  rintro _ st₁ ⟨rfl, v, hv, rfl⟩
  refine .bind (R := fun sums' st' => st' = st₁ ∧ ∃ total, Adds v.data (sums.get? a.id) total ∧ sums' = sums.insert a.id total)
    (.lift (fun sums' hadd => ⟨rfl, addTo_ok hadd⟩) fun _ _ => h.stands) ?_
  rintro _ st₂ ⟨rfl, total, hadds, rfl⟩
  have htotal := hadds.sized (hp.value ha h.serves.labelled hv).2 fun t ht => h.summed a ha t ht
  have hnext := h.add hp ha htotal
  have hself : (sums.insert a.id total).get? a.id = some total := by rw [Dict.get?_insert, if_pos rfl]
  have hsame : ∀ {id}, id ∉ [a.id] → (sums.insert a.id total).get? id = sums.get? id := by
    intro id hid
    rw [Dict.get?_insert, if_neg fun heq => hid (by simp [heq])]
  have hsummed : a.returns = .sum → ∃ v total', r.download a.id = .ok v ∧ Adds v.data (sums.get? a.id) total' ∧
      (sums.insert a.id total).get? a.id = some total' := fun _ => ⟨v, total, hv, hadds, hself⟩
  split
  · rename_i hwrites
    rw [hself]
    refine .bind (write_ends hp ha htotal.1 hnext) fun _ st' h' => .pure ⟨h'.1, ⟨h'.2.1.session, h'.2.1.inputs,
      h'.2.1.inputCursors, fun {id} hid => ?_⟩, fun hne => absurd hsum hne, hsummed, fun hno => ?_, fun _ => ?_⟩
    · rw [h'.2.1.slots hid, slot, hsame hid]
      rfl
    · rw [hwrites] at hno
      cases hno
    · exact ⟨total, h'.2.2, fun _ => hself, fun hne => absurd hsum hne⟩
  · rename_i hwrites
    refine .pure ⟨hnext, ⟨rfl, rfl, rfl, fun {id} hid => ?_⟩, fun hne => absurd hsum hne, hsummed, fun _ => ⟨rfl, rfl⟩,
      fun hyes => absurd hyes hwrites⟩
    rw [slot, hsame hid]
    rfl

theorem giveBack_ends {mode : RunMode} {a : StepAnchor} {sums : Dict TensorId Storage} (i : Nat)
    (hp : p.Follows g e flow mode) (ha : a ∈ p.anchors) (h : Ongoing typed g e flow p r st sums) :
    Stateful.Ends (fun sums' st' => Ongoing typed g e flow p r st' sums' ∧ SameBut [a.id] st sums st' sums' ∧
        Gave p.batches i r a (slot st.data sums a.id) (slot st'.data sums' a.id))
      (fun _ st' => Stands typed g e flow st') (giveBack ArrayIo.io p i sums a) st := by
  by_cases hsum : a.returns = .sum
  · exact giveBack_sum_ends i hp ha hsum h
  simp only [giveBack, if_neg hsum]
  split
  · rename_i hwrites
    refine .bind (h.deviceValue_ends p.mode.label) ?_
    rintro _ st₁ ⟨rfl, v, hv, rfl⟩
    refine .bind (write_ends hp ha (hp.value ha h.serves.labelled hv).2.1 h) fun _ st' h' => .pure ⟨h'.1, h'.2.1, fun _ => rfl,
      fun heq => absurd heq hsum, fun hno => ?_, fun _ => ⟨v.data, h'.2.2, fun heq => absurd heq hsum, fun _ => ⟨v, hv, rfl⟩⟩⟩
    rw [hwrites] at hno
    cases hno
  · rename_i hwrites
    exact .pure ⟨h, ⟨rfl, rfl, rfl, fun _ => rfl⟩, fun _ => rfl, fun heq => absurd heq hsum, fun _ => ⟨rfl, rfl⟩,
      fun hyes => absurd hyes hwrites⟩

theorem giveAll_ends {mode : RunMode} (i : Nat) (hp : p.Follows g e flow mode) :
    ∀ {l : List StepAnchor} {st : Stepping ArrayIo} {sums : Dict TensorId Storage}, l ⊆ p.anchors → (l.map (·.id)).Nodup →
    Ongoing typed g e flow p r st sums →
    Stateful.Ends (fun sums' st' => Ongoing typed g e flow p r st' sums' ∧ SameBut (l.map (·.id)) st sums st' sums' ∧
        ∀ a ∈ l, Gave p.batches i r a (slot st.data sums a.id) (slot st'.data sums' a.id))
      (fun _ st' => Stands typed g e flow st') (l.foldlM (giveBack ArrayIo.io p i) sums) st
  | [], st, sums, _, _, h => .pure ⟨h, ⟨rfl, rfl, rfl, fun _ => rfl⟩, fun _ ha => absurd ha List.not_mem_nil⟩
  | a :: l, st, sums, hl, hnodup, h => by
    rw [List.map_cons, List.nodup_cons] at hnodup
    rw [List.foldlM_cons]
    refine .bind (giveBack_ends i hp (hl (by simp)) h) fun sums₁ st₁ h₁ => ?_
    obtain ⟨h₁, hsame₁, hgave₁⟩ := h₁
    refine (giveAll_ends i hp (fun x hx => hl (List.mem_cons_of_mem _ hx)) hnodup.2 h₁).mono ?_ fun _ _ h => h
    rintro sums' st' ⟨h', hsame', hgave'⟩
    refine ⟨h', ⟨hsame'.session.trans hsame₁.session, hsame'.inputs.trans hsame₁.inputs,
      hsame'.inputCursors.trans hsame₁.inputCursors, fun {id} hid => ?_⟩, fun b hb => ?_⟩
    · rw [List.map_cons, List.mem_cons, not_or] at hid
      exact (hsame'.slots hid.2).trans (hsame₁.slots (by simpa using hid.1))
    · rcases List.mem_cons.1 hb with rfl | hb
      · rw [hsame'.slots hnodup.1]
        exact hgave₁
      · have hne : b.id ∉ [a.id] := by
          rw [List.mem_singleton]
          intro heq
          exact hnodup.1 (heq ▸ List.mem_map.2 ⟨b, hb, rfl⟩)
        rw [← hsame₁.slots hne]
        exact hgave' b hb

/-! ## Batches -/

/-- A moment between two batches of a step. -/
structure Moment where
  runtime : Runtime
  data : ArrayIo
  sums : Dict TensorId Storage

/-- What there is of an anchor at a moment. -/
def Moment.slot (m : Moment) (id : TensorId) : Slot := Session.slot m.data m.sums id

/-- What batch `i` does: it takes a batch of every stream, runs the program on them, and serves the anchors. -/
structure Batched (p : StepPlan) (i : Nat) (m m' : Moment) : Prop where
  ran : ∃ data : TensorId → Storage,
    (∀ {id info}, (id, info) ∈ p.streams → ∃ t, m.data.inputs.get? id = some t ∧
      t.data.slice? (m.data.inputOffset id) info.count = some (data id) ∧
      m'.data.inputOffset id = ArrayIo.advance (m.data.inputOffset id) info.count t.data.length) ∧
    (Runtime.runBatch p.mode).run (m.runtime.fed (p.fills data)) = (.ok (), m'.runtime)
  inputs : m'.data.inputs = m.data.inputs
  unread : ∀ {id}, id ∉ p.streams.map (·.1) → m'.data.inputOffset id = m.data.inputOffset id
  gave : ∀ a ∈ p.anchors, Gave p.batches i m'.runtime a (m.slot a.id) (m'.slot a.id)
  unasked : ∀ {id}, id ∉ p.anchors.map (·.id) → m'.slot id = m.slot id

/-- Takes a batch of every stream and runs the program on them. -/
def compute (p : StepPlan) : StepM ArrayIo Unit := do
  p.streams.forM fun (id, info) => feed ArrayIo.io p.mode.label id info
  Stepping.onSession (onEngine p.mode.label (Runtime.runBatch p.mode))

theorem compute_ends {mode : RunMode} {sums : Dict TensorId Storage} (hp : p.Follows g e flow mode)
    (h : Ongoing typed g e flow p r st sums) :
    Stateful.Ends (fun _ st' => ∃ r' data, Ongoing typed g e flow p r' st' sums ∧
        (Runtime.runBatch p.mode).run (r.fed (p.fills data)) = (.ok (), r') ∧
        st'.session = { st.session with engine := some r' } ∧ ∃ st₁, FedAll p.streams r data st st₁ ∧ st'.data = st₁.data)
      (fun _ st' => Stands typed g e flow st') (compute p) st := by
  have hlabels := h.serves.labelled.labels
  have hnodup : (p.streams.map (·.1)).Nodup := by
    rw [hp.streams]
    exact hlabels.nodup.sublist (List.filter_sublist.map _)
  refine .bind (feedAll_ends p.mode.label hp (fun _ hx => hx) hnodup h.serves h.placed h.sized) fun _ st₁ h₁ => ?_
  obtain ⟨⟨data, hfed⟩, hplaced₁, hsized₁⟩ := h₁
  have hlabelled₁ := hp.fed_labelled data h.serves.labelled
  have hserves₁ : st₁.session.Serves g e flow (r.fed (p.fills data)) := hfed.session ▸ h.serves.loaded hlabelled₁
  have hrun : Stateful.Ends (fun _ r' => r'.Labelled g e ∧ (Runtime.runBatch p.mode).run (r.fed (p.fills data)) = (.ok (), r'))
      (fun _ r' => r'.Labelled g e) (Runtime.runBatch p.mode) (r.fed (p.fills data)) :=
    ⟨fun hok => ⟨(hlabelled₁.runBatch p.mode).ok hok, hok⟩, (hlabelled₁.runBatch p.mode).error⟩
  refine .focus ((onEngine_ends p.mode.label hserves₁.engine hrun fun _ => hlabelled₁).mono ?_ ?_)
  · rintro _ _ ⟨r', ⟨hlabelled, hok⟩, rfl⟩
    refine ⟨r', data, ⟨hserves₁.loaded hlabelled, hplaced₁, hsized₁, h.summed⟩, hok, ?_, st₁, hfed, rfl⟩
    rw [hfed.session]
  · rintro _ _ ⟨r', hlabelled, rfl⟩
    exact ⟨⟨r', hserves₁.loaded hlabelled⟩, hplaced₁⟩

theorem runBatch_eq (i : Nat) (sums : Dict TensorId Storage) : runBatch ArrayIo.io p i sums = (do
    compute p
    if (← get).session.options.effectiveSynthetic = .off then p.anchors.foldlM (giveBack ArrayIo.io p i) sums
    else return sums) := by
  simp only [runBatch, compute, bind_assoc]

theorem runBatch_ends {mode : RunMode} {sums : Dict TensorId Storage} (i : Nat) (hp : p.Follows g e flow mode)
    (h : Ongoing typed g e flow p r st sums) :
    Stateful.Ends (fun sums' st' => ∃ r', Ongoing typed g e flow p r' st' sums' ∧
        Batched p i ⟨r, st.data, sums⟩ ⟨r', st'.data, sums'⟩ ∧ st'.session = { st.session with engine := some r' })
      (fun _ st' => Stands typed g e flow st') (runBatch ArrayIo.io p i sums) st := by
  rw [runBatch_eq]
  refine .bind (compute_ends hp h) ?_
  rintro _ st₂ ⟨r', data, hgoing, hok, hsession, st₁, hfed, hdata⟩
  refine .get_bind ?_
  rw [if_pos hgoing.serves.host]
  refine (giveAll_ends i hp (fun _ hx => hx) hp.nodup hgoing).mono ?_ fun _ _ h => h
  rintro sums' st' ⟨h', hsame, hgave⟩
  have hslot : ∀ id, slot st₂.data sums id = slot st.data sums id := by
    intro id
    rw [hdata, slot, hfed.outputs, ArrayIo.outputOffset, hfed.outputCursors]
    rfl
  have hoffset : ∀ id, st'.data.inputOffset id = st₁.data.inputOffset id := by
    intro id
    rw [ArrayIo.inputOffset, hsame.inputCursors, hdata]
    rfl
  refine ⟨r', h', ⟨⟨data, fun {id info} hid => ?_, hok⟩, hsame.inputs.trans (hdata ▸ hfed.inputs), fun {id} hid => ?_,
    fun a ha => ?_, fun {id} hid => ?_⟩, hsame.session.trans hsession⟩
  · obtain ⟨t, ht, hslice, hnext⟩ := hfed.taken hid
    exact ⟨t, ht, hslice, (hoffset id).trans hnext⟩
  · exact (hoffset id).trans (hfed.others hid)
  · rw [Moment.slot, ← hslot]
    exact hgave a ha
  · exact (hsame.slots hid).trans (hslot id)

/-- The run of a step over its batches: a moment after each of them. -/
theorem runBatches_ends {mode : RunMode} (hp : p.Follows g e flow mode) : ∀ {n i : Nat} {r : Runtime} {st : Stepping ArrayIo}
    {sums : Dict TensorId Storage}, Ongoing typed g e flow p r st sums →
    Stateful.Ends (fun _ st' => ∃ m : Nat → Moment, m i = ⟨r, st.data, sums⟩ ∧ (∀ b, i ≤ b → b < i + n → Batched p b (m b) (m (b + 1))) ∧
        Ongoing typed g e flow p (m (i + n)).runtime st' (m (i + n)).sums ∧ st'.data = (m (i + n)).data ∧
        st'.session = { st.session with engine := some (m (i + n)).runtime })
      (fun _ st' => Stands typed g e flow st') (runBatches ArrayIo.io p n i sums) st
  | 0, i, r, st, sums, h => by
    refine .pure ⟨fun _ => ⟨r, st.data, sums⟩, rfl, fun b hb hlt => absurd hb (by omega), h, rfl, ?_⟩
    rw [← h.serves.engine]
  | n + 1, i, r, st, sums, h => by
    refine .bind (runBatch_ends i hp h) ?_
    rintro sums₁ st₁ ⟨r₁, h₁, hbatch, hsession₁⟩
    refine (runBatches_ends (n := n) (i := i + 1) hp h₁).mono ?_ fun _ _ h => h
    rintro _ st' ⟨m, hm, hbatches, hend, hdata, hsession⟩
    have hlast : i + 1 + n = i + (n + 1) := by omega
    rw [hlast] at hend hdata hsession
    refine ⟨fun b => if b = i then ⟨r, st.data, sums⟩ else m b, if_pos rfl, fun b hle hlt => ?_, ?_⟩
    · beta_reduce
      rw [if_neg (show b + 1 ≠ i by omega)]
      rcases Nat.eq_or_lt_of_le hle with rfl | hlt'
      · rw [if_pos rfl, hm]
        exact hbatch
      · rw [if_neg (by omega)]
        exact hbatches b hlt' (by omega)
    · beta_reduce
      rw [if_neg (show i + (n + 1) ≠ i by omega)]
      exact ⟨hend, hdata, by rw [hsession, hsession₁]⟩

end Session

end TensorGraph
