import Mathlib.Data.Nat.ModEq
import TensorGraph.Proofs.Session.Batches

/-!
Steps on data in arrays. A step that succeeds takes every batch of every stream once, fills every buffer, and leaves all
places where they were: at the starts, if only successful steps came before it. A step that fails leaves places that
differ from array to array, and the steps after it take the batches in turned order.
-/
namespace TensorGraph

open TensorGraph.Graph

variable {g : Graph} {e : Executable} {flow : DataFlow} {r r' : Runtime} {st st' : Stepping ArrayIo} {io io' : ArrayIo}
  {p : StepPlan} {id : TensorId} {info : TensorInfo} {s : Session} {typed : Prop} {mode : RunMode}

/-! ## Which batches are given back -/

namespace ReturnType

variable {t : ReturnType} {n i j : Nat}

/-- The batch whose value is the `j`-th that a step of `n` batches gives back. -/
def batch (t : ReturnType) (n j : Nat) : Nat :=
  match t with
  | all => j
  | everyN period => (j + 1) * period - 1
  | final | sum => n - 1

/-- How many values are given back for the first `i` batches. -/
def given (t : ReturnType) (n i : Nat) : Nat :=
  match t with
  | all => i
  | everyN period => i / period
  | final | sum => if i < n then 0 else 1

theorem given_zero (hn : 0 < n) : t.given n 0 = 0 := by
  cases t <;> simp [given, hn]

theorem given_all (ht : t.Fits n) : t.given n n = t.returns n := by
  cases t with
  | everyN period => rw [given, returns, Nat.max_eq_left ht.1]
  | all => rfl
  | final | sum => simp [given, returns]

/-- A batch that is given back is the next one in the list of those that are. -/
theorem given_of_writes (ht : t.Fits n) (hi : i < n) (h : t.writes i n = true) :
    t.given n (i + 1) = t.given n i + 1 ∧ t.batch n (t.given n i) = i := by
  cases t with
  | all => exact ⟨rfl, rfl⟩
  | everyN period =>
    rw [writes, Nat.max_eq_left ht.1, beq_iff_eq] at h
    have hdvd := Nat.dvd_of_mod_eq_zero h
    have hnext : (i + 1) / period = i / period + 1 := by rw [Nat.succ_div, if_pos hdvd]
    refine ⟨hnext, ?_⟩
    rw [batch, given, ← hnext, Nat.div_mul_cancel hdvd]
    rfl
  | final | sum =>
    rw [writes, beq_iff_eq] at h
    have hlast : ¬ i + 1 < n := by omega
    exact ⟨by simp [given, hlast, hi], by rw [batch]; omega⟩

theorem given_of_not_writes (ht : t.Fits n) (hi : i < n) (h : t.writes i n = false) : t.given n (i + 1) = t.given n i := by
  cases t with
  | all => cases h
  | everyN period =>
    rw [writes, Nat.max_eq_left ht.1, beq_eq_false_iff_ne] at h
    rw [given, given, Nat.succ_div, if_neg fun hdvd => h (Nat.mod_eq_zero_of_dvd hdvd)]
    rfl
  | final | sum =>
    rw [writes, beq_eq_false_iff_ne] at h
    have hlt : i + 1 < n := by omega
    simp [given, hlt, hi]

theorem given_le (ht : t.Fits n) (hi : i ≤ n) : t.given n i ≤ t.returns n := by
  rw [← given_all ht]
  cases t with
  | all => exact hi
  | everyN period => exact Nat.div_le_div_right hi
  | final | sum =>
    simp only [given, Nat.lt_irrefl, if_false]
    split <;> omega

end ReturnType

theorem StepPlan.Follows.fits (hp : p.Follows g e flow mode) {a : StepAnchor} (ha : a ∈ p.anchors) :
    a.returns.Fits p.batches :=
  hp.batches ▸ flow.fits (a.id, a.returns) (Dict.mem_entries.2 (hp.anchors a ha).1)

namespace Session

variable {m : Nat → Moment}

/-! ## Along the batches of a step -/

/-- The batches of a step, one after the other. -/
def Runs (p : StepPlan) (m : Nat → Moment) : Prop := ∀ b < p.batches, Batched p b (m b) (m (b + 1))

theorem Runs.inputs (h : Runs p m) : ∀ {b : Nat}, b ≤ p.batches → (m b).data.inputs = (m 0).data.inputs
  | 0, _ => rfl
  | b + 1, hb => (h b hb).inputs.trans (inputs h (by omega))

/-- The place of a stream that is read goes round its array. -/
theorem Runs.inputOffset (h : Runs p m) (hs : (m 0).data.Sized p) (hid : (id, info) ∈ p.streams) {k : Nat}
    (hk : (m 0).data.inputOffset id = k % p.batches * info.count) :
    ∀ {b : Nat}, b ≤ p.batches → (m b).data.inputOffset id = (k + b) % p.batches * info.count
  | 0, _ => hk
  | b + 1, hb => by
    obtain ⟨data, htaken, -⟩ := (h b hb).ran
    obtain ⟨t, ht, -, hnext⟩ := htaken hid
    obtain ⟨t', ht', hlen⟩ := hs.inputs hid
    rw [h.inputs (by omega), ht'] at ht
    cases ht
    rw [hnext, inputOffset h hs hid hk (by omega), hlen, ArrayIo.advance_batch (Nat.mod_lt _ (by omega)), Nat.mod_add_mod]
    rfl

theorem Runs.unread (h : Runs p m) (hid : id ∉ p.streams.map (·.1)) :
    ∀ {b : Nat}, b ≤ p.batches → (m b).data.inputOffset id = (m 0).data.inputOffset id
  | 0, _ => rfl
  | b + 1, hb => ((h b hb).unread hid).trans (unread h hid (by omega))

theorem Runs.unasked (h : Runs p m) (hid : id ∉ p.anchors.map (·.id)) :
    ∀ {b : Nat}, b ≤ p.batches → (m b).slot id = (m 0).slot id
  | 0, _ => rfl
  | b + 1, hb => ((h b hb).unasked hid).trans (unasked h hid (by omega))

theorem Batched.labelled {b : Nat} {m m' : Moment} (h : Batched p b m m') (hp : p.Follows g e flow mode)
    (hm : m.runtime.Labelled g e) : m'.runtime.Labelled g e := by
  obtain ⟨data, -, hrun⟩ := h.ran
  exact ((hp.fed_labelled data hm).runBatch p.mode).ok hrun

theorem Runs.labelled (h : Runs p m) (hp : p.Follows g e flow mode) (h₀ : (m 0).runtime.Labelled g e) :
    ∀ {b : Nat}, b ≤ p.batches → (m b).runtime.Labelled g e
  | 0, _ => h₀
  | b + 1, hb => (h b hb).labelled hp (labelled h hp h₀ (by omega))

/-! ## Buffers -/

/-- The values of an anchor after the first batches add up to a storage. -/
def SumsTo (r : Nat → Runtime) (a : StepAnchor) (b : Nat) (x : Storage) : Prop :=
  ∃ values : List Storage, values.length = b ∧ Storage.Total values x ∧
    ∀ i v, values[i]? = some v → (r (i + 1)).download a.id = .ok ⟨a.info, v⟩

namespace SumsTo

variable {r r' : Nat → Runtime} {a : StepAnchor} {b : Nat} {t v x : Storage}

theorem first (hv : (r 1).download a.id = .ok ⟨a.info, v⟩) : SumsTo r a 1 v := by
  refine ⟨[v], rfl, .single _, fun i y hy => ?_⟩
  obtain ⟨rfl, rfl⟩ : i = 0 ∧ v = y := by simpa [List.getElem?_singleton] using hy
  exact hv

theorem next (h : SumsTo r a b t) (hv : (r (b + 1)).download a.id = .ok ⟨a.info, v⟩) (hx : Storage.Added t v x) :
    SumsTo r a (b + 1) x := by
  obtain ⟨values, rfl, htotal, hdownload⟩ := h
  refine ⟨values ++ [v], by simp, .add htotal hx, fun i z hz => ?_⟩
  rw [List.getElem?_append] at hz
  split at hz
  · exact hdownload i z hz
  · obtain ⟨hi, rfl⟩ : i - values.length = 0 ∧ v = z := by simpa [List.getElem?_singleton] using hz
    obtain rfl : i = values.length := by omega
    exact hv

/-- Only the batches that are summed up matter. -/
theorem congr (h : SumsTo r a b x) (heq : ∀ k ≤ b, r' k = r k) : SumsTo r' a b x := by
  obtain ⟨values, rfl, htotal, hdownload⟩ := h
  refine ⟨values, rfl, htotal, fun i v hv => ?_⟩
  have hlt := (List.getElem?_eq_some_iff.1 hv).1
  rw [heq _ (by omega)]
  exact hdownload i v hv

end SumsTo

/-- What is summed up for an anchor before batch `b`. -/
def Subtotal (r : Nat → Runtime) (a : StepAnchor) (b : Nat) : Option Storage → Prop
  | none => b = 0
  | some t => SumsTo r a b t

theorem Subtotal.congr {r r' : Nat → Runtime} {a : StepAnchor} {b : Nat} (heq : ∀ k ≤ b, r' k = r k) :
    ∀ {old : Option Storage}, Subtotal r a b old → Subtotal r' a b old
  | none, h => h
  | some _, h => SumsTo.congr h heq

theorem Subtotal.add {r : Nat → Runtime} {a : StepAnchor} {b : Nat} {old : Option Storage} {v total : Storage}
    (h : Subtotal r a b old) (hv : (r (b + 1)).download a.id = .ok ⟨a.info, v⟩) (hadds : Adds v old total)
    (hsame : ∀ t, old = some t → t.length = v.length ∧ t.kind = v.kind) : SumsTo r a (b + 1) total := by
  cases hadds with
  | first =>
    obtain rfl : b = 0 := h
    exact .first hv
  | next hadd =>
    obtain ⟨hlen, hkind⟩ := hsame _ rfl
    obtain ⟨y, rfl, hadded⟩ := Storage.accumulate_ok hlen hkind hadd
    exact SumsTo.next h hv hadded

/-- What a step gives back for an anchor as its `j`-th value. -/
def Gives (p : StepPlan) (r : Nat → Runtime) (a : StepAnchor) (j : Nat) (x : Storage) : Prop :=
  if a.returns = .sum then SumsTo r a p.batches x
  else (r (a.returns.batch p.batches j + 1)).download a.id = .ok ⟨a.info, x⟩

section Anchor

variable {a : StepAnchor} {q : Nat}

/-- What is known of the values of an anchor. -/
theorem Runs.value (h : Runs p m) (hp : p.Follows g e flow mode) (h₀ : (m 0).runtime.Labelled g e) (ha : a ∈ p.anchors)
    {b : Nat} (hb : b ≤ p.batches) {v : HostTensor} (hv : (m b).runtime.download a.id = .ok v) :
    v = ⟨a.info, v.data⟩ ∧ v.data.length = a.info.count ∧ v.data.kind = a.info.dtype.storage :=
  hp.value ha (h.labelled hp h₀ hb) hv

theorem Runs.sized (h : Runs p m) (hp : p.Follows g e flow mode) (h₀ : (m 0).runtime.Labelled g e) (ha : a ∈ p.anchors)
    {values : List Storage} {x : Storage} (hle : values.length ≤ p.batches) (hx : Storage.Total values x)
    (hvalues : ∀ i v, values[i]? = some v → (m (i + 1)).runtime.download a.id = .ok ⟨a.info, v⟩) :
    x.length = a.info.count ∧ x.kind = a.info.dtype.storage := by
  refine hx.same fun y hy => ?_
  obtain ⟨i, hi⟩ := List.mem_iff_getElem?.1 hy
  have hlt := (List.getElem?_eq_some_iff.1 hi).1
  exact (h.value hp h₀ ha (by omega) (hvalues i y hi)).2

/-- Sums after each batch. -/
theorem Runs.sum (h : Runs p m) (hp : p.Follows g e flow mode) (h₀ : (m 0).runtime.Labelled g e) (ha : a ∈ p.anchors)
    (hsum : a.returns = .sum) (hnone : ((m 0).slot a.id).sum = none) :
    ∀ {b : Nat}, b < p.batches → ∃ x, ((m (b + 1)).slot a.id).sum = some x ∧ SumsTo (fun b => (m b).runtime) a (b + 1) x
  | b, hb => by
    obtain ⟨v, x, hv, hadds, hx⟩ := ((h b hb).gave a ha).summed hsum
    obtain ⟨hinfo, hlen, hkind⟩ := h.value hp h₀ ha hb hv
    have hold : Subtotal (fun b => (m b).runtime) a b ((m b).slot a.id).sum ∧
        ∀ t, ((m b).slot a.id).sum = some t → t.length = v.data.length ∧ t.kind = v.data.kind := by
      match b with
      | 0 =>
        rw [hnone]
        exact ⟨rfl, fun _ ht => by cases ht⟩
      | b + 1 =>
        obtain ⟨t, ht, values, hvalues, htotal, hdownload⟩ := sum h hp h₀ ha hsum hnone (b := b) (by omega)
        obtain ⟨htlen, htkind⟩ := h.sized hp h₀ ha (by omega) htotal hdownload
        rw [ht]
        exact ⟨⟨values, hvalues, htotal, hdownload⟩, fun _ heq => Option.some.inj heq ▸ ⟨htlen.trans hlen.symm, htkind.trans hkind.symm⟩⟩
    exact ⟨x, hx, hold.1.add (hv.trans (congrArg Except.ok hinfo)) hadds hold.2⟩

/-- What is written after a batch is what the anchor gives there: the sum after the last batch, or the value. -/
theorem Runs.gives (h : Runs p m) (hp : p.Follows g e flow mode) (h₀ : (m 0).runtime.Labelled g e) (ha : a ∈ p.anchors)
    (hnone : ((m 0).slot a.id).sum = none) {b : Nat} (hb : b < p.batches) (hwrites : a.returns.writes b p.batches = true)
    {x : Storage} (hsum : a.returns = .sum → ((m (b + 1)).slot a.id).sum = some x)
    (hvalue : a.returns ≠ .sum → ∃ v, (m (b + 1)).runtime.download a.id = .ok v ∧ v.data = x) :
    Gives p (fun b => (m b).runtime) a (a.returns.given p.batches b) x ∧ x.length = a.info.count := by
  unfold Gives
  split
  · rename_i heq
    obtain ⟨y, hy, values, hvalues, htotal, hdownload⟩ := h.sum hp h₀ ha heq hnone hb
    cases (hsum heq).symm.trans hy
    have hlast : b + 1 = p.batches := by
      rw [heq, ReturnType.writes, beq_iff_eq] at hwrites
      exact hwrites
    exact ⟨⟨values, hvalues.trans hlast, htotal, hdownload⟩, (h.sized hp h₀ ha (by omega) htotal hdownload).1⟩
  · rename_i hne
    obtain ⟨v, hv, rfl⟩ := hvalue hne
    obtain ⟨hinfo, hlen, -⟩ := h.value hp h₀ ha hb hv
    obtain ⟨-, hbatch⟩ := ReturnType.given_of_writes (hp.fits ha) hb hwrites
    rw [hbatch, ← hinfo]
    exact ⟨hv, hlen⟩

/-- The buffer of an anchor after each batch. -/
theorem Runs.buffer (h : Runs p m) (hp : p.Follows g e flow mode) (h₀ : (m 0).runtime.Labelled g e)
    (hs : (m 0).data.Sized p) (ha : a ∈ p.anchors) (hnone : ((m 0).slot a.id).sum = none)
    (hq : ((m 0).slot a.id).offset = q % a.returns.returns p.batches * a.info.count) :
    ∀ {b : Nat}, b ≤ p.batches → ∃ t, ((m b).slot a.id).buffer = some t ∧
      t.data.length = a.returns.returns p.batches * a.info.count ∧
      ((m b).slot a.id).offset = (q + a.returns.given p.batches b) % a.returns.returns p.batches * a.info.count ∧
      ∀ j < a.returns.given p.batches b, ∃ x, Gives p (fun b => (m b).runtime) a j x ∧
        t.data.slice? ((q + j) % a.returns.returns p.batches * a.info.count) a.info.count = some x
  | 0, _ => by
    obtain ⟨t, ht, hlen⟩ := hs.outputs ha
    have hpos : 0 < p.batches := hp.batches ▸ flow.batches_pos
    refine ⟨t, ht, hlen, ?_, fun j hj => ?_⟩
    · rw [ReturnType.given_zero hpos]
      exact hq
    · rw [ReturnType.given_zero hpos] at hj
      cases hj
  | b + 1, hb => by
    have hfits := hp.fits ha
    have hpos : 0 < a.returns.returns p.batches := ReturnType.returns_pos (by omega) hfits
    obtain ⟨t, ht, hlen, hoffset, hslots⟩ := buffer h hp h₀ hs ha hnone hq (b := b) (by omega)
    have hgave := (h b hb).gave a ha
    cases hwrites : a.returns.writes b p.batches with
    | false =>
      rw [ReturnType.given_of_not_writes hfits hb hwrites, (hgave.skipped hwrites).1, (hgave.skipped hwrites).2]
      exact ⟨t, ht, hlen, hoffset, hslots⟩
    | true =>
      obtain ⟨hnext, -⟩ := ReturnType.given_of_writes hfits hb hwrites
      obtain ⟨x, ⟨t', data, ht', hwrite, hbuffer, hmoved⟩, hxsum, hxvalue⟩ := hgave.written hwrites
      rw [ht, Option.some.injEq] at ht'
      subst ht'
      obtain ⟨hgives, hxlen⟩ := h.gives hp h₀ ha hnone hb hwrites hxsum hxvalue
      rw [hoffset] at hwrite hmoved
      obtain ⟨hself, hothers⟩ := Storage.write?_batch hwrite hxlen
      refine ⟨_, hbuffer, (Storage.write?_eq_some hwrite).2.2.1.trans hlen, ?_, fun j hj => ?_⟩
      · rw [hmoved, hxlen, hlen, ArrayIo.advance_batch (Nat.mod_lt _ hpos), Nat.mod_add_mod, hnext]
        rfl
      · rw [hnext] at hj
        rcases Nat.eq_or_lt_of_le (Nat.le_of_lt_succ hj) with rfl | hlt
        · exact ⟨x, hgives, hself⟩
        · obtain ⟨y, hy, hslice⟩ := hslots j hlt
          refine ⟨y, hy, hothers _ _ (fun heq => ?_) hslice⟩
          have hle := ReturnType.given_le hfits hb
          have hmod : j ≡ a.returns.given p.batches b [MOD a.returns.returns p.batches] := Nat.ModEq.add_left_cancel' q heq
          exact Nat.ne_of_lt hlt (hmod.eq_of_lt_of_lt (by omega) (by omega))

end Anchor

/-! ## Plans -/

theorem engineFor_ok {call : String} (hr : s.engine = some r) {engine : Runtime} (h : s.engineFor call = .ok engine) :
    engine = r := by
  unfold engineFor at h
  split at h
  · rw [Outcome.orFail_eq_ok, hr, Option.some.injEq] at h
    exact h.symm
  · cases h

theorem checkCanRun_ok {engine : Runtime} (hr : s.engine = some r) (h : s.checkCanRun mode = .ok engine) : engine = r := by
  unfold checkCanRun at h
  obtain ⟨engine', hengine, h⟩ := Outcome.bind_eq_ok.1 h
  obtain rfl := engineFor_ok hr hengine
  split at h
  · cases h
  split at h
  · cases h
  split at h
  · cases h
  split at h
  · cases h
  · cases h
    rfl

theorem stepAnchor_ok {t : ReturnType} {a : StepAnchor} (h : stepAnchor e mode id t = .ok a) :
    id ∈ e.availableAfter mode ∧ ∃ info, e.infos.get? id = some info ∧ a = ⟨id, t, info⟩ := by
  unfold stepAnchor at h
  split at h
  · rename_i hmem
    obtain ⟨info, hinfo, h⟩ := Outcome.bind_eq_ok.1 h
    cases h
    exact ⟨by simpa using hmem, info, Outcome.orFail_eq_ok.1 hinfo, rfl⟩
  · cases h

theorem plan_ok (h : s.Serves g e flow r) (hplan : s.plan mode = .ok p) :
    p.Follows g e flow mode ∧ ∀ a ∈ p.anchors, a.id ∈ e.availableAfter mode := by
  unfold plan at hplan
  obtain ⟨engine, hengine, hplan⟩ := Outcome.bind_eq_ok.1 hplan
  obtain rfl := checkCanRun_ok h.engine hengine
  obtain ⟨anchors, hanchors, hplan⟩ := Outcome.bind_eq_ok.1 hplan
  cases hplan
  rw [Outcome.mapM_eq_ok, h.dataFlow, h.labelled.executable] at hanchors
  have hfound : ∀ a ∈ anchors, flow.anchors.get? a.id = some a.returns ∧ g.info? a.id = some a.info ∧
      a.id ∈ e.availableAfter mode := by
    intro a ha
    obtain ⟨entry, hentry, ha⟩ := exists_of_forall₂ hanchors.flip a ha
    obtain ⟨havailable, info, hinfo, rfl⟩ := stepAnchor_ok ha
    exact ⟨Dict.mem_entries.1 hentry, (h.labelled.labels.infos _).symm.trans hinfo, havailable⟩
  refine ⟨⟨rfl, ?_, ?_, fun a ha => ⟨(hfound a ha).1, (hfound a ha).2.1⟩, fun {id t} ht => ?_, ?_⟩,
    fun a ha => (hfound a ha).2.2⟩
  · rw [h.dataFlow]
  · rw [h.labelled.executable]
  · obtain ⟨a, ha, hstep⟩ := exists_of_forall₂ hanchors (id, t) (Dict.mem_entries.2 ht)
    obtain ⟨-, info, -, rfl⟩ := stepAnchor_ok hstep
    exact ⟨_, ha, rfl, rfl⟩
  · have hids : anchors.map (·.id) = flow.anchors.entries.map (·.1) := by
      refine eq_map_of_forall₂ (List.forall₂_map_right_iff.2 (hanchors.imp fun entry a hstep => ?_))
      obtain ⟨-, info, -, rfl⟩ := stepAnchor_ok hstep
      rfl
    rw [hids]
    exact Dict.nodup_keys _

/-- Data that pass the check before a step have the elements of the whole step. -/
theorem sized_of_check {ins outs : Dict TensorId Nat} (hp : p.Follows g e flow mode) (he : e.Labels g)
    (hins : p.inputCounts = .ok ins) (houts : p.outputCounts = .ok outs) (hcheck : ArrayIo.check ins outs io = .ok ()) :
    io.Sized p := by
  obtain ⟨hinputs, houtputs⟩ := ArrayIo.check_ok hcheck
  obtain ⟨l, hl, hins⟩ := Outcome.bind_eq_ok.1 hins
  obtain ⟨l', hl', houts⟩ := Outcome.bind_eq_ok.1 houts
  cases hins
  cases houts
  rw [Outcome.mapM_eq_ok] at hl hl'
  have hl : l = p.streams.map fun x => (x.1, x.2.count * p.batches) := by
    refine eq_map_of_forall₂ (hl.imp fun x y hy => ?_)
    obtain ⟨n, hn, hy⟩ := Outcome.bind_eq_ok.1 hy
    obtain ⟨k, hk, hy⟩ := Outcome.bind_eq_ok.1 hy
    cases hy
    rw [(Word.nat_eq_ok_iff.1 hk).2, TensorInfo.counted_eq hn]
  have hl' : l' = p.anchors.map fun a => (a.id, a.returns.returns p.batches * a.info.count) := by
    refine eq_map_of_forall₂ (hl'.imp fun a y hy => ?_)
    obtain ⟨n, hn, hy⟩ := Outcome.bind_eq_ok.1 hy
    cases hy
    rw [TensorInfo.counted_eq hn, ReturnType.count_bufferInfo]
  subst hl hl'
  refine ⟨fun {id info} hid => ?_, fun {a} ha => ?_⟩
  · rw [Nat.mul_comm]
    refine hinputs (Dict.get?_ofList ?_ (List.mem_map.2 ⟨_, hid, rfl⟩))
    rw [List.map_map]
    exact hp.streams ▸ he.nodup.sublist (List.filter_sublist.map _)
  · refine houtputs (Dict.get?_ofList ?_ (List.mem_map.2 ⟨a, ha, rfl⟩))
    rw [List.map_map]
    exact hp.nodup

/-! ## Steps -/

/-- How a step ran. Batch `b` takes batch `source id b` of the array of each stream, and the `j`-th value that is given
back for an anchor is batch `target a j` of its buffer. All places are where they were before. -/
structure Ran (p : StepPlan) (source : TensorId → Nat → Nat) (target : StepAnchor → Nat → Nat) (r : Nat → Runtime)
    (io io' : ArrayIo) : Prop where
  batches : ∀ b < p.batches, ∃ data : TensorId → Storage,
    (∀ id info, (id, info) ∈ p.streams → ∃ t, io.inputs.get? id = some t ∧
      t.data.slice? (source id b * info.count) info.count = some (data id)) ∧
    (Runtime.runBatch p.mode).run ((r b).fed (p.fills data)) = (.ok (), r (b + 1))
  anchors : ∀ a ∈ p.anchors, ∃ t, io'.outputs.get? a.id = some t ∧
    t.data.length = a.returns.returns p.batches * a.info.count ∧
    ∀ j < a.returns.returns p.batches, ∃ x, Gives p r a j x ∧
      t.data.slice? (target a j * a.info.count) a.info.count = some x
  inputs : io'.inputs = io.inputs
  inputPlaces : ∀ id, io'.inputOffset id = io.inputOffset id
  outputPlaces : ∀ id, io'.outputOffset id = io.outputOffset id

theorem Runs.ran (h : Runs p m) (hp : p.Follows g e flow mode) (h₀ : (m 0).runtime.Labelled g e)
    (hs : (m 0).data.Sized p) (hsums : (m 0).sums = .empty) {k : TensorId → Nat} {q : StepAnchor → Nat}
    (hk : ∀ id info, (id, info) ∈ p.streams → (m 0).data.inputOffset id = k id % p.batches * info.count)
    (hq : ∀ a ∈ p.anchors, (m 0).data.outputOffset a.id = q a % a.returns.returns p.batches * a.info.count) :
    Ran p (fun id b => (k id + b) % p.batches) (fun a j => (q a + j) % a.returns.returns p.batches)
      (fun b => (m b).runtime) (m 0).data (m p.batches).data := by
  have hnone : ∀ id, ((m 0).slot id).sum = none := by
    intro id
    rw [Moment.slot, slot, hsums]
    rfl
  have hbuffer : ∀ a ∈ p.anchors, _ := fun a ha =>
    h.buffer hp h₀ hs ha (hnone a.id) (hq a ha) (Nat.le_refl p.batches)
  refine ⟨fun b hb => ?_, fun a ha => ?_, h.inputs (Nat.le_refl _), fun id => ?_, fun id => ?_⟩
  · obtain ⟨data, htaken, hrun⟩ := (h b hb).ran
    refine ⟨data, fun id info hid => ?_, hrun⟩
    obtain ⟨t, ht, hslice, -⟩ := htaken hid
    rw [h.inputs (by omega)] at ht
    rw [h.inputOffset hs hid (hk id info hid) (by omega)] at hslice
    exact ⟨t, ht, hslice⟩
  · obtain ⟨t, ht, hlen, -, hslots⟩ := hbuffer a ha
    rw [ReturnType.given_all (hp.fits ha)] at hslots
    exact ⟨t, ht, hlen, hslots⟩
  · by_cases hid : id ∈ p.streams.map (·.1)
    · obtain ⟨⟨id, info⟩, hmem, rfl⟩ := List.mem_map.1 hid
      rw [h.inputOffset hs hmem (hk id info hmem) (Nat.le_refl _), hk id info hmem, Nat.add_mod_right]
    · exact h.unread hid (Nat.le_refl _)
  · by_cases hid : id ∈ p.anchors.map (·.id)
    · obtain ⟨a, ha, rfl⟩ := List.mem_map.1 hid
      obtain ⟨t, -, -, hoffset, -⟩ := hbuffer a ha
      change ((m p.batches).slot a.id).offset = _
      rw [hoffset, ReturnType.given_all (hp.fits ha), Nat.add_mod_right, hq a ha]
    · exact congrArg Slot.offset (h.unasked hid (Nat.le_refl _))

theorem enter_ends (target : SessionState) (h : s.Serves g e flow r) (E : Failure → Session → Prop) :
    Stateful.Ends (fun _ s' => s'.Serves g e flow r) E (enter target) s := by
  refine .get_bind ?_
  split
  · exact .bind (R := fun _ s' => s'.Serves g e flow r)
      (.modify ⟨h.graph, h.dataFlow, h.host, h.engine, h.labelled⟩) fun _ s' h' =>
      .modify ⟨h'.graph, h'.dataFlow, h'.host, h'.engine, h'.labelled⟩
  · exact .pure h

/-- Every end of a step: if it succeeds, it ran from the places that it found. -/
theorem runStep_ends (mode : RunMode) (h : Stands typed g e flow st) :
    Stateful.Ends (fun _ st' => Stands typed g e flow st' ∧ ∃ p r c, st.session.plan mode = .ok p ∧
        st.session.engine = some (r 0) ∧ st'.session.engine = some { r p.batches with counters := c } ∧
        ∀ (k : TensorId → Nat) (q : StepAnchor → Nat),
          (∀ id info, (id, info) ∈ p.streams → st.data.inputOffset id = k id % p.batches * info.count) →
          (∀ a ∈ p.anchors, st.data.outputOffset a.id = q a % a.returns.returns p.batches * a.info.count) →
          Ran p (fun id b => (k id + b) % p.batches) (fun a j => (q a + j) % a.returns.returns p.batches) r st.data st'.data)
      (fun _ st' => Stands typed g e flow st') (runStep ArrayIo.io mode) st := by
  obtain ⟨r, hserves⟩ := h.serves
  refine .get_bind (.bind (R := fun p st' => st' = st ∧ st.session.plan mode = .ok p)
    (.liftM (fun p hplan => ⟨rfl, hplan⟩) fun _ _ => h) ?_)
  rintro p st₁ ⟨rfl, hplan⟩
  obtain ⟨hp, -⟩ := plan_ok hserves hplan
  rw [if_pos hserves.host]
  refine .bind (R := fun _ st' => st' = st₁ ∧ st₁.data.Sized p) (.lift (fun _ hcheck => ⟨rfl, ?_⟩) fun _ _ => h) ?_
  · obtain ⟨ins, hins, hcheck⟩ := Outcome.bind_eq_ok.1 hcheck
    obtain ⟨outs, houts, hcheck⟩ := Outcome.bind_eq_ok.1 hcheck
    exact sized_of_check hp hserves.labelled.labels hins houts hcheck
  rintro _ st₂ ⟨rfl, hsized⟩
  have hgoing : Ongoing typed g e flow p r st₂ .empty :=
    ⟨hserves, h.placed, hsized, fun _ _ _ ht => by cases ht⟩
  refine .bind (runBatches_ends hp hgoing) ?_
  rintro _ st₃ ⟨m, hm, hbatches, hend, hdata, hsession⟩
  rw [Nat.zero_add] at hend hdata hsession
  have hruns : Runs p m := fun b hb => hbatches b (Nat.zero_le b) (by omega)
  have hcount : Stateful.Ends (fun _ r' => ∃ c, r' = { (m p.batches).runtime with counters := c }) (fun _ r' => r'.Labelled g e)
      (Runtime.count fun c => { c with steps := c.steps + 1 }) (m p.batches).runtime := .modify ⟨_, rfl⟩
  refine .focus (.bind (R := fun _ s' => ∃ c, s'.Serves g e flow { (m p.batches).runtime with counters := c })
    ((onEngine_ends mode.label hend.serves.engine hcount fun _ => hend.serves.labelled).mono ?_ ?_) fun _ s₄ h₄ => ?_)
  · rintro _ _ ⟨_, ⟨c, rfl⟩, rfl⟩
    have hlabelled := hend.serves.labelled
    exact ⟨c, hend.serves.loaded ⟨hlabelled.backend, hlabelled.executable, hlabelled.labels, hlabelled.values⟩⟩
  · rintro _ _ ⟨r', hlabelled, rfl⟩
    exact ⟨⟨r', hend.serves.loaded hlabelled⟩, hend.placed⟩
  · obtain ⟨c, h₄⟩ := h₄
    refine .bind (R := fun _ s' => s'.Serves g e flow { (m p.batches).runtime with counters := c })
      (.modify ⟨h₄.graph, h₄.dataFlow, h₄.host, h₄.engine, h₄.labelled⟩) fun _ s₅ h₅ =>
        (enter_ends .running h₅ _).mono (fun _ s' h' => ?_) fun _ _ h => h
    refine ⟨⟨⟨_, h'⟩, hend.placed⟩, p, fun b => (m b).runtime, c, hplan, ?_, h'.engine, fun k q hk hq => ?_⟩
    · have hm₀ : r = (m 0).runtime := by rw [hm]
      exact hserves.engine.trans (congrArg some hm₀)
    · have hdata₀ : (m 0).data = st₂.data := by rw [hm]
      rw [← hdata₀] at hsized hk hq ⊢
      change Ran p _ _ _ _ st₃.data
      rw [hdata]
      refine hruns.ran hp ?_ hsized ?_ hk hq
      · rw [hm]
        exact hserves.labelled
      · rw [hm]

end Session

end TensorGraph
