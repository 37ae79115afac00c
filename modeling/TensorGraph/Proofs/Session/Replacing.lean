import TensorGraph.Proofs.Session.Programs

/-!
Replacing weights, entry by entry. An entry passes if the session has a weight of its name and info. The entries before
the first one that does not pass are taken over and stay so, this one ends the call with its fault, and nothing else
changes. What passes is the same before and after: a weight keeps its info.
-/
namespace TensorGraph

open Stateful

namespace Stateful

variable {σ α : Type} {step : α → Stateful σ PUnit} {check : α → Outcome PUnit} {act : σ → α → σ}

/-- A loop whose steps act on what passes a check goes on to the first element that does not pass, if acting does not
change what passes. -/
theorem run_forM_until (P : σ → Prop)
    (hstep : ∀ a s, P s → (step a).run s = (check a, if (check a).isOk then act s a else s))
    (hkeep : ∀ a s, P s → check a = .ok ⟨⟩ → P (act s a)) : ∀ {l : List α} {s : σ}, P s →
    (l.forM step).run s = (l.forM check, (l.takeWhile fun a => (check a).isOk).foldl act s)
  | [], _, _ => rfl
  | a :: l, s, hs => by
    have hforM : (a :: l).forM check = (check a >>= fun _ => l.forM check) := rfl
    rw [forM_cons, run_bind, hstep a s hs, hforM]
    cases ha : check a with
    | error f =>
      rw [List.takeWhile_cons_of_neg (by rw [ha]; exact Bool.false_ne_true)]
      rfl
    | ok u =>
      rw [List.takeWhile_cons_of_pos (by rw [ha]; rfl), List.foldl_cons]
      exact run_forM_until P hstep hkeep (hkeep a s hs ha)

end Stateful

/-- Where every update sets the value of one key, a key has the value that it was given last, or else its old one. -/
theorem read_foldl {σ κ α : Type} [DecidableEq κ] (put : σ → κ → α → σ) (read : σ → κ → Option α)
    (hput : ∀ s k v k', read (put s k v) k' = if k = k' then some v else read s k') (k : κ) :
    ∀ (l : List (κ × α)) (s : σ), read (l.foldl (fun s e => put s e.1 e.2) s) k = (l.reverse.lookup k).or (read s k)
  | [], _ => rfl
  | e :: l, s => by
    rw [List.foldl_cons, read_foldl put read hput k l, hput, List.reverse_cons, List.lookup_append, Option.or_assoc]
    congr 1
    by_cases he : e.1 = k
    · subst he
      simp [List.lookup]
    · have hne : (k == e.1) = false := beq_eq_false_iff_ne.2 (Ne.symm he)
      simp [List.lookup, he, hne]

/-- An initializer as a weight. -/
def NamedTensor.entry (init : NamedTensor) : TensorId × HostTensor := (init.name, ⟨init.info, init.data⟩)

namespace Session

variable {s t : Session} {id : TensorId} {info : TensorInfo} {unknown : Error} {mismatch : TensorInfo → Error}

/-! ## What passes -/

/-- Whether a session has a weight of a name and info, or what is wrong: it has none of the name, or one with another
info. -/
def expects (s : Session) (id : TensorId) (info : TensorInfo) (unknown : Error) (mismatch : TensorInfo → Error) :
    Outcome Unit := do
  let current ← Outcome.orFail (s.hostWeights.get? id) unknown
  if current.info ≠ info then .fail (mismatch current.info)

/-- Whether a value may replace a weight. -/
def accepts (s : Session) (entry : TensorId × HostTensor) : Outcome Unit :=
  s.expects entry.1 entry.2.info (.config (.noWeight entry.1)) fun info =>
    .step (.weightInfo entry.1 entry.2.info info)

/-- Whether an initializer may replace a weight: its data must be those of its info, too. -/
def acceptsInitializer (s : Session) (init : NamedTensor) : Outcome Unit := do
  s.expects init.name init.info (.config (.resetUnknown init.name)) fun info =>
    .shape (.resetInfo init.name info init.info)
  let _ ← HostTensor.ofStorage init.info init.data

theorem expects_of_none (h : s.hostWeights.get? id = none) : s.expects id info unknown mismatch = .fail unknown := by
  rw [expects, h]
  rfl

theorem expects_of_some {current : HostTensor} (h : s.hostWeights.get? id = some current) :
    s.expects id info unknown mismatch = if current.info = info then .ok () else .fail (mismatch current.info) := by
  rw [expects, h]
  change (if current.info ≠ info then _ else _) = _
  rw [ite_not]
  rfl

theorem expects_eq_ok_iff : s.expects id info unknown mismatch = .ok () ↔
    ∃ current, s.hostWeights.get? id = some current ∧ current.info = info := by
  cases h : s.hostWeights.get? id with
  | none =>
    rw [expects_of_none h]
    exact ⟨nofun, nofun⟩
  | some current =>
    rw [expects_of_some h]
    split
    · rename_i hinfo
      exact ⟨fun _ => ⟨current, rfl, hinfo⟩, fun _ => rfl⟩
    · rename_i hinfo
      exact ⟨nofun, fun ⟨_, hsome, heq⟩ => absurd (Option.some.inj hsome ▸ heq) hinfo⟩

/-- What passes depends on the infos of the weights alone. -/
theorem expects_congr
    (h : ∀ id, (t.hostWeights.get? id).map (·.info) = (s.hostWeights.get? id).map (·.info)) :
    t.expects = s.expects := by
  funext id info unknown mismatch
  have hid := h id
  cases ht : t.hostWeights.get? id with
  | none =>
    rw [ht] at hid
    rw [expects_of_none ht, expects_of_none (Option.map_eq_none_iff.1 hid.symm)]
  | some current =>
    rw [ht] at hid
    obtain ⟨current', hs, hinfo⟩ := Option.map_eq_some_iff.1 hid.symm
    rw [expects_of_some ht, expects_of_some hs, hinfo]

/-- A weight that is replaced keeps its info, so what passes stays the same. -/
theorem expects_insert {v : HostTensor} (ht : t.hostWeights = s.hostWeights.insert id v)
    (h : s.expects id v.info unknown mismatch = .ok ()) : t.expects = s.expects := by
  obtain ⟨current, hcurrent, hinfo⟩ := expects_eq_ok_iff.1 h
  refine expects_congr fun id' => ?_
  rw [ht, Dict.get?_insert]
  split
  · rename_i heq
    rw [← heq, hcurrent, Option.map_some, Option.map_some, hinfo]
  · rfl

theorem accepts_congr (h : t.expects = s.expects) : t.accepts = s.accepts := by
  funext entry
  rw [accepts, accepts, h]

theorem acceptsInitializer_congr (h : t.expects = s.expects) : t.acceptsInitializer = s.acceptsInitializer := by
  funext init
  rw [acceptsInitializer, acceptsInitializer, h]

/-! ## What is replaced -/

/-- The session with other weights on the host. -/
def withHostWeights (s : Session) (values : List (TensorId × HostTensor)) : Session :=
  { s with hostWeights := values.foldl (fun d e => d.insert e.1 e.2) s.hostWeights }

/-- The session with other weights on the host and, once weights have been put there, on the device. -/
def withWeights (s : Session) (values : List (TensorId × HostTensor)) : Session :=
  { s.withHostWeights values with engine := if s.weightsUploaded then s.engine.map (·.withValues values) else s.engine }

theorem withWeights_nil (s : Session) : s.withWeights [] = s := by
  have hengine : (if s.weightsUploaded then s.engine.map (·.withValues []) else s.engine) = s.engine := by
    split
    · exact Option.map_id' ..
    · rfl
  rw [withWeights, hengine]
  rfl

theorem withWeights_cons (s : Session) (e : TensorId × HostTensor) (values : List (TensorId × HostTensor)) :
    (s.withWeights [e]).withWeights values = s.withWeights (e :: values) := by
  unfold withWeights withHostWeights
  cases s.weightsUploaded with
  | true => simp [Runtime.withValues, Function.comp_def]
  | false => simp

theorem foldl_withHostWeights : ∀ (inits : List NamedTensor) (s : Session),
    inits.foldl (fun s init => s.withHostWeights [init.entry]) s = s.withHostWeights (inits.map NamedTensor.entry)
  | [], _ => rfl
  | init :: inits, s => by rw [List.foldl_cons, foldl_withHostWeights inits]; rfl

theorem foldl_withWeights : ∀ (values : List (TensorId × HostTensor)) (s : Session),
    values.foldl (fun s e => s.withWeights [e]) s = s.withWeights values
  | [], s => s.withWeights_nil.symm
  | e :: values, s => by rw [List.foldl_cons, foldl_withWeights values, withWeights_cons]

/-- A weight is replaced exactly if the value passes. -/
theorem run_writeWeight (e : TensorId × HostTensor) (s : Session) : (writeWeight e.1 e.2).run s =
    (s.accepts e, if (s.accepts e).isOk then s.withWeights [e] else s) := by
  unfold accepts
  simp only [writeWeight, run_bind, run_get, run_liftM]
  cases h : s.hostWeights.get? e.1 with
  | none =>
    rw [expects_of_none h]
    rfl
  | some current =>
    rw [expects_of_some h]
    by_cases hinfo : current.info = e.2.info
    · simp only [Outcome.orFail, ne_eq, hinfo, not_true_eq_false, if_false, if_true]
      rfl
    · simp only [Outcome.orFail, ne_eq, hinfo, not_false_eq_true, if_true, if_false]
      rfl

theorem run_writeWeights (s : Session) (weights : Dict TensorId HostTensor) : (writeWeights weights).run s =
    (weights.entries.forM s.accepts, s.withWeights (weights.entries.takeWhile fun e => (s.accepts e).isOk)) := by
  rw [← foldl_withWeights]
  refine run_forM_until (fun t => t.expects = s.expects) (fun e t ht => ?_) (fun e t ht hpass => ?_) rfl
  · rw [← accepts_congr ht]
    exact run_writeWeight e t
  · rw [← accepts_congr ht] at hpass
    exact (expects_insert rfl hpass).trans ht

/-- A weight of the host is replaced exactly if the initializer passes. -/
theorem run_resetWeight (init : NamedTensor) (s : Session) : (resetWeight init).run s =
    (s.acceptsInitializer init,
      if (s.acceptsInitializer init).isOk then s.withHostWeights [init.entry] else s) := by
  unfold acceptsInitializer
  simp only [resetWeight, run_bind, run_get, run_liftM]
  cases h : s.hostWeights.get? init.name with
  | none =>
    rw [expects_of_none h]
    rfl
  | some current =>
    rw [expects_of_some h]
    by_cases hinfo : current.info = init.info
    · simp only [Outcome.orFail, ne_eq, hinfo, not_true_eq_false, if_false, if_true]
      cases hvalue : HostTensor.ofStorage init.info init.data with
      | error f => rfl
      | ok v =>
        obtain ⟨rfl, -⟩ := HostTensor.ofStorage_ok hvalue
        rfl
    · simp only [Outcome.orFail, ne_eq, hinfo, not_false_eq_true, if_true, if_false]
      rfl

theorem run_forM_resetWeight (s : Session) (inits : List NamedTensor) : (inits.forM resetWeight).run s =
    (inits.forM s.acceptsInitializer,
      s.withHostWeights ((inits.takeWhile fun init => (s.acceptsInitializer init).isOk).map NamedTensor.entry)) := by
  rw [← foldl_withHostWeights]
  refine run_forM_until (fun t => t.expects = s.expects) (fun init t ht => ?_) (fun init t ht hpass => ?_) rfl
  · rw [← acceptsInitializer_congr ht]
    exact run_resetWeight init t
  · rw [← acceptsInitializer_congr ht] at hpass
    obtain ⟨_, hexpected, -⟩ := Outcome.bind_eq_ok.1 hpass
    exact (expects_insert rfl hexpected).trans ht

/-- Weights are replaced one after the other, up to the first entry that does not pass, which ends the call with its
fault. The entries before it are taken over: on the host and, if weights have been put there, on the device, or on the
host only where the initializers of a model replace them. All other weights, and all else, stay as they were. -/
theorem weights_replaced_until_fault (s : Session) :
    (∀ weights, (writeWeights weights).run s =
      (weights.entries.forM s.accepts, s.withWeights (weights.entries.takeWhile fun e => (s.accepts e).isOk))) ∧
    (∀ bytes, (resetWeights bytes).run s = match Model.ofBytes bytes with
      | .error f => (.error f, s)
      | .ok m => (m.initializers.forM s.acceptsInitializer, s.withHostWeights
          ((m.initializers.takeWhile fun init => (s.acceptsInitializer init).isOk).map NamedTensor.entry))) ∧
    (∀ values id, (s.withHostWeights values).hostWeights.get? id =
      (values.reverse.lookup id).or (s.hostWeights.get? id)) ∧
    ∀ (r : Runtime) values id, (r.withValues values).memory.tensor? id =
      (values.reverse.lookup id).or (r.memory.tensor? id) := by
  refine ⟨run_writeWeights s, fun bytes => ?_, fun values id => ?_, fun r values id => ?_⟩
  · rw [resetWeights, run_bind, run_liftM]
    cases hmodel : Model.ofBytes bytes with
    | error f => rfl
    | ok m => exact run_forM_resetWeight s m.initializers
  · exact read_foldl Dict.insert Dict.get? (fun _ _ _ _ => Dict.get?_insert ..) id values s.hostWeights
  · exact read_foldl Runtime.upload (fun r => r.memory.tensor?) (fun _ _ _ _ => DeviceMemory.tensor?_store ..) id values r

/-- The session of the added weight after it was put on the device, and what is left of it when that weight is written
together with one that there is not. -/
def halfWritten (s : Session) : Outcome Unit × Session :=
  (writeWeights (.ofList [("w", ⟨⟨.float, [1]⟩, .f32 [.two]⟩), ("z", ⟨⟨.float, [1]⟩, .f32 [.two]⟩)])).run
    (uploadWeights.run s.readied).2

theorem weights_replaced_before_fault : ∃ s p', (open_ addingConfig).run {} = (.ok s, p') ∧
    s.halfWritten.1 = .error (.error (.config (.noWeight "z"))) ∧
    (uploadWeights.run s.readied).2.hostWeights.get? "w" = some ⟨⟨.float, [1]⟩, .f32 [.one]⟩ ∧
    (uploadWeights.run s.readied).2.currentWeight "w" = .ok ⟨⟨.float, [1]⟩, .f32 [.one]⟩ ∧
    s.halfWritten.2.hostWeights.get? "w" = some ⟨⟨.float, [1]⟩, .f32 [.two]⟩ ∧
    s.halfWritten.2.currentWeight "w" = .ok ⟨⟨.float, [1]⟩, .f32 [.two]⟩ := by
  have hfacts : (((open_ addingConfig).run {}).1.bind fun s =>
      .ok (s.halfWritten.1, (uploadWeights.run s.readied).2.hostWeights.get? "w",
        (uploadWeights.run s.readied).2.currentWeight "w", s.halfWritten.2.hostWeights.get? "w",
        s.halfWritten.2.currentWeight "w")) =
      .ok (.error (.error (.config (.noWeight "z"))), some ⟨⟨.float, [1]⟩, .f32 [.one]⟩,
        .ok ⟨⟨.float, [1]⟩, .f32 [.one]⟩, some ⟨⟨.float, [1]⟩, .f32 [.two]⟩,
        .ok ⟨⟨.float, [1]⟩, .f32 [.two]⟩) := by decide +kernel
  obtain ⟨s, hopen, hfacts⟩ := Outcome.bind_eq_ok.1 hfacts
  have hfacts := Except.ok.inj hfacts
  simp only [Prod.mk.injEq] at hfacts
  exact ⟨s, _, Stateful.eq_ok_of_fst hopen, hfacts⟩

end Session

end TensorGraph
