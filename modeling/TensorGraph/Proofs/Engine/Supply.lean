import TensorGraph.Proofs.Engine.Refinement
import TensorGraph.Proofs.Op.Faults

/-!
What has a value after a batch. A batch that succeeds leaves a value for every result that no step writes over, and what
no step computes or updates stays as it was, so that a stream has the value that it was last given. A batch that fails
does so for other reasons than a tensor without a value.
-/
namespace TensorGraph

open TensorGraph.Graph

variable {g : Graph} {e : Executable} {b : Backend} {c : CompiledOp} {t : TensorId} {r r' : Runtime} {mode : RunMode}

namespace Executable

/-- No step writes over a tensor. -/
def Spares (e : Executable) (t : TensorId) : Prop :=
  ∀ p, ∀ c ∈ e.fragment p, c.inPlace = true → c.inputs.head? ≠ some t

/-- No step computes a tensor and no update gives it a value. -/
structure Leaves (e : Executable) (t : TensorId) : Prop where
  outputs : ∀ p, ∀ c ∈ e.fragment p, t ∉ c.outputs
  updates : ∀ uw ∈ e.updates, uw.2 ≠ t

end Executable

namespace Runtime

/-! ## What a batch does to one tensor -/

/-- The value of a tensor, or that it has none, satisfies `X`. -/
structure At (e : Executable) (t : TensorId) (X : Option HostTensor → Prop) (r : Runtime) : Prop where
  executable : r.executable = e
  value : X (r.memory.tensor? t)

/-- Either any value will do, or nothing gives the tensor one. -/
def Steady (e : Executable) (t : TensorId) (X : Option HostTensor → Prop) : Prop := (∀ v, X (some v)) ∨ e.Leaves t

theorem Steady.output {X : Option HostTensor → Prop} (hX : Steady e t X) {p : Phase} (hc : c ∈ e.fragment p)
    (ht : t ∈ c.outputs) : ∀ v, X (some v) := hX.resolve_right fun h => h.outputs p c hc ht

namespace At

variable {X : Option HostTensor → Prop}

theorem count (f : Counters → Counters) : Stateful.Keeps (At e t X) (Runtime.count f) :=
  .modify fun _ h => ⟨h.executable, h.value⟩

/-- A value is set at a tensor for which any will do, or at another one. -/
theorem of_set (h : At e t X r) (id : TensorId) (hsame : r'.executable = r.executable) {v : HostTensor}
    (hmemory : r'.memory.tensor? t = if id = t then some v else r.memory.tensor? t) (hid : id = t → ∀ v, X (some v)) :
    At e t X r' := by
  refine ⟨hsame.trans h.executable, ?_⟩
  rw [hmemory]
  split
  · rename_i heq
    exact hid heq v
  · exact h.value

theorem keep (h : At e t X r) (kind : OpKind) (first : Option DeviceValue) {id : TensorId} (v : HostTensor)
    (hid : id = t → ∀ v, X (some v)) : At e t X (r.keep kind first id v) :=
  h.of_set id (same_keep kind first id v).2 (tensor?_keep ..) hid

theorem keep_all (kind : OpKind) (first : Option DeviceValue) : ∀ {l : List (TensorId × HostTensor)} {r : Runtime},
    (∀ iv ∈ l, iv.1 = t → ∀ v, X (some v)) → At e t X r →
    At e t X (l.foldl (fun r (id, value) => r.keep kind first id value) r)
  | [], _, _, h => h
  | iv :: l, _, hl, h =>
    keep_all (l := l) kind first (fun jv hjv => hl jv (List.mem_cons_of_mem _ hjv)) (h.keep kind first iv.2 (hl iv (by simp)))

theorem executeFresh (hout : t ∈ c.outputs → ∀ v, X (some v)) : Stateful.Keeps (At e t X) (executeFresh c) := by
  refine .get_bind fun r _ => .bind (.lift _) fun inputs => .bind (.liftM _) fun results => ?_
  have hkeep : Stateful.Keeps (At e t X) (modify fun r : Runtime =>
      (c.outputs.zip results).foldl (fun r (id, value) => r.keep c.kind inputs.head? id value) r) :=
    .modify fun s hs => keep_all c.kind inputs.head? (fun iv hiv heq => hout (heq ▸ (List.of_mem_zip hiv).1)) hs
  simp only [ne_eq, ite_not]
  split
  · exact hkeep
  · exact .bind (.fail _) fun _ => hkeep

theorem overwrite (target : DeviceValue) (rest : List HostTensor) (info : TensorInfo) :
    Stateful.Keeps (At e t X) (overwrite c target rest info) := by
  refine .get_bind fun r _ => ?_
  split
  · exact .bind (.liftM _) fun _ => .liftM _
  · exact .bind (count _) fun _ => .liftM _

theorem executeInPlace (hout : t ∈ c.outputs → ∀ v, X (some v)) (hfirst : c.inputs.head? ≠ some t) :
    Stateful.Keeps (At e t X) (executeInPlace c) := by
  unfold Runtime.executeInPlace
  split
  · rename_i first others output info hin hcout hinfos
    rw [hcout] at hout
    rw [hin] at hfirst
    refine .get_bind fun r _ => .bind (.liftM _) fun target => .bind (.modify fun s hs => ?_) fun _ =>
      .get_bind fun r' _ => .bind (.lift _) fun rest =>
      .bind (overwrite _ _ _) fun result => .modify fun s hs => hs.keep _ _ _ fun heq => hout (by simp [heq])
    refine ⟨hs.executable, ?_⟩
    rw [DeviceMemory.tensor?_erase, if_neg fun heq => hfirst (by rw [List.head?_cons, heq])]
    exact hs.value
  · exact .fail _

theorem execute {p : Phase} (hs : e.Spares t) (hc : c ∈ e.fragment p) (hout : t ∈ c.outputs → ∀ v, X (some v)) :
    Stateful.Keeps (At e t X) (execute c) := by
  unfold Runtime.execute
  split
  · rename_i hflag
    exact .bind (executeInPlace hout (hs p c hc hflag)) fun _ => count _
  · exact .bind (executeFresh hout) fun _ => count _

theorem runPhase (hs : e.Spares t) {p : Phase} (hout : ∀ c ∈ e.fragment p, t ∈ c.outputs → ∀ v, X (some v)) :
    Stateful.Keeps (At e t X) (runPhase p) := by
  refine .get_bind fun r hr => .bind (.forM fun c hc => ?_) fun _ => count _
  rw [hr.executable] at hc
  exact execute hs hc (hout c hc)

theorem applyUpdates (hX : Steady e t X) :
    Stateful.Keeps (At e t X) (e.updates.forM fun (updated, weight) => applyUpdate updated weight) := by
  refine .forM fun uw huw => .get_bind fun r _ => .bind (.liftM _) fun value => .modify fun s hs =>
    hs.of_set uw.2 rfl (DeviceMemory.tensor?_share ..) fun heq => ?_
  exact hX.resolve_right fun h => h.updates uw huw heq

/-- What a batch keeps, complete or not: a tensor that no step writes over has a value if it had one, and one that is
neither computed nor updated has the same. -/
theorem runBatch (hs : e.Spares t) (hX : Steady e t X) (mode : RunMode) : Stateful.Keeps (At e t X) (runBatch mode) := by
  refine .bind (.forM fun p _ => runPhase hs fun _ => hX.output) fun _ => ?_
  split
  · refine .get_bind fun r hr => ?_
    rw [hr.executable]
    exact .bind (applyUpdates hX) fun _ => count _
  · exact count _

/-- Where nothing is trained, all that no step computes stays the same. -/
theorem runBatch_untrained (hs : e.Spares t) (hout : ∀ p, ∀ c ∈ e.fragment p, t ∉ c.outputs) (hmode : mode ≠ .train) :
    Stateful.Keeps (At e t X) (Runtime.runBatch mode) := by
  refine .bind (.forM fun p _ => runPhase hs fun c hc ht => absurd ht (hout p c hc)) fun _ => ?_
  rw [if_neg hmode]
  exact count _

end At

/-! ## Results -/

theorem tensor?_keep_all (kind : OpKind) (first : Option DeviceValue) : ∀ {l : List (TensorId × HostTensor)} {r : Runtime},
    t ∈ l.map (·.1) →
    ((l.foldl (fun r (id, value) => r.keep kind first id value) r).memory.tensor? t).isSome = true
  | iv :: l, r, ht => by
    rw [List.foldl_cons]
    by_cases hmem : t ∈ l.map (·.1)
    · exact tensor?_keep_all kind first hmem
    · obtain rfl : t = iv.1 := by simpa [hmem] using ht
      have hset : ((r.keep kind first iv.1 iv.2).memory.tensor? iv.1).isSome = true := by
        rw [tensor?_keep, if_pos rfl]
        rfl
      exact (At.keep_all (e := (r.keep kind first iv.1 iv.2).executable) (X := fun x => x.isSome = true) kind first
        (fun _ _ _ _ => rfl) ⟨rfl, hset⟩).value

/-- A step that succeeds leaves a value for each of its results. -/
theorem execute_gives (hrun : (execute c).run r = (.ok (), r')) (ht : t ∈ c.outputs) :
    (r'.memory.tensor? t).isSome = true := by
  unfold execute at hrun
  split at hrun <;> obtain ⟨_, r₁, hstep, hcount⟩ := Stateful.run_bind_ok.1 hrun <;>
    obtain ⟨-, rfl⟩ := Prod.mk.inj hcount <;> change (r₁.memory.tensor? t).isSome = true
  · unfold executeInPlace at hstep
    split at hstep
    · rename_i first others output info hin hout hinfos
      obtain ⟨_, _, -, hstep⟩ := Stateful.run_bind_ok.1 hstep
      obtain ⟨_, _, -, hstep⟩ := Stateful.run_bind_ok.1 hstep
      obtain ⟨_, _, -, hstep⟩ := Stateful.run_bind_ok.1 hstep
      obtain ⟨_, _, -, hstep⟩ := Stateful.run_bind_ok.1 hstep
      obtain ⟨_, _, -, hstep⟩ := Stateful.run_bind_ok.1 hstep
      obtain ⟨_, _, -, hstep⟩ := Stateful.run_bind_ok.1 hstep
      obtain ⟨-, rfl⟩ := Prod.mk.inj hstep
      rw [hout, List.mem_singleton] at ht
      rw [tensor?_keep, if_pos ht.symm]
      rfl
    · cases hstep
  · obtain ⟨_, _, -, hstep⟩ := Stateful.run_bind_ok.1 hstep
    obtain ⟨inputs, _, -, hstep⟩ := Stateful.run_bind_ok.1 hstep
    obtain ⟨results, _, -, hstep⟩ := Stateful.run_bind_ok.1 hstep
    simp only [ne_eq, ite_not] at hstep
    split at hstep
    · rename_i hlen
      obtain ⟨-, rfl⟩ := Prod.mk.inj hstep
      refine tensor?_keep_all c.kind inputs.head? ?_
      rw [List.map_fst_zip (Nat.le_of_eq hlen.symm)]
      exact ht
    · obtain ⟨_, _, hfail, -⟩ := Stateful.run_bind_ok.1 hstep
      cases hfail

theorem steps_give (hs : e.Spares t) {p : Phase} (hc : c ∈ e.fragment p) (ht : t ∈ c.outputs) :
    ∀ {l : List CompiledOp} {r r' : Runtime}, l ⊆ e.fragment p → c ∈ l → r.executable = e →
    (l.forM execute).run r = (.ok (), r') → (r'.memory.tensor? t).isSome = true
  | a :: l, r, r', hl, hmem, hr, hrun => by
    obtain ⟨_, r₁, hstep, hrest⟩ := Stateful.run_bind_ok.1 hrun
    have hkeeps : ∀ {X : Option HostTensor → Prop}, Steady e t X → ∀ a ∈ e.fragment p,
        Stateful.Keeps (At e t X) (execute a) := fun hX _ ha => At.execute hs ha (hX.output ha)
    have hexecutable : r₁.executable = e := by
      have h := hkeeps (X := fun _ => True) (.inl fun _ => trivial) a (hl (by simp)) r ⟨hr, trivial⟩
      rw [hstep] at h
      exact h.executable
    by_cases hlater : c ∈ l
    · exact steps_give hs hc ht (fun x hx => hl (List.mem_cons_of_mem _ hx)) hlater hexecutable hrest
    · obtain rfl : c = a := (List.mem_cons.1 hmem).resolve_right hlater
      have hvalue := execute_gives hstep ht
      have h := Stateful.Keeps.forM (P := At e t fun x => x.isSome = true)
        (fun a ha => hkeeps (.inl fun _ => rfl) a (hl (List.mem_cons_of_mem _ ha))) r₁ ⟨hexecutable, hvalue⟩
      rw [hrest] at h
      exact h.value

/-- A batch that succeeds leaves a value for each result of its phases that no step writes over. -/
theorem runBatch_gives (hs : e.Spares t) (hr : r.executable = e) (hrun : (runBatch mode).run r = (.ok (), r'))
    {p : Phase} (hp : p ∈ mode.phases) (hc : c ∈ e.fragment p) (ht : t ∈ c.outputs) :
    (r'.memory.tensor? t).isSome = true := by
  have hlater : Steady e t fun x => x.isSome = true := .inl fun _ => rfl
  have hphases : ∀ {l : List Phase} {r r' : Runtime}, p ∈ l → r.executable = e → (l.forM runPhase).run r = (.ok (), r') →
      At e t (fun x => x.isSome = true) r' := by
    intro l
    induction l with
    | nil => exact fun h => absurd h List.not_mem_nil
    | cons q l ih =>
      intro r r' hmem hr hrun
      obtain ⟨_, r₁, hphase, hrest⟩ := Stateful.run_bind_ok.1 hrun
      have h₁ := At.runPhase (X := fun _ => True) (p := q) hs (fun _ _ _ _ => trivial) r ⟨hr, trivial⟩
      rw [hphase] at h₁
      by_cases hin : p ∈ l
      · exact ih hin h₁.executable hrest
      · obtain rfl : p = q := (List.mem_cons.1 hmem).resolve_right hin
        have hvalue : (r₁.memory.tensor? t).isSome = true := by
          replace hphase := Stateful.of_get_bind hphase
          obtain ⟨_, r₂, hsteps, hcount⟩ := Stateful.run_bind_ok.1 hphase
          obtain ⟨-, rfl⟩ := Prod.mk.inj hcount
          rw [hr] at hsteps
          change (r₂.memory.tensor? t).isSome = true
          exact steps_give hs hc ht (fun _ hx => hx) hc hr hsteps
        have hkeeps : ∀ q ∈ l, Stateful.Keeps (At e t fun x => x.isSome = true) (runPhase q) :=
          fun q _ => At.runPhase hs fun _ => hlater.output
        have h := Stateful.Keeps.forM hkeeps r₁ ⟨h₁.executable, hvalue⟩
        rw [hrest] at h
        exact h
  obtain ⟨_, r₁, hall, hrest⟩ := Stateful.run_bind_ok.1 hrun
  have h₁ := hphases hp hr hall
  split at hrest
  · replace hrest := Stateful.of_get_bind hrest
    rw [h₁.executable] at hrest
    have h := Stateful.Keeps.bind (At.applyUpdates hlater)
      (fun _ => At.count fun c => { c with batches := c.batches + 1 }) r₁ h₁
    rw [hrest] at h
    exact h.value
  · obtain ⟨-, rfl⟩ := Prod.mk.inj hrest
    exact h₁.value

end Runtime

/-- Steps write over results only, and over none that is kept. -/
theorem Executable.Compiled.spares {l : List OpId} (h : Compiled g l e) (hm : g.MarkedSafely)
    (ht : g.producer? t = none ∨ t ∈ g.kept) : e.Spares t := by
  intro p c hc hflag hhead
  obtain ⟨o, op, ho, -, hfrom⟩ := h.step hc
  have hover : g.Overwrites o t := ⟨op, ho, hfrom.inPlace ▸ hflag, hfrom.inputs ▸ hhead⟩
  obtain ⟨hsome, hkept⟩ := hover.result hm
  rcases ht with hp | ht
  · rw [hp] at hsome
    cases hsome
  · exact hkept ht

/-! ## Failures for lack of a value -/

/-- The failure to take a value from the device that is not there. -/
def Failure.lacks (id : TensorId) : Failure := .error (.state (.noDeviceValue id))

section Never

open Outcome

theorem Failure.lacks_ne_abort (id : TensorId) : Failure.lacks id ≠ .abort := nofun

theorem HostTensor.ofStorage_never {id : TensorId} (info : TensorInfo) (d : Storage) : Never (.lacks id) (ofStorage info d) := by
  refine .bind (info.counted_never (Failure.lacks_ne_abort _)) fun n => ?_
  split
  · exact fun h => by cases h
  · split
    · exact fun h => by cases h
    · exact .ok _

theorem Runtime.download_never (h : (r.memory.tensor? t).isSome = true) {id : TensorId} : Never (.lacks id) (r.download t) := by
  rw [DeviceMemory.tensor?, Option.isSome_map] at h
  obtain ⟨v, hv⟩ := Option.isSome_iff_exists.1 h
  refine .bind (by rw [hv]; exact .ok v) fun v => ?_
  unfold Backend.download asExecution
  split
  · exact fun h => by cases h
  · exact HostTensor.ofStorage_never _ _

end Never

/-- A failure for lack of a value on the device, if it is one, comes from `R`. -/
def Failure.Excused (R : Failure → Prop) (f : Failure) : Prop := ∀ id, f = .lacks id → R f

/-- A failure that a kernel ended with. -/
inductive Backend.Raises (b : Backend) (f : Failure) : Prop
  | execute {kind : OpKind} {xs : List HostTensor} {infos : List TensorInfo} (h : b.execute kind xs infos = .error f)
  | executeInPlace {kind : OpKind} {x : HostTensor} {shared : Bool} {rest : List HostTensor} {info : TensorInfo}
    (h : b.executeInPlace kind x shared rest info = .error f)

section Excused

variable {R : Failure → Prop} {f : Failure}

theorem Failure.Excused.of_never {α : Type} {x : Outcome α} (h : ∀ id, Outcome.Never (.lacks id) x) (hx : x = .error f) :
    f.Excused R := fun id hf => absurd (hf ▸ hx) (h id)

theorem Failure.Excused.of_error {e : Error} (h : ∀ id, e ≠ .state (.noDeviceValue id)) : Excused R (.error e) :=
  fun id hf => absurd (Failure.error.inj hf) (h id)

theorem Failure.Excused.intro (h : R f) : f.Excused R := fun _ _ => h

namespace Runtime

variable {c : CompiledOp}

theorem operand_never {id : TensorId} (r : Runtime) (c : CompiledOp) (t : TensorId) :
    Outcome.Never (.lacks id) (r.operand c t) := .orFail fun h => by cases h

theorem overwrite_excused (target : DeviceValue) (rest : List HostTensor) (info : TensorInfo) (hb : r.backend = b) :
    Stateful.Ends (fun _ r' => r'.backend = b) (fun f _ => f.Excused b.Raises) (overwrite c target rest info) r := by
  refine .get_bind ?_
  split
  · exact .bind (R := fun _ r' => r'.backend = b) (.liftM (fun _ _ => hb) fun _ hf => .intro (.execute (hb ▸ hf)))
      fun _ _ h => .liftM (fun _ _ => h) fun _ hf => .of_never (fun _ => .orFail fun h => by cases h) hf
  · exact .bind (R := fun _ r' => r'.backend = b) (.modify hb)
      fun _ _ h => .liftM (fun _ _ => h) fun _ hf => .intro (.executeInPlace (hb ▸ hf))

theorem executeInPlace_excused (hb : r.backend = b) :
    Stateful.Ends (fun _ r' => r'.backend = b) (fun f _ => f.Excused b.Raises) (executeInPlace c) r := by
  unfold executeInPlace
  split
  · refine .get_bind (.bind (R := fun _ r' => r'.backend = b)
      (.liftM (fun _ _ => hb) fun _ hf => .of_never (fun _ => operand_never _ _ _) hf) fun target r₁ h₁ => ?_)
    refine .bind (R := fun _ r' => r'.backend = b) (.modify h₁) fun _ r₂ h₂ => .get_bind ?_
    refine .bind (R := fun _ r' => r'.backend = b)
      (.lift (fun _ _ => h₂) fun _ hf => .of_never (fun _ => .mapM fun _ => operand_never _ _ _) hf) fun rest r₃ h₃ => ?_
    exact .bind (overwrite_excused _ _ _ h₃) fun _ _ h => .modify ((same_keep ..).1.trans h)
  · exact .fail (.of_error fun _ h => by cases h)

theorem executeFresh_excused (hb : r.backend = b) :
    Stateful.Ends (fun _ r' => r'.backend = b) (fun f _ => f.Excused b.Raises) (executeFresh c) r := by
  have hkeep : ∀ (l : List (TensorId × HostTensor)) (first : Option DeviceValue) {r : Runtime}, r.backend = b →
      (l.foldl (fun r (id, value) => r.keep c.kind first id value) r).backend = b := by
    intro l first
    induction l with
    | nil => exact fun h => h
    | cons iv l ih => exact fun h => ih ((same_keep ..).1.trans h)
  refine .get_bind (.bind (R := fun _ r' => r'.backend = b)
    (.lift (fun _ _ => hb) fun _ hf => .of_never (fun _ => .mapM fun _ => operand_never _ _ _) hf) fun inputs r₁ h₁ => ?_)
  refine .bind (R := fun _ r' => r'.backend = b) (.liftM (fun _ _ => h₁) fun _ hf => .intro (.execute (hb ▸ hf)))
    fun results r₂ h₂ => ?_
  simp only [ne_eq, ite_not]
  split
  · exact .modify (hkeep _ _ h₂)
  · exact .bind (R := fun _ _ => False) (.fail (.of_error fun _ h => by cases h))
      fun _ _ h => h.elim

theorem execute_excused (hb : r.backend = b) :
    Stateful.Ends (fun _ r' => r'.backend = b) (fun f _ => f.Excused b.Raises) (execute c) r := by
  unfold execute
  split
  · exact .bind (executeInPlace_excused hb) fun _ _ h => .modify h
  · exact .bind (executeFresh_excused hb) fun _ _ h => .modify h

/-- A batch takes no value from the device but operands, and what lacks one of those says so in another way. -/
theorem runBatch_excused (mode : RunMode) (hb : r.backend = b) :
    Stateful.Ends (fun _ r' => r'.backend = b) (fun f _ => f.Excused b.Raises) (runBatch mode) r := by
  have hphase : ∀ (p : Phase) (r : Runtime), r.backend = b →
      Stateful.Ends (fun _ r' => r'.backend = b) (fun f _ => f.Excused b.Raises) (runPhase p) r := fun p r h =>
    .get_bind (.bind (.forM (fun c _ r => execute_excused) h) fun _ _ h => .modify h)
  have hupdate : ∀ (updated weight : TensorId) (r : Runtime), r.backend = b →
      Stateful.Ends (fun _ r' => r'.backend = b) (fun f _ => f.Excused b.Raises) (applyUpdate updated weight) r :=
    fun _ _ r h => .get_bind (.bind (R := fun _ r' => r'.backend = b)
      (.liftM (fun _ _ => h) fun _ hf => .of_never (fun _ => .orFail fun h => by cases h) hf) fun _ _ h => .modify h)
  refine .bind (.forM (fun p _ r => hphase p r) hb) fun _ r₁ h₁ => ?_
  split
  · exact .get_bind (.bind (.forM (fun uw _ r => hupdate uw.1 uw.2 r) h₁) fun _ _ h => .modify h)
  · exact .modify h₁

end Runtime

end Excused

end TensorGraph
