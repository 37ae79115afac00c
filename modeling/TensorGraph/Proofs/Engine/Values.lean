import TensorGraph.Proofs.Engine.Batch

/-!
What all values on a device satisfy, whatever has run. A batch puts results of steps into memory, and gives weights
what is there for their updates; a batch that fails has done so with some of them.
-/
namespace TensorGraph

variable {b : Backend} {e : Executable} {X : TensorId → HostTensor → Prop} {r : Runtime} {c : CompiledOp} {p : Phase}

/-- Results of the steps of a program satisfy `X`, and weights satisfy it if the values that they are given do. -/
structure Backend.Gives (b : Backend) (e : Executable) (X : TensorId → HostTensor → Prop) : Prop where
  fresh : ∀ {p c xs ys}, c ∈ e.fragment p → b.execute c.kind xs c.infos = .ok ys → ∀ ty ∈ c.outputs.zip ys, X ty.1 ty.2
  last : ∀ {p c t xs ys y}, c ∈ e.fragment p → c.outputs = [t] → b.execute c.kind xs c.infos = .ok ys →
    ys.getLast? = some y → X t y
  inPlace : ∀ {p c t x shared rest info y}, c ∈ e.fragment p → c.outputs = [t] → c.infos = [info] → c.inPlace = true →
    b.executeInPlace c.kind x shared rest info = .ok y → X t y
  updates : ∀ {u w v}, (u, w) ∈ e.updates → X u v → X w v

namespace Runtime

/-- A loaded program whose values all satisfy `X`. -/
structure Valued (b : Backend) (e : Executable) (X : TensorId → HostTensor → Prop) (r : Runtime) : Prop where
  backend : r.backend = b
  executable : r.executable = e
  values : ∀ {t v}, r.memory.tensor? t = some v → X t v

namespace Valued

theorem of_values {r' : Runtime} (h : Valued b e X r) (hsame : Same r r')
    (hvalues : ∀ {t v}, r'.memory.tensor? t = some v → r.memory.tensor? t = some v ∨ X t v) : Valued b e X r' :=
  ⟨hsame.1.trans h.backend, hsame.2.trans h.executable, fun hv => (hvalues hv).elim h.values id⟩

/-- A value is set. -/
theorem of_set {r' : Runtime} (h : Valued b e X r) (hsame : Same r r') {id : TensorId} {x : HostTensor}
    (hmemory : ∀ t, r'.memory.tensor? t = if id = t then some x else r.memory.tensor? t) (hx : X id x) :
    Valued b e X r' := by
  refine h.of_values hsame fun {t v} hv => ?_
  rw [hmemory] at hv
  split at hv
  · rename_i heq
    cases hv
    exact .inr (heq ▸ hx)
  · exact .inl hv

theorem upload (h : Valued b e X r) {id : TensorId} {x : HostTensor} (hx : X id x) : Valued b e X (r.upload id x) :=
  h.of_set ⟨rfl, rfl⟩ (fun _ => DeviceMemory.tensor?_store ..) hx

theorem load (hconst : ∀ kv ∈ e.constants, X kv.1 kv.2) : Valued b e X (Runtime.load b e) := by
  have hstored : ∀ {l : List (TensorId × HostTensor)} {m : DeviceMemory}, (∀ kv ∈ l, X kv.1 kv.2) →
      (∀ {t v}, m.tensor? t = some v → X t v) →
      ∀ {t v}, (l.foldl (fun m kv => m.store kv.1 kv.2) m).tensor? t = some v → X t v := by
    intro l
    induction l with
    | nil => exact fun _ hm => hm
    | cons kv l ih =>
      intro m hl hm
      refine ih (fun kv' hkv' => hl kv' (List.mem_cons_of_mem _ hkv')) fun {t v} hv => ?_
      rw [DeviceMemory.tensor?_store] at hv
      split at hv
      · rename_i heq
        cases hv
        exact heq ▸ hl kv (by simp)
      · exact hm hv
  exact ⟨rfl, rfl, fun hv => hstored (m := {}) hconst (fun hv => nomatch hv) hv⟩

theorem keep_all (kind : OpKind) (first : Option DeviceValue) : ∀ {l : List (TensorId × HostTensor)} {r : Runtime},
    (∀ tx ∈ l, X tx.1 tx.2) → Valued b e X r →
    Valued b e X (l.foldl (fun r (id, value) => r.keep kind first id value) r)
  | [], _, _, h => h
  | tx :: l, r, hl, h => by
    rw [List.foldl_cons]
    refine keep_all (l := l) kind first (fun ty hty => hl ty (List.mem_cons_of_mem _ hty)) ?_
    exact h.of_set (same_keep ..) (fun _ => tensor?_keep ..) (hl tx (by simp))

/-- The call keeps all values, and what it gives back satisfies `Q`. -/
abbrev Ends {α : Type} (b : Backend) (e : Executable) (X : TensorId → HostTensor → Prop) (Q : α → Prop)
    (x : RuntimeM α) (r : Runtime) : Prop :=
  Stateful.Ends (fun a r => Valued b e X r ∧ Q a) (fun _ r => Valued b e X r) x r

theorem Ends.keeps {α : Type} {Q : α → Prop} {x : RuntimeM α} (h : Ends b e X Q x r) :
    Stateful.Ends (fun _ => Valued b e X) (fun _ => Valued b e X) x r := h.mono (fun _ _ hr => hr.1) fun _ _ hr => hr

theorem count (f : Counters → Counters) (h : Valued b e X r) : Ends b e X (fun _ => True) (Runtime.count f) r :=
  .modify ⟨⟨h.backend, h.executable, h.values⟩, trivial⟩

theorem executeFresh (h : Valued b e X r) (hX : b.Gives e X) (hc : c ∈ e.fragment p) :
    Ends b e X (fun _ => True) (executeFresh c) r := by
  have hkeep : ∀ {inputs : List DeviceValue} {results : List HostTensor} {r' : Runtime},
      (∀ ty ∈ c.outputs.zip results, X ty.1 ty.2) → Valued b e X r' → Ends b e X (fun _ => True)
        (modify fun r => (c.outputs.zip results).foldl (fun r (id, value) => r.keep c.kind inputs.head? id value) r) r' :=
    fun hresults h => .modify ⟨keep_all _ _ hresults h, trivial⟩
  refine .get_bind (.bind (R := fun _ r => Valued b e X r) (.lift (fun _ _ => h) fun _ _ => h) fun inputs r₁ h₁ =>
    .bind (R := fun results r => Valued b e X r ∧ ∀ ty ∈ c.outputs.zip results, X ty.1 ty.2)
      (.liftM (fun results hresults => ⟨h₁, hX.fresh hc (h.backend ▸ hresults)⟩) fun _ _ => h₁)
      fun results r₂ ⟨h₂, hresults⟩ => ?_)
  simp only [ne_eq, ite_not]
  split
  · exact hkeep hresults h₂
  · exact .bind (.fail h₂) fun _ r₃ h₃ => hkeep hresults h₃

theorem overwrite (h : Valued b e X r) (hX : b.Gives e X) (hc : c ∈ e.fragment p) {t : TensorId} {info : TensorInfo}
    (hout : c.outputs = [t]) (hinfos : c.infos = [info]) (hflag : c.inPlace = true) (target : DeviceValue)
    (rest : List HostTensor) : Ends b e X (X t) (overwrite c target rest info) r := by
  have hexecute : ∀ {ys}, r.backend.execute c.kind (target.tensor :: rest) [info] = .ok ys →
      b.execute c.kind (target.tensor :: rest) c.infos = .ok ys := by
    rw [h.backend, hinfos]
    exact id
  refine .get_bind ?_
  split
  · exact .bind (R := fun ys r => Valued b e X r ∧ ∀ y, ys.getLast? = some y → X t y)
      (.liftM (fun ys hys => ⟨h, fun y => hX.last hc hout (hexecute hys)⟩) fun _ _ => h) fun ys r' hr' =>
      .liftM (fun y hy => ⟨hr'.1, hr'.2 y (Outcome.orFail_eq_ok.1 hy)⟩) fun _ _ => hr'.1
  · exact .bind (count _ h) fun _ r' hr' =>
      .liftM (fun y hy => ⟨hr'.1, hX.inPlace hc hout hinfos hflag (h.backend ▸ hy)⟩) fun _ _ => hr'.1

theorem executeInPlace (h : Valued b e X r) (hX : b.Gives e X) (hc : c ∈ e.fragment p) (hflag : c.inPlace = true) :
    Ends b e X (fun _ => True) (executeInPlace c) r := by
  unfold Runtime.executeInPlace
  split
  · rename_i first others output info hin hout hinfos
    refine .get_bind (.bind (R := fun _ r => Valued b e X r) (.liftM (fun _ _ => h) fun _ _ => h) fun target r₁ h₁ =>
      .bind (R := fun _ r => Valued b e X r) (.modify ?_) fun _ r₂ h₂ => .get_bind
        (.bind (R := fun _ r => Valued b e X r) (.lift (fun _ _ => h₂) fun _ _ => h₂) fun rest r₃ h₃ =>
          .bind (h₃.overwrite hX hc hout hinfos hflag _ _) fun result r₄ h₄ =>
          .modify ⟨h₄.1.of_set (same_keep ..) (fun _ => tensor?_keep ..) h₄.2, trivial⟩))
    refine h₁.of_values ⟨rfl, rfl⟩ fun {t v} hv => ?_
    rw [DeviceMemory.tensor?_erase] at hv
    split at hv
    · cases hv
    · exact .inl hv
  · exact .fail h

theorem execute (h : Valued b e X r) (hX : b.Gives e X) (hc : c ∈ e.fragment p) :
    Ends b e X (fun _ => True) (execute c) r := by
  unfold Runtime.execute
  split
  · rename_i hflag
    exact .bind (h.executeInPlace hX hc hflag) fun _ _ h' => count _ h'.1
  · exact .bind (h.executeFresh hX hc) fun _ _ h' => count _ h'.1

theorem applyUpdate (h : Valued b e X r) (hX : b.Gives e X) {u w : TensorId} (huw : (u, w) ∈ e.updates) :
    Ends b e X (fun _ => True) (applyUpdate u w) r := by
  refine .get_bind (.bind (R := fun v r' => Valued b e X r' ∧ X w v.tensor) (.liftM (fun v hv => ⟨h, ?_⟩) fun _ _ => h)
    fun v r' h' => .modify ⟨h'.1.of_set ⟨rfl, rfl⟩ (fun _ => DeviceMemory.tensor?_share ..) h'.2, trivial⟩)
  refine hX.updates huw (h.values ?_)
  rw [DeviceMemory.tensor?, Outcome.orFail_eq_ok.1 hv]
  rfl

theorem runPhase (p : Phase) (h : Valued b e X r) (hX : b.Gives e X) : Ends b e X (fun _ => True) (runPhase p) r := by
  refine .get_bind (.bind (R := fun _ r => Valued b e X r) ?_ fun _ _ h' => count _ h')
  rw [h.executable]
  exact .forM (fun c hc r hr => (hr.execute hX hc).keeps) h

/-- No batch, complete or not, gives a tensor a value that does not satisfy `X`. -/
theorem runBatch (mode : RunMode) (h : Valued b e X r) (hX : b.Gives e X) :
    Ends b e X (fun _ => True) (runBatch mode) r := by
  refine .bind (R := fun _ r => Valued b e X r) (.forM (fun p _ r hr => (hr.runPhase p hX).keeps) h) fun _ r₁ h₁ => ?_
  split
  · refine .get_bind (.bind (R := fun _ r => Valued b e X r) ?_ fun _ _ h' => count _ h')
    rw [h₁.executable]
    exact .forM (fun uw huw r hr => (hr.applyUpdate hX huw).keeps) h₁
  · exact count _ h₁

end Valued

/-- No batch changes what is loaded. -/
theorem same_runBatch (mode : RunMode) (r : Runtime) : Same r ((runBatch mode).run r).2 := by
  have hX : r.backend.Gives r.executable fun _ _ => True :=
    ⟨fun _ _ _ _ => trivial, fun _ _ _ _ => trivial, fun _ _ _ _ _ => trivial, fun _ _ => trivial⟩
  have hends := Valued.runBatch mode ⟨rfl, rfl, fun _ => trivial⟩ hX
  rcases hrun : (runBatch mode).run r with ⟨_ | _, r'⟩
  · exact ⟨(hends.error hrun).backend, (hends.error hrun).executable⟩
  · exact ⟨(hends.ok hrun).1.backend, (hends.ok hrun).1.executable⟩

end Runtime

end TensorGraph
