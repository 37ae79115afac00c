import TensorGraph.Proofs.Graph.Extension
import TensorGraph.Proofs.Kernel.Matrix

/-!
Calls of gradient rules on graphs whose tensors have values. A call only adds ops, so values stay; what it gives for an
operand is followed up to the values that the kernels compute. A call does not fail where all sizes can be counted.
-/
namespace TensorGraph

open TensorGraph.Graph Kernel

variable {R : Type}

/-! ## Values in graphs -/

namespace Graph

variable {g g' : Graph} {t : TensorId} {x : Operand R} {r : Reading (Operand R)}

/-- A tensor has the value `x` when the graph is computed, and the info of `x`. -/
structure HasValue (r : Reading (Operand R)) (g : Graph) (t : TensorId) (x : Operand R) : Prop where
  value : r.value? g t = some x
  info : g.info? t = some x.info

theorem HasValue.partOf (h : HasValue r g t x) (hl : g.Linked) (ha : g.Acyclic) (hpart : g.PartOf g') :
    HasValue r g' t x := by
  obtain ⟨y, hy, -⟩ := info?_eq_some.1 h.info
  exact ⟨(hpart.value?_eq hl ha r ⟨y, hy⟩).trans h.value, hpart.info h.info⟩

theorem mapM_value?_of_hasValue {ids : List TensorId} {xs : List (Operand R)} (h : List.Forall₂ (HasValue r g) ids xs) :
    ids.mapM (r.value? g) = some xs := mapM_eq_some_iff.2 (h.imp fun _ _ hold => hold.value)

theorem mapM_info?_of_hasValue {ids : List TensorId} {xs : List (Operand R)} (h : List.Forall₂ (HasValue r g) ids xs) :
    ids.mapM g.info? = some (xs.map (·.info)) :=
  mapM_eq_some_iff.2 (List.forall₂_map_right_iff.2 (h.imp fun _ _ hold => hold.info))

end Graph

/-! ## Calls of rules -/

namespace GradCall

/-- What a rule may rely on: the graph is in order, and has the values `xs` for the operands of the op and `grad` for the
incoming gradient. -/
structure Meets (c : GradCall) (r : Reading (Operand R)) (xs : List (Operand R)) (grad : Operand R) (g : Graph) : Prop where
  linked : g.Linked
  numbered : g.Numbered
  acyclic : g.Acyclic
  output : ∃ t, c.op.output = .ok t
  operands : List.Forall₂ (HasValue r g) c.op.inputs xs
  incoming : HasValue r g c.incoming grad

/-- From where `P` holds, every successful run of a call only adds to the graph, and gives a result of which `Q` holds. It
is successful if all sizes can be counted. -/
def Proceeds (c : GradCall) (r : Reading (Operand R)) (xs : List (Operand R)) (out : TensorInfo) (grad : Operand R)
    {α : Type} (P : Graph → Prop) (x : GradM α) (Q : α → Graph → Prop) : Prop :=
  ∀ s, c.Meets r xs grad s.graph → P s.graph →
    (∀ a s', x.run s = (.ok a, s') → c.Meets r xs grad s'.graph ∧ s.graph.PartOf s'.graph ∧ Q a s'.graph) ∧
      (Countable xs out → ∃ a s', x.run s = (.ok a, s'))

variable {c : GradCall} {r : Reading (Operand R)} {xs : List (Operand R)} {out : TensorInfo} {grad x : Operand R}
  {g g' : Graph} {t : TensorId} {i k : Nat}

namespace Meets

theorem partOf (h : c.Meets r xs grad g) (hpart : g.PartOf g') (hl : g'.Linked) (hn : g'.Numbered) (ha : g'.Acyclic) :
    c.Meets r xs grad g' :=
  ⟨hl, hn, ha, h.output, h.operands.imp fun _ _ hold => hold.partOf h.linked h.acyclic hpart,
    h.incoming.partOf h.linked h.acyclic hpart⟩

theorem input (h : c.Meets r xs grad g) (hx : xs[i]? = some x) : ∃ t, c.op.input i = .ok t := by
  have hi := (List.getElem?_eq_some_iff.1 hx).1
  rw [← h.operands.length_eq] at hi
  exact ⟨_, Outcome.promised_eq_ok.2 (List.getElem?_eq_getElem hi)⟩

theorem holds (h : c.Meets r xs grad g) (ht : c.op.input i = .ok t) (hx : xs[i]? = some x) : HasValue r g t x := by
  rw [Op.input, Outcome.promised_eq_ok] at ht
  obtain ⟨hi, rfl⟩ := List.getElem?_eq_some_iff.1 ht
  obtain ⟨hi', rfl⟩ := List.getElem?_eq_some_iff.1 hx
  exact (List.forall₂_iff_get.1 h.operands).2 i hi hi'

end Meets

namespace Proceeds

variable {α β : Type} {P : Graph → Prop} {Q : α → Graph → Prop} {Q' : β → Graph → Prop}

protected theorem pure {a : α} (h : ∀ g, P g → Q a g) : c.Proceeds r xs out grad P (pure a) Q := by
  refine fun s hs hP => ⟨fun a' s' hrun => ?_, fun _ => ⟨a, s, rfl⟩⟩
  cases hrun
  exact ⟨hs, .refl _, h s.graph hP⟩

protected theorem bind {x : GradM α} {f : α → GradM β} (hx : c.Proceeds r xs out grad P x Q)
    (hf : ∀ a, c.Proceeds r xs out grad (Q a) (f a) Q') : c.Proceeds r xs out grad P (x >>= f) Q' := by
  intro s hs hP
  obtain ⟨hok, htotal⟩ := hx s hs hP
  refine ⟨fun b s' hrun => ?_, fun hc => ?_⟩
  · obtain ⟨a, s₁, hrun₁, hrun₂⟩ := Stateful.run_bind_ok.1 hrun
    obtain ⟨hs₁, hpart, hQ⟩ := hok a s₁ hrun₁
    obtain ⟨hs', hpart', hQ'⟩ := (hf a s₁ hs₁ hQ).1 b s' hrun₂
    exact ⟨hs', hpart.trans hpart', hQ'⟩
  · obtain ⟨a, s₁, hrun₁⟩ := htotal hc
    obtain ⟨hs₁, -, hQ⟩ := hok a s₁ hrun₁
    obtain ⟨b, s', hrun₂⟩ := (hf a s₁ hs₁ hQ).2 hc
    exact ⟨b, s', Stateful.run_bind_ok.2 ⟨a, s₁, hrun₁, hrun₂⟩⟩

/-- A call that does not touch the graph. -/
theorem ask {o : Outcome α} {f : α → GradM β} (htotal : Countable xs out → ∃ a, o = .ok a)
    (hf : ∀ a, o = .ok a → c.Proceeds r xs out grad P (f a) Q') : c.Proceeds r xs out grad P (liftM o >>= f) Q' := by
  refine .bind (Q := fun a g => o = .ok a ∧ P g) (fun s hs hP => ⟨fun a s' hrun => ?_, fun hc => ?_⟩) fun a s hs hP =>
    hf a hP.1 s hs hP.2
  · rw [Stateful.run_liftM, Prod.mk.injEq] at hrun
    obtain ⟨ha, rfl⟩ := hrun
    exact ⟨hs, .refl _, ha, hP⟩
  · obtain ⟨a, ha⟩ := htotal hc
    exact ⟨a, s, by rw [Stateful.run_liftM, ha]⟩

/-- A result that is known. -/
theorem know {o : Outcome α} {a : α} {f : α → GradM β} (ha : o = .ok a) (hf : c.Proceeds r xs out grad P (f a) Q') :
    c.Proceeds r xs out grad P (liftM o >>= f) Q' :=
  ask (fun _ => ⟨a, ha⟩) fun a' ha' => by
    cases ha.symm.trans ha'
    exact hf

theorem mono {x : GradM α} {Q₁ : α → Graph → Prop} (hx : c.Proceeds r xs out grad P x Q)
    (h : ∀ a g, c.Meets r xs grad g → Q a g → Q₁ a g) : c.Proceeds r xs out grad P x Q₁ := fun s hs hP =>
  ⟨fun a s' hrun => by
    obtain ⟨hs', hpart, hQ⟩ := (hx s hs hP).1 a s' hrun
    exact ⟨hs', hpart, h a s'.graph hs' hQ⟩, (hx s hs hP).2⟩

/-- A rule may rely on what is known of the graph it is called with. -/
theorem assume {x : GradM α} (h : ∀ g, c.Meets r xs grad g → c.Proceeds r xs out grad P x Q) :
    c.Proceeds r xs out grad P x Q := fun s hs => h s.graph hs s hs

theorem askInput {f : TensorId → GradM β} (hx : xs[i]? = some x)
    (hf : ∀ t, (∀ g, c.Meets r xs grad g → HasValue r g t x) → c.Proceeds r xs out grad P (f t) Q') :
    c.Proceeds r xs out grad P (liftM (c.op.input i) >>= f) Q' :=
  assume fun _ hmeets => ask (fun _ => hmeets.input hx) fun t ht => hf t fun _ hs => hs.holds ht hx

theorem askShape {f : Shape → GradM β} (hx : xs[i]? = some x) (hf : c.Proceeds r xs out grad P (f x.info.shape) Q') :
    c.Proceeds r xs out grad P (c.shape i >>= f) Q' := by
  refine .bind (Q := fun shape g => shape = x.info.shape ∧ P g) (fun s hs hP => ?_) fun shape s hs hP => ?_
  · obtain ⟨t, ht⟩ := hs.input hx
    have hinfo : s.graph.info t = .ok x.info := Outcome.orFail_eq_ok.2 (hs.holds ht hx).info
    have hrun : (c.shape i).run s = (.ok x.info.shape, s) :=
      Stateful.run_bind_ok.2 ⟨s, s, rfl, Stateful.run_bind_ok.2 ⟨t, s, by rw [Stateful.run_liftM, ht],
        Stateful.run_bind_ok.2 ⟨x.info, s, by rw [Stateful.run_liftM, hinfo], rfl⟩⟩⟩
    refine ⟨fun shape s' hrun' => ?_, fun _ => ⟨_, s, hrun⟩⟩
    cases hrun.symm.trans hrun'
    exact ⟨hs, .refl _, rfl, hP⟩
  · obtain ⟨rfl, hP⟩ := hP
    exact hf s hs hP

/-- An op is added under a fresh name, if its info can be inferred. -/
theorem emit {kind : OpKind} {ids : List TensorId}
    (h : Countable xs out → ∀ {g}, c.Meets r xs grad g → P g →
      ∃ infos info, ids.mapM g.info? = some infos ∧ kind.infer infos = .ok info) :
    c.Proceeds r xs out grad P (c.emit kind ids) fun t g' => (∃ g, P g ∧ g.PartOf g') ∧ g'.Made kind ids t := by
  intro s hs hP
  obtain ⟨base, hbase⟩ := hs.output
  have hask : (liftM c.op.output : GradM TensorId).run s = (.ok base, s) := by rw [Stateful.run_liftM, hbase]
  refine ⟨fun t s' hrun => ?_, fun hc => ?_⟩
  · obtain ⟨base', s₁, hrun₁, hrun⟩ := Stateful.run_bind_ok.1 hrun
    cases hask.symm.trans hrun₁
    obtain ⟨hfresh, -, info, ha⟩ := GradM.addFresh_ok hs.linked hs.numbered hrun
    have hpart := ha.partOf hs.numbered hfresh
    have hmeets := hs.partOf hpart ha.linked (ha.numbered hs.numbered) (ha.acyclic hs.linked hs.numbered hfresh hs.acyclic)
    exact ⟨hmeets, hpart, ⟨s.graph, hP, hpart⟩, .of_added ha hpart⟩
  · obtain ⟨infos, info, hinfos, hinfer⟩ := h hc hs hP
    have hknown : ids.mapM s.graph.info = .ok infos :=
      Outcome.mapM_eq_ok.2 ((mapM_eq_some_iff.1 hinfos).imp fun _ _ => Outcome.orFail_eq_ok.2)
    obtain ⟨t, s', hrun⟩ := GradM.addFresh_total c.op base hknown hinfer
    exact ⟨t, s', Stateful.run_bind_ok.2 ⟨base, s, hask, hrun⟩⟩

end Proceeds

/-! ## The gradient for one operand -/

/-- A property of tensors of a graph that stays when the graph grows. -/
def Stays (D : Graph → TensorId → Prop) : Prop :=
  ∀ g g' t, g.Linked → g.Acyclic → g.PartOf g' → D g t → D g' t

/-- If operand `i` is number `k`, there is a gradient for it, of which `D` holds. -/
def Offers (D : Graph → TensorId → Prop) (k i : Nat) (gradient : Option TensorId) (g : Graph) : Prop :=
  i = k → ∃ t, gradient = some t ∧ D g t

/-- If operand `k` is among the operands from number `i` on, there is a gradient for it, of which `D` holds. -/
def OffersFrom (D : Graph → TensorId → Prop) (k i : Nat) (gradients : List (Option TensorId)) (g : Graph) : Prop :=
  ∀ n, i + n = k → ∃ t, gradients[n]? = some (some t) ∧ D g t

variable {D : Graph → TensorId → Prop}

theorem OffersFrom.nil (h : k < i) : OffersFrom D k i [] g := fun n hn => by omega

theorem OffersFrom.cons {gradient : Option TensorId} {gradients : List (Option TensorId)} (h : Offers D k i gradient g)
    (hs : OffersFrom D k (i + 1) gradients g) : OffersFrom D k i (gradient :: gradients) g := by
  intro n hn
  cases n with
  | zero =>
    obtain ⟨t, rfl, ht⟩ := h hn
    exact ⟨t, rfl, ht⟩
  | succ n => exact hs n (by omega)

namespace Proceeds

variable {α β : Type} {P : Graph → Prop}

/-- The gradient for an operand. -/
theorem operand {x : GradM TensorId} (hneeded : c.isNeeded k = true)
    (hx : c.Proceeds r xs out grad P x fun t g => i = k → D g t) :
    c.Proceeds r xs out grad P (c.operand i x) (Offers D k i) := by
  unfold GradCall.operand
  split
  · exact hx.bind fun t => .pure fun g ht hi => ⟨t, rfl, ht hi⟩
  · rename_i hnot
    exact .pure fun g _ hi => absurd (hi ▸ hneeded) hnot

/-- Two calls one after the other: what the first one gives stays. -/
theorem both (hD : Stays D) {x : GradM (Option TensorId)} {y : GradM (List (Option TensorId))}
    (hx : c.Proceeds r xs out grad P x (Offers D k i))
    (hy : c.Proceeds r xs out grad (fun _ => True) y (OffersFrom D k (i + 1))) :
    c.Proceeds r xs out grad P (x >>= fun a => y >>= fun l => pure (a :: l)) (OffersFrom D k i) := by
  refine hx.bind fun a => .bind (Q := fun l g => OffersFrom D k i (a :: l) g) (fun s hs ha => ?_) fun l => .pure fun _ => id
  obtain ⟨hok, htotal⟩ := hy s hs trivial
  refine ⟨fun l s' hrun => ?_, htotal⟩
  obtain ⟨hs', hpart, hl⟩ := hok l s' hrun
  refine ⟨hs', hpart, .cons (fun hi => ?_) hl⟩
  obtain ⟨t, rfl, ht⟩ := ha hi
  exact ⟨t, rfl, hD _ _ _ hs.linked hs.acyclic hpart ht⟩

theorem single {x : GradM (Option TensorId)} (hk : k ≤ i) (hx : c.Proceeds r xs out grad P x (Offers D k i)) :
    c.Proceeds r xs out grad P (x >>= fun a => pure [a]) (OffersFrom D k i) :=
  hx.bind fun _ => .pure fun _ ha => .cons ha (.nil (by omega))

theorem pair (hD : Stays D) {x y : GradM (Option TensorId)} (hk : k ≤ 1)
    (hx : c.Proceeds r xs out grad P x (Offers D k 0))
    (hy : c.Proceeds r xs out grad (fun _ => True) y (Offers D k 1)) :
    c.Proceeds r xs out grad P (x >>= fun a => y >>= fun b => pure [a, b]) (OffersFrom D k 0) := by
  have hboth := hx.both hD (single (i := 1) hk hy)
  simpa only [bind_assoc, pure_bind] using hboth

end Proceeds

end GradCall

/-! ## Gradients that are computed -/

variable [Field R]

namespace Graph

/-- Ops run on numbers without rounding, and `a` gives the values of the tensors that no op produces. -/
def exactly (f : Numbers R) (a : TensorId → Option (Operand R)) : Reading (Operand R) where
  run kind xs info := (@exact R f.scalar kind xs info).toOption
  source := a

/-- The value of a tensor is the gradient for operand `k` of an op, given the gradient `grad` for its result: it has the
shape of the operand, and pairs with it as `grad` pairs with the result. It is there if all sizes can be counted. -/
structure IsGradient (f : Numbers R) (a : TensorId → Option (Operand R)) (kind : OpKind) (xs : List (Operand R))
    (out : TensorInfo) (grad : Operand R) (k : Nat) (g : Graph) (t : TensorId) : Prop where
  found : ∃ x, g.tensor? t = some x
  dot_eq : ∀ {x y b}, xs[k]? = some x → @exact R f.scalar kind.linearPart xs out = .ok y →
    (exactly f a).value? g t = some b → b.info.shape = x.info.shape ∧ dot y.values grad.values = dot x.values b.values
  total : Countable xs out → ∃ b, (exactly f a).value? g t = some b

variable {f : Numbers R} {a : TensorId → Option (Operand R)} {kind : OpKind} {xs : List (Operand R)} {out : TensorInfo}
  {grad : Operand R} {k : Nat}

theorem toOption_eq_some {α : Type} {o : Outcome α} {v : α} : o.toOption = some v ↔ o = .ok v := by
  cases o <;> simp [Except.toOption]

theorem stays_isGradient : GradCall.Stays (IsGradient f a kind xs out grad k) := by
  intro g g' t hl ha hpart h
  have heq := hpart.value?_eq hl ha (exactly f a) h.found
  exact ⟨hpart.found h.found, fun hx hy hb => h.dot_eq hx hy (heq.symm.trans hb), fun hc => by
    obtain ⟨b, hb⟩ := h.total hc
    exact ⟨b, heq.trans hb⟩⟩

/-- What an op makes of values that it can be given. -/
theorem Made.value?_of {g : Graph} {back : OpKind} {ids : List TensorId} {t : TensorId} {args : List (Operand R)}
    (h : g.Made back ids t) (hl : g.Linked) (ha : g.Acyclic)
    (hargs : List.Forall₂ (HasValue (exactly f a) g) ids args) : ∃ info, back.infer (args.map (·.info)) = .ok info ∧
      g.info? t = some info ∧ (exactly f a).value? g t = (@exact R f.scalar back args info).toOption := by
  obtain ⟨infos, info, hinfos, hinfer, hinfo⟩ := h.infers
  cases (mapM_info?_of_hasValue hargs).symm.trans hinfos
  refine ⟨info, hinfer, hinfo, ?_⟩
  rw [h.value?_eq hl ha, mapM_value?_of_hasValue hargs, Option.bind_some, hinfo, Option.bind_some]
  rfl

/-- The result of an op that goes back to an operand is its gradient. -/
theorem Made.isGradient {g : Graph} {back : OpKind} {ids : List TensorId} {t : TensorId} {args : List (Operand R)}
    (h : g.Made back ids t) (hl : g.Linked) (ha : g.Acyclic) (hargs : List.Forall₂ (HasValue (exactly f a) g) ids args)
    (hback : Backs f kind xs out k grad back args) : IsGradient f a kind xs out grad k g t := by
  obtain ⟨info, hinfer, -, hvalue⟩ := h.value?_of hl ha hargs
  refine ⟨h.found, fun {x y b} hx hy hb => ?_, fun hc => ?_⟩
  · have hrun := toOption_eq_some.1 (hvalue.symm.trans hb)
    rw [(@exact_ok R f.scalar _ _ _ _ hrun).1]
    exact hback.dot_eq hx hy hinfer hrun
  · obtain ⟨info', b, hinfer', hb⟩ := hback.total hc
    cases hinfer.symm.trans hinfer'
    exact ⟨b, hvalue.trans (toOption_eq_some.2 hb)⟩

end Graph

namespace GradCall

namespace Proceeds

variable {f : Numbers R} {a : TensorId → Option (Operand R)} {c : GradCall} {kind : OpKind} {xs : List (Operand R)}
  {out : TensorInfo} {grad x : Operand R} {P : Graph → Prop} {i k : Nat} {back : OpKind} {ids : List TensorId}

/-- An op on known values is added; if it is for operand `k`, it goes back to that. -/
theorem emit_back (args : List (Operand R))
    (hargs : ∀ {g}, c.Meets (exactly f a) xs grad g → List.Forall₂ (HasValue (exactly f a) g) ids args)
    (hinfer : Countable xs out → ∃ info, back.infer (args.map (·.info)) = .ok info)
    (hback : i = k → Backs f kind xs out k grad back args) :
    c.Proceeds (exactly f a) xs out grad P (c.emit back ids)
      fun t g => i = k → IsGradient f a kind xs out grad k g t := by
  refine (emit fun hc g hg _ => ?_).mono fun t g hg hmade hi => ?_
  · obtain ⟨info, hinfo⟩ := hinfer hc
    exact ⟨_, info, mapM_info?_of_hasValue (hargs hg), hinfo⟩
  · exact hmade.2.isGradient hg.linked hg.acyclic (hargs hg) (hback hi)

/-- A matrix is turned, and an op on it and known values is added; if that is for operand `k`, it goes back to that. -/
theorem emit_turned (ids : TensorId → List TensorId) (args : Operand R → List (Operand R)) {z : Operand R}
    {id : TensorId} {s t : Int} (hz : z ∈ xs) (hshape : z.info.shape = [s, t]) (hcomplete : z.Complete)
    (hid : ∀ {g}, c.Meets (exactly f a) xs grad g → HasValue (exactly f a) g id z)
    (hargs : ∀ {g u v}, c.Meets (exactly f a) xs grad g → HasValue (exactly f a) g u v →
      List.Forall₂ (HasValue (exactly f a) g) (ids u) (args v))
    (hread : ∀ {u}, u ∈ ids u)
    (hinfer : ∀ {v}, v.info.shape = [t, s] → ∃ info, back.infer ((args v).map (·.info)) = .ok info)
    (hback : ∀ {v}, Turned z v s t → i = k → Backs f kind xs out k grad back (args v)) :
    c.Proceeds (exactly f a) xs out grad P (c.emit (.transpose [1, 0]) [id] >>= fun u => c.emit back (ids u))
      fun t g => i = k → IsGradient f a kind xs out grad k g t := by
  have hinfo : (OpKind.transpose [1, 0]).infer [z.info] = .ok (z.info.withShape [t, s]) := (infer_turned hshape).2 rfl
  -- the value of the turned matrix, if it is computed
  have hturned : ∀ {g u}, c.Meets (exactly f a) xs grad g → g.Made (.transpose [1, 0]) [id] u →
      (∀ v, (exactly f a).value? g u = some v → Turned z v s t ∧ HasValue (exactly f a) g u v) ∧
        (Countable xs out → ∃ v, (exactly f a).value? g u = some v) := by
    intro g u hg hmade
    obtain ⟨info, hinfer', hu, hvalue⟩ := hmade.value?_of hg.linked hg.acyclic (.cons (hid hg) .nil)
    cases hinfo.symm.trans hinfer'
    refine ⟨fun v hv => ?_, fun hc => ?_⟩
    · have hrun := toOption_eq_some.1 (hvalue.symm.trans hv)
      exact ⟨turned_of_exact f hshape hrun, hv, by rw [(@exact_ok R f.scalar _ _ _ _ hrun).1, hu]⟩
    · obtain ⟨v, hv⟩ := exact_turned_total f hshape hcomplete (hc.operands z hz)
      exact ⟨v, hvalue.trans (toOption_eq_some.2 hv)⟩
  refine .bind (emit fun _ g hg _ => ⟨_, _, mapM_info?_of_hasValue (.cons (hid hg) .nil), hinfo⟩) fun u => ?_
  refine (emit fun hc g hg hP => ?_).mono fun t' g hg hmade hi => ?_
  · obtain ⟨hsome, htotal⟩ := hturned hg hP.2
    obtain ⟨v, hv⟩ := htotal hc
    obtain ⟨hmatrix, hold⟩ := hsome v hv
    obtain ⟨info, hinfer'⟩ := hinfer hmatrix.turned
    exact ⟨_, info, mapM_info?_of_hasValue (hargs hg hold), hinfer'⟩
  · obtain ⟨⟨g₀, ⟨-, hmade₀⟩, hpart⟩, hmade⟩ := hmade
    obtain ⟨hsome, htotal⟩ := hturned hg (hmade₀.partOf hpart)
    cases hvalue : (exactly f a).value? g u with
    | some v =>
      obtain ⟨hmatrix, hold⟩ := hsome v hvalue
      exact hmade.isGradient hg.linked hg.acyclic (hargs hg hold) (hback hmatrix hi)
    | none =>
      refine ⟨hmade.found, fun {x y b} _ _ hb => ?_, fun hc => ?_⟩
      · rw [hmade.value?_eq hg.linked hg.acyclic] at hb
        obtain ⟨l, hl, -⟩ := Option.bind_eq_some_iff.1 hb
        obtain ⟨v, -, hv⟩ := exists_of_forall₂ (mapM_eq_some_iff.1 hl) u hread
        cases hvalue.symm.trans hv
      · obtain ⟨v, hv⟩ := htotal hc
        cases hvalue.symm.trans hv

/-- The gradient for the only operand by one op. -/
theorem only {g : Operand R} (hneeded : c.isNeeded 0 = true) (hback : Backs f kind xs out 0 g back [g]) :
    c.Proceeds (exactly f a) xs out g P (c.only back [c.incoming]) (OffersFrom (IsGradient f a kind xs out g 0) 0 0) := by
  refine single (i := 0) (Nat.le_refl 0) (operand hneeded (emit_back [g] (fun hg => .cons hg.incoming .nil)
    (fun hc => ?_) fun _ => hback))
  obtain ⟨info, -, hinfo, -⟩ := hback.total hc
  exact ⟨info, hinfo⟩

/-- The gradient for an operand that was stretched. -/
theorem summed (hneeded : c.isNeeded k = true) (hx : xs[i]? = some x) (hg : Incoming out grad)
    (hstretch : Stretches x.info.shape out.shape)
    (hback : i = k → Backs f kind xs out k grad (.reduceToShape x.info.shape) [grad]) :
    c.Proceeds (exactly f a) xs out grad P (c.summed i) (Offers (IsGradient f a kind xs out grad k) k i) :=
  operand hneeded (askShape hx (emit_back [grad] (fun hmeets => .cons hmeets.incoming .nil)
    (fun _ => ⟨_, infer_reduceToShape_total hg.shape hstretch⟩) hback))

end Proceeds

end GradCall

end TensorGraph
