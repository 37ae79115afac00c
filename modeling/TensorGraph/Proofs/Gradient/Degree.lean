import TensorGraph.Proofs.Gradient.Emission
import TensorGraph.Proofs.Op.Infer

/-!
How gradients depend on the gradient for the result of an op. Tensors have a degree: gradients are proportional to
the scaling of losses, and everything else does not depend on it. Each op that a rule adds is linear in the gradient
among its operands, and a rule gives a gradient for each operand that needs one and that the kind passes gradients
back to.
-/
namespace TensorGraph

open TensorGraph.Graph

/-! ## Degrees -/

namespace OpKind

/-- Kinds whose result is linear in the first operand, where the others stay as they are. -/
def isLinear : OpKind → Bool
  | identity | matMul | reshape _ | transpose _ | slice .. | reduceToShape _ | unaryGrad _ | softmaxGrad _ | operandGrad ..
  | reduceSumGrad .. | gatherGrad .. | scatterDataGrad _ | scatterUpdatesGrad _ => true
  | unary f =>
    match f with
    | .neg | .scale _ => true
    | _ => false
  | binary f =>
    match f with
    | .mul | .div => true
    | .add | .sub => false
  | pad _ value => value = .zero
  | _ => false

/-- The degree of the result of an op, given those of its operands: whether it is proportional to a scaling of all
operands of degree one. -/
inductive Graded : OpKind → List Bool → Bool → Prop
  | fixed {kind : OpKind} {ds : List Bool} (hds : ∀ d ∈ ds, d = false) : Graded kind ds false
  | first {kind : OpKind} {ds : List Bool} (hkind : kind.isLinear = true) (hds : ∀ d ∈ ds, d = false) :
      Graded kind (true :: ds) true
  | second : Graded .matMul [false, true] true
  | sum {ds : List Bool} (hne : ds ≠ []) (hds : ∀ d ∈ ds, d = true) : Graded .sum ds true
  | nll (reduction : Reduction) (ignored : Option Int) : Graded (.nllGrad reduction ignored) [false, false, true] true
  | l1 (lambda : Single) (reduction : Reduction) : Graded (.l1Grad lambda reduction) [false, true] true
  /-- The gradient is divided by the scaling again. -/
  | update : Graded .sgdVarUpdate [false, true, false, false, true] false

/-- Whether gradients are passed back to an operand: indices get none. -/
def passesBack : OpKind → Nat → Bool
  | gather _, k => k == 0
  | scatter _, k => k == 0 || k == 2
  | _, _ => true

/-- A kind takes a number of operands. -/
def Takes (kind : OpKind) (n : Nat) : Prop := ∃ infos info, kind.infer infos = .ok info ∧ infos.length = n

end OpKind

/-! ## Series of ops -/

/-- All of a list are related to one and the same. -/
theorem forall₂_replicate {α β : Type} {R : α → β → Prop} {b : β} : ∀ {l : List α}, (∀ a ∈ l, R a b) →
    List.Forall₂ R l (List.replicate l.length b)
  | [], _ => .nil
  | a :: _, h => .cons (h a List.mem_cons_self) (forall₂_replicate fun a' ha' => h a' (List.mem_cons_of_mem _ ha'))

/-- Tensors with their degrees. -/
abbrev Degrees := List (TensorId × Bool)

/-- Ops are added one after the other, each with a degree that follows from those of its operands. The degrees known
before are `E`, and afterwards `E'`. -/
inductive Derives (owner : Op) : Degrees → Synthesis → Degrees → Synthesis → Prop
  | nil (E : Degrees) (s : Synthesis) : Derives owner E s E s
  | cons {E E' : Degrees} {kind : OpKind} {inputs : List TensorId} {ds : List Bool} {base t : TensorId} {d : Bool}
      {s s₁ s' : Synthesis} (h : (GradM.addFresh owner kind inputs base).run s = (.ok t, s₁))
      (hds : List.Forall₂ (fun i d => (i, d) ∈ E) inputs ds) (hd : kind.Graded ds d)
      (hl : Derives owner ((t, d) :: E) s₁ E' s') : Derives owner E s E' s'

namespace Derives

variable {owner : Op} {E E₁ E' : Degrees} {s s₁ s' : Synthesis}

theorem append (h : Derives owner E s E₁ s₁) (h' : Derives owner E₁ s₁ E' s') : Derives owner E s E' s' := by
  induction h with
  | nil => exact h'
  | cons hadd hds hd _ ih => exact .cons hadd hds hd (ih h')

theorem subset (h : Derives owner E s E' s') : E ⊆ E' := by
  induction h with
  | nil => exact List.Subset.refl _
  | cons _ _ _ _ ih => exact List.Subset.trans (List.subset_cons_self _ _) ih

end Derives

namespace GradCall

/-- What is known of the tensors of a call: the incoming gradient is one, the tensors of the op are none. -/
structure Knows (c : GradCall) (E : Degrees) : Prop where
  incoming : (c.incoming, true) ∈ E
  inputs : ∀ i ∈ c.op.inputs, (i, false) ∈ E
  output : ∀ {t}, c.op.output = .ok t → (t, false) ∈ E

theorem Knows.mono {c : GradCall} {E E' : Degrees} (h : c.Knows E) (hsub : E ⊆ E') : c.Knows E' :=
  ⟨hsub h.incoming, fun i hi => hsub (h.inputs i hi), fun ht => hsub (h.output ht)⟩

theorem Knows.input {c : GradCall} {E : Degrees} {k : Nat} {t : TensorId} (h : c.Knows E) (ht : c.op.input k = .ok t) :
    (t, false) ∈ E := by
  rw [Op.input, Outcome.promised_eq_ok] at ht
  exact h.inputs t (List.mem_of_getElem? ht)

/-- What is known at the start. -/
def known (c : GradCall) : Degrees := (c.incoming, true) :: (c.op.inputs ++ c.op.outputs).map (·, false)

theorem knows_known (c : GradCall) : c.Knows c.known := by
  refine ⟨List.mem_cons_self, fun i hi => ?_, fun {t} ht => ?_⟩
  · exact List.mem_cons_of_mem _ (List.mem_map.2 ⟨i, List.mem_append_left _ hi, rfl⟩)
  · rw [Op.output, Outcome.promised_eq_ok] at ht
    exact List.mem_cons_of_mem _ (List.mem_map.2 ⟨t, List.mem_append_right _ (List.mem_of_head? ht), rfl⟩)

/-- Every successful run of a call, from where `P` holds of what is known, adds ops with degrees, and gives a result of
which `Q` holds. -/
def Yields (c : GradCall) {α : Type} (P : Degrees → Prop) (x : GradM α) (Q : α → Degrees → Prop) : Prop :=
  ∀ E s a s', c.Knows E → P E → x.run s = (.ok a, s') → ∃ E', Derives c.op E s E' s' ∧ Q a E'

/-- The gradient for operand `k` is there if it is needed, and it is one. -/
def Answer (c : GradCall) (k : Nat) (gradient : Option TensorId) (E : Degrees) : Prop :=
  gradient.isSome = c.isNeeded k ∧ ∀ t ∈ gradient, (t, true) ∈ E

theorem Answer.mono {c : GradCall} {k : Nat} {gradient : Option TensorId} {E E' : Degrees} (h : c.Answer k gradient E)
    (hsub : E ⊆ E') : c.Answer k gradient E' := ⟨h.1, fun t ht => hsub (h.2 t ht)⟩

/-- The same of all operands, apart from those that the kind gives nothing back to, if there are as many operands as the
kind takes. -/
def Answers (c : GradCall) (gradients : List (Option TensorId)) (E : Degrees) : Prop :=
  (c.op.kind.Takes c.op.inputs.length → gradients.map Option.isSome =
    (List.range c.op.inputs.length).map fun k => c.isNeeded k && c.op.kind.passesBack k) ∧
    ∀ t, some t ∈ gradients → (t, true) ∈ E

theorem Answers.get {c : GradCall} {gradients : List (Option TensorId)} {E : Degrees} (h : c.Answers gradients E)
    (htakes : c.op.kind.Takes c.op.inputs.length) {k : Nat} {i : TensorId} (hi : c.op.inputs[k]? = some i) : ∃ gradient, gradients[k]? = some gradient ∧
      gradient.isSome = (c.isNeeded k && c.op.kind.passesBack k) := by
  have hk := (List.getElem?_eq_some_iff.1 hi).1
  have hget := congrArg (·[k]?) (h.1 htakes)
  simp only [List.getElem?_map, List.getElem?_range hk, Option.map_some, Option.map_eq_some_iff] at hget
  exact hget

namespace Yields

variable {c : GradCall} {α β γ : Type} {P : Degrees → Prop} {Q : α → Degrees → Prop} {Q' : β → Degrees → Prop} {k : Nat}

protected theorem pure {a : α} (h : ∀ E, P E → Q a E) : c.Yields P (pure a) Q := by
  intro E s a' s' _ hP hrun
  cases hrun
  exact ⟨E, .nil E s, h E hP⟩

protected theorem bind {x : GradM α} {f : α → GradM β} (hx : c.Yields P x Q) (hf : ∀ a, c.Yields (Q a) (f a) Q') :
    c.Yields P (x >>= f) Q' := by
  intro E s b s' hE hP hrun
  obtain ⟨a, s₁, hrun₁, hrun₂⟩ := Stateful.run_bind_ok.1 hrun
  obtain ⟨E₁, hE₁, hQ⟩ := hx E s a s₁ hE hP hrun₁
  obtain ⟨E', hE', hQ'⟩ := hf a E₁ s₁ b s' (hE.mono hE₁.subset) hQ hrun₂
  exact ⟨E', hE₁.append hE', hQ'⟩

/-- A call that does not touch the graph. -/
theorem ask {o : Outcome α} {f : α → GradM β} (hf : ∀ a, o = .ok a → c.Yields P (f a) Q') :
    c.Yields P (liftM o >>= f) Q' := by
  intro E s b s' hE hP hrun
  obtain ⟨a, ha, hrun₂⟩ := Stateful.run_liftM_bind_ok.1 hrun
  exact hf a ha E _ b s' hE hP hrun₂

theorem askShape {f : Shape → GradM β} (hf : ∀ shape, c.Yields P (f shape) Q') :
    c.Yields P (c.shape k >>= f) Q' := by
  intro E s b s' hE hP hrun
  obtain ⟨shape, s₁, hrun₁, hrun₂⟩ := Stateful.run_bind_ok.1 hrun
  replace hrun₁ := Stateful.of_get_bind hrun₁
  obtain ⟨t, _, hcall, hrun₁⟩ := Stateful.run_bind_ok.1 hrun₁
  obtain rfl := (Prod.ext_iff.1 hcall).2
  obtain ⟨i, _, hcall, hrun₁⟩ := Stateful.run_bind_ok.1 hrun₁
  obtain rfl := (Prod.ext_iff.1 hcall).2
  cases hrun₁
  exact hf _ E s b s' hE hP hrun₂

/-- An op is added whose degree follows from what is known. -/
theorem emit {kind : OpKind} {inputs : List TensorId} {ds : List Bool} {d : Bool} (hd : kind.Graded ds d)
    (h : ∀ {E}, c.Knows E → P E → List.Forall₂ (fun i d => (i, d) ∈ E) inputs ds) :
    c.Yields P (c.emit kind inputs) fun t E => (t, d) ∈ E := by
  intro E s t s' hE hP hrun
  obtain ⟨base, _, hcall, hrun⟩ := Stateful.run_bind_ok.1 hrun
  obtain rfl := (Prod.ext_iff.1 hcall).2
  exact ⟨(t, d) :: E, .cons hrun (h hE hP) hd (.nil _ s'), List.mem_cons_self⟩

/-- The gradient for an operand, if it needs one. -/
theorem operand {x : GradM TensorId} (hx : c.Yields P x fun t E => (t, true) ∈ E) :
    c.Yields P (c.operand k x) (c.Answer k) := by
  unfold GradCall.operand
  split
  · rename_i hneeded
    refine hx.bind fun t => .pure fun E ht => ⟨hneeded.symm, fun t' ht' => ?_⟩
    rw [Option.mem_def, Option.some.injEq] at ht'
    exact ht' ▸ ht
  · rename_i hneeded
    exact .pure fun E _ => ⟨(Bool.not_eq_true _ ▸ hneeded).symm, fun _ ht => by cases ht⟩

/-- An op is added that is linear in the incoming gradient. -/
theorem emit_first {kind : OpKind} {rest : List TensorId} (hkind : kind.isLinear = true)
    (hrest : ∀ {E}, c.Knows E → P E → ∀ i ∈ rest, (i, false) ∈ E) :
    c.Yields P (c.emit kind (c.incoming :: rest)) fun t E => (t, true) ∈ E :=
  emit (.first hkind fun _ hd => List.eq_of_mem_replicate hd) fun hE hP =>
    .cons hE.incoming (forall₂_replicate (hrest hE hP))

/-- Two calls one after the other: what the first one gives stays a gradient. -/
theorem both {x : GradM (Option TensorId)} {y : GradM β} {f : Option TensorId → β → γ} {R : γ → Degrees → Prop}
    (hx : c.Yields P x (c.Answer k)) (hy : c.Yields (fun _ => True) y Q')
    (h : ∀ {a b E}, c.Answer k a E → Q' b E → R (f a b) E) :
    c.Yields P (x >>= fun a => y >>= fun b => pure (f a b)) R := by
  intro E s r s' hE hP hrun
  obtain ⟨a, s₁, hrun₁, hrun⟩ := Stateful.run_bind_ok.1 hrun
  obtain ⟨b, s₂, hrun₂, hrun⟩ := Stateful.run_bind_ok.1 hrun
  cases hrun
  obtain ⟨E₁, hE₁, ha⟩ := hx E s a s₁ hE hP hrun₁
  obtain ⟨E₂, hE₂, hb⟩ := hy E₁ s₁ b s' (hE.mono hE₁.subset) trivial hrun₂
  exact ⟨E₂, hE₁.append hE₂, h (ha.mono hE₂.subset) hb⟩

/-- The gradient for an operand that was stretched. -/
theorem summed : c.Yields P (c.summed k) (c.Answer k) :=
  operand (askShape fun _ => emit_first rfl fun _ _ _ hi => absurd hi List.not_mem_nil)

end Yields

/-! ## Answers for all operands -/

/-- The answers for the operands from number `k` on, of a kind that passes gradients back to all operands. -/
def AnswersFrom (c : GradCall) (k : Nat) (gradients : List (Option TensorId)) (E : Degrees) : Prop :=
  gradients.map Option.isSome = (List.range' k gradients.length).map c.isNeeded ∧ ∀ t, some t ∈ gradients → (t, true) ∈ E

namespace AnswersFrom

variable {c : GradCall} {k : Nat} {gradient : Option TensorId} {gradients : List (Option TensorId)} {E : Degrees}

theorem nil : c.AnswersFrom k [] E := ⟨rfl, fun _ ht => absurd ht List.not_mem_nil⟩

theorem cons (h : c.Answer k gradient E) (hs : c.AnswersFrom (k + 1) gradients E) :
    c.AnswersFrom k (gradient :: gradients) E := by
  refine ⟨?_, fun t ht => ?_⟩
  · rw [List.map_cons, List.length_cons, List.range'_succ, List.map_cons, h.1, hs.1]
  · rcases List.mem_cons.1 ht with rfl | ht
    · exact h.2 t rfl
    · exact hs.2 t ht

theorem answers (h : c.AnswersFrom 0 gradients E) (hkind : ∀ k, c.op.kind.passesBack k = true)
    (hlen : c.op.kind.Takes c.op.inputs.length → c.op.inputs.length = gradients.length) : c.Answers gradients E := by
  refine ⟨fun htakes => ?_, h.2⟩
  rw [h.1, ← List.range_eq_range', hlen htakes]
  exact List.map_congr_left fun k _ => by rw [hkind, Bool.and_true]

end AnswersFrom

namespace Yields

variable {c : GradCall} {P : Degrees → Prop}

theorem single {x : GradM (Option TensorId)} (hkind : ∀ k, c.op.kind.passesBack k = true) 
    (hlen : c.op.kind.Takes c.op.inputs.length → c.op.inputs.length = 1)
    (hx : c.Yields P x (c.Answer 0)) : c.Yields P (x >>= fun a => pure [a]) c.Answers :=
  hx.bind fun _ => .pure fun _ ha => (AnswersFrom.cons ha .nil).answers hkind hlen

theorem pair {x y : GradM (Option TensorId)} (hkind : ∀ k, c.op.kind.passesBack k = true) 
    (hlen : c.op.kind.Takes c.op.inputs.length → c.op.inputs.length = 2)
    (hx : c.Yields P x (c.Answer 0)) (hy : c.Yields (fun _ => True) y (c.Answer 1)) :
    c.Yields P (x >>= fun a => y >>= fun b => pure [a, b]) c.Answers :=
  hx.both hy fun ha hb => (AnswersFrom.cons ha (.cons hb .nil)).answers hkind hlen

/-- The gradient for the only operand by one op. -/
theorem only {kind : OpKind} {rest : List TensorId} (hpasses : ∀ k, c.op.kind.passesBack k = true)
    
    (hlen : c.op.kind.Takes c.op.inputs.length → c.op.inputs.length = 1) (hkind : kind.isLinear = true)
    (hrest : ∀ {E}, c.Knows E → P E → ∀ i ∈ rest, (i, false) ∈ E) :
    c.Yields P (c.only kind (c.incoming :: rest)) c.Answers :=
  single hpasses hlen (operand (emit_first hkind hrest))

end Yields

end GradCall

/-! ## Rules -/

/-- A rule adds ops with degrees, and answers for all operands of an op of a kind. -/
def GradRule.Linear (kind : OpKind) (rule : GradRule) : Prop :=
  ∀ c : GradCall, c.op.kind = kind → c.Yields (fun _ => True) (rule c) c.Answers

namespace GradRule

open GradCall Yields

/-- The tensors beside the incoming gradient: there are none. -/
theorem knows_nil {E : Degrees} : ∀ i ∈ ([] : List TensorId), (i, false) ∈ E := fun _ hi => absurd hi List.not_mem_nil

theorem knows_singleton {E : Degrees} {x : TensorId} (h : (x, false) ∈ E) : ∀ i ∈ [x], (i, false) ∈ E := by
  intro i hi
  rw [List.mem_singleton.1 hi]
  exact h

theorem linear_unary {f : Unary} {rule : GradRule} (h : unary? f = some rule) : rule.Linear (.unary f) := by
  intro c hkind
  have hlen : c.op.kind.Takes c.op.inputs.length → c.op.inputs.length = 1 := by
    rintro ⟨infos, info, hinfer, hlen⟩
    rw [hkind] at hinfer
    rw [← hlen, OpKind.infer_unary hinfer, List.length_singleton]
  have hpasses : ∀ k, c.op.kind.passesBack k = true := fun k => by rw [hkind]; rfl
  cases f with
  | sign | ceil | floor => cases h
  | neg | scale factor =>
    cases h
    exact only hpasses hlen rfl fun _ _ => knows_nil
  | reciprocal | log | clip min max =>
    cases h
    exact ask fun x hx => only hpasses hlen rfl fun hE _ => knows_singleton (hE.input hx)
  | sqrt | exp | relu | sigmoid | tanh =>
    cases h
    exact ask fun y hy => only hpasses hlen rfl fun hE _ => knows_singleton (hE.output hy)
  | square =>
    cases h
    refine ask fun x hx => single hpasses hlen (operand (.bind
      (emit_first rfl fun hE _ => knows_singleton (hE.input hx)) fun product => ?_))
    exact emit (.first rfl fun d hd => absurd hd List.not_mem_nil) fun _ hproduct => .cons hproduct .nil
  | abs =>
    cases h
    refine ask fun x hx => single hpasses hlen (operand (.bind
      (emit (.fixed fun d => List.mem_singleton.1) fun hE _ => .cons (hE.input hx) .nil) fun sign => ?_))
    exact emit_first rfl fun _ hsign => knows_singleton hsign

theorem linear_binary (f : Binary) : (binary f).Linear (.binary f) := by
  intro c hkind
  have hlen : c.op.kind.Takes c.op.inputs.length → c.op.inputs.length = 2 := by
    rintro ⟨infos, info, hinfer, hlen⟩
    obtain ⟨a, b, -, rfl, -⟩ := OpKind.infer_binary (hkind ▸ hinfer)
    exact hlen.symm
  have hpasses : ∀ k, c.op.kind.passesBack k = true := fun k => by rw [hkind]; rfl
  cases f with
  | add => exact pair hpasses hlen summed summed
  | sub =>
    exact pair hpasses hlen summed (operand (askShape fun _ => emit_first rfl fun _ _ => knows_nil))
  | mul =>
    refine pair hpasses hlen (operand (askShape fun _ => ask fun x hx => ?_))
      (operand (askShape fun _ => ask fun x hx => ?_))
    · exact emit_first rfl fun hE _ => knows_singleton (hE.input hx)
    · exact emit_first rfl fun hE _ => knows_singleton (hE.input hx)
  | div =>
    refine ask fun x hx => ask fun y hy => pair hpasses hlen (operand (askShape fun _ => ?_))
      (operand (askShape fun _ => ?_))
    · exact emit_first rfl fun hE _ => knows_singleton (hE.input hy)
    · refine emit_first rfl fun hE _ i hi => ?_
      rcases List.mem_cons.1 hi with rfl | hi
      · exact hE.input hx
      · exact knows_singleton (hE.input hy) i hi

theorem linear_matMul : matMul.Linear .matMul := by
  intro c hkind
  have hlen : c.op.kind.Takes c.op.inputs.length → c.op.inputs.length = 2 := by
    rintro ⟨infos, info, hinfer, hlen⟩
    obtain ⟨a, b, m, k, n, rfl, -⟩ := OpKind.infer_matMul (hkind ▸ hinfer)
    exact hlen.symm
  have hpasses : ∀ k, c.op.kind.passesBack k = true := fun k => by rw [hkind]; rfl
  have hturned : ∀ {P : Degrees → Prop} {k x}, c.op.input k = .ok x →
      c.Yields P (c.emit (.transpose [1, 0]) [x]) fun t E => (t, false) ∈ E := fun hx =>
    emit (.fixed fun d => List.mem_singleton.1) fun hE _ => .cons (hE.input hx) .nil
  refine ask fun x hx => ask fun y hy => pair hpasses hlen (operand (.bind (hturned hy) fun t => ?_))
    (operand (.bind (hturned hx) fun t => ?_))
  · exact emit_first rfl fun _ ht => knows_singleton ht
  · exact emit .second fun hE ht => .cons ht (.cons hE.incoming .nil)

theorem linear_sum : sum.Linear .sum := by
  intro c hkind
  have hpasses : ∀ k, c.op.kind.passesBack k = true := fun k => by rw [hkind]; rfl
  have hfrom : ∀ count k, c.Yields (fun _ => True) ((List.range' k count).mapM c.summed) fun gradients E =>
      gradients.length = count ∧ c.AnswersFrom k gradients E := by
    intro count
    induction count with
    | zero => exact fun k => .pure fun _ _ => ⟨rfl, .nil⟩
    | succ count ih =>
      intro k
      rw [List.range'_succ, List.mapM_cons]
      exact .both summed (ih (k + 1)) fun ha hb => ⟨congrArg (· + 1) hb.1, .cons ha hb.2⟩
  unfold sum
  rw [List.range_eq_range']
  intro E s gradients s' hE hP hrun
  obtain ⟨E', hE', hlen, hanswers⟩ := hfrom _ 0 E s gradients s' hE hP hrun
  exact ⟨E', hE', hanswers.answers hpasses fun _ => hlen.symm⟩

theorem linear_reduceSum (axes : Option (List Int)) (keepDims : Bool) :
    (reduceSum axes keepDims).Linear (.reduceSum axes keepDims) := by
  intro c hkind
  have hlen : c.op.kind.Takes c.op.inputs.length → c.op.inputs.length = 1 := by
    rintro ⟨infos, info, hinfer, hlen⟩
    rw [hkind] at hinfer
    obtain ⟨x, hx, -⟩ := Outcome.bind_eq_ok.1 hinfer
    rw [← hlen, OpKind.operand1_ok hx, List.length_singleton]
  have hpasses : ∀ k, c.op.kind.passesBack k = true := fun k => by rw [hkind]; rfl
  refine askShape fun shape => ?_
  have hgrad : ∀ dropped : List Nat, c.Yields (fun _ => True)
      (c.only (.reduceSumGrad shape (dropped.map Int.ofNat)) [c.incoming]) c.Answers :=
    fun _ => only hpasses hlen rfl fun _ _ => knows_nil
  cases keepDims with
  | true => exact .bind (.pure fun _ => id) hgrad
  | false => exact ask fun dropped _ => hgrad dropped

theorem linear_pad (pads : List Int) (value : Single) : (pad pads).Linear (.pad pads value) := by
  intro c hkind
  have hlen : c.op.kind.Takes c.op.inputs.length → c.op.inputs.length = 1 := by
    rintro ⟨infos, info, hinfer, hlen⟩
    obtain ⟨x, -, rfl, -⟩ := OpKind.infer_pad (hkind ▸ hinfer)
    exact hlen.symm
  have hpasses : ∀ k, c.op.kind.passesBack k = true := fun k => by rw [hkind]; rfl
  refine askShape fun shape => ?_
  have hcut : c.Yields (fun _ => True) (do
      let starts := pads.take shape.length
      let ends ← Stateful.lift ((List.zipWith (· + ·) starts shape).mapM Word.int)
      c.only (.slice starts ends ((List.range shape.length).map Int.ofNat)) [c.incoming]) c.Answers :=
    ask fun _ _ => only hpasses hlen rfl fun _ _ => knows_nil
  by_cases hshort : pads.length < shape.length
  · simp only [hshort, if_true]
    exact ask fun _ _ => hcut
  · simp only [hshort, if_false]
    exact hcut

theorem linear_concat (axis : Int) : (concat axis).Linear (.concat axis) := by
  intro c hkind
  have hpasses : ∀ k, c.op.kind.passesBack k = true := fun k => by rw [hkind]; rfl
  have hfrom : ∀ axis count k offset, c.Yields (fun _ => True) (concatFrom c axis count k offset) fun gradients E =>
      gradients.length = count ∧ c.AnswersFrom k gradients E := by
    intro axis count
    induction count with
    | zero => exact fun k _ => .pure fun _ _ => ⟨rfl, .nil⟩
    | succ count ih =>
      intro k offset
      refine askShape fun _ => ask fun _ _ => ask fun _ _ =>
        .both (operand (emit_first rfl fun _ _ => knows_nil)) (ih _ _) fun ha hb =>
          ⟨congrArg (· + 1) hb.1, .cons ha hb.2⟩
  refine askShape fun _ => ask fun resolved _ => ?_
  intro E s gradients s' hE hP hrun
  obtain ⟨E', hE', hlen, hanswers⟩ := hfrom resolved _ 0 0 E s gradients s' hE hP hrun
  exact ⟨E', hE', hanswers.answers hpasses fun _ => hlen.symm⟩

theorem linear_gather (axis : Int) : (gather axis).Linear (.gather axis) := by
  intro c hkind
  refine askShape fun _ => ask fun indices hindices => .bind (operand (k := 0)
    (emit_first rfl fun hE _ => knows_singleton (hE.input hindices))) fun a => .pure fun E ha =>
      ⟨fun ⟨infos, info, hinfer, hlen⟩ => ?_, fun t ht => ?_⟩
  · rw [hkind] at hinfer
    obtain ⟨⟨data, indices⟩, hoperands, -⟩ := Outcome.bind_eq_ok.1 hinfer
    rw [OpKind.operand2_ok hoperands] at hlen
    rw [← hlen, hkind, List.map_cons, ha.1]
    simp [List.range_succ, OpKind.passesBack]
  · rcases List.mem_cons.1 ht with rfl | ht
    · exact ha.2 t rfl
    · cases List.mem_singleton.1 ht

theorem linear_scatter (axis : Int) : (scatter axis).Linear (.scatter axis) := by
  intro c hkind
  have hgrad : ∀ {P : Degrees → Prop} {k x kind}, kind.isLinear = true → c.op.input 1 = .ok x →
      c.Yields P (c.operand k (c.emit kind [c.incoming, x])) (c.Answer k) := fun hkind hx =>
    operand (emit_first hkind fun hE _ => knows_singleton (hE.input hx))
  refine ask fun x hx => .both (k := 0) (hgrad rfl hx) (hgrad (k := 2) rfl hx) fun ha hb =>
    ⟨fun ⟨infos, info, hinfer, hlen⟩ => ?_, fun t ht => ?_⟩
  · rw [hkind] at hinfer
    obtain ⟨indices, updates, rfl, -⟩ := OpKind.infer_scatter hinfer
    rw [← hlen, hkind, List.map_cons, List.map_cons, List.map_cons, ha.1, hb.1]
    simp [List.range_succ, OpKind.passesBack]
  · rcases List.mem_cons.1 ht with rfl | ht
    · exact ha.2 t rfl
    · rcases List.mem_cons.1 ht with ht | ht
      · cases ht
      · obtain rfl := List.mem_singleton.1 ht
        exact hb.2 t rfl

/-- The rules for kinds are linear. -/
theorem linear_ofKind {kind : OpKind} {rule : GradRule} (h : ofKind? kind = some rule) : rule.Linear kind := by
  unfold ofKind? at h
  split at h
  · cases h
    intro c hkind
    refine only (fun k => by rw [hkind]; rfl) ?_ rfl fun _ _ => knows_nil
    rintro ⟨infos, info, hinfer, hlen⟩
    rw [hkind] at hinfer
    rw [← hlen, OpKind.infer_identity hinfer, List.length_singleton]
  · exact linear_unary h
  · cases h
    intro c hkind
    refine ask fun y hy => only (fun k => by rw [hkind]; rfl) ?_ rfl fun hE _ => knows_singleton (hE.output hy)
    rintro ⟨infos, info, hinfer, hlen⟩
    rw [hkind] at hinfer
    rw [← hlen, OpKind.infer_softmax hinfer, List.length_singleton]
  · cases h
    exact linear_binary _
  · cases h
    exact linear_matMul
  · cases h
    exact linear_sum
  · cases h
    exact linear_reduceSum _ _
  · cases h
    intro c hkind
    refine askShape fun _ => only (fun k => by rw [hkind]; rfl) ?_ rfl fun _ _ => knows_nil
    rintro ⟨infos, info, hinfer, hlen⟩
    obtain ⟨-, x, rfl, -⟩ := OpKind.infer_reshape (hkind ▸ hinfer)
    exact hlen.symm
  · cases h
    intro c hkind
    refine only (fun k => by rw [hkind]; rfl) ?_ rfl fun _ _ => knows_nil
    rintro ⟨infos, info, hinfer, hlen⟩
    obtain ⟨x, -, rfl, -⟩ := OpKind.infer_transpose (hkind ▸ hinfer)
    exact hlen.symm
  · cases h
    intro c hkind
    refine askShape fun _ => ask fun _ _ => only (fun k => by rw [hkind]; rfl) ?_ rfl fun _ _ => knows_nil
    rintro ⟨infos, info, hinfer, hlen⟩
    obtain ⟨x, -, rfl, -⟩ := OpKind.infer_slice (hkind ▸ hinfer)
    exact hlen.symm
  · cases h
    exact linear_pad _ _
  · cases h
    exact linear_concat _
  · cases h
    exact linear_gather _
  · cases h
    exact linear_scatter _
  · cases h

end GradRule

end TensorGraph
