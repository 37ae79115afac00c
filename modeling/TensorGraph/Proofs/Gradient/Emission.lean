import TensorGraph.Gradient.Rule
import TensorGraph.Proofs.Graph.Embedding

/-!
What gradient rules do to a graph: they add ops under fresh names, and return results of such ops, each once, for
operands that need a gradient. All rules for kinds are like that; rules that are registered by name must be.
-/
namespace TensorGraph

open TensorGraph.Graph

namespace Graph

variable {g g' : Graph} {kind : OpKind} {inputs : List TensorId} {output t : TensorId} {info : TensorInfo}

/-- No op has a number that is still to be given. -/
def Numbered (g : Graph) : Prop := ∀ o op, g.op? o = some op → o < g.nextOp

theorem Numbered.unused (h : g.Numbered) : g.op? g.nextOp = none := by
  cases ho : g.op? g.nextOp with
  | none => rfl
  | some op => exact absurd (h _ op ho) (Nat.lt_irrefl _)

/-- What is known of a graph `g'` that came from `g` by adding an op, whatever else the op says of itself. -/
structure Added (g : Graph) (kind : OpKind) (inputs : List TensorId) (output : TensorId) (info : TensorInfo)
    (g' : Graph) : Prop where
  infers : ∃ infos, inputs.mapM g.info = .ok infos ∧ kind.infer infos = .ok info
  free : g.isFree output = true
  found : ∃ op, g'.op? g.nextOp = some op ∧ op.kind = kind ∧ op.inputs = inputs ∧ op.outputs = [output]
  others : ∀ o, o ≠ g.nextOp → g'.op? o = g.op? o
  bare_eq : ∀ t, t ≠ output → (g'.tensor? t).map bare = (g.tensor? t).map bare
  result : ∃ x, g'.tensor? output = some x ∧ x.producer = some g.nextOp ∧ x.info = info ∧ x.type = .actGrad
  nextOp_eq : g'.nextOp = g.nextOp + 1
  linked : g'.Linked

namespace Added

theorem of_addedOp {phase : Phase} {g₁ : Graph} (hl : g.Linked) (hn : g.Numbered)
    (ha : AddedOp g kind inputs output phase info g₁) {f : Op → Op} (hid : ∀ op, (f op).id = op.id)
    (hk : ∀ op, (f op).kind = op.kind) (hin : ∀ op, (f op).inputs = op.inputs)
    (hout : ∀ op, (f op).outputs = op.outputs) : Added g kind inputs output info (g₁.modifyOp g.nextOp f) := by
  have hop : g₁.op? g.nextOp = some { id := g.nextOp, kind, name := output, inputs, outputs := [output], phase } := by
    rw [ha.op?_eq, if_pos rfl]
  refine ⟨ha.infers, ha.free, ⟨_, by rw [op?_modifyOp, if_pos rfl, hop]; rfl, hk _, hin _, hout _⟩, fun o ho => ?_,
    fun t ht => ?_, ?_, ha.nextOp_eq, (hl.addOp hn.unused ha).modifyOp _ hid hin hout⟩
  · rw [op?_modifyOp, if_neg ho.symm, ha.op?_eq, if_neg ho]
  · rw [tensor?_modifyOp, ha.tensor?_eq]
    simp only [ht, if_false, Option.map_map]
    congr 1
    funext x
    simp only [Function.comp]
    split <;> rfl
  · have hresult := ha.tensor?_eq output
    simp only [if_true] at hresult
    refine ⟨_, hresult, rfl, rfl, ?_⟩
    cases hx : g.tensor? output with
    | none => rfl
    | some x =>
      have htype := (isFree_iff.1 ha.free x hx).2
      simp only [Option.map_some, Option.getD_some]
      split <;> exact htype

variable (ha : Added g kind inputs output info g')

include ha

theorem lookup {x : Tensor} (hne : t ≠ output) (hx : g.tensor? t = some x) :
    ∃ x', g'.tensor? t = some x' ∧ x'.type = x.type ∧ x'.info = x.info ∧ x'.producer = x.producer := by
  obtain ⟨x', hx', hsame⟩ := lookup_of_bare (ha.bare_eq t hne) hx
  exact ⟨x', hx', hsame.type, hsame.info, hsame.producer⟩

theorem numbered (hn : g.Numbered) : g'.Numbered := by
  intro o op ho
  rw [ha.nextOp_eq]
  by_cases heq : o = g.nextOp
  · rw [heq]
    exact Nat.lt_succ_self _
  · rw [ha.others o heq] at ho
    exact Nat.lt_succ_of_lt (hn o op ho)

/-- What was produced still is, with the same info. -/
theorem keeps {o : OpId} (hp : g.producer? t = some o) : g'.producer? t = some o ∧ g'.info? t = g.info? t := by
  obtain ⟨x, hx, hxp⟩ := producer?_eq_some.1 hp
  have hne : t ≠ output := by
    rintro rfl
    rw [(isFree_iff.1 ha.free x hx).1] at hxp
    cases hxp
  obtain ⟨x', hx', -, hinfo, hproducer⟩ := ha.lookup hne hx
  refine ⟨producer?_eq_some.2 ⟨x', hx', hproducer.trans hxp⟩, ?_⟩
  rw [info?, info?, hx', hx, Option.map_some, Option.map_some, hinfo]

theorem embeds (hn : g.Numbered) : Embeds id g g' := by
  refine ⟨fun {t o op} hp ho => ⟨op, (ha.keeps hp).1, ?_, rfl, (List.map_id _).symm, (List.map_id _).symm,
    (ha.keeps hp).2⟩⟩
  rw [ha.others o (Nat.ne_of_lt (hn o op ho)), ho]

theorem hasTensor (ht : g.hasTensor t = true) : g'.hasTensor t = true := by
  obtain ⟨x, hx⟩ := hasTensor_iff.1 ht
  by_cases hne : t = output
  · obtain ⟨y, hy, -⟩ := ha.result
    exact hasTensor_iff.2 ⟨y, hne ▸ hy⟩
  · obtain ⟨x', hx', -⟩ := ha.lookup hne hx
    exact hasTensor_iff.2 ⟨x', hx'⟩

theorem hasTensor_output : g'.hasTensor output = true := by
  obtain ⟨x, hx, -⟩ := ha.result
  exact hasTensor_iff.2 ⟨x, hx⟩

end Added

end Graph

/-! ## Names -/

theorem head_gradId (t : TensorId) : (gradId t).toList.head? = some 'd' := by simp [gradId]

theorem head_updatedId (t : TensorId) : (updatedId t).toList.head? = some 'u' := by simp [updatedId]

theorem updatedId_ne_gradId (t t' : TensorId) : updatedId t ≠ gradId t' := fun heq => by
  have hhead := head_updatedId t
  rw [heq, head_gradId] at hhead
  cases hhead

theorem gradId_inj {t t' : TensorId} (h : gradId t = gradId t') : t = t' := by
  have hlists := congrArg String.toList h
  rw [gradId, gradId, String.toList_append, String.toList_append] at hlists
  exact String.toList_inj.1 (List.append_cancel_left hlists)

/-! ## Single ops -/

namespace GradM

variable {s s' : Synthesis} {owner : Op} {kind : OpKind} {inputs : List TensorId} {output t : TensorId}

theorem run_onGraph_ok {α : Type} {x : GraphM α} {a : α} (h : (onGraph x).run s = (.ok a, s')) :
    ∃ g', x.run s.graph = (.ok a, g') ∧ s' = { s with graph := g' } := by
  rw [onGraph, Stateful.run_focus, Prod.mk.injEq] at h
  exact ⟨_, Stateful.eq_ok_of_fst h.1, h.2.symm⟩

/-- Adding an op of the backward pass only changes the graph. -/
theorem addOp_ok (hl : s.graph.Linked) (hn : s.graph.Numbered)
    (h : (addOp owner kind inputs output).run s = (.ok (), s')) :
    s'.partials = s.partials ∧ ∃ info, Added s.graph kind inputs output info s'.graph := by
  obtain ⟨id, s₁, hcall, h⟩ := Stateful.run_bind_ok.1 h
  obtain ⟨g₁, hadd, rfl⟩ := run_onGraph_ok hcall
  obtain ⟨output', info, hout, rfl, ha⟩ := Graph.addOp_ok (Stateful.run_change_ok.1 hadd)
  cases hout
  cases h
  exact ⟨rfl, info, .of_addedOp hl hn ha (fun _ => rfl) (fun _ => rfl) (fun _ => rfl) fun _ => rfl⟩

/-- A fresh name is one that the graph does not have. -/
theorem addFresh_ok {base : TensorId} (hl : s.graph.Linked) (hn : s.graph.Numbered)
    (h : (addFresh owner kind inputs base).run s = (.ok t, s')) :
    s.graph.tensor? t = none ∧ s'.partials = s.partials ∧ ∃ info, Added s.graph kind inputs t info s'.graph := by
  obtain ⟨output, s₁, hcall, h⟩ := Stateful.run_bind_ok.1 h
  obtain ⟨g₁, hchange, rfl⟩ := run_onGraph_ok hcall
  have htemp := Stateful.run_change_ok.1 hchange
  obtain ⟨_, s₂, hadd, h⟩ := Stateful.run_bind_ok.1 h
  cases h
  have hfresh := tempId_fresh (g := s.graph) (gradId base)
  obtain ⟨n, hsnd⟩ := tempId_snd (g := s.graph) (gradId base)
  rw [Except.ok.injEq] at htemp
  rw [htemp] at hfresh hsnd
  simp only at hfresh hsnd
  subst hsnd
  have hl' : ({ s.graph with nextTemp := n } : Graph).Linked := ⟨hl.opId, hl.tensorId, hl.reads, hl.makes⟩
  obtain ⟨hpartials, info, ha⟩ := addOp_ok (s := { s with graph := { s.graph with nextTemp := n } }) hl' hn hadd
  exact ⟨hfresh, hpartials, info, ha.infers, ha.free, ha.found, ha.others, ha.bare_eq, ha.result, ha.nextOp_eq,
    ha.linked⟩

/-- An op whose info can be inferred is added. -/
theorem addFresh_total (owner : Op) (base : TensorId) {infos : List TensorInfo} {info : TensorInfo}
    (hinfos : inputs.mapM s.graph.info = .ok infos) (hinfer : kind.infer infos = .ok info) :
    ∃ t s', (addFresh owner kind inputs base).run s = (.ok t, s') := by
  have hfresh := tempId_fresh (g := s.graph) (gradId base)
  obtain ⟨n, hsnd⟩ := tempId_snd (g := s.graph) (gradId base)
  rcases htemp : s.graph.tempId (gradId base) with ⟨output, g₁⟩
  rw [htemp] at hfresh hsnd
  simp only at hfresh hsnd
  subst hsnd
  obtain ⟨g₂, hadd, -⟩ := addOp_of_infers (g := { s.graph with nextTemp := n }) hinfos hinfer hfresh .backward
  let s₁ : Synthesis := { s with graph := { s.graph with nextTemp := n } }
  have hname : (onGraph (Stateful.change fun g => .ok (g.tempId (gradId base)))).run s = (.ok output, s₁) := by
    rw [onGraph, Stateful.run_focus, Stateful.run_change, htemp]
  have hcall : (onGraph (Stateful.change fun g => g.addOp kind inputs [output] .backward)).run s₁ =
      (.ok s.graph.nextOp, { s₁ with graph := g₂ }) := by
    rw [onGraph, Stateful.run_focus, Stateful.run_change, hadd]
  obtain ⟨s', hrun⟩ : ∃ s', (addOp owner kind inputs output).run s₁ = (.ok (), s') :=
    ⟨_, Stateful.run_bind_ok.2 ⟨_, _, hcall, rfl⟩⟩
  exact ⟨output, s', Stateful.run_bind_ok.2 ⟨_, _, hname, Stateful.run_bind_ok.2 ⟨(), _, hrun, rfl⟩⟩⟩

/-- A fresh name is not that of a gradient. -/
theorem head_addFresh {base : TensorId} (h : (addFresh owner kind inputs base).run s = (.ok t, s')) :
    t.toList.head? = some 't' := by
  obtain ⟨output, s₁, hcall, h⟩ := Stateful.run_bind_ok.1 h
  obtain ⟨g₁, hchange, -⟩ := run_onGraph_ok hcall
  obtain ⟨_, s₂, -, h⟩ := Stateful.run_bind_ok.1 h
  cases h
  have htemp := Stateful.run_change_ok.1 hchange
  have hhead := tempId_head (g := s.graph) (gradId base)
  rw [Except.ok.injEq] at htemp
  rwa [htemp] at hhead

theorem addFresh_ne_gradId {base : TensorId} (h : (addFresh owner kind inputs base).run s = (.ok output, s'))
    (t : TensorId) : output ≠ gradId t := fun heq => by
  have hhead := head_addFresh h
  rw [heq, head_gradId] at hhead
  cases hhead

end GradM

/-! ## Series of ops -/

/-- Ops are added under the names `l`, one after the other. -/
inductive Emits (owner : Op) : List TensorId → Synthesis → Synthesis → Prop
  | nil (s : Synthesis) : Emits owner [] s s
  | cons {kind : OpKind} {inputs : List TensorId} {base t : TensorId} {l : List TensorId} {s s₁ s' : Synthesis}
      (h : (GradM.addFresh owner kind inputs base).run s = (.ok t, s₁)) (hl : Emits owner l s₁ s') :
      Emits owner (t :: l) s s'

theorem Emits.append {owner : Op} {l l' : List TensorId} {s s₁ s' : Synthesis} (h : Emits owner l s s₁)
    (h' : Emits owner l' s₁ s') : Emits owner (l ++ l') s s' := by
  induction h with
  | nil => exact h'
  | cons hadd _ ih => exact .cons hadd (ih h')

/-- Every successful run of a call adds ops, under names of which `Q` holds together with the result. -/
def Gives {α : Type} (owner : Op) (x : GradM α) (Q : α → List TensorId → Prop) : Prop :=
  ∀ s a s', x.run s = (.ok a, s') → ∃ l, Emits owner l s s' ∧ Q a l

namespace Gives

variable {α β : Type} {owner : Op} {Q : α → List TensorId → Prop} {Q' : β → List TensorId → Prop}

protected theorem pure {a : α} (h : Q a []) : Gives owner (pure a) Q := by
  intro s a' s' hrun
  cases hrun
  exact ⟨[], .nil s, h⟩

protected theorem lift {o : Outcome α} (h : ∀ a, Q a []) : Gives owner (Stateful.lift o) Q := by
  intro s a s' hrun
  rw [Stateful.run_lift, Prod.mk.injEq] at hrun
  obtain ⟨-, rfl⟩ := hrun
  exact ⟨[], .nil s, h a⟩

protected theorem liftM {o : Outcome α} (h : ∀ a, Q a []) : Gives owner (liftM o : GradM α) Q := Gives.lift h

protected theorem bind {x : GradM α} {f : α → GradM β} (hx : Gives owner x Q)
    (hf : ∀ a l, Q a l → Gives owner (f a) fun b l' => Q' b (l ++ l')) : Gives owner (x >>= f) Q' := by
  intro s b s' hrun
  obtain ⟨a, s₁, hrun₁, hrun₂⟩ := Stateful.run_bind_ok.1 hrun
  obtain ⟨l, hl, hQ⟩ := hx s a s₁ hrun₁
  obtain ⟨l', hl', hQ'⟩ := hf a l hQ s₁ b s' hrun₂
  exact ⟨l ++ l', hl.append hl', hQ'⟩

/-- A call that adds nothing. -/
theorem ask {x : GradM α} {f : α → GradM β} (hx : Gives owner x fun _ l => l = [])
    (hf : ∀ a, Gives owner (f a) Q') : Gives owner (x >>= f) Q' :=
  hx.bind fun a _ hl => by
    subst hl
    exact hf a

protected theorem get : Gives owner get fun (_ : Synthesis) l => l = [] := by
  intro s a s' hrun
  cases hrun
  exact ⟨[], .nil s, rfl⟩

theorem output (c : GradCall) : Gives owner (liftM c.op.output : GradM TensorId) fun _ l => l = [] :=
  .liftM fun _ => rfl

theorem input (c : GradCall) (i : Nat) : Gives owner (liftM (c.op.input i) : GradM TensorId) fun _ l => l = [] :=
  .liftM fun _ => rfl

theorem shape (c : GradCall) (i : Nat) : Gives owner (c.shape i) fun _ l => l = [] :=
  ask .get fun _ => ask (input c i) fun _ => ask (.liftM fun _ => rfl) fun _ => .pure rfl

/-- One op is added, and its result given. -/
theorem emit (c : GradCall) (kind : OpKind) (inputs : List TensorId) :
    Gives c.op (c.emit kind inputs) fun t l => l = [t] := by
  refine ask (output c) fun base => ?_
  intro s t s' hrun
  exact ⟨[t], .cons hrun (.nil s'), rfl⟩

end Gives

/-! ## Rules -/

/-- The gradient for an operand is a result of an added op, and there is none for an operand that needs none. -/
def GradCall.One (c : GradCall) (i : Nat) (gradient : Option TensorId) (l : List TensorId) : Prop :=
  gradient.toList.Sublist l ∧ (gradient.isSome = true → c.isNeeded i = true)

/-- The same of the operands from number `i` on. -/
def GradCall.Several (c : GradCall) (i : Nat) (gradients : List (Option TensorId)) (l : List TensorId) : Prop :=
  (gradients.flatMap Option.toList).Sublist l ∧
    ∀ k t, gradients[k]? = some (some t) → c.isNeeded (i + k) = true

/-- A rule adds ops, and gives results of them, each once, for operands that need a gradient. -/
def GradRule.Lawful (rule : GradRule) : Prop := ∀ c, Gives c.op (rule c) (c.Several 0)

namespace GradCall

variable {c : GradCall}

theorem Several.nil (c : GradCall) (i : Nat) : c.Several i [] [] := ⟨.refl _, by simp⟩

theorem Several.cons {i : Nat} {gradient : Option TensorId} {gradients : List (Option TensorId)} {l l' : List TensorId}
    (h : c.One i gradient l) (hs : c.Several (i + 1) gradients l') : c.Several i (gradient :: gradients) (l ++ l') := by
  refine ⟨by rw [List.flatMap_cons]; exact h.1.append hs.1, fun k t hk => ?_⟩
  cases k with
  | zero =>
    rw [List.getElem?_cons_zero, Option.some.injEq] at hk
    exact h.2 (by rw [hk]; rfl)
  | succ k =>
    rw [List.getElem?_cons_succ] at hk
    have hneeded := hs.2 k t hk
    rwa [Nat.add_assoc, Nat.add_comm 1] at hneeded

theorem One.none (c : GradCall) (i : Nat) : c.One i none [] := ⟨.refl _, nofun⟩

theorem One.single {i : Nat} {gradient : Option TensorId} {l : List TensorId} (h : c.One i gradient l) :
    c.Several i [gradient] l := by
  have hs := Several.cons h (Several.nil c (i + 1))
  rwa [List.append_nil] at hs

/-- The gradient for an operand, if it needs one. -/
theorem gives_operand (c : GradCall) (i : Nat) {x : GradM TensorId}
    (hx : Gives c.op x fun t l => [t].Sublist l) : Gives c.op (c.operand i x) (c.One i) := by
  unfold operand
  split
  · rename_i hneeded
    refine hx.bind fun t l hl => .pure ?_
    rw [List.append_nil]
    exact ⟨hl, fun _ => hneeded⟩
  · exact .pure (One.none c i)

/-- The gradient for an operand by one op. -/
theorem gives_emit (c : GradCall) (kind : OpKind) (inputs : List TensorId) :
    Gives c.op (c.emit kind inputs) fun t l => [t].Sublist l := by
  intro s t s' hrun
  obtain ⟨l, hl, rfl⟩ := Gives.emit c kind inputs s t s' hrun
  exact ⟨[t], hl, .refl _⟩

/-- The gradient for an operand by several ops, of which the last one counts. -/
theorem gives_last {α : Type} {Q : α → List TensorId → Prop} {x : GradM α} {f : α → GradM TensorId}
    (hx : Gives c.op x Q) (hf : ∀ a, Gives c.op (f a) fun t l => [t].Sublist l) :
    Gives c.op (x >>= f) fun t l => [t].Sublist l := by
  refine hx.bind fun a l _ => ?_
  intro s t s' hrun
  obtain ⟨l', hl', hsub⟩ := hf a s t s' hrun
  exact ⟨l', hl', hsub.trans (List.sublist_append_right l l')⟩

theorem gives_single {x : GradM (Option TensorId)} (hx : Gives c.op x (c.One 0)) :
    Gives c.op (x >>= fun a => pure [a]) (c.Several 0) := by
  refine hx.bind fun gradient l h => .pure ?_
  rw [List.append_nil]
  exact h.single

theorem gives_pair {x y : GradM (Option TensorId)} (hx : Gives c.op x (c.One 0)) (hy : Gives c.op y (c.One 1)) :
    Gives c.op (x >>= fun a => y >>= fun b => pure [a, b]) (c.Several 0) := by
  refine hx.bind fun a l ha => hy.bind fun b l' hb => .pure ?_
  rw [List.append_nil]
  exact .cons ha hb.single

theorem gives_only (c : GradCall) (kind : OpKind) (inputs : List TensorId) :
    Gives c.op (c.only kind inputs) (c.Several 0) :=
  gives_single (c.gives_operand 0 (c.gives_emit kind inputs))

theorem gives_summed (c : GradCall) (i : Nat) : Gives c.op (c.summed i) (c.One i) :=
  c.gives_operand i (.ask (.shape c i) fun _ => c.gives_emit _ _)

end GradCall

namespace GradRule

open GradCall Gives

theorem lawful_unary {f : Unary} {rule : GradRule} (h : unary? f = some rule) : rule.Lawful := by
  intro c
  cases f with
  | sign | ceil | floor => cases h
  | neg | scale factor =>
    cases h
    exact c.gives_only _ _
  | square =>
    cases h
    refine .ask (.input c 0) fun x => gives_single (c.gives_operand 0 ?_)
    exact gives_last (c.gives_emit _ _) fun _ => c.gives_emit _ _
  | abs =>
    cases h
    refine .ask (.input c 0) fun x => gives_single (c.gives_operand 0 ?_)
    exact gives_last (c.gives_emit _ _) fun _ => c.gives_emit _ _
  | reciprocal | log | clip min max =>
    cases h
    exact .ask (.input c 0) fun x => c.gives_only _ _
  | sqrt | exp | relu | sigmoid | tanh =>
    cases h
    exact .ask (.output c) fun y => c.gives_only _ _

theorem lawful_binary (f : Binary) : (binary f).Lawful := by
  intro c
  cases f with
  | add => exact gives_pair (c.gives_summed 0) (c.gives_summed 1)
  | sub => exact gives_pair (c.gives_summed 0) (c.gives_operand 1 (.ask (.shape c 1) fun _ => c.gives_emit _ _))
  | mul =>
    refine gives_pair (c.gives_operand 0 ?_) (c.gives_operand 1 ?_)
    · exact .ask (.shape c 0) fun _ => .ask (.input c 1) fun _ => c.gives_emit _ _
    · exact .ask (.shape c 1) fun _ => .ask (.input c 0) fun _ => c.gives_emit _ _
  | div =>
    refine .ask (.input c 0) fun a => .ask (.input c 1) fun b => gives_pair (c.gives_operand 0 ?_) (c.gives_operand 1 ?_)
    · exact .ask (.shape c 0) fun _ => c.gives_emit _ _
    · exact .ask (.shape c 1) fun _ => c.gives_emit _ _

theorem lawful_matMul : matMul.Lawful := by
  intro c
  refine .ask (.input c 0) fun a => .ask (.input c 1) fun b => gives_pair (c.gives_operand 0 ?_) (c.gives_operand 1 ?_)
  · exact gives_last (c.gives_emit _ _) fun _ => c.gives_emit _ _
  · exact gives_last (c.gives_emit _ _) fun _ => c.gives_emit _ _

theorem lawful_sum : sum.Lawful := by
  intro c
  have hfrom : ∀ count i, Gives c.op ((List.range' i count).mapM c.summed) (c.Several i) := by
    intro count
    induction count with
    | zero => exact fun i => .pure (Several.nil c i)
    | succ count ih =>
      intro i
      rw [List.range'_succ, List.mapM_cons]
      refine (c.gives_summed i).bind fun a l ha => (ih (i + 1)).bind fun rest l' hrest => .pure ?_
      rw [List.append_nil]
      exact .cons ha hrest
  unfold sum
  rw [List.range_eq_range']
  exact hfrom _ 0

theorem lawful_concat (axis : Int) : (concat axis).Lawful := by
  intro c
  have hfrom : ∀ axis count i offset, Gives c.op (concatFrom c axis count i offset) (c.Several i) := by
    intro axis count
    induction count with
    | zero => exact fun i _ => .pure (Several.nil c i)
    | succ count ih =>
      intro i offset
      refine .ask (.shape c i) fun shape => .ask (.liftM fun _ => rfl) fun extent => .ask (.liftM fun _ => rfl) fun stop => ?_
      refine (c.gives_operand i (c.gives_emit _ _)).bind fun a l ha => (ih (i + 1) stop).bind fun rest l' hrest => .pure ?_
      rw [List.append_nil]
      exact .cons ha hrest
  exact .ask (.shape c 0) fun shape => .ask (.liftM fun _ => rfl) fun resolved => hfrom resolved _ 0 0

theorem lawful_pad (pads : List Int) : (pad pads).Lawful := by
  intro c
  refine .ask (.shape c 0) fun shape => ?_
  have hcut : Gives c.op (do
      let starts := pads.take shape.length
      let ends ← Stateful.lift ((List.zipWith (· + ·) starts shape).mapM Word.int)
      c.only (.slice starts ends ((List.range shape.length).map Int.ofNat)) [c.incoming]) (c.Several 0) :=
    .ask (.lift fun _ => rfl) fun ends => c.gives_only _ _
  by_cases hlen : pads.length < shape.length
  · simp only [hlen, if_true]
    exact .ask (.lift fun _ => rfl) fun _ => hcut
  · simp only [hlen, if_false]
    exact hcut

theorem lawful_scatter (axis : Int) : (scatter axis).Lawful := by
  intro c
  refine .ask (.input c 1) fun indices => ?_
  refine (c.gives_operand 0 (c.gives_emit _ _)).bind fun data l hdata => ?_
  refine (c.gives_operand 2 (c.gives_emit _ _)).bind fun updates l' hupdates => .pure ?_
  rw [List.append_nil]
  exact .cons hdata (.cons (One.none c 1) hupdates.single)

/-- The rules for kinds are lawful. -/
theorem lawful_ofKind {kind : OpKind} {rule : GradRule} (h : ofKind? kind = some rule) : rule.Lawful := by
  unfold ofKind? at h
  split at h
  · cases h
    exact fun c => c.gives_only _ _
  · exact lawful_unary h
  · cases h
    exact fun c => .ask (.output c) fun y => c.gives_only _ _
  · cases h
    exact lawful_binary _
  · cases h
    exact lawful_matMul
  · cases h
    exact lawful_sum
  · cases h
    rename_i axes keepDims
    refine fun c => .ask (.shape c 0) fun shape => ?_
    cases keepDims with
    | true => exact .ask (.pure rfl) fun _ => c.gives_only _ _
    | false => exact .ask (.lift fun _ => rfl) fun _ => c.gives_only _ _
  · cases h
    exact fun c => .ask (.shape c 0) fun shape => c.gives_only _ _
  · cases h
    exact fun c => c.gives_only _ _
  · cases h
    exact fun c => .ask (.shape c 0) fun shape => .ask (.liftM fun _ => rfl) fun ranges => c.gives_only _ _
  · cases h
    exact lawful_pad _
  · cases h
    exact lawful_concat _
  · cases h
    refine fun c => .ask (.shape c 0) fun shape => .ask (.input c 1) fun indices => ?_
    refine (c.gives_operand 0 (c.gives_emit _ _)).bind fun a l ha => .pure ?_
    rw [List.append_nil]
    have hs := Several.cons ha (One.none c 1).single
    rwa [List.append_nil] at hs
  · cases h
    exact lawful_scatter _
  · cases h

end GradRule

/-- Where no rules were registered there are only those of the kinds of ops. -/
theorem GradRegistry.rule?_empty (kind : OpKind) :
    GradRegistry.rule? .empty kind = GradRule.ofKind? kind := rfl

/-- The rules of a registry are lawful if those that were registered are. -/
theorem GradRegistry.lawful {rules : GradRegistry} {kind : OpKind} {rule : GradRule}
    (hrules : ∀ type rule, rules.get? type = some rule → rule.Lawful) (h : rules.rule? kind = some rule) :
    rule.Lawful := by
  rcases Option.or_eq_some_iff.1 h with h | ⟨-, h⟩
  · exact hrules _ rule h
  · exact GradRule.lawful_ofKind h

end TensorGraph
