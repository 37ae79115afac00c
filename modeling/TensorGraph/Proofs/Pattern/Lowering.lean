import TensorGraph.Proofs.Kernel.Copies
import TensorGraph.Proofs.Pattern.Replay

/-!
Lowering is exact over a field. The ops that a pattern puts in the place of a gradient, or of an op that passes its operand
on, give the result the value that the op gave, whatever shapes its operands stretch from and the result is summed to. The
product of the incoming gradient and the dividend, which the gradient of a divisor is computed with, has a shape of its own,
whose size must be counted; the kernel of the gradient never makes it.
-/
namespace TensorGraph

open TensorGraph.Graph Kernel

variable {R : Type} [Field R] {f : Numbers R} {op : Op} {r r' r₁ : Editor} {t output : TensorId} {info : TensorInfo}
  {n : OpId} {ν ν₁ : TensorId → Option (Operand R)} {xs : List (Operand R)} {x y x₀ x₁ : Operand R}

namespace Pattern

/-- If the op is the gradient of a divisor, the size of the product of its first two operands can be counted. -/
def FactorsCounted (g : Graph) (op : Op) : Prop := ∀ shape i j rest, op.kind = .operandGrad .divRight shape →
  op.inputs.mapM g.info? = some (i :: j :: rest) → ProductCounted i j

/-- Where the pattern applies, the ops that stand in for an op give its result the value that it gave. -/
def Exact (f : Numbers R) (p : Pattern) : Prop := ∀ {op r r' output info}, r.graph.Sound → r.graph.Inferred →
  (∀ t i, r.graph.info? t = some i → i.shape.Sized) → SavedFits r.graph op → FactorsCounted r.graph op →
    r.graph.op? op.id = some op → op.outputs = [output] → r.graph.info? output = some info → p.applies op = true →
      (p.attempt op).run r = (.ok true, r') → Reenacts f op output info r.graph r'.graph

/-- The graph without the op, before ops that stand in for it are run. -/
theorem ran_detached (hs : r.graph.Sound) (ho : r.graph.op? op.id = some op)
    (hdetach : (Editor.detach op).run r = (.ok (), r₁)) (hin : List.Forall₂ (Carries r.graph ν) op.inputs xs) :
    Ran f r.graph.nextOp ν r₁.graph ν ∧ List.Forall₂ (Carries r₁.graph ν) op.inputs xs := by
  obtain ⟨hd, hs₁, hi⟩ := detach_ok hs ho hdetach
  have hnext : r₁.graph.nextOp = r.graph.nextOp := by rw [hd.frame]
  refine ⟨⟨hs₁, hnext.ge, hnext ▸ Reading.runFrom_nextOp⟩, hin.imp fun i x hx => ⟨hx.value, ?_, hx.complete⟩⟩
  rw [hi, hx.info]

/-! ## Functions of one element -/

/-- The steps of a lowering compute what the kernel of the gradient computes. -/
def Replays (f : Numbers R) (u : UnaryGrad) (steps : Op → EditM Unit) : Prop :=
  ∀ {op r r' output n ν ν₁ a b x₀ x₁ y}, Ran f n ν r.graph ν₁ → op.inputs = [a, b] → op.outputs = [output] →
    Carries r.graph ν₁ a x₀ → Carries r.graph ν₁ b x₁ → Stretches x₁.info.shape x₀.info.shape →
      @exact R f.scalar (.unaryGrad u) [x₀, x₁] x₀.info = .ok y → (steps op).run r = (.ok (), r') →
        ∃ ν', (exactly f ν).runFrom r'.graph n ν = some ν' ∧ ν' output = some y

theorem exact_lowering {name : String} {u : UnaryGrad} {steps : Op → EditM Unit} (hsteps : Replays f u steps) :
    (lowering name (· == .unaryGrad u) steps).Exact f := by
  intro op r r' output info hs hg _ hfits _ ho hout hinfo happ hrun ν xs y hin hy
  have hkind : op.kind = .unaryGrad u := by simpa [lowering] using happ
  obtain ⟨_, r₁, hdetach, hrun⟩ := Stateful.run_bind_ok.1 hrun
  obtain ⟨_, r₂, hlower, hrun⟩ := Stateful.run_bind_ok.1 hrun
  cases hrun
  obtain ⟨a, b, i, j, hinputs, ha, hb, hshape, hresult⟩ := unaryGrad_infos hg hfits ho hkind hout
  cases hinfo.symm.trans hresult
  obtain ⟨hran, hcarried⟩ := ran_detached hs ho hdetach hin
  rw [hinputs] at hin hcarried
  obtain ⟨x₀, l, h₀, hl, rfl⟩ := List.forall₂_cons_left_iff.1 hcarried
  obtain ⟨x₁, l', h₁, hl', rfl⟩ := List.forall₂_cons_left_iff.1 hl
  rw [List.forall₂_nil_left_iff] at hl'
  subst hl'
  obtain ⟨hx₀, hx₁⟩ := List.forall₂_cons.1 hin
  cases hx₀.info.symm.trans ha
  cases (List.forall₂_cons.1 hx₁).1.info.symm.trans hb
  rw [hkind] at hy
  exact hsteps hran hinputs hout h₀ h₁ (Shape.stretches_of_broadcast hshape).2 hy hlower

theorem exact_lowerSqrtGrad : lowerSqrtGrad.Exact f := by
  refine exact_lowering fun {op r r' output n ν ν₁ a b x₀ x₁ y} hran hinputs hout h₀ h₁ hstretch hy hrun => ?_
  obtain ⟨b', hb, hrun⟩ := input_ok hrun
  obtain ⟨doubled, r₁, hscale, hrun⟩ := Stateful.run_bind_ok.1 hrun
  obtain ⟨a', ha, hconclude⟩ := input_ok hrun
  rw [hinputs] at ha hb
  cases ha
  cases hb
  obtain ⟨d, hd, hdiv⟩ := sqrtGrad_spelled h₀.complete h₁.complete hstretch hy
  obtain ⟨ν₂, hran, hdoubled, hkeep⟩ := hran.beside hscale (.cons h₁ .nil) hd
  exact hran.conclude hout hconclude (.cons (hkeep h₀) (.cons hdoubled .nil)) hdiv

theorem exact_lowerReciprocalGrad : lowerReciprocalGrad.Exact f := by
  refine exact_lowering fun {op r r' output n ν ν₁ a b x₀ x₁ y} hran hinputs hout h₀ h₁ hstretch hy hrun => ?_
  obtain ⟨b', hb, hrun⟩ := input_ok hrun
  obtain ⟨squared, r₁, hsquare, hrun⟩ := Stateful.run_bind_ok.1 hrun
  obtain ⟨a', ha, hrun⟩ := input_ok hrun
  obtain ⟨ratio, r₂, hdivide, hconclude⟩ := Stateful.run_bind_ok.1 hrun
  rw [hinputs] at ha hb
  cases ha
  cases hb
  obtain ⟨d, q, hd, hq, hneg⟩ := reciprocalGrad_spelled h₀.complete h₁.complete hstretch hy
  obtain ⟨ν₂, hran, hsquared, hkeep⟩ := hran.beside hsquare (.cons h₁ .nil) hd
  obtain ⟨ν₃, hran, hratio, -⟩ := hran.beside hdivide (.cons (hkeep h₀) (.cons hsquared .nil)) hq
  exact hran.conclude hout hconclude (.cons hratio .nil) hneg

theorem exact_lowerExpGrad : lowerExpGrad.Exact f := by
  refine exact_lowering fun {op r r' output n ν ν₁ a b x₀ x₁ y} hran hinputs hout h₀ h₁ hstretch hy hrun => ?_
  have hmul := expGrad_spelled h₀.complete h₁.complete hstretch hy
  exact hran.conclude hout hrun (hinputs ▸ .cons h₀ (.cons h₁ .nil)) hmul

/-! ## Gradients for an operand -/

/-- The steps of a lowering compute what is summed by the kernel of the gradient. -/
def ReplaysOperand (f : Numbers R) (u : OperandGrad) (steps : Op → EditM TensorId) : Prop :=
  ∀ {op r r' t n ν ν₁ shape x xs y}, Ran f n ν r.graph ν₁ → List.Forall₂ (Carries r.graph ν₁) op.inputs xs →
    xs.head? = some x → (u = .divRight → ∀ x₁ rest, xs = x :: x₁ :: rest → ProductCounted x.info x₁.info) →
      @exact R f.scalar (.operandGrad u shape) xs (x.info.withShape shape) = .ok y → (steps op).run r = (.ok t, r') →
        ∃ ν₂ z, Ran f n ν r'.graph ν₂ ∧ Carries r'.graph ν₂ t z ∧ ComesTo f (.reduceToShape shape) [z] y

theorem exact_operandLowering {name : String} {u : OperandGrad} {steps : Op → EditM TensorId}
    (hsteps : ReplaysOperand f u steps) : (operandLowering name u steps).Exact f := by
  intro op r r' output info hs hg _ _ hcounted ho hout hinfo happ hrun ν xs y hin hy
  obtain ⟨shape, hkind⟩ := isOperandGrad_iff.1 happ
  simp only [operandLowering, hkind] at hrun
  obtain ⟨_, r₁, hdetach, hrun⟩ := Stateful.run_bind_ok.1 hrun
  obtain ⟨t, r₂, hlower, hrun⟩ := Stateful.run_bind_ok.1 hrun
  obtain ⟨_, r₃, hconclude, hrun⟩ := Stateful.run_bind_ok.1 hrun
  cases hrun
  obtain ⟨hran, hcarried⟩ := ran_detached hs ho hdetach hin
  -- the result has the element type of the first operand
  obtain ⟨out, infos, info', hout', hinfos, hinfer, hresult⟩ := hg op.id op ho
  cases hout.symm.trans hout'
  cases hinfo.symm.trans hresult
  have hknown := (of_carries hin).2.1
  cases hknown.symm.trans hinfos
  rw [hkind] at hinfer hy
  obtain ⟨i, rest, hfirst, rfl⟩ := OpKind.infer_operandGrad hinfer
  obtain ⟨x, l, rfl, rfl, -⟩ := List.map_eq_cons_iff.1 hfirst
  obtain ⟨ν₂, z, hran, hz, hsum⟩ := hsteps hran hcarried rfl (fun hu x₁ rest heq => by
    subst hu
    rw [heq] at hknown
    exact hcounted shape x.info x₁.info _ hkind hknown) hy hlower
  exact hran.conclude hout hconclude (.cons hz .nil) hsum

theorem exact_lowerDivLeftGrad : lowerDivLeftGrad.Exact f := by
  refine exact_operandLowering fun {op r r' t n ν ν₁ shape x xs y} hran hin hfirst _ hy hrun => ?_
  obtain ⟨a, ha, hrun⟩ := input_ok hrun
  obtain ⟨b, hb, hdivide⟩ := input_ok hrun
  obtain ⟨x₁, q, rfl, hq, hsum⟩ := factorGrad_spelled (b := .div) rfl (fun _ _ => rfl) (of_carries hin).2.2 hfirst hy
  obtain ⟨a', l, h₀, hl, hinputs⟩ := List.forall₂_cons_right_iff.1 hin
  obtain ⟨b', l', h₁, -, rfl⟩ := List.forall₂_cons_right_iff.1 hl
  rw [hinputs] at ha hb
  cases ha
  cases hb
  obtain ⟨ν₂, hran, hratio, -⟩ := hran.beside hdivide (.cons h₀ (.cons h₁ .nil)) hq
  exact ⟨ν₂, q, hran, hratio, hsum⟩

theorem exact_lowerMulGrad : lowerMulGrad.Exact f := by
  refine exact_operandLowering fun {op r r' t n ν ν₁ shape x xs y} hran hin hfirst _ hy hrun => ?_
  obtain ⟨x₁, q, rfl, hq, hsum⟩ := factorGrad_spelled (b := .mul) rfl (fun _ _ => rfl) (of_carries hin).2.2 hfirst hy
  obtain ⟨ν₂, hran, hproduct, -⟩ := hran.beside hrun hin hq
  exact ⟨ν₂, q, hran, hproduct, hsum⟩

theorem exact_lowerSubRightGrad : lowerSubRightGrad.Exact f := by
  refine exact_operandLowering fun {op r r' t n ν ν₁ shape x xs y} hran hin hfirst _ hy hrun => ?_
  obtain ⟨a, ha, hnegate⟩ := input_ok hrun
  obtain ⟨rfl, m, hm, hsum⟩ := subRightGrad_spelled (of_carries hin).2.2 hfirst hy
  obtain ⟨a', l, h₀, -, hinputs⟩ := List.forall₂_cons_right_iff.1 hin
  rw [hinputs] at ha
  cases ha
  obtain ⟨ν₂, hran, hnegated, -⟩ := hran.beside hnegate (.cons h₀ .nil) hm
  exact ⟨ν₂, m, hran, hnegated, hsum⟩

theorem exact_lowerDivRightGrad : lowerDivRightGrad.Exact f := by
  refine exact_operandLowering fun {op r r' t n ν ν₁ shape x xs y} hran hin hfirst hcounted hy hrun => ?_
  obtain ⟨a, ha, hrun⟩ := input_ok hrun
  obtain ⟨b, hb, hrun⟩ := input_ok hrun
  obtain ⟨scaled, r₁, hscale, hrun⟩ := Stateful.run_bind_ok.1 hrun
  obtain ⟨c, hc, hrun⟩ := input_ok hrun
  obtain ⟨squared, r₂, hsquare, hrun⟩ := Stateful.run_bind_ok.1 hrun
  obtain ⟨ratio, r₃, hdivide, hnegate⟩ := Stateful.run_bind_ok.1 hrun
  obtain ⟨x₁, x₂, m, d, q, k, rfl, hm, hd, hq, hk, hsum⟩ :=
    divRightGrad_spelled (of_carries hin).2.2 hfirst (hcounted rfl) hy
  obtain ⟨a', l, h₀, hl, hinputs⟩ := List.forall₂_cons_right_iff.1 hin
  obtain ⟨b', l', h₁, hl', rfl⟩ := List.forall₂_cons_right_iff.1 hl
  obtain ⟨c', l'', h₂, -, rfl⟩ := List.forall₂_cons_right_iff.1 hl'
  rw [hinputs] at ha hb hc
  cases ha
  cases hb
  cases hc
  obtain ⟨ν₂, hran, hscaled, hkeep⟩ := hran.beside hscale (.cons h₀ (.cons h₁ .nil)) hm
  obtain ⟨ν₃, hran, hsquared, hkeep'⟩ := hran.beside hsquare (.cons (hkeep h₂) .nil) hd
  obtain ⟨ν₄, hran, hratio, -⟩ := hran.beside hdivide (.cons (hkeep' hscaled) (.cons hsquared .nil)) hq
  obtain ⟨ν₅, hran, hnegated, -⟩ := hran.beside hnegate (.cons hratio .nil) hk
  exact ⟨ν₅, k, hran, hnegated, hsum⟩

/-! ## Ops that pass their operand on -/

theorem comesTo_identity (hx : x.Complete) : ComesTo f .identity [x] x := by
  intro info hinfer
  cases OpKind.infer_identity hinfer
  exact @exact_relabel_total R f.scalar .identity rfl x x.info hx

theorem exact_toIdentity : toIdentity.Exact f := by
  intro op r r' output info hs hg hsized _ _ ho hout hinfo _ hrun ν xs y hin hy
  obtain ⟨a, r₁, ha, hsame, hpass, hdetach, hconclude⟩ := toIdentity_ok hout hrun
  obtain ⟨hran, hcarried⟩ := ran_detached hs ho hdetach hin
  obtain ⟨out, infos, info', hout', hinfos, hinfer, hresult⟩ := hg op.id op ho
  cases hout.symm.trans hout'
  cases hinfo.symm.trans hresult
  cases (of_carries hin).2.1.symm.trans hinfos
  obtain ⟨rest, hinputs⟩ : ∃ rest, op.inputs = a :: rest := by
    rw [← List.head?_eq_getElem?] at ha
    exact List.head?_eq_some_iff.1 ha
  have hlen := hin.length_eq
  rw [hinputs] at hin hcarried
  obtain ⟨x, l, hx, -, rfl⟩ := List.forall₂_cons_left_iff.1 hin
  obtain ⟨hx₁, -⟩ := List.forall₂_cons.1 hcarried
  -- the operand has the info of the result
  obtain rfl : x.info = info := Option.some.inj (hx.info.symm.trans (hsame.trans hinfo))
  obtain rfl : y = x := passesOn_copies hpass hlen.symm rfl hx.complete (hsized a _ hx.info) hinfer hy
  exact hran.conclude hout hconclude (.cons hx₁ .nil) (comesTo_identity hx.complete)

/-- The patterns that spell gradients out in plain ops, and the one that lets an op pass its operand on. -/
def spellings : List Pattern :=
  [lowerSqrtGrad, lowerReciprocalGrad, lowerExpGrad, lowerDivLeftGrad, lowerDivRightGrad, lowerMulGrad,
    lowerSubRightGrad, toIdentity]

theorem respells_and_exact {p : Pattern} (hp : p ∈ spellings) : p.Respells ∧ p.Exact f := by
  simp only [spellings, List.mem_cons, List.not_mem_nil, or_false] at hp
  rcases hp with rfl | rfl | rfl | rfl | rfl | rfl | rfl | rfl
  · exact ⟨respells_lowerSqrtGrad, exact_lowerSqrtGrad⟩
  · exact ⟨respells_lowerReciprocalGrad, exact_lowerReciprocalGrad⟩
  · exact ⟨respells_lowerExpGrad, exact_lowerExpGrad⟩
  · exact ⟨respells_lowerDivLeftGrad, exact_lowerDivLeftGrad⟩
  · exact ⟨respells_lowerDivRightGrad, exact_lowerDivRightGrad⟩
  · exact ⟨respells_lowerMulGrad, exact_lowerMulGrad⟩
  · exact ⟨respells_lowerSubRightGrad, exact_lowerSubRightGrad⟩
  · exact ⟨respells_toIdentity, exact_toIdentity⟩

/-- Lowering is exact: wherever such a pattern is applied, the result keeps its name and its info, and on all values for
which the kernel of the op gives a value the ops that stand in for it give the result that value. On a graph without cycles
the values of all tensors stay as they were. Of the gradient of a divisor this asks that the size of the product of the
incoming gradient and the dividend can be counted. -/
theorem lowering_exact (f : Numbers R) {p : Pattern} (hp : p ∈ spellings) {op : Op} {r r' : Editor} (hs : r.graph.Sound)
    (hg : r.graph.Inferred) (hsized : ∀ t i, r.graph.info? t = some i → i.shape.Sized) (hfits : SavedFits r.graph op)
    (ho : r.graph.op? op.id = some op) (happ : p.applies op = true) (hrun : (p.attempt op).run r = (.ok true, r')) :
    ∃ output info, op.outputs = [output] ∧ r.graph.info? output = some info ∧ r'.graph.info? output = some info ∧
      (FactorsCounted r.graph op →
        (∀ ν xs y, List.Forall₂ (Carries r.graph ν) op.inputs xs → @exact R f.scalar op.kind xs info = .ok y →
          ∃ ν', (exactly f ν).runFrom r'.graph r.graph.nextOp ν = some ν' ∧ ν' output = some y) ∧
        (r.graph.Acyclic → r'.graph.Acyclic ∧ ∀ a, r.graph.Fed a → ∀ t x, r.graph.hasTensor t = true →
          (exactly f a).value? r.graph t = some x → (exactly f a).value? r'.graph t = some x)) := by
  obtain ⟨hrespells, hexact⟩ := respells_and_exact (f := f) hp
  obtain ⟨output, hout⟩ := hg.output ho
  obtain ⟨-, -, info, hreplaces, hinfo⟩ := hrespells hs ho hout happ hrun
  have hresult := hinfo hg hfits
  have hrespelled := hreplaces.respelled hs hout hresult
  refine ⟨output, info, hout, hresult, hrespelled.info hresult, fun hcounted => ?_⟩
  have hreenacts : Reenacts f op output info r.graph r'.graph :=
    hexact hs hg hsized hfits hcounted ho hout hresult happ hrun
  refine ⟨hreenacts, fun ha => ⟨hrespelled.beyond.acyclic hs.linked ho ha, fun a hfed t x ht hx => ?_⟩⟩
  exact hreenacts.value? hrespelled hs ha hout hresult hfed ht hx

/-! ### Gradients of divisors -/

namespace Divisor

/-- The gradient for a divisor, where the incoming gradient and both operands of the quotient have the given shapes. -/
def graph (s₀ s₁ s₂ : Shape) : Graph :=
  ([.addTensor "g" ⟨.float, s₀⟩ .stream none, .addTensor "a" ⟨.float, s₁⟩ .stream none,
    .addTensor "b" ⟨.float, s₂⟩ .stream none,
    .addOp (.operandGrad .divRight s₂) ["g", "a", "b"] ["d"] .backward] : List Graph.Edit).foldl
      (fun g e => (e.call.run g).2) .empty

/-- Its only op. -/
def grad (s₂ : Shape) : Op :=
  { id := 0, kind := .operandGrad .divRight s₂, name := "d", inputs := ["g", "a", "b"], outputs := ["d"],
    phase := .backward }

variable {s₀ s₁ s₂ : Shape}

theorem sound : (graph s₀ s₁ s₂).Sound := by
  have h : Edited Graph.empty (graph s₀ s₁ s₂) := .call _ (.call _ (.call _ (.call _ .start trivial) trivial) trivial) trivial
  exact h.sound .empty

/-- The infos of the graph are right if the gradient could be added. -/
theorem inferred (hops : (graph s₀ s₁ s₂).ops.values = [grad s₂])
    (hinfos : ["g", "a", "b"].mapM (graph s₀ s₁ s₂).info? = some [⟨.float, s₀⟩, ⟨.float, s₁⟩, ⟨.float, s₂⟩])
    (hinfer : (grad s₂).kind.infer [⟨.float, s₀⟩, ⟨.float, s₁⟩, ⟨.float, s₂⟩] = .ok ⟨.float, s₂⟩)
    (hresult : (graph s₀ s₁ s₂).info? "d" = some ⟨.float, s₂⟩) : (graph s₀ s₁ s₂).Inferred := by
  intro o op ho
  have hmem : op ∈ (graph s₀ s₁ s₂).ops.values := Dict.mem_values.2 ⟨o, ho⟩
  rw [hops, List.mem_singleton] at hmem
  subst hmem
  exact ⟨"d", _, _, rfl, hinfos, hinfer, hresult⟩

theorem sized (h : ∀ x ∈ (graph s₀ s₁ s₂).tensors.values, ∀ d ∈ x.info.shape, (0 : Int) ≤ d) :
    ∀ t i, (graph s₀ s₁ s₂).info? t = some i → i.shape.Sized := by
  intro t i hi
  obtain ⟨x, hx, rfl⟩ := info?_eq_some.1 hi
  exact h x (Dict.mem_values.2 ⟨t, hx⟩)

/-- Values for the operands. -/
def fed (g a b : Operand ℚ) (t : TensorId) : Option (Operand ℚ) :=
  if t = "g" then some g else if t = "a" then some a else if t = "b" then some b else none

theorem fed_cases {g a b x : Operand ℚ} {t : TensorId} (h : fed g a b t = some x) :
    t = "g" ∧ x = g ∨ t = "a" ∧ x = a ∨ t = "b" ∧ x = b := by
  unfold fed at h
  split at h
  · exact .inl ⟨‹_›, (Option.some.inj h).symm⟩
  · split at h
    · exact .inr (.inl ⟨‹_›, (Option.some.inj h).symm⟩)
    · split at h
      · exact .inr (.inr ⟨‹_›, (Option.some.inj h).symm⟩)
      · cases h

/-- The quotient of a row by one number, where the gradient that comes in is a column. -/
def sample : Graph := graph [2, 1] [2] [1]

def sampleFed : TensorId → Option (Operand ℚ) :=
  fed ⟨⟨.float, [2, 1]⟩, [1, 2]⟩ ⟨⟨.float, [2]⟩, [3, 4]⟩ ⟨⟨.float, [1]⟩, [2]⟩

theorem sample_facts :
    sample.ops.values = [grad [1]] ∧ sample.op? (grad [1]).id = some (grad [1]) ∧ sample.order = .ok [0] ∧
      ["g", "a", "b"].mapM sample.info? = some [⟨.float, [2, 1]⟩, ⟨.float, [2]⟩, ⟨.float, [1]⟩] ∧
        (grad [1]).kind.infer [⟨.float, [2, 1]⟩, ⟨.float, [2]⟩, ⟨.float, [1]⟩] = .ok ⟨.float, [1]⟩ ∧
          sample.info? "d" = some ⟨.float, [1]⟩ ∧ sample.hasTensor "d" = true ∧
            ∀ x ∈ sample.tensors.values, ∀ d ∈ x.info.shape, (0 : Int) ≤ d := by
  decide +kernel

theorem sample_sized : ∀ t i, sample.info? t = some i → i.shape.Sized := sized sample_facts.2.2.2.2.2.2.2

theorem sample_inferred : sample.Inferred := by
  obtain ⟨hops, -, -, hinfos, hinfer, hresult, -⟩ := sample_facts
  exact inferred hops hinfos hinfer hresult

theorem sample_acyclic : sample.Acyclic := (order_complete sound.linked sample_facts.2.2.1).acyclic

theorem sample_counted : FactorsCounted sample (grad [1]) := by
  intro shape i j rest _ hij s hs
  obtain ⟨-, -, -, hinfos, -⟩ := sample_facts
  cases hinfos.symm.trans hij
  cases (by decide : Shape.broadcast [2, 1] [2] = .ok [2, 2]).symm.trans hs
  exact ⟨⟨4, by decide⟩, [2, 1], by decide⟩

theorem sample_fed : sample.Fed sampleFed := by
  intro t x _ _ hx
  obtain ⟨-, -, -, hinfos, -⟩ := sample_facts
  rw [mapM_eq_some_iff, List.forall₂_cons, List.forall₂_cons, List.forall₂_cons] at hinfos
  obtain ⟨hg, ha, hb, -⟩ := hinfos
  rcases fed_cases hx with ⟨rfl, rfl⟩ | ⟨rfl, rfl⟩ | ⟨rfl, rfl⟩
  · exact ⟨hx, hg, rfl⟩
  · exact ⟨hx, ha, rfl⟩
  · exact ⟨hx, hb, rfl⟩

/-- Operands that have no elements, but many places along each axis. -/
def vast : Graph := graph [0, 2 ^ 40, 1] [0, 1, 2 ^ 40] []

def vastOperands : List (Operand ℚ) :=
  [⟨⟨.float, [0, 2 ^ 40, 1]⟩, []⟩, ⟨⟨.float, [0, 1, 2 ^ 40]⟩, []⟩, ⟨⟨.float, []⟩, [2]⟩]

def vastFed : TensorId → Option (Operand ℚ) :=
  fed ⟨⟨.float, [0, 2 ^ 40, 1]⟩, []⟩ ⟨⟨.float, [0, 1, 2 ^ 40]⟩, []⟩ ⟨⟨.float, []⟩, [2]⟩

theorem vast_facts :
    vast.ops.values = [grad []] ∧ vast.op? 0 = some (grad []) ∧
      ["g", "a", "b"].mapM vast.info? = some [⟨.float, [0, 2 ^ 40, 1]⟩, ⟨.float, [0, 1, 2 ^ 40]⟩, ⟨.float, []⟩] ∧
        (grad []).kind.infer [⟨.float, [0, 2 ^ 40, 1]⟩, ⟨.float, [0, 1, 2 ^ 40]⟩, ⟨.float, []⟩] = .ok ⟨.float, []⟩ ∧
          vast.info? "d" = some ⟨.float, []⟩ ∧ ∀ x ∈ vast.tensors.values, ∀ d ∈ x.info.shape, (0 : Int) ≤ d := by
  decide +kernel

theorem vast_inferred : vast.Inferred := by
  obtain ⟨hops, -, hinfos, hinfer, hresult, -⟩ := vast_facts
  exact inferred hops hinfos hinfer hresult

theorem vast_sized : ∀ t i, vast.info? t = some i → i.shape.Sized := sized vast_facts.2.2.2.2.2

theorem vast_carries : List.Forall₂ (Carries vast vastFed) (grad []).inputs vastOperands := by
  obtain ⟨-, -, hinfos, -⟩ := vast_facts
  rw [mapM_eq_some_iff, List.forall₂_cons, List.forall₂_cons, List.forall₂_cons] at hinfos
  obtain ⟨hg, ha, hb, -⟩ := hinfos
  exact .cons ⟨rfl, hg, rfl⟩ (.cons ⟨rfl, ha, rfl⟩ (.cons ⟨rfl, hb, rfl⟩ .nil))

end Divisor

/-- The gradient that is lowered is the sum of what the kernel of the gradient sums. -/
theorem lowering_exact_divisor : ∃ r' y, (lowerDivRightGrad.attempt (Divisor.grad [1])).run ⟨Divisor.sample, .empty⟩ =
    (.ok true, r') ∧ r'.graph.info? "d" = some ⟨.float, [1]⟩ ∧
      (exactly .rational Divisor.sampleFed).value? r'.graph "d" = some y ∧ y.values = [-21 / 4] := by
  have hrun := Stateful.eq_ok_of_fst (show ((lowerDivRightGrad.attempt (Divisor.grad [1])).run ⟨Divisor.sample, .empty⟩).1 =
    .ok true by decide +kernel)
  have hvalue : ((exactly .rational Divisor.sampleFed).value? Divisor.sample "d").map (·.values) = some [-21 / 4] := by
    decide +kernel
  obtain ⟨y, hy, hvalues⟩ := Option.map_eq_some_iff.1 hvalue
  have hfits : SavedFits Divisor.sample (Divisor.grad [1]) := nofun
  have hsound : Divisor.sample.Sound := Divisor.sound
  obtain ⟨-, ho, -, -, -, hshape, hthere, -⟩ := Divisor.sample_facts
  have happlies : lowerDivRightGrad.applies (Divisor.grad [1]) = true := rfl
  obtain ⟨output, info, hout, hinfo, hinfo', hexact⟩ := lowering_exact .rational (p := lowerDivRightGrad) (r := ⟨Divisor.sample, .empty⟩)
    (by simp [spellings]) hsound Divisor.sample_inferred Divisor.sample_sized hfits ho happlies hrun
  obtain rfl : "d" = output := by simpa [Divisor.grad] using hout
  obtain ⟨-, hglobal⟩ := hexact Divisor.sample_counted
  obtain ⟨-, hglobal⟩ := hglobal Divisor.sample_acyclic
  exact ⟨_, y, hrun, hinfo'.trans (hinfo.symm.trans hshape), hglobal _ Divisor.sample_fed "d" y hthere hy, hvalues⟩

/-- Where that size cannot be counted, the ops that stand in for the gradient fail on values for which its kernel gives one:
they divide what has no elements, but more places along its axes than there are numbers. -/
theorem lowering_vast : Divisor.vast.Sound ∧ Divisor.vast.Inferred ∧
    (∀ t i, Divisor.vast.info? t = some i → i.shape.Sized) ∧ Divisor.vast.op? 0 = some (Divisor.grad []) ∧
      List.Forall₂ (Carries Divisor.vast Divisor.vastFed) (Divisor.grad []).inputs Divisor.vastOperands ∧
        @exact ℚ Numbers.rational.scalar (Divisor.grad []).kind Divisor.vastOperands ⟨.float, []⟩ = .ok ⟨⟨.float, []⟩, [0]⟩ ∧
          ∃ r', (lowerDivRightGrad.attempt (Divisor.grad [])).run ⟨Divisor.vast, .empty⟩ = (.ok true, r') ∧
            (exactly .rational Divisor.vastFed).runFrom r'.graph Divisor.vast.nextOp Divisor.vastFed = none :=
  ⟨Divisor.sound, Divisor.vast_inferred, Divisor.vast_sized, Divisor.vast_facts.2.1, Divisor.vast_carries, rfl, _,
    Stateful.eq_ok_of_fst (by decide +kernel), rfl⟩

end Pattern

end TensorGraph
