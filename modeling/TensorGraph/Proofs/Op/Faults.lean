import TensorGraph.Op.Infer
import TensorGraph.Proofs.Stateful

/-!
Which faults inference can end with. That a gradient does not have the shape of its weight is found by the op that
updates the weight, and by no other.
-/
namespace TensorGraph

open Outcome

/-- The failure of an update whose gradient has another shape than the weight. -/
def Failure.misfit (weight gradient : Shape) : Failure := .error (.shape (.updateShapes weight gradient))

theorem Failure.misfit_ne_abort (weight gradient : Shape) : Failure.misfit weight gradient ≠ .abort := nofun

section Words

variable {f : Failure}

theorem Word.nat_never (hf : f ≠ .abort) (n : Nat) : Never f (Word.nat n) := .ite (.ok _) (.abort hf)

theorem Word.int_never (hf : f ≠ .abort) (i : Int) : Never f (Word.int i) := .ite (.ok _) (.abort hf)

theorem TensorInfo.counted_never (hf : f ≠ .abort) (info : TensorInfo) : Never f info.counted := by
  have hfold : ∀ (l : List Nat) (n : Nat), Never f (l.foldlM (fun n d => Word.nat (n * d)) n) := by
    intro l
    induction l with
    | nil => exact fun n => .ok n
    | cons d l ih => exact fun n => .bind (Word.nat_never hf _) ih
  exact hfold _ 1

end Words

variable {weight gradient : Shape}

namespace Shape

theorem broadcast_never (a b : Shape) : Never (.misfit weight gradient) (a.broadcast b) := .orFail nofun

theorem axis_never (s : Shape) (i : Int) : Never (.misfit weight gradient) (s.axis i) := .ite (.fail nofun) (.ok _)

theorem reductionAxes_never (s : Shape) : ∀ axes, Never (.misfit weight gradient) (s.reductionAxes axes)
  | none => .ok _
  | some _ => .bind (.mapM (axis_never s)) fun _ => .ok _

theorem clampPosition_never (extent position : Int) : Never (.misfit weight gradient) (clampPosition extent position) :=
  .ite (.abort nofun) (.ok _)

theorem sliceRange_never (s : Shape) (start stop i : Int) : Never (.misfit weight gradient) (s.sliceRange start stop i) :=
  .ite (.fail nofun) (.bind (.promised nofun) fun _ => .bind (clampPosition_never _ _) fun _ =>
    .bind (clampPosition_never _ _) fun _ => .ok _)

theorem sliceRanges_never (s : Shape) (starts stops axes : List Int) :
    Never (.misfit weight gradient) (s.sliceRanges starts stops axes) :=
  .ite (.fail nofun) (.mapM fun _ => sliceRange_never s _ _ _)

end Shape

namespace OpKind

theorem operand1_never (op : String) : ∀ l, Never (.misfit weight gradient) (operand1 op l)
  | [_] => .ok _
  | [] | _ :: _ :: _ => .fail nofun

theorem operand2_never (op : String) : ∀ l, Never (.misfit weight gradient) (operand2 op l)
  | [_, _] => .ok _
  | [] | [_] | _ :: _ :: _ :: _ => .fail nofun

theorem operand3_never (op : String) : ∀ l, Never (.misfit weight gradient) (operand3 op l)
  | [_, _, _] => .ok _
  | [] | [_] | [_, _] | _ :: _ :: _ :: _ :: _ => .fail nofun

theorem requireInteger_never (op what : String) (info : TensorInfo) :
    Never (.misfit weight gradient) (requireInteger op what info) := .ite (.fail nofun) (.ok _)

theorem requireReducible_never (op : String) (source target : Shape) :
    Never (.misfit weight gradient) (requireReducible op source target) :=
  .bind (Shape.broadcast_never _ _) fun _ => .ite (.fail nofun) (.ok _)

theorem permAxes_never (s : Shape) (perm : List Int) : ∀ l seen, Never (.misfit weight gradient) (permAxes s perm l seen)
  | [], _ => .ok _
  | _ :: rest, _ => .bind (Shape.axis_never s _) fun _ => .ite (.fail nofun) (.bind (permAxes_never s perm rest _) fun _ => .ok _)

theorem transposedShape_never (s : Shape) (perm : List Int) : Never (.misfit weight gradient) (transposedShape s perm) :=
  .ite (.fail nofun) (.bind (permAxes_never s perm _ _) fun _ => .mapM fun _ => .promised nofun)

theorem paddedShape_never (s : Shape) (pads : List Int) : Never (.misfit weight gradient) (paddedShape s pads) :=
  .ite (.fail nofun) (.mapM fun _ => Word.int_never (Failure.misfit_ne_abort _ _) _)

theorem concatExtent_never (first : TensorInfo) (axis : Nat) :
    ∀ l total, Never (.misfit weight gradient) (concatExtent first axis l total)
  | [], _ => .ok _
  | _ :: rest, _ => .ite (.fail nofun) (.bind (.promised nofun) fun _ => .bind (Word.int_never (Failure.misfit_ne_abort _ _) _) fun _ =>
      concatExtent_never first axis rest _)

theorem concatInfo_never (axis : Int) : ∀ l, Never (.misfit weight gradient) (concatInfo axis l)
  | [] => .fail nofun
  | first :: _ => .bind (Shape.axis_never first.shape _) fun _ => .bind (concatExtent_never first _ _ _) fun _ => .ok _

theorem broadcastAll_never (rest : List TensorInfo) : ∀ first, Never (.misfit weight gradient) (broadcastAll first rest) := by
  induction rest with
  | nil => exact fun first => .ok first
  | cons i rest ih => exact fun first => .bind (Shape.broadcast_never _ _) ih

theorem matMulInfo_never (a b : TensorInfo) : Never (.misfit weight gradient) (matMulInfo a b) := by
  unfold matMulInfo
  split
  · exact .ite (.fail nofun) (.ok _)
  · exact .fail nofun

theorem requireLossShapes_never (probs labels : Shape) : Never (.misfit weight gradient) (requireLossShapes probs labels) := by
  unfold requireLossShapes
  split
  · exact .ite (.fail nofun) (.ok _)
  · exact .fail nofun

/-- Only the update of a weight compares the shapes of a weight and its gradient. -/
theorem infer_never {kind : OpKind} (hkind : kind ≠ .sgdVarUpdate) (infos : List TensorInfo) :
    Never (.misfit weight gradient) (kind.infer infos) := by
  have one := fun {β : Type} {k : TensorInfo → Outcome β} (hk : ∀ x, Never (.misfit weight gradient) (k x)) =>
    Never.bind (operand1_never kind.typeName infos) hk
  have two := fun {β : Type} {k : TensorInfo × TensorInfo → Outcome β} (hk : ∀ x, Never (.misfit weight gradient) (k x)) =>
    Never.bind (operand2_never kind.typeName infos) hk
  have three := fun {β : Type} {k : TensorInfo × TensorInfo × TensorInfo → Outcome β}
    (hk : ∀ x, Never (.misfit weight gradient) (k x)) => Never.bind (operand3_never kind.typeName infos) hk
  have integer := fun {β : Type} {op what : String} {i : TensorInfo} {k : Unit → Outcome β}
    (hk : ∀ u, Never (.misfit weight gradient) (k u)) => Never.bind (requireInteger_never op what i) hk
  have reducible := fun {β : Type} {op : String} {s t : Shape} {k : Unit → Outcome β}
    (hk : ∀ u, Never (.misfit weight gradient) (k u)) => Never.bind (requireReducible_never op s t) hk
  cases kind with
  | identity | unary _ => exact operand1_never _ _
  | softmax axis => exact one fun x => .bind (Shape.axis_never x.shape _) fun _ => .ok _
  | binary f => exact two fun _ => .ite (.fail nofun) (.bind (Shape.broadcast_never _ _) fun _ => .ok _)
  | matMul => exact two fun _ => matMulInfo_never _ _
  | sum =>
    cases infos with
    | nil => exact .fail nofun
    | cons first rest => exact .bind (broadcastAll_never _ _) fun _ => .ok _
  | reduceSum axes keepDims => exact one fun x => .bind (Shape.reductionAxes_never x.shape _) fun _ => .ok _
  | reshape shape =>
    exact one fun x => .ite (.fail nofun) (.bind (TensorInfo.counted_never (Failure.misfit_ne_abort _ _) _) fun _ =>
      .bind (TensorInfo.counted_never (Failure.misfit_ne_abort _ _) _) fun _ => .ite (.fail nofun) (.ok _))
  | transpose perm => exact one fun _ => .bind (transposedShape_never _ _) fun _ => .ok _
  | slice starts ends axes => exact one fun x => .bind (Shape.sliceRanges_never x.shape _ _ _) fun _ => .ok _
  | pad pads value => exact one fun _ => .bind (paddedShape_never _ _) fun _ => .ok _
  | concat axis => exact concatInfo_never _ _
  | gather axis =>
    exact two fun x => integer fun _ => .bind (Shape.axis_never x.1.shape _) fun _ =>
      .bind (.ite (.abort nofun) (.ok _)) fun _ => .ok _
  | scatter axis =>
    exact three fun x => integer fun _ => .bind (Shape.axis_never x.1.shape _) fun _ => .ite (.fail nofun) (.ok _)
  | reduceToShape shape => exact one fun _ => reducible fun _ => .ok _
  | unaryGrad _ | softmaxGrad _ => exact two fun _ => .ok _
  | operandGrad f shape =>
    cases f with
    | subRight => exact one fun _ => reducible fun _ => .ok _
    | mul | divLeft => exact two fun _ => .bind (Shape.broadcast_never _ _) fun _ => reducible fun _ => .ok _
    | divRight =>
      exact three fun _ => .bind (Shape.broadcast_never _ _) fun _ => .bind (Shape.broadcast_never _ _) fun _ =>
        reducible fun _ => .ok _
  | reduceSumGrad shape axes => exact one fun _ => .ok _
  | gatherGrad axis shape | scatterDataGrad axis | scatterUpdatesGrad axis => exact two fun _ => integer fun _ => .ok _
  | nll reduction ignored => exact two fun _ => integer fun _ => .bind (requireLossShapes_never _ _) fun _ => .ok _
  | l1 lambda reduction => exact one fun _ => .ok _
  | nllGrad reduction ignored => exact three fun _ => .ok _
  | l1Grad lambda reduction => exact two fun _ => .ok _
  | sgdVarUpdate => exact absurd rfl hkind

/-- A gradient with the shape of its weight passes that comparison. -/
theorem infer_sgdVarUpdate_never {i j : TensorInfo} (h : j.shape = i.shape) :
    ∀ rest, Never (.misfit weight gradient) (sgdVarUpdate.infer (i :: j :: rest))
  | [_, _, _] => by
    change Never _ (if i.shape ≠ j.shape then _ else .ok i)
    rw [if_neg (fun hne => hne h.symm)]
    exact .ok i
  | [] | [_] | [_, _] | _ :: _ :: _ :: _ :: _ => .fail nofun

end OpKind

end TensorGraph
