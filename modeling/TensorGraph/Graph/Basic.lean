import TensorGraph.Collection.Dict
import TensorGraph.Collection.SortedSet
import TensorGraph.Op.Kind
import TensorGraph.Tensor.Host

/-!
Graphs of ops and tensors. Every tensor knows the op that produces it and the ops that consume it; every op knows
its operands and results by name. Queries only; changes are in `TensorGraph.Graph.Edit`.
-/
namespace TensorGraph

/-- Ops are numbered in the order of their creation. -/
abbrev OpId := Nat

/-- Tensors go by name. -/
abbrev TensorId := String

/-- The part of a step that an op belongs to. -/
inductive Phase where
  | forward
  | loss
  | backward
  | weightUpdate
deriving DecidableEq, Repr

namespace Phase

/-- All phases, in the order in which they run. -/
def all : List Phase := [.forward, .loss, .backward, .weightUpdate]

/-- The position in that order. -/
def rank : Phase → Nat
  | forward => 0
  | loss => 1
  | backward => 2
  | weightUpdate => 3

/-- The name. -/
def label : Phase → String
  | forward => "Forward"
  | loss => "Loss"
  | backward => "Backward"
  | weightUpdate => "WeightUpdate"

instance : Ord Phase := ⟨fun a b => compare a.rank b.rank⟩

theorem compare_eq (a b : Phase) : compare a b = compare a.rank b.rank := rfl

instance : Std.TransOrd Phase where
  eq_swap {a b} := by rw [compare_eq, compare_eq]; exact Std.OrientedCmp.eq_swap
  isLE_trans {a b c} := by simp only [compare_eq]; exact Std.TransCmp.isLE_trans

instance : Std.LawfulEqOrd Phase where
  eq_of_compare {a b} h := by
    rw [compare_eq, Nat.compare_eq_eq] at h
    cases a <;> cases b <;> simp_all [rank]
  compare_self := by simp

end Phase

/-- Where the values of a tensor come from. -/
inductive TensorType where
  /-- Fed anew for every batch. -/
  | stream
  /-- A weight. -/
  | weight
  /-- Known in advance. -/
  | const
  /-- Computed by an op. -/
  | actGrad
  /-- A setting of the optimizer that may change between steps. -/
  | optimizerStream
deriving DecidableEq, Repr

namespace TensorType

/-- All types, in their numbering. -/
def all : List TensorType := [.stream, .weight, .const, .actGrad, .optimizerStream]

/-- The name. -/
def label : TensorType → String
  | stream => "Stream"
  | weight => "Variable"
  | const => "Const"
  | actGrad => "ActGrad"
  | optimizerStream => "OptimizerStream"

end TensorType

/-- An op of a graph. -/
structure Op where
  id : OpId
  kind : OpKind
  name : String
  inputs : List TensorId
  outputs : List TensorId
  phase : Phase
  virtualGraph : Option Int := none
  inPlace : Bool := false
  excluded : SortedSet String := .empty
  forwardOp : Option OpId := none
deriving DecidableEq

namespace Op

/-- The type name, marked if the op runs in place. -/
def displayType (op : Op) : String := if op.inPlace then op.kind.typeName ++ "Inplace" else op.kind.typeName

/-- The first result, which every op has. -/
def output (op : Op) : Outcome TensorId := .promised op.outputs.head?

/-- The operand at a position, which must be there. -/
def input (op : Op) (i : Nat) : Outcome TensorId := .promised op.inputs[i]?

end Op

/-- A tensor of a graph. -/
structure Tensor where
  id : TensorId
  info : TensorInfo
  type : TensorType
  data : Option HostTensor := none
  producer : Option OpId := none
  consumers : SortedSet OpId := .empty
deriving DecidableEq

/-- A graph. -/
structure Graph where
  ops : Dict OpId Op := .empty
  tensors : Dict TensorId Tensor := .empty
  /-- The streams, in the order in which they were added. -/
  streams : List TensorId := []
  outputs : List TensorId := []
  /-- Tensors that every change of the graph must keep. -/
  kept : SortedSet TensorId := .empty
  nextOp : OpId := 0
  nextTemp : Nat := 0
deriving DecidableEq

namespace Graph

/-- The graph without ops and tensors. -/
def empty : Graph := {}

/-- The op with a number. -/
def op? (g : Graph) (id : OpId) : Option Op := g.ops.get? id

/-- The tensor with a name. -/
def tensor? (g : Graph) (id : TensorId) : Option Tensor := g.tensors.get? id

/-- Whether there is a tensor with a name. -/
def hasTensor (g : Graph) (id : TensorId) : Bool := g.tensors.contains id

/-- The info of a tensor. -/
def info? (g : Graph) (id : TensorId) : Option TensorInfo := (g.tensor? id).map (·.info)

/-- The info of a tensor that must be in the graph. -/
def info (g : Graph) (id : TensorId) : Outcome TensorInfo := .orFail (g.info? id) (.graph (.notInGraph id))

/-- The op that produces a tensor. -/
def producer? (g : Graph) (id : TensorId) : Option OpId := (g.tensor? id).bind (·.producer)

/-- The ops that consume a tensor, ascending. -/
def consumers (g : Graph) (id : TensorId) : List OpId :=
  ((g.tensor? id).map (·.consumers.toList)).getD []

/-- The names of the tensors of one type, ascending. -/
def idsOfType (g : Graph) (t : TensorType) : List TensorId :=
  (g.tensors.values.filter (·.type = t)).map (·.id)

/-- The names of the weights, ascending. -/
def weights (g : Graph) : List TensorId := g.idsOfType .weight

/-- Whether a tensor must be kept. -/
def isKept (g : Graph) (id : TensorId) : Bool := g.kept.contains id

/-- The producers of an op's operands, itself apart. -/
def dependencies (g : Graph) (op : Op) : SortedSet OpId :=
  .ofList ((op.inputs.filterMap g.producer?).filter (· ≠ op.id))

end Graph

/-- A call on a graph. -/
abbrev GraphM := Stateful Graph

end TensorGraph
