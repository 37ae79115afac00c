import TensorGraph.Collection.Dict
import TensorGraph.Graph.Basic

/-!
Data flow of a step: how many batches a step has, and which tensors are given back for which of them. A return
period divides the number of batches.
-/
namespace TensorGraph

/-- For which batches of a step a tensor is given back. -/
inductive ReturnType where
  /-- Every batch. -/
  | all
  /-- The last batch. -/
  | final
  /-- The last of every `period` batches. -/
  | everyN (period : Nat)
  /-- The sum over all batches. -/
  | sum
deriving DecidableEq, Repr

namespace ReturnType

/-- The name. -/
def name : ReturnType → String
  | all => "ALL"
  | final => "FINAL"
  | everyN _ => "EVERYN"
  | sum => "SUM"

/-- The name with the period. -/
def text : ReturnType → String
  | everyN period => s!"EVERYN({period})"
  | r => r.name

/-- How many values a step of `batches` batches gives back. -/
def returns (r : ReturnType) (batches : Nat) : Nat :=
  match r with
  | all => batches
  | everyN period => batches / max period 1
  | final | sum => 1

/-- Whether a value is given back after batch `i`, counted from zero. -/
def writes (r : ReturnType) (i batches : Nat) : Bool :=
  match r with
  | all => true
  | everyN period => (i + 1) % max period 1 == 0
  | final | sum => i + 1 == batches

/-- The info of the buffer for the values of one step: a new outer axis counts them, unless there is one only. -/
def bufferInfo (r : ReturnType) (batches : Nat) (info : TensorInfo) : TensorInfo :=
  if r.returns batches = 1 then info else info.withShape ((r.returns batches : Int) :: info.shape)

/-- A period is positive and divides the number of batches. -/
def Fits (r : ReturnType) (batches : Nat) : Prop :=
  match r with
  | everyN period => 0 < period ∧ batches % period = 0
  | _ => True

end ReturnType

/-- How data flow in and out of a step. -/
structure DataFlow where
  batches : Nat
  anchors : Dict TensorId ReturnType
  batches_pos : 0 < batches
  fits : ∀ a ∈ anchors.entries, a.2.Fits batches

namespace DataFlow

/-- A flow of some batches from which nothing is given back. -/
def ofBatches (batches : Nat) : Outcome DataFlow :=
  if h : 0 < batches then .ok ⟨batches, .empty, h, fun _ ha => nomatch ha⟩
  else .fail (.config .noBatches)

theorem fits_insert (f : DataFlow) (id : TensorId) {r : ReturnType} (h : r.Fits f.batches) :
    ∀ a ∈ (f.anchors.insert id r).entries, a.2.Fits f.batches := by
  intro a ha
  rcases Dict.key_of_mem_insertEntry ha with rfl | ha
  · exact h
  · exact f.fits a ha

/-- Gives a tensor back. -/
def add (f : DataFlow) (id : TensorId) (r : ReturnType) : Outcome DataFlow :=
  match r with
  | .everyN period =>
    if hp : 0 < period then
      if hd : f.batches % period = 0 then
        .ok { f with anchors := f.anchors.insert id (.everyN period), fits := f.fits_insert id ⟨hp, hd⟩ }
      else .fail (.config (.periodDivides id period f.batches))
    else .fail (.config (.periodZero id))
  | .all => .ok { f with anchors := f.anchors.insert id .all, fits := f.fits_insert id trivial }
  | .final => .ok { f with anchors := f.anchors.insert id .final, fits := f.fits_insert id trivial }
  | .sum => .ok { f with anchors := f.anchors.insert id .sum, fits := f.fits_insert id trivial }

/-- A flow of some batches from which the listed tensors are given back. -/
def ofAnchors (batches : Nat) (anchors : List (TensorId × ReturnType)) : Outcome DataFlow := do
  anchors.foldlM (fun f (id, r) => f.add id r) (← ofBatches batches)

end DataFlow

end TensorGraph
