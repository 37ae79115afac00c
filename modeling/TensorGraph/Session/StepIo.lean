import TensorGraph.Collection.Dict
import TensorGraph.Graph.Basic

/-!
Data of a step: where the values of streams come from and where the values of anchors go. There are two ways:
arrays that hold the data of whole steps, and callbacks that are asked batch by batch.
-/
namespace TensorGraph

/-- A way to move data in and out of steps, with a state of its own. -/
structure StepIo (σ : Type) where
  /-- The values of a stream for one batch. -/
  input : TensorId → TensorInfo → Stateful σ Storage
  /-- The values of a stream have been taken. -/
  inputDone : TensorId → Stateful σ Unit
  /-- Takes a value of an anchor. -/
  output : TensorId → Storage → Stateful σ Unit
  /-- Checks how many elements there are for a step, by stream and by anchor. -/
  check : Dict TensorId Nat → Dict TensorId Nat → σ → Outcome Unit

/-- The buffers of anchors. -/
abbrev Anchors := Dict TensorId HostTensor

/-! ## Arrays -/

/-- Where the next batch of a stream starts, and how many elements it has. -/
structure Cursor where
  offset : Nat
  size : Nat
deriving DecidableEq, Repr

/-- Arrays for the streams and buffers for the anchors, each with the place of the next batch. -/
structure ArrayIo where
  inputs : Dict TensorId HostTensor
  outputs : Anchors
  inputCursors : Dict TensorId Cursor := .empty
  outputCursors : Dict TensorId Nat := .empty

namespace ArrayIo

/-- A place moved on by some elements; at the end it goes back to the start. -/
def advance (offset size length : Nat) : Nat := if length ≤ offset + size then 0 else offset + size

/-- The array of a stream. -/
def array (a : ArrayIo) (id : TensorId) : Outcome HostTensor :=
  .orFail (a.inputs.get? id) (.step (.missing id "inputs"))

/-- The buffer of an anchor. -/
def buffer (a : ArrayIo) (id : TensorId) : Outcome HostTensor :=
  .orFail (a.outputs.get? id) (.step (.missing id "outputs"))

/-- The next batch of a stream; the place stays. -/
def input (id : TensorId) (info : TensorInfo) : Stateful ArrayIo Storage := Stateful.change fun a => do
  let t ← a.array id
  let size ← info.counted
  let offset := ((a.inputCursors.get? id).map (·.offset)).getD 0
  let data ← Outcome.orFail (t.data.slice? offset size) (.step (.tooFew id t.data.length info offset))
  return (data, { a with inputCursors := a.inputCursors.insert id ⟨offset, size⟩ })

/-- Moves on to the batch after the one that was taken. -/
def inputDone (id : TensorId) : Stateful ArrayIo Unit := Stateful.change fun a => do
  let t ← a.array id
  let cursor ← Outcome.orFail (a.inputCursors.get? id) (.step (.completedEarly id))
  let next := { cursor with offset := advance cursor.offset cursor.size t.data.length }
  return ((), { a with inputCursors := a.inputCursors.insert id next })

/-- Writes a value behind the one before it, and at the start once the buffer is full. -/
def output (id : TensorId) (value : Storage) : Stateful ArrayIo Unit := Stateful.change fun a => do
  let t ← a.buffer id
  let offset := (a.outputCursors.get? id).getD 0
  let data ← Outcome.orFail (t.data.write? offset value)
    (.step (.bufferFull id t.data.length value.length offset))
  return ((),
    { a with
      outputs := a.outputs.insert id { t with data }
      outputCursors := a.outputCursors.insert id (advance offset value.length t.data.length) })

/-- Checks that arrays and buffers hold exactly the elements of a step. -/
def check (inputs outputs : Dict TensorId Nat) (a : ArrayIo) : Outcome Unit := do
  inputs.entries.forM fun (id, expected) => do
    let t ← a.array id
    if t.data.length ≠ expected then .fail (.step (.inputCount id expected t.data.length))
  outputs.entries.forM fun (id, expected) => do
    let t ← a.buffer id
    if t.data.length ≠ expected then .fail (.step (.outputCount id expected t.data.length))

/-- Data in arrays. -/
def io : StepIo ArrayIo := ⟨input, inputDone, output, check⟩

end ArrayIo

/-! ## Callbacks -/

/-- Callbacks with a state of their own. They may fail for reasons of theirs. -/
structure Callbacks (σ : Type) where
  input : TensorId → TensorInfo → Stateful σ Storage
  output : TensorId → Storage → Stateful σ Unit

namespace Callbacks

/-- Data from callbacks; what one returns must fit the stream. -/
def io {σ : Type} (c : Callbacks σ) : StepIo σ where
  input id info := do
    let data ← c.input id info
    if data.length ≠ (← info.counted) ∨ data.fits info.dtype = false then
      Stateful.fail (.step (.callbackResult id data.length info))
    return data
  inputDone _ := pure ()
  output := c.output
  check _ _ _ := .ok ()

end Callbacks

end TensorGraph
