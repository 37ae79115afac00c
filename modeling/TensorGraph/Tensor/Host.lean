import TensorGraph.Tensor.Count
import TensorGraph.Tensor.Storage

/-!
Tensors with their values. `HostTensor.ofStorage` is the way in for data from outside: it checks that the number
and the width of the elements are those of the tensor.
-/
namespace TensorGraph

/-- A tensor with its values. -/
structure HostTensor where
  info : TensorInfo
  data : Storage
deriving DecidableEq, Inhabited, Repr

namespace HostTensor

/-- Puts data behind an info, if number and width of the elements agree with it. -/
def ofStorage (info : TensorInfo) (data : Storage) : Outcome HostTensor := do
  if data.length ≠ (← info.counted) then .shape (.elementCount info data.length)
  else if data.fits info.dtype = false then .shape (.storageKind info.dtype)
  else return ⟨info, data⟩

/-- A scalar in single precision. -/
def ofSingle (x : Single) : HostTensor := ⟨.scalar .float, .f32 [x]⟩

/-- Refuses an info whose elements no memory can span. -/
def room (info : TensorInfo) : Outcome Unit := do Word.room info.dtype.storage.bytes (← info.counted)

/-- A tensor of zeros. -/
def zeros (info : TensorInfo) : Outcome HostTensor := do
  return ⟨info, ← Storage.zeros info.dtype (← info.counted)⟩

/-- The same elements under another shape. -/
def reshaped (t : HostTensor) (s : Shape) : Outcome HostTensor := do
  let info := t.info.withShape s
  if (← info.counted) ≠ t.data.length then .shape (.cannotView t.data.length info)
  else return { t with info }

/-- Whether the elements have the number and the width that the info promises. -/
def IsValid (t : HostTensor) : Prop := t.data.length = t.info.count ∧ t.data.fits t.info.dtype = true

instance (t : HostTensor) : Decidable t.IsValid := inferInstanceAs (Decidable (_ ∧ _))

end HostTensor

end TensorGraph
