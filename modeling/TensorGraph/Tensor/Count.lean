import TensorGraph.Number.Word

/-!
The sizes of tensors, counted in 64-bit words. Counting runs over the axes from the first on, so a shape can be too
large to be counted although it has no element.
-/
namespace TensorGraph

namespace TensorInfo

/-- The number of elements. -/
def counted (i : TensorInfo) : Outcome Nat := Word.product i.dims

/-- The size in bytes. -/
def sized (i : TensorInfo) : Outcome Nat := do Word.nat ((← i.counted) * i.dtype.bytes)

theorem counted_eq {i : TensorInfo} {n : Nat} (h : i.counted = .ok n) : n = i.count := Word.product_eq h

end TensorInfo

end TensorGraph
