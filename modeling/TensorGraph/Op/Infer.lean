import TensorGraph.Op.Kind
import TensorGraph.Tensor.Count
import TensorGraph.Tensor.Shape

/-!
Shape inference: the info of an op's result from the infos of its operands. Each op has one result. A scalar has
no axis to concatenate or gather along, and those calls abort; so does one whose result has an extent that does not
fit a word.
-/
namespace TensorGraph

namespace OpKind

/-! ## Operand counts -/

/-- The only operand. -/
def operand1 (op : String) : List TensorInfo → Outcome TensorInfo
  | [a] => .ok a
  | l => .shape (.arity op 1 l.length)

/-- Both operands. -/
def operand2 (op : String) : List TensorInfo → Outcome (TensorInfo × TensorInfo)
  | [a, b] => .ok (a, b)
  | l => .shape (.arity op 2 l.length)

/-- The three operands. -/
def operand3 (op : String) : List TensorInfo → Outcome (TensorInfo × TensorInfo × TensorInfo)
  | [a, b, c] => .ok (a, b, c)
  | l => .shape (.arity op 3 l.length)

/-- Refuses a floating-point operand. -/
def requireInteger (op what : String) (info : TensorInfo) : Outcome Unit :=
  if info.dtype.isFloat then .shape (.notInteger op what info.dtype) else .ok ()

/-- Refuses a shape that does not stretch to `source`. -/
def requireReducible (op : String) (source target : Shape) : Outcome Unit := do
  let merged ← Shape.broadcast target source
  if merged ≠ source then .shape (.cannotReduce op source target) else .ok ()

/-! ## Shapes of results -/

/-- The axes that a permutation names, each at most once; `seen` are those named before. -/
def permAxes (s : Shape) (perm : List Int) : List Int → List Nat → Outcome (List Nat)
  | [], _ => .ok []
  | p :: rest, seen => do
    let a ← s.axis p
    if seen.contains a then .shape (.permRepeats perm a)
    else
      let others ← permAxes s perm rest (a :: seen)
      return a :: others

/-- The shape with its axes in the order of `perm`. -/
def transposedShape (s : Shape) (perm : List Int) : Outcome Shape :=
  if perm.length ≠ s.length then .shape (.permLength perm s.length)
  else do
    let axes ← permAxes s perm perm []
    axes.mapM fun a => .promised s[a]?

/-- The shape with the extents of the ranges on their axes. -/
def slicedShape (s : Shape) (ranges : List Shape.Range) : Shape :=
  ranges.foldl (fun t r => t.set r.axis ((r.stop - r.start : Nat) : Int)) s

/-- The shape with the pads before and behind each axis. -/
def paddedShape (s : Shape) (pads : List Int) : Outcome Shape :=
  if pads.length ≠ 2 * s.length ∨ pads.any (· < 0) then .shape (.padCount s.length pads)
  else
    let borders := List.zipWith (· + ·) (pads.take s.length) (pads.drop s.length)
    (List.zipWith (· + ·) s borders).mapM Word.int

/-- Whether two infos agree in all but the extent on `axis`. -/
def concatenable (first other : TensorInfo) (axis : Nat) : Bool :=
  other.rank == first.rank && other.dtype == first.dtype &&
    (List.range first.rank).all fun i => i == axis || other.shape[i]? == first.shape[i]?

/-- The extent on `axis` of all operands together. -/
def concatExtent (first : TensorInfo) (axis : Nat) : List TensorInfo → Int → Outcome Int
  | [], total => .ok total
  | other :: rest, total =>
    if concatenable first other axis = false then .shape (.concatMismatch first other axis)
    else do
      let extent ← Outcome.promised other.shape[axis]?
      concatExtent first axis rest (← Word.int (total + extent))

/-- The info of several tensors one behind the other along `axis`. -/
def concatInfo (axis : Int) : List TensorInfo → Outcome TensorInfo
  | [] => .shape (.noInputs "Concat")
  | first :: rest => do
    let a ← first.shape.axis axis
    let extent ← concatExtent first a rest (first.shape[a]?.getD 0)
    return first.withShape (first.shape.set a extent)

/-- The shape of `data` with the axis replaced by the axes of `indices`. -/
def gatheredShape (data indices : Shape) (axis : Nat) : Outcome Shape :=
  if data.length < axis + 1 then .error .abort
  else .ok (data.take axis ++ indices ++ data.drop (axis + 1))

/-- The shape that all operands broadcast to. -/
def broadcastAll (first : Shape) (rest : List TensorInfo) : Outcome Shape :=
  rest.foldlM (fun s i => s.broadcast i.shape) first

/-- The info of a matrix product. -/
def matMulInfo (a b : TensorInfo) : Outcome TensorInfo :=
  match a.shape, b.shape with
  | [m, k], [k', n] =>
    if k ≠ k' then .shape (.matMulInner a.shape b.shape) else .ok (a.withShape [m, n])
  | _, _ => .shape (.matMulRanks a.shape b.shape)

/-- Refuses probabilities and labels that do not go together. -/
def requireLossShapes (probs labels : Shape) : Outcome Unit :=
  match probs, labels with
  | [n, _], [n'] => if n' ≠ n then .shape (.lossShapes probs labels) else .ok ()
  | _, _ => .shape (.lossShapes probs labels)

/-- The info of the result of an op on operands with the given infos. -/
def infer (kind : OpKind) (inputs : List TensorInfo) : Outcome TensorInfo :=
  let op := kind.typeName
  match kind with
  | identity | unary _ => operand1 op inputs
  | softmax axis => do
    let x ← operand1 op inputs
    let _ ← x.shape.axis axis
    return x
  | binary _ => do
    let (a, b) ← operand2 op inputs
    if a.dtype ≠ b.dtype then .shape (.differentTypes op a.dtype b.dtype)
    else return a.withShape (← a.shape.broadcast b.shape)
  | matMul => do
    let (a, b) ← operand2 op inputs
    matMulInfo a b
  | sum =>
    match inputs with
    | [] => .shape (.noInputs "Sum")
    | first :: rest => do return first.withShape (← broadcastAll first.shape rest)
  | reduceSum axes keepDims => do
    let x ← operand1 op inputs
    let resolved ← x.shape.reductionAxes axes
    return x.withShape (x.shape.reduced resolved keepDims)
  | reshape shape => do
    let x ← operand1 op inputs
    let out := x.withShape shape
    if shape.any (· < 0) then .shape (.cannotReshape x.shape shape)
    else if (← out.counted) ≠ (← x.counted) then .shape (.cannotReshape x.shape shape)
    else return out
  | transpose perm => do
    let x ← operand1 op inputs
    return x.withShape (← transposedShape x.shape perm)
  | slice starts ends axes => do
    let x ← operand1 op inputs
    let ranges ← x.shape.sliceRanges starts ends axes
    return x.withShape (slicedShape x.shape ranges)
  | pad pads _ => do
    let x ← operand1 op inputs
    return x.withShape (← paddedShape x.shape pads)
  | concat axis => concatInfo axis inputs
  | gather axis => do
    let (data, indices) ← operand2 op inputs
    requireInteger op "indices" indices
    let a ← data.shape.axis axis
    return data.withShape (← gatheredShape data.shape indices.shape a)
  | scatter axis => do
    let (data, indices, updates) ← operand3 op inputs
    requireInteger op "indices" indices
    let _ ← data.shape.axis axis
    if indices.shape ≠ updates.shape ∨ indices.rank ≠ data.rank then
      .shape (.scatterShapes indices.shape updates.shape data.shape)
    else return data
  | reduceToShape shape => do
    let x ← operand1 op inputs
    requireReducible op x.shape shape
    return x.withShape shape
  | unaryGrad _ | softmaxGrad _ => do
    let (g, _) ← operand2 op inputs
    return g
  | operandGrad .subRight shape => do
    let g ← operand1 op inputs
    requireReducible op g.shape shape
    return g.withShape shape
  | operandGrad .mul shape | operandGrad .divLeft shape => do
    let (g, other) ← operand2 op inputs
    requireReducible op (← g.shape.broadcast other.shape) shape
    return g.withShape shape
  | operandGrad .divRight shape => do
    let (g, a, b) ← operand3 op inputs
    let full ← g.shape.broadcast a.shape
    requireReducible op (← full.broadcast b.shape) shape
    return g.withShape shape
  | reduceSumGrad shape _ => do
    let g ← operand1 op inputs
    return g.withShape shape
  | gatherGrad _ shape => do
    let (g, indices) ← operand2 op inputs
    requireInteger op "indices" indices
    return g.withShape shape
  | scatterDataGrad _ => do
    let (g, indices) ← operand2 op inputs
    requireInteger op "indices" indices
    return g
  | scatterUpdatesGrad _ => do
    let (g, indices) ← operand2 op inputs
    requireInteger op "indices" indices
    return g.withShape indices.shape
  | nll _ _ => do
    let (probs, labels) ← operand2 op inputs
    requireInteger op "labels" labels
    requireLossShapes probs.shape labels.shape
    return .scalar probs.dtype
  | l1 _ _ => do
    let x ← operand1 op inputs
    return .scalar x.dtype
  | nllGrad _ _ => do
    let (probs, _, _) ← operand3 op inputs
    return probs
  | l1Grad _ _ => do
    let (x, _) ← operand2 op inputs
    return x
  | sgdVarUpdate =>
    match inputs with
    | [weight, gradient, _, _, _] =>
      if weight.shape ≠ gradient.shape then .shape (.updateShapes weight.shape gradient.shape)
      else .ok weight
    | l => .shape (.arity op 5 l.length)

end OpKind

end TensorGraph
