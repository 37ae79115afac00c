import TensorGraph.Graph.Import

/-!
Building models step by step: inputs, weights, constants and ops, each under a name that is free, with the infos
of all tensors known at every point. A finished model reads back as the graph that was built.
-/
namespace TensorGraph

/-- A model under construction. -/
structure Builder where
  name : String := "BuilderGraph"
  nodes : List Node := []
  inputs : List TensorId := []
  outputs : List TensorId := []
  initializers : List NamedTensor := []
  infos : Dict TensorId TensorInfo := .empty
  constants : Dict TensorId HostTensor := .empty
  /-- The position of the node that produces a tensor. -/
  producers : Dict TensorId Nat := .empty
  consumed : SortedSet TensorId := .empty
  scopes : List String := []

/-- A call on a model under construction. -/
abbrev BuilderM := Stateful Builder

namespace Builder

/-! ## Names -/

/-- The name inside the open scopes. -/
def inScope (b : Builder) (base : String) : String :=
  if b.scopes.isEmpty then base else "/".intercalate b.scopes ++ "/" ++ base

/-- The name itself if it is free, else the first free one with a number behind it. One of the first numbers is
free, because there are more of them than tensors. -/
def uniqueId (b : Builder) (base : String) : TensorId :=
  if b.infos.contains base then
    let candidates := (List.range (b.infos.size + 1)).map fun i => s!"{base}/{i + 1}"
    (candidates.find? fun c => !b.infos.contains c).getD base
  else base

/-- Opens a name scope. -/
def pushScope (b : Builder) (scope : String) : Builder := { b with scopes := b.scopes ++ [scope] }

/-- Closes the innermost name scope. -/
def popScope (b : Builder) : Option String × Builder :=
  (b.scopes.getLast?, { b with scopes := b.scopes.dropLast })

/-! ## Tensors -/

/-- The info of a tensor. -/
def info (b : Builder) (id : TensorId) : Outcome TensorInfo :=
  .orFail (b.infos.get? id) (.graph (.notInBuilder id))

/-- Adds an input. -/
def addInput (b : Builder) (info : TensorInfo) : TensorId × Builder :=
  let id := b.uniqueId (b.inScope "input")
  (id, { b with infos := b.infos.insert id info, inputs := b.inputs ++ [id] })

/-- Adds a weight with its initial value. -/
def addWeight (b : Builder) (value : HostTensor) : TensorId × Builder :=
  let id := b.uniqueId (b.inScope "init_input")
  (id,
    { b with
      infos := b.infos.insert id value.info
      initializers := b.initializers ++ [{ name := id, info := value.info, data := value.data }] })

/-- Adds a constant. -/
def addConstant (b : Builder) (value : HostTensor) : TensorId × Builder :=
  let id := b.uniqueId (b.inScope "Constant:0")
  let node : Node :=
    { name := id, opType := "Constant", domain := "", inputs := [], outputs := [id],
      attributes := .ofList [("value", .tensor { name := id, info := value.info, data := value.data })] }
  (id,
    { b with
      producers := b.producers.insert id b.nodes.length
      nodes := b.nodes ++ [node]
      infos := b.infos.insert id value.info
      constants := b.constants.insert id value })

/-- Makes a tensor an output. -/
def addOutput (b : Builder) (id : TensorId) : Outcome Builder :=
  if b.infos.contains id then
    .ok { b with outputs := if b.outputs.contains id then b.outputs else b.outputs ++ [id] }
  else .graph (.unknownOutput id)

/-- Sets an attribute of the node that produces a tensor. -/
def setAttribute (b : Builder) (id : TensorId) (name : String) (value : Attribute) : Outcome Builder := do
  let position ← Outcome.orFail (b.producers.get? id) (.graph (.notProduced id))
  return { b with
    nodes := b.nodes.modify position fun n => { n with attributes := n.attributes.insert name value } }

/-- Places the op that produces a tensor on a virtual graph. -/
def setVirtualGraph (b : Builder) (id : TensorId) (v : Int) : Outcome Builder :=
  b.setAttribute id Graph.virtualGraphAttribute (.int v)

/-- Lists the patterns that are not tried on the op that produces a tensor. -/
def excludePatterns (b : Builder) (id : TensorId) (patterns : List String) : Outcome Builder :=
  b.setAttribute id Graph.excludedAttribute (.strings patterns)

/-! ## Ops -/

/-- Marks a tensor as read. -/
def consume (b : Builder) (id : TensorId) : Builder := { b with consumed := b.consumed.insert id }

/-- Adds an op on known tensors. -/
def addOp (kind : OpKind) (inputs : List TensorId) : BuilderM TensorId := Stateful.change fun b => do
  let infos ← inputs.mapM b.info
  let info ← kind.infer infos
  let id := b.uniqueId (b.inScope (kind.typeName ++ ":0"))
  let node : Node :=
    { name := id, opType := kind.typeName, domain := "", inputs, outputs := [id],
      attributes := kind.attributes }
  return (id,
    { b with
      infos := b.infos.insert id info
      producers := b.producers.insert id b.nodes.length
      consumed := b.consumed.insertMany inputs
      nodes := b.nodes ++ [node] })

/-- The values of a constant that an op needs to know its shape. -/
def constantValues (b : Builder) (op input : String) (id : TensorId) : Outcome (List Int) := do
  let _ ← b.info id
  match b.constants.get? id with
  | some value => return value.data.toInts.map Int64.toInt
  | none => .shape (.valueNeeded op input id)

/-- Limits the values of a tensor. -/
def clip (x : TensorId) (min max : Single) : BuilderM TensorId :=
  if max.lt min then Stateful.fail (.shape (.clipBounds min max)) else addOp (.unary (.clip min max)) [x]

/-- The extents that a reshape target stands for: zero copies the extent of the source at its place, and the
first `-1` is left open. -/
def openExtents (source : Shape) (target : List Int) : List (Int × Nat) → Bool → Outcome (List (Option Int))
  | [], _ => .ok []
  | (d, i) :: rest, opened => do
    if d = 0 then
      let extent ← Outcome.orFail source[i]? (.shape (.reshapeCopies i source))
      return some extent :: (← openExtents source target rest opened)
    else if d = -1 ∧ opened = false then return none :: (← openExtents source target rest true)
    else if 0 < d then return some d :: (← openExtents source target rest opened)
    else .shape (.reshapeTarget target)

/-- The shape that a reshape target stands for: what is open takes up the rest of the elements. -/
def reshapeTarget (source : TensorInfo) (target : List Int) : Outcome Shape := do
  let extents ← openExtents source.shape target target.zipIdx false
  if extents.contains none then
    let known ← Word.signedProduct (extents.map (·.getD 1))
    let total := Word.toSigned (← source.counted)
    if known = 0 ∨ Int.tmod total known ≠ 0 then .shape (.reshapeInfers target source.shape)
    else
      let rest ← Word.int (Int.tdiv total known)
      return extents.map (·.getD rest)
  else return extents.map fun d => d.getD 1

/-- Gives a tensor another shape. -/
def reshapeTo (x : TensorId) (target : List Int) : BuilderM TensorId := do
  let b ← get
  let shape ← Stateful.lift (do reshapeTarget (← b.info x) target)
  addOp (.reshape shape) [x]

/-- Gives a tensor the shape that a constant holds. -/
def reshape (x shape : TensorId) : BuilderM TensorId := do
  let b ← get
  let target ← Stateful.lift (b.constantValues "Reshape:5" "shape" shape)
  modify (·.consume shape)
  reshapeTo x target

/-- Puts the axes into another order; without one, into the reverse order. -/
def transpose (x : TensorId) (perm : List Int) : BuilderM TensorId := do
  if perm.isEmpty then
    let b ← get
    let info ← Stateful.lift (b.info x)
    addOp (.transpose ((List.range info.rank).reverse.map Int.ofNat)) [x]
  else addOp (.transpose perm) [x]

/-- Takes a part of a tensor; without axes, of the first ones. -/
def sliceTo (x : TensorId) (starts ends : List Int) (axes : Option (List Int)) : BuilderM TensorId :=
  addOp (.slice starts ends (axes.getD ((List.range starts.length).map Int.ofNat))) [x]

/-- Takes the part of a tensor that constants name. -/
def slice (x starts ends : TensorId) (axes : Option TensorId) : BuilderM TensorId := do
  let b ← get
  let starts' ← Stateful.lift (b.constantValues "Slice:10" "starts" starts)
  let ends' ← Stateful.lift (b.constantValues "Slice:10" "ends" ends)
  let axes' ← Stateful.lift (axes.mapM fun id => b.constantValues "Slice:10" "axes" id)
  modify fun b => ([starts, ends] ++ axes.toList).foldl consume b
  sliceTo x starts' ends' axes'

/-! ## The finished model -/

/-- A tensor with its info. -/
def named (b : Builder) (id : TensorId) : Outcome NamedInfo := do return ⟨id, ← b.info id⟩

/-- The model, which needs an output and must read all its inputs. -/
def model (b : Builder) : Outcome Model := do
  if b.outputs.isEmpty then .graph .noOutputs
  else
    match b.outputs.find? fun o => !b.infos.contains o with
    | some output => .graph (.missingOutput output)
    | none =>
      match b.inputs.find? fun i => !b.consumed.contains i && !b.outputs.contains i with
      | some input => .graph (.unconsumedInput input)
      | none =>
        let computed := (b.nodes.filter fun n => n.opType != "Constant").flatMap (·.outputs)
        return {
          name := b.name, nodes := b.nodes, inputs := ← b.inputs.mapM b.named,
          outputs := ← b.outputs.mapM b.named, initializers := b.initializers,
          valueInfo := ← computed.mapM b.named }

end Builder

end TensorGraph
