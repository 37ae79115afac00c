import TensorGraph.Text.Listing

/-!
What can be wrong with a graph, with a model that describes one, and with a placement of its ops, and how
each cause is worded.
-/
namespace TensorGraph

/-- A fault in the structure of a graph or of the model it is read from. -/
inductive GraphError where
  | missingAttribute (opType node field : String)
  | unsupportedOp (opType node : String)
  | constantWithoutValue (node : String)
  | constantWithoutOutput (node : String)
  | unknownInput (node input : String)
  | unproducedOutput (output : String)
  | duplicateTensor (id : String)
  | outputsNamed (op : String) (produced named : Nat)
  | alreadyProduced (id : String)
  | notInGraph (id : String)
  | opNotInGraph (op : Nat)
  | stillConsumed (op : Nat) (output : String)
  | stillConnected (id : String)
  | noTensor (id : String)
  | noOp (op : Nat)
  | renameClash (old new : String)
  | stillProduced (id : String)
  | cycle
  | notInBuilder (id : String)
  | unknownOutput (id : String)
  | noOutputs
  | missingOutput (id : String)
  | unconsumedInput (id : String)
  | notProduced (id : String)
  | optimizerMissing (id : String)
  | lossWithoutProducer (id : String)
  | updateWithoutWeight (op : String)
  | constantWithoutData (id : String)
  | inPlaceOperands (op : String)
deriving DecidableEq, Repr

namespace GraphError

/-- The wording of the cause. -/
def cause : GraphError → String
  | missingAttribute opType node field =>
    s!"{opType} node '{node}' is missing attribute '{field}'"
  | unsupportedOp opType node => s!"op type '{opType}' of node '{node}' is not supported"
  | constantWithoutValue node => s!"Constant node '{node}' has no tensor value"
  | constantWithoutOutput node => s!"Constant node '{node}' has no output"
  | unknownInput node input => s!"node '{node}' consumes unknown tensor '{input}'"
  | unproducedOutput output => s!"model output '{output}' is not produced by the graph"
  | duplicateTensor id => s!"tensor '{id}' is already in the graph"
  | outputsNamed op produced named => s!"{op} produces {produced} outputs but {named} were named"
  | alreadyProduced id => s!"tensor '{id}' already has a producer"
  | notInGraph id => s!"no tensor '{id}' in the graph"
  | opNotInGraph op => s!"no op {op} in the graph"
  | stillConsumed op output => s!"cannot erase op {op}: output '{output}' is still consumed"
  | stillConnected id => s!"tensor '{id}' is still connected"
  | noTensor id => s!"no tensor '{id}'"
  | noOp op => s!"no op {op}"
  | renameClash old new => s!"cannot rename '{old}': '{new}' already exists"
  | stillProduced id => s!"tensor '{id}' still has a producer"
  | cycle => "the graph contains a cycle"
  | notInBuilder id => s!"no tensor '{id}' in the builder"
  | unknownOutput id => s!"cannot add output '{id}': no such tensor"
  | noOutputs => "the model has no outputs"
  | missingOutput id => s!"output '{id}' does not exist"
  | unconsumedInput id => s!"input '{id}' is not consumed by any op"
  | notProduced id => s!"tensor '{id}' is not produced by a node"
  | optimizerMissing id => s!"optimizer tensor '{id}' has not been added"
  | lossWithoutProducer id => s!"loss '{id}' has no producer"
  | updateWithoutWeight op => s!"update op '{op}' has no weight input"
  | constantWithoutData id => s!"constant '{id}' has no value"
  | inPlaceOperands op => s!"in-place op '{op}' needs an input and a single output"

/-- The full wording. -/
def message (e : GraphError) : String := "invalid graph: " ++ e.cause

end GraphError

/-- A fault in the bytes of a model or in reaching them. -/
inductive ModelError where
  | badMagic
  | unsupportedVersion (version : Nat)
  | truncated
  | undecodable
  | inaccessible
deriving DecidableEq, Repr

namespace ModelError

/-- The wording. -/
def message : ModelError → String
  | badMagic => "model bytes do not start with the model magic"
  | unsupportedVersion version => s!"unsupported model format version {version} (expected 1)"
  | truncated => "model bytes truncated"
  | undecodable => "failed to decode model"
  | inaccessible => "failed to access model file"

end ModelError

/-- A fault of a placement of ops on virtual graphs. -/
inductive PlacementError where
  | tooFewSplits (found wanted : Nat)
  | unassigned (op : String)
  | outOfRange (op : String) (assigned : Int) (available : Nat)
  | backwardEdge (op : String) (assigned : Int) (producer : String)
  | emptyGraph (virtualGraph : Nat)
deriving DecidableEq, Repr

namespace PlacementError

/-- The wording of the cause. -/
def cause : PlacementError → String
  | tooFewSplits found wanted =>
    s!"Couldn't find enough splits. Found {found} stages but {wanted} virtual graphs were requested"
  | unassigned op => s!"op '{op}' is not assigned"
  | outOfRange op assigned available => s!"op '{op}' assigned to {assigned} of {available}"
  | backwardEdge op assigned producer =>
    s!"op '{op}' on {assigned} depends on '{producer}' on a later virtual graph"
  | emptyGraph virtualGraph => s!"virtual graph {virtualGraph} is empty"

/-- The full wording. -/
def message (e : PlacementError) : String := "[AutoVirtualGraph] " ++ e.cause

end PlacementError

end TensorGraph
