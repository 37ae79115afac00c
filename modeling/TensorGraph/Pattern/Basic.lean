import TensorGraph.Graph.Edit

/-!
Editing of a graph by patterns. Beside the graph an editor counts, for every op, how often its surroundings
have changed, so that a pattern that did not apply is tried again only after a change. Patterns are local changes of a
graph around one op; sets of them are in the order in which they are tried.
-/
namespace TensorGraph

/-! ## Editing -/

/-- A graph that is being edited, with the number of changes around each op. -/
structure Editor where
  graph : Graph
  versions : Dict OpId Nat := .empty

/-- A call on a graph that is being edited. -/
abbrev EditM := Stateful Editor

namespace Editor

/-- The number of changes around an op. -/
def version (r : Editor) (op : OpId) : Nat := (r.versions.get? op).getD 0

/-- Counts a change around an op. -/
def bump (r : Editor) (op : OpId) : Editor :=
  { r with versions := r.versions.insert op (r.version op + 1) }

/-- Counts a change around the ops that consume a tensor. -/
def bumpUsers (r : Editor) (id : TensorId) : Editor := (r.graph.consumers id).foldl bump r

/-- Counts a change around the op that produces a tensor. -/
def bumpProducer (r : Editor) (id : TensorId) : Editor := (r.graph.producer? id).toList.foldl bump r

/-- Forgets the count of an op. -/
def forget (r : Editor) (op : OpId) : Editor := { r with versions := r.versions.erase op }

/-- Runs a change of the graph. -/
def onGraph {α : Type} (x : GraphM α) : EditM α := x.focus Editor.graph fun g r => { r with graph := g }

/-- Removes an op; its results stay behind for another op to produce. -/
def detach (op : Op) : EditM Unit := do
  let removed ← onGraph (Stateful.change fun g => g.detachOp op.id)
  modify fun r => (removed.outputs.foldl bumpUsers r).forget op.id

/-- Removes an op and its results. -/
def erase (op : Op) : EditM Unit := do
  let removed ← onGraph (Stateful.change fun g => g.eraseOp op.id)
  modify fun r => (removed.inputs.foldl bumpProducer r).forget op.id

/-- Inserts an op in the place of `template`, under the name `output`. -/
def insertAs (template : Op) (kind : OpKind) (inputs : List TensorId) (output : TensorId) :
    EditM Unit := do
  let id ← onGraph (Stateful.change fun g => g.addOp kind inputs [output] template.phase)
  modify fun r =>
    { r with
      graph := r.graph.modifyOp id fun op =>
        { op with
          virtualGraph := template.virtualGraph
          forwardOp := template.forwardOp
          excluded := template.excluded } }
  modify fun r => (inputs.foldl bumpProducer r).bumpUsers output

/-- Inserts an op in the place of `template`, under a fresh name. -/
def insertBeside (template : Op) (kind : OpKind) (inputs : List TensorId) : EditM TensorId := do
  let base ← template.output
  let output ← onGraph (Stateful.change fun g => .ok (g.tempId base))
  insertAs template kind inputs output
  return output

/-- Lets every consumer of `old` read `new`. -/
def replaceAllUses (old new : TensorId) : EditM Unit := do
  let users := (← get).graph.consumers old
  onGraph (Graph.replaceAllUses old new)
  modify fun r => users.foldl bump r

end Editor

/-! ## Patterns -/

/-- A local change of the graph around one op. -/
structure Pattern where
  name : String
  /-- Patterns of greater benefit are tried first. -/
  benefit : Nat := 1
  /-- Whether the pattern may apply to an op, judged by the op alone. -/
  applies : Op → Bool
  /-- Changes the graph around the op, or leaves it as it is and says so. -/
  attempt : Op → EditM Bool

namespace Pattern

/-- The order in which patterns are tried: by falling benefit, and as they were given among equals. -/
def ordered (patterns : List Pattern) : List Pattern :=
  patterns.mergeSort fun a b => b.benefit ≤ a.benefit

/-- The patterns that may apply to an op, with their positions; the op may exclude some by name. -/
def candidates (patterns : List Pattern) (op : Op) : List (Pattern × Nat) :=
  patterns.zipIdx.filter fun (p, _) => !op.excluded.contains p.name && p.applies op

end Pattern

end TensorGraph
