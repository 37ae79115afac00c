import TensorGraph.Graph.Build
import TensorGraph.Graph.Order
import TensorGraph.Pattern.Basic

/-!
Greedy use of patterns. The ops are visited in the order in which they run, and on each the patterns are tried in
their order; after every success the visit starts anew. A pattern that did not apply to an op is left out until
something around the op has changed.
-/
namespace TensorGraph

namespace Greedy

/-- A search for places where patterns apply: the graph, the version of each op at which a pattern did not apply,
and the reports. -/
structure Search where
  editor : Editor
  failed : Dict OpId (Dict Nat Nat) := .empty
  log : List Diagnostic := []

/-- A call on a search. -/
abbrev SearchM := Stateful Search

namespace Search

/-- The search on a graph, before the first try. -/
def start (b : Build) : Search := { editor := { graph := b.graph }, log := b.log }

/-- The graph and the reports that a search leaves. -/
def result (s : Search) (_ : Build) : Build := { graph := s.editor.graph, log := s.log }

/-- Whether a pattern did not apply to an op at this version. -/
def hasFailed (s : Search) (op : OpId) (pattern version : Nat) : Bool :=
  ((s.failed.get? op).bind fun d => d.get? pattern) == some version

/-- Notes that a pattern did not apply. -/
def noteFailure (s : Search) (op : OpId) (pattern version : Nat) : Search :=
  { s with failed := s.failed.insert op (((s.failed.get? op).getD .empty).insert pattern version) }

/-- Notes that a pattern applied. -/
def noteSuccess (s : Search) (pattern : Pattern) (op : Op) : Search :=
  { s with failed := s.failed.erase op.id, log := s.log ++ [.patternApplied pattern.name op.name] }

end Search

/-- Runs a change of the graph. -/
def onEditor {α : Type} (x : EditM α) : SearchM α :=
  x.focus Search.editor fun r s => { s with editor := r }

/-- The ops in the order in which they run. -/
def workList : SearchM (List OpId) := do Stateful.lift (← get).editor.graph.order

/-- The first of the patterns that applies to the op. -/
def tryPatterns (op : Op) (version : Nat) : List (Pattern × Nat) → SearchM (Option Pattern)
  | [] => return none
  | (p, i) :: rest => do
    if (← get).hasFailed op.id i version then tryPatterns op version rest
    else if ← onEditor (p.attempt op) then return some p
    else
      modify (·.noteFailure op.id i version)
      tryPatterns op version rest

/-- The first op, and the pattern that applied to it. -/
def sweep (patterns : List Pattern) : List OpId → SearchM (Option (Pattern × Op))
  | [] => return none
  | id :: rest => do
    let r := (← get).editor
    match r.graph.op? id with
    | none => sweep patterns rest
    | some op =>
      match ← tryPatterns op (r.version id) (Pattern.candidates patterns op) with
      | some p => return some (p, op)
      | none => sweep patterns rest

/-- Applies patterns until none applies, at most `budget` times; how often one did. -/
def exhaustFrom (patterns : List Pattern) : Nat → List OpId → SearchM Nat
  | 0, _ => return 0
  | budget + 1, work => do
    match ← sweep patterns work with
    | none => return 0
    | some (p, op) =>
      modify (·.noteSuccess p op)
      let next ← workList
      let applied ← exhaustFrom patterns budget next
      return applied + 1

/-- The budget where none is set. -/
def unlimited : Nat := UInt64.size - 1

/-- Applies patterns, which are in the order in which they are tried, to a graph; how often one applied. -/
def exhaust (patterns : List Pattern) (budget : Nat) : BuildM Nat :=
  Stateful.focus Search.start Search.result do exhaustFrom patterns budget (← workList)

end Greedy

end TensorGraph
