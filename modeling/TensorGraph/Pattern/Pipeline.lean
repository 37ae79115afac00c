import TensorGraph.Graph.DeadOps
import TensorGraph.Pattern.Greedy
import TensorGraph.Pattern.Selection

/-!
Passes over a graph and pipelines of them. The pipeline of a selection applies patterns and removes what is dead
until nothing changes or a number of rounds is used up, and then marks ops to run in place.
-/
namespace TensorGraph

/-- Applies the patterns and then, if asked to, removes what is dead; how often one applied, and the number of
removed ops. Without patterns nothing is done. -/
def Greedy.run (patterns : List Pattern) (budget : Nat) (clean : Bool) : BuildM (Nat × Nat) := do
  if patterns.isEmpty then return (0, 0)
  else
    let applied ← Greedy.exhaust patterns budget
    let removed ← if clean then BuildM.onGraph Graph.removeDead else pure 0
    return (applied, removed)

/-- A pass over a graph. -/
structure Pass where
  name : String
  run : BuildM PassStats

namespace Pass

/-- Applies patterns as long as one applies. -/
def applyPatterns (patterns : List Pattern) : Pass where
  name := "rewrite-patterns"
  run := do
    let (n, _) ← Greedy.run patterns Greedy.unlimited false
    return { changed := n ≠ 0, iterations := n, edits := n }

/-- Removes dead ops. -/
def deadOps : Pass where
  name := "dce"
  run := do
    let n ← BuildM.onGraph Graph.removeDead
    return { changed := n ≠ 0, erased := n }

/-- Marks ops that may run in place. -/
def inPlace : Pass where
  name := "inplace"
  run := do
    let n ← BuildM.onGraph Graph.markInPlace
    return { changed := n ≠ 0, edits := n }

/-- Runs a pass and reports what it did. -/
def runReported (p : Pass) : BuildM PassStats := do
  let stats ← p.run
  BuildM.report (.passStats p.name stats)
  return stats

/-- Runs passes one after the other. -/
def runAll (passes : List Pass) : BuildM PassStats :=
  passes.foldlM (fun total p => do return total.merge (← p.runReported)) {}

/-- Runs passes over and over, at most `limit` times, until they change nothing. -/
def runUntilStable (passes : List Pass) : Nat → BuildM PassStats
  | 0 => return {}
  | limit + 1 => do
    let stats ← runAll passes
    if stats.changed then return stats.merge (← runUntilStable passes limit) else return stats

end Pass

/-- A stage of a pipeline. -/
inductive Stage where
  | once (pass : Pass)
  | untilStable (limit : Nat) (passes : List Pass)

namespace Stage

/-- Passes to run until they change nothing: at least once, and at most `limit` times. -/
def fixedPoint (limit : Nat) (passes : List Pass) : Stage := .untilStable (max limit 1) passes

/-- Runs a stage. -/
def run : Stage → BuildM PassStats
  | once pass => pass.runReported
  | untilStable limit passes => Pass.runUntilStable passes limit

end Stage

/-- The stages that a selection of patterns asks for. -/
def Selection.pipeline (s : Selection) (r : PatternRegistry) (backend : Option Backend) (limit : Nat) :
    List Stage :=
  let patterns := s.patterns r backend
  let applying := if patterns.isEmpty then [] else [Pass.applyPatterns patterns]
  [.fixedPoint limit (applying ++ [Pass.deadOps])] ++
    if s.isEnabled .inPlace then [.once Pass.inPlace] else []

/-- Runs the stages of a pipeline one after the other. -/
def Stage.runAll (stages : List Stage) : BuildM PassStats :=
  stages.foldlM (fun total s => do return total.merge (← s.run)) {}

/-- How often a pipeline applies patterns and removes what is dead where nothing else is set. -/
def Stage.defaultLimit : Nat := 8

end TensorGraph
