import TensorGraph.Diagnostic
import TensorGraph.Graph.Basic

/-!
Calls that change a graph and report what they did.
-/
namespace TensorGraph

/-- A graph together with the reports of the calls that made it what it is, the last one last. -/
structure Build where
  graph : Graph := {}
  log : List Diagnostic := []

/-- A call on a graph that reports. -/
abbrev BuildM := Stateful Build

namespace BuildM

/-- A call that reports nothing. -/
def onGraph {α : Type} (x : GraphM α) : BuildM α := x.focus Build.graph fun g b => { b with graph := g }

/-- Reports something. -/
def report (d : Diagnostic) : BuildM Unit := modify fun b => { b with log := b.log ++ [d] }

end BuildM

end TensorGraph
