import TensorGraph.Interchange.Graph
import TensorGraph.Pattern.Pipeline

/-!
The JSON forms of diagnostics, of pass statistics and of selections of patterns.
-/
namespace TensorGraph

instance : ToJson Diagnostic := ⟨fun d => .str d.text⟩

instance : ToJson PassStats where
  toJson s :=
    .obj [("changed", toJson s.changed), ("iterations", toJson s.iterations), ("rewrites", toJson s.edits),
      ("erased", toJson s.erased)]

instance : ToJson LogLevel := ⟨fun l => .str l.label⟩

instance : OfJson LogLevel where
  ofJson j := do LogLevel.parse (← ofJson j)

instance : OfJson Subsystem where
  ofJson j := do
    let s : String ← ofJson j
    Outcome.promised (Subsystem.all.find? fun p => p.label == s)

instance : OfJson Diagnostic where
  ofJson j := do
    match ← j.get "type" with
    | "PassStats" =>
      return .passStats (← j.get "pass")
        { changed := ← j.get "changed", iterations := ← j.get "iterations", edits := ← j.get "rewrites"
          erased := ← j.get "erased" }
    | "PatternApplied" => return .patternApplied (← j.get "pattern") (← j.get "op")
    | "GradientsSynthesized" => return .gradientsAdded (← j.get "grad_ops") (← j.get "var_updates")
    | "Partitioned" => return .placed (← j.get "stages") (← j.get "virtual_graphs")
    | "DeviceAttached" => return .deviceAttached (← j.get "id")
    | "DeviceDetached" => return .deviceDetached (← j.get "id")
    | "StateChanged" => return .stateChanged (← j.get "from") (← j.get "to")
    | "CacheHit" => return .cacheHit (← j.get "key")
    | "CacheMiss" => return .cacheMiss (← j.get "key")
    | "CacheStored" => return .cacheStored (← j.get "key") (← j.get "path")
    | "Message" => return .message (← j.get "subsystem") (← j.get "level") (← j.get "text")
    | _ => .error .abort

instance : OfJson LogConfig where
  ofJson j := do
    let levels : List (Subsystem × LogLevel) ← j.get "levels"
    let config : LogConfig := { default := ← j.get "default" }
    return levels.foldl (fun c (s, l) => c.withLevel s l) config

/-- The patterns that a document selects by level or by names, and then switches on and off. -/
def Selection.ofJson (r : PatternRegistry) (j : Json) : Outcome Selection := do
  let base ←
    match j.optional? "patterns" with
    | none => .ok (Selection.ofLevel r .default)
    | some (.str "None") => .ok (Selection.ofLevel r .none)
    | some (.str "Default") => .ok (Selection.ofLevel r .default)
    | some (.str "All") => .ok (Selection.ofLevel r .all)
    | some names => do Selection.ofNames r (← TensorGraph.ofJson names)
  let switches : List (String × Bool) ← j.getD "enable" []
  switches.foldlM (fun s (name, on) => s.enableNamed r name on) base

end TensorGraph
