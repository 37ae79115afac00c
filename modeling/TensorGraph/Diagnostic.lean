import TensorGraph.Error.Basic
import TensorGraph.Text.Setting

/-!
What a run reports about itself: diagnostics with their wording, the part of the library they come from and the
level at which they are logged, and the settings that choose which levels are shown.
-/
namespace TensorGraph

/-! ## Levels and subsystems -/

/-- How important a message is. -/
inductive LogLevel where
  | off
  | error
  | warn
  | info
  | debug
  | trace
deriving DecidableEq, Repr

namespace LogLevel

/-- The word for the level in settings. -/
def word : LogLevel → String
  | off => "off"
  | error => "error"
  | warn => "warn"
  | info => "info"
  | debug => "debug"
  | trace => "trace"

/-- The name of the level. -/
def label : LogLevel → String
  | off => "Off"
  | error => "Error"
  | warn => "Warn"
  | info => "Info"
  | debug => "Debug"
  | trace => "Trace"

/-- Reads a level; case and blanks around it do not matter. -/
def parse (s : String) : Outcome LogLevel :=
  match Text.lower (Text.trim s) with
  | "off" => .ok off
  | "error" | "err" => .ok error
  | "warn" | "warning" => .ok warn
  | "info" => .ok info
  | "debug" => .ok debug
  | "trace" => .ok trace
  | other => .fail (.logLevel other)

end LogLevel

/-- The parts of the library that report. -/
inductive Subsystem where
  | builder
  | patterns
  | gradients
  | placement
  | device
  | session
  | cache
deriving DecidableEq, Repr

namespace Subsystem

/-- All parts, in their order. -/
def all : List Subsystem := [.builder, .patterns, .gradients, .placement, .device, .session, .cache]

/-- The name of the part. -/
def label : Subsystem → String
  | builder => "Builder"
  | patterns => "Patterns"
  | gradients => "Autodiff"
  | placement => "Partition"
  | device => "Device"
  | session => "Session"
  | cache => "Cache"

/-- The name under which messages of the part are logged. -/
def target (s : Subsystem) : String := "ferrograph::" ++ Text.lower s.label

end Subsystem

/-! ## Settings -/

/-- Which levels are shown. -/
structure LogConfig where
  default : LogLevel := .warn
  levels : Subsystem → Option LogLevel := fun _ => none

namespace LogConfig

/-- Sets the level of one part. -/
def withLevel (c : LogConfig) (s : Subsystem) (l : LogLevel) : LogConfig :=
  { c with levels := fun t => if t = s then some l else c.levels t }

/-- The level of one part. -/
def level (c : LogConfig) (s : Subsystem) : LogLevel := (c.levels s).getD c.default

/-- The settings as text: the default level, then the parts with a level of their own. -/
def directive (c : LogConfig) : String :=
  let own := Subsystem.all.filterMap fun s => (c.levels s).map fun l => s!"{s.target}={l.word}"
  ",".intercalate (c.default.word :: own)

end LogConfig

/-! ## Diagnostics -/

/-- What a pass over a graph did. -/
structure PassStats where
  changed : Bool := false
  iterations : Nat := 0
  edits : Nat := 0
  erased : Nat := 0
deriving DecidableEq, Repr

/-- What two passes did together. -/
def PassStats.merge (a b : PassStats) : PassStats where
  changed := a.changed || b.changed
  iterations := a.iterations + b.iterations
  edits := a.edits + b.edits
  erased := a.erased + b.erased

/-- A report of something that happened. -/
inductive Diagnostic where
  | passStats (pass : String) (stats : PassStats)
  | patternApplied (pattern op : String)
  | gradientsAdded (gradOps updates : Nat)
  | placed (stages virtualGraphs : Nat)
  | deviceAttached (id : Nat)
  | deviceDetached (id : Nat)
  | stateChanged (source target : String)
  | cacheHit (key : UInt64)
  | cacheMiss (key : UInt64)
  | cacheStored (key : UInt64) (path : String)
  | message (subsystem : Subsystem) (level : LogLevel) (text : String)
deriving DecidableEq, Repr

namespace Diagnostic

/-- The part of the library that reports it. -/
def subsystem : Diagnostic → Subsystem
  | passStats _ _ | patternApplied _ _ => .patterns
  | gradientsAdded _ _ => .gradients
  | placed _ _ => .placement
  | deviceAttached _ | deviceDetached _ => .device
  | stateChanged _ _ => .session
  | cacheHit _ | cacheMiss _ | cacheStored _ _ => .cache
  | message s _ _ => s

/-- The level at which it is logged. -/
def level : Diagnostic → LogLevel
  | message _ l _ => l
  | patternApplied _ _ => .trace
  | stateChanged _ _ | placed _ _ => .info
  | _ => .debug

/-- The wording. -/
def text : Diagnostic → String
  | passStats pass s =>
    s!"pass {pass}: changed={s.changed} iterations={s.iterations} rewrites={s.edits} erased={s.erased}"
  | patternApplied pattern op => s!"{pattern} applied to {op}"
  | gradientsAdded gradOps updates => s!"added {gradOps} grad ops and {updates} var updates"
  | placed stages virtualGraphs => s!"{stages} stages over {virtualGraphs} virtual graphs"
  | deviceAttached id => s!"attached to device {id}"
  | deviceDetached id => s!"detached from device {id}"
  | stateChanged source target => s!"{source} -> {target}"
  | cacheHit key => s!"engine cache hit {Text.hex64 key}"
  | cacheMiss key => s!"engine cache miss {Text.hex64 key}"
  | cacheStored key path => s!"engine {Text.hex64 key} stored at {path}"
  | message _ _ text => text

/-- The line that is logged, if any: its level, target and text. -/
def logged (d : Diagnostic) : Option (LogLevel × String × String) :=
  if d.level = .off then none else some (d.level, d.subsystem.target, d.text)

end Diagnostic

end TensorGraph
