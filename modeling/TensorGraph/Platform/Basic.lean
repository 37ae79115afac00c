import TensorGraph.Device.Rack
import TensorGraph.Engine.Cache
import TensorGraph.Gradient.Rule
import TensorGraph.Pattern.Selection

/-!
The platform that sessions share: files and compiled programs, racks of devices, and the patterns and gradient
rules that were registered.
-/
namespace TensorGraph

/-- What sessions share. -/
structure Platform where
  store : EngineStore := {}
  racks : List Rack := []
  patterns : PatternRegistry := .empty
  rules : GradRegistry := .empty

/-- A call on the platform. -/
abbrev PlatformM := Stateful Platform

/-- A device and the number of the rack that it stands in. -/
structure PlacedDevice where
  rack : Nat
  device : Device
deriving DecidableEq, Repr

namespace Platform

/-- The rack with a number; where there is none, one without devices. -/
def rack (p : Platform) (n : Nat) : Rack := p.racks.getD n { devices := [] }

/-- Adds a rack; its number. -/
def addRack (p : Platform) (r : Rack) : Nat × Platform := (p.racks.length, { p with racks := p.racks ++ [r] })

/-- Adds a device in a rack of its own. -/
def addDevice (p : Platform) (d : Device) : PlacedDevice × Platform :=
  let (rack, p) := p.addRack (.single d)
  (⟨rack, d⟩, p)

/-- Changes a rack. -/
def onRack {α : Type} (n : Nat) (x : RackM α) : PlatformM α :=
  x.focus (·.rack n) fun r p => { p with racks := p.racks.set n r }

/-- Runs a call on files and compiled programs. -/
def onStore {α : Type} (x : EngineStoreM α) : PlatformM α :=
  x.focus Platform.store fun s p => { p with store := s }

/-- Takes a device into use; whether a lease was taken. -/
def lease (d : PlacedDevice) : PlatformM Bool := onRack d.rack (Stateful.change fun r => r.lease d.device)

/-- Gives a leased device back. -/
def endLease (d : PlacedDevice) : PlatformM Unit := onRack d.rack (modify (·.endLease d.device))

end Platform

end TensorGraph
