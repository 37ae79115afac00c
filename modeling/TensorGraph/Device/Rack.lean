import TensorGraph.Collection.SortedSet
import TensorGraph.Device.Basic

/-!
Racks: slots for chips and the devices that can be made of them. A device is attached while it holds all its
slots, and leased while a session uses it alone. A device of its own kind, such as a simulator, stands in a rack
with a single slot.
-/
namespace TensorGraph

/-- Slots and the devices made of them. -/
structure Rack where
  devices : List Device
  /-- The slots in use, with the number of the device that holds them. -/
  holders : Dict Nat Nat := .empty
  /-- The devices that are leased. -/
  leased : SortedSet Nat := .empty
deriving DecidableEq

/-- A call on a rack. -/
abbrev RackM := Stateful Rack

namespace Rack

/-! ## Building racks -/

/-- The groups of `size` neighbouring slots out of `count`. -/
def groups (count size : Nat) : List (List Nat) :=
  (List.range (count / size)).map fun i => (List.range size).map (i * size + ·)

/-- The sizes of devices in a rack of `count` slots: the powers of two that fit. -/
def sizes (count : Nat) : List Nat := ((List.range (count.log2 + 1)).map (Nat.pow 2)).filter (· ≤ count)

/-- An accelerator made of some slots. -/
def accelerator (tiles : Nat) (id : Nat) (members : List Nat) : Device :=
  { type := .ipu, id, ipus := members.length, tiles, drivers := members, members }

/-- A rack of chips, with a device for every group of neighbours whose number is a power of two. The numbers of devices
and chips do not wrap around, which they would in a rack too large for 32 bits. -/
def ofChips (count tiles : Nat) : Rack where
  devices := ((sizes count).flatMap (groups count)).zipIdx.map fun (members, id) => accelerator tiles id members

/-! ## Holding slots -/

/-- Whether a slot is free. -/
def isFree (r : Rack) (slot : Nat) : Bool := !r.holders.contains slot

/-- Whether a device holds a slot. -/
def holds (r : Rack) (d : Device) (slot : Nat) : Bool := r.holders.get? slot == some d.id

/-- Whether a device holds all its slots. -/
def isAttached (r : Rack) (d : Device) : Bool := d.members.all (r.holds d)

/-- Whether a device is leased. -/
def isLeased (r : Rack) (d : Device) : Bool := r.leased.contains d.id

/-- Gives a device all its slots, if they are free. -/
def attach (r : Rack) (d : Device) : Bool × Rack :=
  if d.members.all r.isFree then
    (true, { r with holders := d.members.foldl (fun h slot => h.insert slot d.id) r.holders })
  else (false, r)

/-- Takes back the slots that a device holds. -/
def release (r : Rack) (d : Device) : Rack :=
  { r with holders := (d.members.filter (r.holds d)).foldl (fun h slot => h.erase slot) r.holders }

/-- Detaches a device, unless it is leased. -/
def detach (r : Rack) (d : Device) : Bool × Rack := if r.isLeased d then (false, r) else (true, r.release d)

/-- A rack for a device of its own kind, which is attached at once. -/
def single (d : Device) : Rack := (({ devices := [d] } : Rack).attach d).2

/-- A device and its standing, as a record. -/
def describe (r : Rack) (d : Device) : String :=
  s!"DeviceInfo \x7b type: {d.type.label}, id: {d.id}, num_ipus: {d.ipus}, tiles_per_ipu: {d.tiles}, " ++
    s!"attached: {r.isAttached d}, leased: {r.isLeased d} \x7d"

/-! ## Leases -/

/-- Whether a device is attached, if need be after attaching it. -/
def ensureAttached (r : Rack) (d : Device) : Bool × Rack :=
  if r.isAttached d then (true, r) else r.attach d

/-- Takes a device into use; says whether a lease on it was taken, which only exclusive devices have. -/
def lease (r : Rack) (d : Device) : Outcome (Bool × Rack) :=
  if d.isExclusive then
    if r.isLeased d then .fail (.deviceUnavailable (.inUse d.id))
    else
      match r.ensureAttached d with
      | (true, attached) => .ok (true, { attached with leased := attached.leased.insert d.id })
      | (false, _) => .fail (.deviceUnavailable (.attachedElsewhere d.id))
  else .ok (false, (r.ensureAttached d).2)

/-- Gives a leased device back. -/
def endLease (r : Rack) (d : Device) : Rack :=
  let released := r.release d
  { released with leased := released.leased.erase d.id }

/-! ## Finding devices -/

/-- What is asked of a device. -/
structure Request where
  ipus : Nat
  replication : Nat := 1
  pattern : SyncPattern := .full
  type : DeviceType := .ipu

/-- The number of chips that a request comes to, held within 32 bits. -/
def Request.chips (q : Request) : Nat := min (q.ipus * max q.replication 1) (UInt32.size - 1)

/-- The devices that meet a request. -/
def matching (r : Rack) (q : Request) : List Device :=
  r.devices.filter fun d => d.type == q.type && d.ipus == q.chips && q.pattern.accepts d.ipus

/-- Attaches the first device that meets a request and is free; zero tiles stand for any number. -/
def acquireAny (r : Rack) (q : Request) (tiles : Nat) : Option Device × Rack :=
  match (r.matching q).find? fun d => (tiles == 0 || d.tiles == tiles) && (r.attach d).1 with
  | some d => (some d, (r.attach d).2)
  | none => (none, r)

/-- Attaches the device with a number. -/
def acquire (r : Rack) (id : Nat) : Outcome (Device × Rack) := do
  let d ← Outcome.orFail (r.devices.find? (·.id = id)) (.config (.noDevice id))
  match r.attach d with
  | (true, attached) => return (d, attached)
  | (false, _) => .fail (.deviceUnavailable (.alreadyAttached id))

end Rack

end TensorGraph
