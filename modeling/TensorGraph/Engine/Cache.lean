import TensorGraph.Diagnostic
import TensorGraph.Engine.Executable
import TensorGraph.Platform.Files

/-!
Artifacts: programs as they are kept in files. Before the program stand a magic, a version, and what the program
was compiled for. The cache of compiled programs has the most recently used ones in memory, and all of them in files. A
program is found under its key, and only for the graph it was compiled from.
-/
namespace TensorGraph

/-! ## Artifacts -/

/-- What a kept program was compiled for. -/
structure ArtifactHeader where
  key : UInt64
  graphHash : UInt64
  streamNames : List TensorId
deriving DecidableEq, Repr

instance : Wire ArtifactHeader where
  put h := put h.key ++ put h.graphHash ++ put h.streamNames
  get := do return ⟨← Wire.get, ← Wire.get, ← Wire.get⟩

namespace Artifact

/-- The first bytes of every artifact: `FGEXE` and three zero bytes. -/
def magic : Bytes := [0x46, 0x47, 0x45, 0x58, 0x45, 0x00, 0x00, 0x00]

/-- The version of the byte format. -/
def formatVersion : UInt32 := 1

/-- The header of a program that is kept under a key. -/
def header (key : UInt64) (e : Executable) : ArtifactHeader := ⟨key, e.graphHash, e.streamNames⟩

/-- The bytes of a program that is kept under a key. -/
def toBytes (key : UInt64) (e : Executable) : Bytes :=
  magic ++ put formatVersion ++ put (header key e) ++ put e

/-- Reads a program and its header. -/
def ofBytes (bytes : Bytes) : Outcome (ArtifactHeader × Executable) :=
  if bytes.length < magic.length + 4 ∨ bytes.take magic.length ≠ magic then .fail (.cache .badMagic)
  else
    let version := Wire.ofLittle ((bytes.drop magic.length).take 4)
    if version ≠ formatVersion.toNat then .fail (.cache (.version version))
    else .orFail (Wire.decode? (bytes.drop (magic.length + 4))) (.cache .undecodable)

end Artifact

/-! ## Caches -/

/-- The programs in memory, the last used first. -/
abbrev RecentEngines := List (UInt64 × Executable)

namespace RecentEngines

/-- How many programs stay in memory. -/
def capacity : Nat := 64

/-- Puts a program in front of the others; the one that was not used for longest may drop out. -/
def insert (r : RecentEngines) (key : UInt64) (e : Executable) : RecentEngines :=
  ((key, e) :: r.filter (·.1 ≠ key)).take capacity

/-- The program under a key, which then counts as the last used one. -/
def use (r : RecentEngines) (key : UInt64) : Option Executable × RecentEngines :=
  match r.lookup key with
  | some e => (some e, r.insert key e)
  | none => (none, r)

end RecentEngines

/-- Where compiled programs are kept. -/
structure EngineStore where
  files : Files := {}
  recent : RecentEngines := []

/-- A call on the cache. -/
abbrev EngineStoreM := Stateful EngineStore

namespace EngineStore

/-- The path of the file of a program. -/
def pathOf (dir : String) (key : UInt64) : String := Path.join dir (Text.hex64 key ++ ".fgexe")

/-- Runs a change of the files. -/
def onFiles {α : Type} (x : Stateful Files α) : EngineStoreM α :=
  x.focus EngineStore.files fun f s => { s with files := f }

/-- Writes the file of a program, and makes the directories on the way to it. -/
def writeArtifact (dir : String) (key : UInt64) (e : Executable) : EngineStoreM Unit := do
  onFiles (Files.makeParents (pathOf dir key))
  onFiles (Stateful.change fun f => do return ((), ← f.write (pathOf dir key) (Artifact.toBytes key e)))

/-- Keeps a program in memory. -/
def remember (key : UInt64) (e : Executable) : EngineStoreM Unit :=
  modify fun s => { s with recent := s.recent.insert key e }

/-- Keeps a program in memory and in a file; the path of the file. -/
def store (dir : String) (key : UInt64) (e : Executable) : EngineStoreM String := do
  onFiles (Files.makeDirectory dir)
  writeArtifact dir key e
  remember key e
  return pathOf dir key

/-- The program in memory under a key. -/
def useRecent (key : UInt64) : EngineStoreM (Option Executable) := do
  let (found, recent) := (← get).recent.use key
  modify fun s => { s with recent }
  return found

/-- Reads the program in a file, which must be what is wanted. -/
def readArtifact (dir : String) (key graphHash : UInt64) (streamNames : List TensorId) :
    EngineStoreM Executable := do
  let bytes ← Outcome.orFail ((← get).files.read? (pathOf dir key)) .files
  let (header, e) ← Artifact.ofBytes bytes
  if header ≠ ⟨key, graphHash, streamNames⟩ ∨ e.graphHash ≠ graphHash then
    Stateful.fail (.cache (.mismatch (pathOf dir key) header.key header.graphHash key graphHash))
  remember key e
  return e

/-- Looks for a program in memory, where it must be for the same graph, and then in its file. A program that is
found in memory gets back a file that is gone. -/
def lookup (dir : String) (key graphHash : UInt64) (streamNames : List TensorId) :
    EngineStoreM (Option Executable) := do
  -- in memory the names of the streams are not compared, in a file they are
  match (← useRecent key).filter (·.graphHash = graphHash) with
  | some e =>
    if !(← get).files.contains (pathOf dir key) then writeArtifact dir key e
    return some e
  | none =>
    if (← get).files.contains (pathOf dir key) then
      return some (← readArtifact dir key graphHash streamNames)
    else return none

/-- The report of a look-up. -/
def lookupReport (key : UInt64) (found : Option Executable) : Diagnostic :=
  if found.isSome then .cacheHit key else .cacheMiss key

end EngineStore

end TensorGraph
