import TensorGraph.Collection.Dict
import TensorGraph.Collection.SortedSet
import TensorGraph.Error.Basic
import TensorGraph.Wire.Basic

/-!
Paths: texts of names divided by slashes, which say step by step where to go. A single dot stays in the directory
where it is met, a double dot goes to the one that it is in. In a store of files a path is walked step by step,
and only from directories; a file is written only into a directory that is there.
-/
namespace TensorGraph

/-! ## Paths -/

namespace Path

/-- The number of bytes that a path may have. -/
def maxLength : Nat := 4095

/-- The number of bytes that a name may have. -/
def maxNameLength : Nat := 255

/-- Whether a path is not too long and free of zero characters. -/
def isUsable (path : String) : Bool := path.utf8ByteSize ≤ maxLength && !path.toList.contains '\x00'

/-- Whether a path starts at the topmost directory. -/
def isAbsolute (path : String) : Bool := path.toList.head? == some '/'

/-- Whether a path ends with a slash. -/
def endsInSlash (path : String) : Bool := path.toList.getLast? == some '/'

/-- The steps of a path as they are written; between two slashes in a row there is none. -/
def steps (path : String) : List String := ((path.toList.splitOn '/').map String.ofList).filter (· ≠ "")

/-- The steps of a path that lead elsewhere. -/
def moves (path : String) : List String := (steps path).filter (· ≠ ".")

/-- The steps of a walk to what a path names: a slash at the end asks for a directory, as a dot behind it
would. -/
def walk (path : String) : List String := if endsInSlash path then steps path ++ ["."] else steps path

/-- The text of a name behind the text of a directory. -/
def join (dir name : String) : String := if dir.isEmpty || endsInSlash dir then dir ++ name else dir ++ "/" ++ name

end Path

/-- A place that paths lead to: the names on the way to it from the directory where relative paths start. Double
dots in front lead to the directories around that one, and a slash in front to the topmost. -/
abbrev Place := List String

namespace Place

/-- Where a path starts. -/
def start (path : String) : Place := if Path.isAbsolute path then ["/"] else []

/-- Whether the place is a directory that is always there: the one where paths start, or one around it. -/
def isGiven (p : Place) : Bool := p == ["/"] || p.all (· == "..")

/-- The directory that a place is in; the topmost one is in itself. -/
def parent (p : Place) : Place :=
  if p = ["/"] then p
  else if p.isGiven then p ++ [".."]
  else p.dropLast

/-- Where a step leads from a directory; a name that is too long leads nowhere. -/
def step? (p : Place) (name : String) : Option Place :=
  if name = "." then some p
  else if name = ".." then some p.parent
  else if name.utf8ByteSize ≤ Path.maxNameLength then some (p ++ [name])
  else none

end Place

/-! ## Contents -/

/-- Files and directories, by their places. -/
structure Files where
  contents : Dict Place Bytes := .empty
  directories : SortedSet Place := .empty

namespace Files

/-- Whether a place is a directory. -/
def isDirectory (f : Files) (p : Place) : Bool := p.isGiven || f.directories.contains p

/-- Where a walk from a place ends; every place that it goes on from must be a directory. -/
def walk? (f : Files) : Place → List String → Option Place
  | p, [] => some p
  | p, name :: rest => if f.isDirectory p then (p.step? name).bind (f.walk? · rest) else none

/-- The place that a path leads to. There may be nothing there yet. -/
def locate? (f : Files) (path : String) : Option Place :=
  if Path.isUsable path then f.walk? (.start path) (Path.walk path) else none

/-- The bytes of a file. -/
def read? (f : Files) (path : String) : Option Bytes := (f.locate? path).bind f.contents.get?

/-- Whether a path leads to a file or a directory. -/
def contains (f : Files) (path : String) : Bool :=
  (f.locate? path).any fun p => f.isDirectory p || f.contents.contains p

/-- Writes a file, in place of one that was there. -/
def write (f : Files) (path : String) (bytes : Bytes) : Outcome Files := do
  let p ← Outcome.orFail (f.locate? path) .files
  if f.isDirectory p then .fail .files
  else return { f with contents := f.contents.insert p bytes }

/-- Makes a directory at a place unless there is one; a file is in the way. -/
def ensureDirectory (f : Files) (p : Place) : Outcome Files :=
  if f.isDirectory p then .ok f
  else if f.contents.contains p then .fail .files
  else .ok { f with directories := f.directories.insert p }

/-- Makes the directories that the first steps of a walk lead to, first that of a single step. -/
def makeAlong (start : Place) (steps : List String) : Stateful Files Unit :=
  (List.range steps.length).forM fun i => Stateful.change fun f => do
    let p ← Outcome.orFail (f.walk? start (steps.take (i + 1))) .files
    return ((), ← f.ensureDirectory p)

/-- Makes the directories on the way to what a path names. -/
def makeParents (path : String) : Stateful Files Unit := do
  if !Path.isUsable path then Stateful.fail .files
  makeAlong (.start path) (Path.moves path).dropLast

/-- Makes a directory and all those on the way to it. Behind a slash a single dot as the last step asks for a
directory that is there already. -/
def makeDirectory (path : String) : Stateful Files Unit := do
  makeParents path
  if (Path.steps path).getLast? = some "." then
    if !(((← get).locate? path).any (← get).isDirectory) then Stateful.fail .files
  else makeAlong (.start path) (Path.moves path)

/-- Removes a file, which must be there. -/
def remove (f : Files) (path : String) : Outcome Files := do
  let p ← Outcome.orFail ((f.locate? path).filter f.contents.contains) .files
  return { f with contents := f.contents.erase p }

/-- The name of a place in a directory. -/
def nameIn (dir p : Place) : Option String := if p.dropLast = dir then p.getLast? else none

/-- The names of what is in a directory, ascending. -/
def list? (f : Files) (path : String) : Option (List String) := do
  let dir ← f.locate? path
  guard (f.isDirectory dir)
  return (SortedSet.ofList ((f.contents.keys ++ f.directories.toList).filterMap (nameIn dir))).toList

end Files

end TensorGraph
