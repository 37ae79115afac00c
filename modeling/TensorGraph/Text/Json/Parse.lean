import TensorGraph.Collection.Dict
import TensorGraph.Text.Json.Token

/-!
Documents from JSON texts. Tokens are taken one after the other, with a stack of the lists and objects that are
not at their end yet. Of members with one name the last counts.
-/
namespace TensorGraph.Json

/-- A list or an object before its end, with what it has so far, the last first; an object waits for the value of
a name. -/
inductive Partial where
  | arr (items : List Json)
  | obj (members : List (String × Json)) (name : String)

/-- What comes next, inside of the given lists and objects, the innermost first. -/
inductive Expected where
  | value (around : List Partial)
  | firstItem (around : List Partial)
  | member (around : List Partial) (members : List (String × Json))
  | colon (around : List Partial) (members : List (String × Json)) (name : String)
  | rest (around : List Partial) (done : Json)

namespace Expected

/-- An object of members of which the last stands first. -/
def closeObject (members : List (String × Json)) : Json := .obj (Dict.ofList members.reverse).entries

/-- Takes the first token of a value. -/
def begin? (around : List Partial) : Token → Option Expected
  | .value j => some (.rest around j)
  | .mark '[' => some (.firstItem around)
  | .mark '\x7b' => some (.member around [])
  | _ => none

/-- Takes the token behind a value. -/
def goOn? (done : Json) : List Partial → Token → Option Expected
  | .arr items :: around, .mark ',' => some (.value (.arr (done :: items) :: around))
  | .arr items :: around, .mark ']' => some (.rest around (.arr (done :: items).reverse))
  | .obj members name :: around, .mark ',' => some (.member around ((name, done) :: members))
  | .obj members name :: around, .mark '\x7d' => some (.rest around (closeObject ((name, done) :: members)))
  | _, _ => none

/-- Takes a token. -/
def step? : Expected → Token → Option Expected
  | .value around, t => begin? around t
  | .firstItem around, .mark ']' => some (.rest around (.arr []))
  | .firstItem around, t => begin? (.arr [] :: around) t
  | .member around [], .mark '\x7d' => some (.rest around (.obj []))
  | .member around members, .value (.str name) => some (.colon around members name)
  | .colon around members name, .mark ':' => some (.value (.obj members name :: around))
  | .rest around done, t => goOn? done around t
  | _, _ => none

end Expected

/-- The document that a text stands for. -/
def parse? (text : String) : Option Json := do
  match ← (← tokens? text).foldlM Expected.step? (.value []) with
  | .rest [] done => some done
  | _ => none

end TensorGraph.Json
