import TensorGraph.Number.Decimal
import TensorGraph.Text.Listing

/-!
JSON documents and their layout, in one line or over several. Numbers are kept exact: whole numbers, decimals with
their sign, and single-precision numbers, which are laid out in their shortest form.
-/
namespace TensorGraph

/-- A JSON document. The members of an object keep their order. -/
inductive Json where
  | null
  | bool (value : Bool)
  | int (value : Int)
  | decimal (negative : Bool) (magnitude : Decimal)
  | single (value : Single)
  | str (value : String)
  | arr (items : List Json)
  | obj (members : List (String × Json))
deriving Inhabited

namespace Json

/-- A natural number. -/
def nat (n : Nat) : Json := .int n

/-- A list of integers. -/
def ints (l : List Int) : Json := .arr (l.map .int)

/-- A list of texts. -/
def strs (l : List String) : Json := .arr (l.map .str)

/-- How a character stands inside a quoted text: the two marks and the control characters are escaped. -/
def escapeChar (c : Char) : String :=
  if c == '"' then "\\\""
  else if c == '\\' then "\\\\"
  else if c == '\n' then "\\n"
  else if c == '\r' then "\\r"
  else if c == '\t' then "\\t"
  else if c.toNat == 8 then "\\b"
  else if c.toNat == 12 then "\\f"
  else if c.toNat < 32 then "\\u" ++ Text.hex 4 c.toNat
  else c.toString

/-- A quoted text. -/
def quote (s : String) : String := "\"" ++ String.join (s.toList.map escapeChar) ++ "\""

/-- How deep a part of a document is indented; there is no depth in a document of one line. -/
abbrev Depth := Option Nat

namespace Depth

/-- One level deeper. -/
def inner (d : Depth) : Depth := d.map (· + 1)

/-- A line break and the indentation, two blanks for each level. -/
def newline : Depth → String
  | some n => "\n" ++ String.ofList (List.replicate (2 * n) ' ')
  | none => ""

/-- What stands between a name and its value. -/
def colon (d : Depth) : String := if d.isSome then ": " else ":"

end Depth

/-- Items between two brackets, on lines of their own; nothing stands between the brackets of an empty list. -/
def block (opening closing : String) (depth : Depth) (items : List String) : String :=
  if items.isEmpty then opening ++ closing
  else
    opening ++ depth.inner.newline ++ ("," ++ depth.inner.newline).intercalate items ++ depth.newline ++ closing

/-- A decimal with an exponent. -/
def decimalText (negative : Bool) (d : Decimal) : String :=
  (if negative then "-" else "") ++ toString d.digits ++ "e" ++ toString d.exponent

mutual

/-- The document at the given depth. -/
def layout (depth : Depth) : Json → String
  | .null => "null"
  | .bool b => if b then "true" else "false"
  | .int i => toString i
  | .decimal negative d => decimalText negative d
  | .single s => s.jsonText
  | .str s => quote s
  | .arr items => block "[" "]" depth (layoutItems depth.inner items)
  | .obj members => block "\x7b" "\x7d" depth (layoutMembers depth.inner members)

/-- The items of a list, each laid out. -/
def layoutItems (depth : Depth) : List Json → List String
  | [] => []
  | j :: rest => layout depth j :: layoutItems depth rest

/-- The members of an object, each behind its quoted name. -/
def layoutMembers (depth : Depth) : List (String × Json) → List String
  | [] => []
  | (name, j) :: rest => (quote name ++ depth.colon ++ layout depth j) :: layoutMembers depth rest

end

/-- The document over several lines. -/
def pretty (j : Json) : String := j.layout (some 0)

/-- The document in one line. -/
def compact (j : Json) : String := j.layout none

end Json

end TensorGraph
