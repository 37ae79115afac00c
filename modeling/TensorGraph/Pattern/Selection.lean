import TensorGraph.Pattern.GradLowering
import TensorGraph.Graph.InPlace
import TensorGraph.Pattern.Structural

/-!
Which patterns are used: built-in ones, chosen by level or by name, and patterns that were registered under a
name of their own.
-/
namespace TensorGraph

/-- The built-in patterns. -/
inductive BuiltIn where
  | foldConstants
  | dropIdentity
  | toIdentity
  | lowerSubRightGrad
  | lowerMulGrad
  | lowerReciprocalGrad
  | lowerSqrtGrad
  | lowerDivLeftGrad
  | lowerDivRightGrad
  | lowerExpGrad
  | inPlace
deriving DecidableEq, Repr

namespace BuiltIn

/-- All built-in patterns, in their order. -/
def all : List BuiltIn :=
  [.foldConstants, .dropIdentity, .toIdentity, .lowerSubRightGrad, .lowerMulGrad, .lowerReciprocalGrad,
    .lowerSqrtGrad, .lowerDivLeftGrad, .lowerDivRightGrad, .lowerExpGrad, .inPlace]

/-- The pattern; marking ops to run in place is not one, as it changes no structure. Constants are folded only
where there is a backend. -/
def pattern? (backend : Option Backend) : BuiltIn → Option Pattern
  | foldConstants => backend.map Pattern.foldConstants
  | dropIdentity => some Pattern.dropIdentity
  | toIdentity => some Pattern.toIdentity
  | lowerSubRightGrad => some Pattern.lowerSubRightGrad
  | lowerMulGrad => some Pattern.lowerMulGrad
  | lowerReciprocalGrad => some Pattern.lowerReciprocalGrad
  | lowerSqrtGrad => some Pattern.lowerSqrtGrad
  | lowerDivLeftGrad => some Pattern.lowerDivLeftGrad
  | lowerDivRightGrad => some Pattern.lowerDivRightGrad
  | lowerExpGrad => some Pattern.lowerExpGrad
  | inPlace => none

/-- The name. -/
def name : BuiltIn → String
  | foldConstants => "ConstExprFold"
  | dropIdentity => "PostNRepl"
  | toIdentity => "OpToIdentity"
  | lowerSubRightGrad => "SubtractArg1GradOp"
  | lowerMulGrad => "MulArgGradOp"
  | lowerReciprocalGrad => "ReciprocalGradOp"
  | lowerSqrtGrad => "SqrtGradOp"
  | lowerDivLeftGrad => "DivArg0GradOp"
  | lowerDivRightGrad => "DivArg1GradOp"
  | lowerExpGrad => "ExpGradOp"
  | inPlace => Graph.inPlaceName

/-- The built-in pattern of a name. -/
def ofName? (s : String) : Option BuiltIn := all.find? fun p => p.name == s

end BuiltIn

/-- A pattern that was registered, and whether it is used by default. -/
structure RegisteredPattern where
  pattern : Pattern
  inDefault : Bool

/-- The registered patterns by name. -/
abbrev PatternRegistry := Dict String RegisteredPattern

/-- Registers a pattern under a name that no built-in one has. -/
def PatternRegistry.register (r : PatternRegistry) (name : String) (entry : RegisteredPattern) :
    Outcome PatternRegistry :=
  if (BuiltIn.ofName? name).isSome then .fail (.config (.builtInPattern name)) else .ok (r.insert name entry)

/-- How many patterns are used unless told otherwise. -/
inductive PatternLevel where
  | none
  | default
  | all
deriving DecidableEq, Repr

/-- The patterns to use. -/
structure Selection where
  builtIn : List BuiltIn
  registered : SortedSet String

namespace Selection

/-- The patterns of a level: the default leaves out the lowering of exponentials and what was registered so. -/
def ofLevel (r : PatternRegistry) : PatternLevel → Selection
  | .none => ⟨[], .empty⟩
  | .default =>
    ⟨BuiltIn.all.filter (· ≠ .lowerExpGrad), .ofList ((r.entries.filter (·.2.inDefault)).map (·.1))⟩
  | .all => ⟨BuiltIn.all, .ofList r.keys⟩

/-- Chooses a built-in pattern or drops it. -/
def enable (s : Selection) (p : BuiltIn) (on : Bool) : Selection :=
  { s with builtIn := BuiltIn.all.filter fun q => if q = p then on else s.builtIn.contains q }

/-- Chooses a pattern by name or drops it. -/
def enableNamed (r : PatternRegistry) (s : Selection) (name : String) (on : Bool) : Outcome Selection :=
  match BuiltIn.ofName? name with
  | some p => .ok (s.enable p on)
  | none =>
    if r.contains name then
      .ok { s with registered := if on then s.registered.insert name else s.registered.erase name }
    else .fail (.config (.unknownPattern name))

/-- The patterns of the given names. -/
def ofNames (r : PatternRegistry) (names : List String) : Outcome Selection :=
  names.foldlM (fun s name => s.enableNamed r name true) (ofLevel r .none)

/-- Whether a built-in pattern is chosen. -/
def isEnabled (s : Selection) (p : BuiltIn) : Bool := s.builtIn.contains p

/-- The chosen patterns in the order in which they are tried. -/
def patterns (s : Selection) (r : PatternRegistry) (backend : Option Backend) : List Pattern :=
  Pattern.ordered (s.builtIn.filterMap (BuiltIn.pattern? backend) ++
    s.registered.toList.filterMap fun name => (r.get? name).map (·.pattern))

end Selection

end TensorGraph
