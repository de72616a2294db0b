import ForeignPasses.Key
import ForeignPasses.Table

/-!
# Registries

A registry knows the foreign passes of one kind of unit by name and the foreign analyses by key.
Entries are only ever added; the first registration under a name or a key stays.
-/

namespace ForeignPasses

/-- Which piece of foreign code is meant. -/
abbrev Entry := Nat

/-- Why a request at the foreign boundary is refused. -/
inductive BoundaryError where
  | duplicatePass (unit name : String)
  | duplicateAnalysis (unit : String) (key : Key)
  | invalidPassName
  | nullKey
  | unregistered (unit : String) (key : Key)
  deriving DecidableEq, Repr

namespace BoundaryError

def name : BoundaryError → String
  | duplicatePass .. => "DuplicatePass"
  | duplicateAnalysis .. => "DuplicateAnalysis"
  | invalidPassName => "InvalidPassName"
  | nullKey => "NullAnalysisKey"
  | unregistered .. => "UnregisteredAnalysis"

def message : BoundaryError → String
  | duplicatePass unit name => unit ++ " pass `" ++ name ++ "` is already registered"
  | duplicateAnalysis unit key =>
    unit ++ " analysis with key " ++ key.name ++ " is already registered"
  | invalidPassName => "pass names must be non-empty UTF-8 strings"
  | nullKey => "analysis keys must not be null"
  | unregistered unit key => unit ++ " analysis with key " ++ key.name ++ " is not registered"

end BoundaryError

/-- The passes and analyses known for one kind of unit; `unit` is the kind's name in messages. -/
structure Registry where
  unit : String
  passes : Table String Entry := ∅
  analyses : Table Key Entry := ∅

namespace Registry

def addPass (r : Registry) (name : String) (entry : Entry) : Except BoundaryError Registry :=
  if name = "" then .error .invalidPassName
  else if r.passes.contains name then .error (.duplicatePass r.unit name)
  else .ok { r with passes := r.passes.insert name entry }

def addAnalysis (r : Registry) (key : Key) (entry : Entry) : Except BoundaryError Registry :=
  if r.analyses.contains key then .error (.duplicateAnalysis r.unit key)
  else .ok { r with analyses := r.analyses.insert key entry }

def pass? (r : Registry) (name : String) : Option Entry := r.passes.find? name

/-- The names in the order of their UTF-8 bytes, which is the order of their characters. -/
def names (r : Registry) : List String := r.passes.keys.mergeSort fun a b ↦ a ≤ b

end Registry

end ForeignPasses
