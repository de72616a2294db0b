import ForeignPasses.Exec.Basic
import ForeignPasses.Text.Utf8

/-!
# Registration

Passes and analyses enter the registry of their kind. Foreign code hands over names as bytes and
keys that may be null; beyond the boundary a refusal ends everything.
-/

namespace ForeignPasses.Exec

variable {σ : Type}

/-- Changes the registry of a kind, and writes a line if it is not refused. -/
def enter (kind : Kind) (line : String) (register : Registry → Except BoundaryError Registry) :
    Exec σ (Except BoundaryError Unit) := do
  match register ((← shared).registry kind) with
  | .ok r =>
    debug line
    modifyShared (·.setRegistry kind r)
    return .ok ()
  | .error e => return .error e

def enterPass (kind : Kind) (name : String) (entry : Entry) :
    Exec σ (Except BoundaryError Unit) :=
  enter kind ("registered " ++ kind.name ++ " pass `" ++ name ++ "`") (·.addPass name entry)

def enterAnalysis (kind : Kind) (key : Key) (entry : Entry) :
    Exec σ (Except BoundaryError Unit) :=
  enter kind ("registered " ++ kind.name ++ " analysis " ++ key.name)
    (·.addAnalysis key entry)

def orFatal {α : Type} : Except BoundaryError α → Exec σ α
  | .ok a => return a
  | .error e => fatal e

/-- The name that bytes stand for; bytes that are not UTF-8 stand for no name. -/
def nameOf (bytes : ByteArray) : String := (Text.decode? bytes).getD ""

def boundaryPass (kind : Kind) (name : ByteArray) (entry : Entry) : Exec σ Unit := do
  orFatal (← enterPass kind (nameOf name) entry)

def boundaryAnalysis (kind : Kind) (key : Option Key) (entry : Entry) : Exec σ Unit := do
  match key with
  | none => fatal .nullKey
  | some key => orFatal (← enterAnalysis kind key entry)

end ForeignPasses.Exec
