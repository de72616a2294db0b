import ForeignPasses.Manager.Lookup

/-!
# Registering analyses

The first analysis under a key stays. A later one is refused, and what it holds is released before
the refusal is reported.
-/

namespace ForeignPasses

open Exec

namespace Access

variable {σ β S Q : Type} {A : Q → Type} [Owner S] (access : Access σ β S Q A)

def registerAt (key : Key) (analysis : Analysis S) : Exec σ Bool := do
  if (← access.held).isRegistered key then
    discard analysis
    return false
  else
    access.modifyHeld fun m ↦ { m with analyses := m.analyses.insert key ⟨analysis, false⟩ }
    return true

/-- Registers an analysis under the identity that its flavour resolves to. -/
def register (f : Flavour) (analysis : Analysis S) : Exec σ Bool := do
  access.registerAt (← f.resolve access.kind) analysis

/-- Registers a foreign analysis under a key. -/
def registerForeign (key : Key) (entry : Entry) (context : Opaque String) : Exec σ Bool :=
  withKey access.kind key do
    let registered ← access.register .foreign (.foreign entry context)
    debug (access.kind.name ++ " analysis " ++ key.name ++ " registered into manager: " ++
      toString registered)
    return registered

/-- The same from beyond the boundary. The context is adopted before the key is looked at. -/
def boundaryRegister (key : Option Key) (entry : Entry) (context : Handed String) :
    Exec σ Bool := do
  let context ← adopt context
  match key with
  | none => fatal .nullKey
  | some key => boundary (access.registerForeign key entry context)

end Access

namespace Tier

variable {β I S : Type} [Owner S] (tier : Tier β I S)

def registerNative (index : Nat) (entry : Entry) : Exec (Manager S) Bool :=
  tier.access.register (.native index) (.native entry)

/-- Attaches a manager of the inner level. -/
def attach (inner : S) : Exec (Manager S) Bool :=
  tier.access.register .attached (.attached inner)

def registerAll : List (Key × Entry) → Exec (Manager S) Unit
  | [] => return
  | (key, entry) :: rest => do
    let _ ← tier.access.registerForeign key entry .null
    registerAll rest

/-- Registers every analysis that the registry knows. -/
def enrolRegistry : Exec (Manager S) Unit := do
  tier.registerAll ((← shared).registry tier.kind).analyses.entries

/-- Answers the questions of a callback that fills a manager. -/
def answerEnrol : (q : Enrol) → Exec (Manager S) q.Answer
  | .say text => note text
  | .register key entry context => tier.access.boundaryRegister key entry context

end Tier

end ForeignPasses
