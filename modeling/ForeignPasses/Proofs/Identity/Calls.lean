import ForeignPasses.Manager.Register
import Mathlib.Logic.Function.Basic

/-!
# Trees of calls

Foreign code may call the framework on any manager of either kind, and what runs on behalf of such
a call may call again. Calls are performed here in two ways: with the current identities in the
slots, where the analyses that share one type look for them, and with the identities handed down
from each call to the calls that are made inside of it.
-/

namespace ForeignPasses.Calls

open Exec

/-- What a unit of a kind holds. -/
def Content : Kind → Type
  | .module => Functions
  | .function => Body

/-- What is attached to a manager: for one of modules, the place of a manager of functions. -/
def Inner : Kind → Type
  | .module => Nat
  | .function => Empty

instance (kind : Kind) : Owner (Inner kind) := ⟨fun _ ↦ []⟩

/-- Managers of both kinds, each at a place of its own. -/
structure Heap where
  managers : (kind : Kind) → Nat → Manager (Inner kind)

def Heap.set (h : Heap) (kind : Kind) (place : Nat) (m : Manager (Inner kind)) : Heap :=
  ⟨Function.update h.managers kind (Function.update (h.managers kind) place m)⟩

@[simp] theorem Heap.managers_set (h : Heap) (kind : Kind) (place : Nat)
    (m : Manager (Inner kind)) : (h.set kind place m).managers kind place = m := by
  simp [set]

/-- A call from foreign or native code. The calls at the boundary may have the null key. -/
inductive Call where
  | say (text : String)
  | identities
  | register (kind : Kind) (place : Nat) (key : Key) (entry : Entry) (context : Handed String)
  | result (kind : Kind) (place : Nat) (key : Key) (unit : CodeUnit (Content kind))
  | cached (kind : Kind) (place : Nat) (key : Key) (unit : CodeUnit (Content kind))
  | boundaryRegister (kind : Kind) (place : Nat) (key : Option Key) (entry : Entry)
      (context : Handed String)
  | boundaryResult (kind : Kind) (place : Nat) (key : Option Key) (unit : CodeUnit (Content kind))
  | boundaryCached (kind : Kind) (place : Nat) (key : Option Key) (unit : CodeUnit (Content kind))
  | native (kind : Kind) (place index : Nat) (unit : CodeUnit (Content kind))

def Call.Answer : Call → Type
  | say _ => Unit
  | identities => Option Key × Option Key
  | register .. => Bool
  | boundaryRegister .. => Bool
  | result .. => Opaque Int
  | boundaryResult .. => Opaque Int
  | cached .. => Option (Opaque Int)
  | boundaryCached .. => Option (Opaque Int)
  | native .. => Int

/-- The code of the analyses of both kinds, which makes calls. -/
abbrev Analyses := (kind : Kind) → Computations (Content kind) Call Call.Answer

/-- Performs each call, and ends with a value of the call's type. -/
abbrev Performer := (call : Call) → Exec Heap call.Answer

def access (analyses : Analyses) (kind : Kind) (place : Nat) :
    Access Heap (Content kind) (Inner kind) Call Call.Answer where
  kind
  manager h := h.managers kind place
  setManager h m := h.set kind place m
  computations := analyses kind
  manager_setManager h m := h.managers_set kind place m

variable (analyses : Analyses)

/-! ## With slots -/

/-- Performs a call; `nested` performs those that are made in the course of it. -/
def performWith (nested : Performer) : Performer
  | .say text => note text
  | .identities => do
    let s ← shared
    return (s.moduleSlot.current, s.functionSlot.current)
  | .register kind place key entry context => do
    (access analyses kind place).registerForeign key entry (← adopt context)
  | .result kind place key u =>
    (access analyses kind place).foreignResult ((access analyses kind place).request nested) u key
  | .cached kind place key u => (access analyses kind place).foreignCached u key
  | .boundaryRegister kind place key entry context =>
    (access analyses kind place).boundaryRegister key entry context
  | .boundaryResult kind place key u =>
    (access analyses kind place).boundaryResult ((access analyses kind place).request nested) u key
  | .boundaryCached kind place key u => (access analyses kind place).boundaryCached u key
  | .native kind place index u => (access analyses kind place).request nested (.native index) u

/-- Performs calls that nest less than so many times. -/
def perform : Nat → Performer
  | 0 => fun _ ↦ throw .exhausted
  | depth + 1 => performWith analyses (perform depth)

/-! ## Without slots -/

/-- The identities that are current for each kind. -/
abbrev Identities := Kind → Option Key

/-- The identities inside of a call with a key. -/
def Identities.enter (ids : Identities) (kind : Kind) (key : Key) : Identities :=
  Function.update ids kind (some key)

/-- Does something on behalf of a call with a key. -/
def announced {α : Type} (key : Key) (act : Exec Heap α) : Exec Heap α := do
  trace ("entering key scope for " ++ key.name)
  act

/-- Registers an analysis under the key that was passed. -/
def registerPassed (kind : Kind) (place : Nat) (key : Key) (entry : Entry)
    (context : Opaque String) : Exec Heap Bool := announced key do
  let registered ← (access analyses kind place).registerAt key (.foreign entry context)
  debug (kind.name ++ " analysis " ++ key.name ++ " registered into manager: " ++
    toString registered)
  return registered

/-- Looks up and computes under the key that was passed; `nested` performs calls, given the
identities around them. -/
def resultPassed (ids : Identities) (nested : Identities → Performer) (kind : Kind) (place : Nat)
    (u : CodeUnit (Content kind)) (key : Key) : Exec Heap (Opaque Int) := announced key do
  (access analyses kind place).requestAt (nested (ids.enter kind key)) .foreign key u

def cachedPassed (kind : Kind) (place : Nat) (u : CodeUnit (Content kind)) (key : Key) :
    Exec Heap (Option (Opaque Int)) := announced key do
  (access analyses kind place).cachedAt .foreign key u

/-- Performs a call that is made where some identities are current. No slot is looked at. -/
def passWith (nested : Identities → Performer) (ids : Identities) : Performer
  | .say text => note text
  | .identities => return (ids .module, ids .function)
  | .register kind place key entry context => do
    registerPassed analyses kind place key entry (← adopt context)
  | .result kind place key u => resultPassed analyses ids nested kind place u key
  | .cached kind place key u => cachedPassed analyses kind place u key
  | .boundaryRegister kind place key entry context => do
    let context ← adopt context
    match key with
    | none => fatal .nullKey
    | some key => boundary (registerPassed analyses kind place key entry context)
  | .boundaryResult _ _ none _ => fatal .nullKey
  | .boundaryResult kind place (some key) u => boundary do
    unless (← (access analyses kind place).held).isRegistered key do
      fatal (.unregistered kind.name key)
    resultPassed analyses ids nested kind place u key
  | .boundaryCached _ _ none _ => fatal .nullKey
  | .boundaryCached kind place (some key) u => boundary (cachedPassed analyses kind place u key)
  | .native kind place index u =>
    (access analyses kind place).requestAt (nested ids) (.native index) (.numbered index) u

/-- Performs calls that nest less than so many times, handing the identities down. -/
def pass : Nat → Identities → Performer
  | 0 => fun _ _ ↦ throw .exhausted
  | depth + 1 => passWith analyses (pass depth)

end ForeignPasses.Calls
