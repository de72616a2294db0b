import ForeignPasses.Event
import ForeignPasses.Registry.Basic
import ForeignPasses.Scope

/-!
# Execution

A step works on something in focus, such as a manager, and on what everything shares: the slots
of the current identities, the registries, the counters for addresses and units, and the events so
far. It ends with a value or with a halt, and what it did before a halt stays done.
-/

namespace ForeignPasses

/-- Faults of the framework's own. They unwind, and scopes close on the way. -/
inductive Panic where
  | unregistered
  | selfRequest
  | typeMismatch
  | noIdentity (kind : Kind)
  deriving DecidableEq, Repr

def Panic.message : Panic → String
  | unregistered => "trying to get analysis that hasn't been registered"
  | selfRequest => "analysis cannot request its own result"
  | typeMismatch => "two analyses share one identity but disagree on the result type"
  | noIdentity kind => kind.name ++ " analysis identity resolved outside of a key scope"

/-- The ways of ending without a value: a panic that unwinds, a panic that met a foreign frame and
cannot, a refusal at the foreign boundary, or a nesting deeper than was allowed for. -/
inductive Halt where
  | panicked (panic : Panic)
  | crashed (panic : Panic)
  | fatal (error : BoundaryError)
  | exhausted
  deriving DecidableEq, Repr

/-- What all code shares. -/
structure Shared where
  moduleSlot : Slot := {}
  functionSlot : Slot := {}
  moduleRegistry : Registry := { unit := Kind.module.name }
  functionRegistry : Registry := { unit := Kind.function.name }
  nextAddress : Nat := 0
  nextUnit : UnitId := 1
  events : List Event := []

namespace Shared

def slot (s : Shared) : Kind → Slot
  | .module => s.moduleSlot
  | .function => s.functionSlot

def setSlot (s : Shared) : Kind → Slot → Shared
  | .module, slot => { s with moduleSlot := slot }
  | .function, slot => { s with functionSlot := slot }

def registry (s : Shared) : Kind → Registry
  | .module => s.moduleRegistry
  | .function => s.functionRegistry

def setRegistry (s : Shared) : Kind → Registry → Shared
  | .module, r => { s with moduleRegistry := r }
  | .function, r => { s with functionRegistry := r }

@[simp] theorem slot_setSlot (s : Shared) (kind : Kind) (slot : Slot) :
    (s.setSlot kind slot).slot kind = slot := by
  cases kind <;> rfl

theorem slot_setSlot_of_ne (s : Shared) {kind other : Kind} (slot : Slot) (h : other ≠ kind) :
    (s.setSlot kind slot).slot other = s.slot other := by
  cases kind <;> cases other <;> first | rfl | exact absurd rfl h

end Shared

/-- The state of a step. -/
structure World (σ : Type) where
  shared : Shared
  focus : σ

abbrev Exec (σ α : Type) := EStateM Halt (World σ) α

namespace Exec

variable {σ τ α : Type}

def focus : Exec σ σ := fun w ↦ .ok w.focus w

def setFocus (s : σ) : Exec σ Unit := fun w ↦ .ok () { w with focus := s }

def modifyFocus (f : σ → σ) : Exec σ Unit := fun w ↦ .ok () { w with focus := f w.focus }

def shared : Exec σ Shared := fun w ↦ .ok w.shared w

def modifyShared (f : Shared → Shared) : Exec σ Unit := fun w ↦
  .ok () { w with shared := f w.shared }

def panic (p : Panic) : Exec σ α := throw (.panicked p)

def fatal (e : BoundaryError) : Exec σ α := throw (.fatal e)

/-- Works on a part of the focus; `put` writes the part back, also on a halt. -/
def zoom (get : σ → τ) (put : σ → τ → σ) (act : Exec τ α) : Exec σ α := fun w ↦
  match act ⟨w.shared, get w.focus⟩ with
  | .ok a w' => .ok a ⟨w'.shared, put w.focus w'.focus⟩
  | .error e w' => .error e ⟨w'.shared, put w.focus w'.focus⟩

/-- Does something after an action, however it ends. -/
def ensuring (act : Exec σ α) (after : World σ → World σ) : Exec σ α := fun w ↦
  match act w with
  | .ok a w' => .ok a (after w')
  | .error e w' => .error e (after w')

/-- Runs an action inside a foreign frame, which a panic cannot unwind. -/
def boundary (act : Exec σ α) : Exec σ α := fun w ↦
  match act w with
  | .error (.panicked p) w' => .error (.crashed p) w'
  | r => r

/-! ## Events -/

def emitAll (events : List Event) : Exec σ Unit :=
  modifyShared fun s ↦ { s with events := s.events ++ events }

def emit (event : Event) : Exec σ Unit := emitAll [event]

def note (text : String) : Exec σ Unit := emit (.note text)

def debug (message : String) : Exec σ Unit := emit (.log .debug message)

def trace (message : String) : Exec σ Unit := emit (.log .trace message)

def release (rs : List Release) : Exec σ Unit := emitAll (rs.map .released)

/-- Drops something: its deleters run. -/
def discard [Owner τ] (a : τ) : Exec σ Unit := release (releases a)

/-! ## Identities, addresses and units -/

/-- The identity that is current for a kind of unit. -/
def identity (kind : Kind) : Exec σ Key := do
  match ((← shared).slot kind).current with
  | some key => return key
  | none => panic (.noIdentity kind)

/-- Makes a key current while an action runs. -/
def withKey (kind : Kind) (key : Key) (act : Exec σ α) : Exec σ α := do
  let opened := ((← shared).slot kind).enter key
  modifyShared (·.setSlot kind opened.2)
  trace ("entering key scope for " ++ key.name)
  act.ensuring fun w ↦
    { w with shared := w.shared.setSlot kind ((w.shared.slot kind).leave opened.1) }

/-- Takes ownership of a value that foreign code hands over, at an address of its own. -/
def adopt (value : Handed α) : Exec σ (Opaque α) := do
  let address := (← shared).nextAddress
  modifyShared fun s ↦ { s with nextAddress := address + 1 }
  let raw := value.toRaw address
  emitAll (raw.addresses.map .adopted)
  return .ofRaw raw

def freshUnit : Exec σ UnitId := do
  let id := (← shared).nextUnit
  modifyShared fun s ↦ { s with nextUnit := id + 1 }
  return id

end Exec

end ForeignPasses
