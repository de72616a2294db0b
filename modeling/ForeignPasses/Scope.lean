import ForeignPasses.Key

/-!
# Scopes of the current identity

A slot holds the identity that is being asked for. Opening a scope makes its key current and
remembers what was current before; closing it puts that back, whatever has happened in between.
Scopes are values, so they may be closed in any order.
-/

namespace ForeignPasses

/-- The identity being asked for, if any. -/
structure Slot where
  current : Option Key := none
  deriving DecidableEq, Repr

/-- An open scope: what was current when it was opened. -/
structure Scope where
  previous : Option Key
  deriving DecidableEq, Repr

namespace Slot

def enter (slot : Slot) (key : Key) : Scope × Slot := (⟨slot.current⟩, ⟨some key⟩)

def leave (_ : Slot) (scope : Scope) : Slot := ⟨scope.previous⟩

@[simp] theorem current_enter (slot : Slot) (key : Key) : (slot.enter key).2.current = some key :=
  rfl

@[simp] theorem leave_enter (slot later : Slot) (key : Key) :
    later.leave (slot.enter key).1 = slot :=
  rfl

end Slot

/-- A slot with the scopes opened on it so far, numbered from 0; a closed one is `none`. -/
structure Scopes where
  slot : Slot := {}
  opened : List (Option Scope) := []
  deriving DecidableEq, Repr

namespace Scopes

inductive Act where
  | enter (key : Key)
  | close (number : Nat)
  | look
  deriving Repr

def step (s : Scopes) : Act → Scopes
  | .enter key => ⟨(s.slot.enter key).2, s.opened ++ [some (s.slot.enter key).1]⟩
  | .close number =>
    match s.opened[number]? with
    | some (some scope) => ⟨s.slot.leave scope, s.opened.set number none⟩
    | _ => s
  | .look => s

/-- What is current after each act. -/
def trace (s : Scopes) : List Act → List (Option Key)
  | [] => []
  | act :: rest => (s.step act).slot.current :: (s.step act).trace rest

end Scopes

end ForeignPasses
