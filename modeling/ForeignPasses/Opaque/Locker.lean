import ForeignPasses.Opaque.Basic
import ForeignPasses.Table

/-!
# Lockers

Named places for owned values and for raw ones. Storing over an occupied place drops the value
that was there; a raw value that is left over is never released.
-/

namespace ForeignPasses

/-- Owned and raw values by name; `next` is the next free address. -/
structure Locker where
  owned : Table String (Opaque String) := ∅
  raw : Table String (Raw String) := ∅
  next : Nat := 0

namespace Locker

inductive Act where
  | store (place : String) (value : Handed String)
  | ofRaw (place raw : String)
  | toRaw (place raw : String)
  | move (target source : String)
  | swap (first second : String)
  | reset (place : String)
  | drop (place : String)

/-- Puts a value into a place and drops the one that was there. -/
def put (l : Locker) (place : String) (value : Opaque String) : Locker × List Release :=
  ({ l with owned := l.owned.insert place value }, releases (l.owned.find? place))

/-- Empties a place without a release. -/
def take (l : Locker) (place : String) : Locker := { l with owned := l.owned.erase place }

def step (l : Locker) : Act → Locker × List Release
  | .store place value =>
    { l with next := l.next + 1 }.put place (.ofRaw (value.toRaw l.next))
  | .ofRaw place raw =>
    match l.raw.find? raw with
    | some value => { l with raw := l.raw.erase raw }.put place (.ofRaw value)
    | none => (l, [])
  | .toRaw place raw =>
    match l.owned.find? place with
    | some value => ({ l.take place with raw := l.raw.insert raw value.toRaw }, [])
    | none => (l, [])
  | .move target source =>
    match l.owned.find? source with
    | some value => (l.take source).put target value
    | none => (l, [])
  | .swap first second =>
    match l.owned.find? first, l.owned.find? second with
    | some x, some y =>
      ({ l with owned := (l.owned.insert first y).insert second x }, [])
    | _, _ => (l, [])
  | .reset place =>
    match l.owned.find? place with
    | some value =>
      ({ l with owned := l.owned.insert place value.reset.1 }, value.reset.2)
    | none => (l, [])
  | .drop place => (l.take place, releases (l.owned.find? place))

/-- What is seen after an act: the occupied places, and the lines of the deleters that ran. -/
structure View where
  places : List (String × Option String)
  events : List String

def places (l : Locker) : List (String × Option String) :=
  l.owned.entries.map fun e ↦ (e.1, e.2.content?)

def texts (rs : List Release) : List String := rs.filterMap Release.text

def views (l : Locker) : List Act → List View
  | [] => []
  | act :: rest => ⟨(l.step act).1.places, texts (l.step act).2⟩ :: (l.step act).1.views rest

def after (l : Locker) : List Act → Locker
  | [] => l
  | act :: rest => (l.step act).1.after rest

/-- The deleters that run when the whole locker goes away, in order of their lines. -/
def close (l : Locker) : List String :=
  (texts (releases l.owned.values)).mergeSort fun a b ↦ a ≤ b

end Locker

end ForeignPasses
