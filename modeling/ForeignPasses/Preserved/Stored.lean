import ForeignPasses.Preserved

/-!
# Preserved sets as they are stored

A set is a list of addresses that is kept in increasing order, so that membership is a binary
search. There is no separate form for the set of everything: one address is set aside as a marker,
and the list of the marker alone stands for all identities.
-/

namespace ForeignPasses

/-- Where identities lie, and the marker among them. -/
structure Layout where
  marker : Nat
  address : Key → Nat
  owner? : Nat → Option Key
  owner?_address (k : Key) : owner? (address k) = some k
  owner?_marker : owner? marker = none

namespace Layout

/-- The marker lies after one identity and before all others. -/
def standard : Layout where
  marker := 1
  address
    | .proxy => 0
    | .numbered n => n + 2
  owner?
    | 0 => some .proxy
    | 1 => none
    | n + 2 => some (.numbered n)
  owner?_address k := by cases k <;> rfl
  owner?_marker := rfl

variable (layout : Layout)

theorem address_injective {i j : Key} (h : layout.address i = layout.address j) : i = j := by
  have howner := congrArg layout.owner? h
  simpa only [layout.owner?_address, Option.some.injEq] using howner

theorem address_ne_marker (k : Key) : layout.address k ≠ layout.marker := by
  intro h
  have howner := congrArg layout.owner? h
  simp [layout.owner?_address, layout.owner?_marker] at howner

end Layout

structure Stored where
  addresses : List Nat
  deriving DecidableEq

namespace Stored

/-- Looks in the window from `low` up to `high`: an address is there at some place, or belongs to
some place. -/
def searchFrom (l : List Nat) (a low high : Nat) (hhigh : high ≤ l.length) : Except Nat Nat :=
  if hlow : low < high then
    let middle := low + (high - low) / 2
    have hmiddle : middle < l.length := by omega
    if l[middle] = a then .ok middle
    else if l[middle] < a then searchFrom l a (middle + 1) high hhigh
    else searchFrom l a low middle (Nat.le_of_lt hmiddle)
  else .error low
termination_by high - low

def search (s : Stored) (a : Nat) : Except Nat Nat :=
  searchFrom s.addresses a 0 s.addresses.length (Nat.le_refl _)

def contains (s : Stored) (a : Nat) : Bool := (s.search a).toBool

def insert (s : Stored) (a : Nat) : Stored :=
  match s.search a with
  | .ok _ => s
  | .error place => ⟨s.addresses.insertIdx place a⟩

def none : Stored := ⟨[]⟩

variable (marker : Nat)

def all : Stored := ⟨[marker]⟩

def ofStatus : Status → Stored
  | .allPreserved => all marker
  | .nonePreserved => none

def isAll (s : Stored) : Bool := s.addresses = [marker]

/-- Adds one address. -/
def preserve (s : Stored) (a : Nat) : Stored := if s.isAll marker then s else s.insert a

def isPreserved (s : Stored) (a : Nat) : Bool := s.isAll marker || s.contains a

def inter (s t : Stored) : Stored :=
  if s.isAll marker then t
  else if t.isAll marker then s
  else (s.addresses.filter t.contains).foldl insert none

end Stored

namespace Layout

variable (layout : Layout)

/-- What the addresses in a stored set stand for. -/
def read (s : Stored) : Preserved :=
  if s.isAll layout.marker then .all else .ofKeys (s.addresses.filterMap layout.owner?)

end Layout

end ForeignPasses
