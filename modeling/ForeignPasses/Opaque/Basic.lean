/-!
# Owned foreign values

A foreign value is known by its address and comes with the function that releases it. Its owner
calls that function exactly once, when it is dropped or reset, and never for a null address.
-/

namespace ForeignPasses

/-- An address, together with what foreign code finds there. -/
structure Pointer (α : Type) where
  address : Nat
  content : α
  deriving DecidableEq, Repr

/-- How a value is released: it goes away, which the foreign side may announce, or nothing happens
to it because it was only lent. -/
inductive Deleter where
  | free (announcement : Option String)
  | forget
  deriving DecidableEq, Repr

/-- What a deleter says when it is called. -/
def Deleter.text : Deleter → Option String
  | free announcement => announcement
  | forget => none

/-- One call of a deleter: the address it is called with, which is missing for null, and what it
says. -/
structure Release where
  address : Option Nat
  text : Option String
  deriving DecidableEq, Repr

/-- An address, possibly null, and a way to release it. Nobody owns it yet. -/
structure Raw (α : Type) where
  pointer : Option (Pointer α) := none
  deleter : Option Deleter := none
  deriving DecidableEq, Repr

namespace Raw

variable {α : Type}

def null : Raw α := {}

/-- The address, if it is not null. -/
def addresses (raw : Raw α) : List Nat := raw.pointer.toList.map Pointer.address

/-- The calls that releasing makes: none for null. -/
def release (raw : Raw α) : List Release :=
  match raw.pointer, raw.deleter with
  | some p, some deleter => [⟨some p.address, deleter.text⟩]
  | _, _ => []

@[simp] theorem release_null : (null : Raw α).release = [] := rfl

end Raw

/-- What foreign code hands over, before it has an address here. -/
inductive Handed (α : Type) where
  | null
  | nullWithDeleter
  | owned (content : α) (announcement : Option String)
  | borrowed (content : α)
  deriving DecidableEq, Repr

namespace Handed

variable {α : Type}

/-- What foreign code finds there. -/
def content? : Handed α → Option α
  | owned content _ => some content
  | borrowed content => some content
  | _ => none

/-- The value at a given address. -/
def toRaw (address : Nat) : Handed α → Raw α
  | null => .null
  | nullWithDeleter => ⟨none, some .forget⟩
  | owned content announcement => ⟨some ⟨address, content⟩, some (.free announcement)⟩
  | borrowed content => ⟨some ⟨address, content⟩, some .forget⟩

end Handed

/-- A value with exactly one owner. -/
structure Opaque (α : Type) where
  raw : Raw α
  deriving DecidableEq, Repr

namespace Opaque

variable {α : Type}

def null : Opaque α := ⟨.null⟩

def ofRaw (raw : Raw α) : Opaque α := ⟨raw⟩

/-- Gives up ownership. -/
def toRaw (value : Opaque α) : Raw α := value.raw

def pointer? (value : Opaque α) : Option (Pointer α) := value.raw.pointer

def content? (value : Opaque α) : Option α := value.pointer?.map Pointer.content

def isNull (value : Opaque α) : Bool := value.pointer?.isNone

/-- The address of the value, if it is not null. -/
def addresses (value : Opaque α) : List Nat := value.pointer?.toList.map Pointer.address

/-- The calls made when the owner goes away. -/
def drop (value : Opaque α) : List Release := value.raw.release

/-- Releases the value and leaves an empty owner. -/
def reset (value : Opaque α) : Opaque α × List Release := (null, value.drop)

@[simp] theorem drop_null : (null : Opaque α).drop = [] := rfl

@[simp] theorem drop_reset (value : Opaque α) : value.reset.1.drop = [] := rfl

@[simp] theorem drop_ofRaw (raw : Raw α) : (ofRaw raw).drop = raw.release := rfl

@[simp] theorem content?_ofRaw_toRaw (value : Handed α) (address : Nat) :
    (ofRaw (value.toRaw address)).content? = value.content? := by
  cases value <;> rfl

end Opaque

/-- Things that hold foreign values and release them when dropped. -/
class Owner (α : Type) where
  releases : α → List Release

export Owner (releases)

instance : Owner Empty := ⟨fun e ↦ nomatch e⟩

instance {α : Type} : Owner (Opaque α) := ⟨Opaque.drop⟩

instance {α : Type} [Owner α] : Owner (List α) := ⟨fun l ↦ l.flatMap releases⟩

instance {α : Type} [Owner α] : Owner (Option α) := ⟨fun o ↦ o.elim [] releases⟩

end ForeignPasses
