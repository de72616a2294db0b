import ForeignPasses.Proofs.Exec.Ensures
import Mathlib.Algebra.Group.Pi.Basic
import Mathlib.Algebra.GroupWithZero.Nat

/-!
# The ledger

Every address that came in is held by somebody, or in hand, or was released. What an action does to
this account depends neither on what is held at the start nor on what was released before.
-/

namespace ForeignPasses

/-- How often each address occurs; none is the null address. -/
abbrev Tally := Option Nat → Nat

def tally (rs : List Release) : Tally := fun x ↦ rs.countP fun r ↦ r.address = x

@[simp] theorem tally_nil : tally [] = 0 := rfl

@[simp] theorem tally_append (rs rs' : List Release) : tally (rs ++ rs') = tally rs + tally rs' :=
  funext fun _ ↦ List.countP_append

/-- The addresses from `first` on and before `next`. -/
def span (first next : Nat) : Tally
  | some address => if first ≤ address ∧ address < next then 1 else 0
  | none => 0

theorem span_add {i j k : Nat} (hij : i ≤ j) (hjk : j ≤ k) : span i j + span j k = span i k := by
  funext x
  cases x with
  | none => rfl
  | some address =>
    simp only [span, Pi.add_apply]
    split <;> split <;> split <;> omega

/-- What foreign values are: contexts of passes, analyses and callbacks, or results. The result for
one unit and one key has a role of its own besides. -/
inductive Role where
  | context
  | result
  | entry (unit : UnitId) (key : Key)
  deriving DecidableEq

namespace Role

/-- All roles alike. -/
def Any (_ : Role) : Prop := True

def IsContext (role : Role) : Prop := role = context

end Role

/-! ## What was said of addresses -/

namespace Event

def adopts (x : Option Nat) : Event → Bool
  | adopted address => some address = x
  | _ => false

def frees (x : Option Nat) : Event → Bool
  | released r => r.address = x
  | _ => false

/-- Whether something of a role may be gone after the event. Contexts outlive every event. -/
def takes : Role → Event → Bool
  | .context, _ => false
  | .result, invalidated .. => true
  | .entry unit key, invalidated unit' key' _ => unit = unit' ∧ key = key'
  | _, _ => false

/-- An event that says nothing of addresses and results. -/
def Aside : Event → Prop
  | log .. => True
  | note _ => True
  | _ => False

theorem aside_log (severity : Severity) (message : String) : Aside (log severity message) := trivial

end Event

def adoptions (es : List Event) : Tally := fun x ↦ es.countP fun e ↦ e.adopts x

def deletions (es : List Event) : Tally := fun x ↦ es.countP fun e ↦ e.frees x

def losses (es : List Event) (role : Role) : Nat := es.countP fun e ↦ e.takes role

@[simp] theorem adoptions_append (es es' : List Event) :
    adoptions (es ++ es') = adoptions es + adoptions es' :=
  funext fun _ ↦ List.countP_append

@[simp] theorem deletions_append (es es' : List Event) :
    deletions (es ++ es') = deletions es + deletions es' :=
  funext fun _ ↦ List.countP_append

@[simp] theorem losses_append (es es' : List Event) :
    losses (es ++ es') = losses es + losses es' :=
  funext fun _ ↦ List.countP_append

@[simp] theorem adoptions_released (rs : List Release) : adoptions (rs.map .released) = 0 := by
  funext x
  rw [adoptions, List.countP_map]
  exact List.countP_eq_zero.2 fun _ _ ↦ Bool.false_ne_true

@[simp] theorem deletions_released (rs : List Release) :
    deletions (rs.map .released) = tally rs := by
  funext x
  rw [deletions, List.countP_map]
  rfl

@[simp] theorem deletions_adopted (addresses : List Nat) :
    deletions (addresses.map .adopted) = 0 := by
  funext x
  rw [deletions, List.countP_map]
  exact List.countP_eq_zero.2 fun _ _ ↦ Bool.false_ne_true

@[simp] theorem adoptions_log (severity : Severity) (message : String) :
    adoptions [.log severity message] = 0 :=
  rfl

@[simp] theorem deletions_log (severity : Severity) (message : String) :
    deletions [.log severity message] = 0 :=
  rfl

@[simp] theorem losses_released (rs : List Release) : losses (rs.map .released) = 0 := by
  funext role
  rw [losses, List.countP_map]
  refine List.countP_eq_zero.2 fun r _ ↦ ?_
  cases role <;> exact Bool.false_ne_true

@[simp] theorem losses_adopted (addresses : List Nat) : losses (addresses.map .adopted) = 0 := by
  funext role
  rw [losses, List.countP_map]
  refine List.countP_eq_zero.2 fun r _ ↦ ?_
  cases role <;> exact Bool.false_ne_true

/-- Contexts outlive every event. -/
@[simp] theorem losses_context (es : List Event) : losses es .context = 0 :=
  List.countP_eq_zero.2 fun _ _ ↦ Bool.false_ne_true

/-! ## Values that are handed over -/

section Handed

variable {α : Type}

/-- A value that is not null has a deleter. -/
def Raw.Sound (raw : Raw α) : Prop := raw.pointer.isSome → raw.deleter.isSome

theorem Handed.sound_toRaw (value : Handed α) (address : Nat) : (value.toRaw address).Sound := by
  cases value <;> simp [toRaw, Raw.Sound, Raw.null]

theorem Raw.Sound.addresses_release {raw : Raw α} (h : raw.Sound) :
    raw.release.map Release.address = raw.addresses.map some := by
  obtain ⟨pointer, deleter⟩ := raw
  cases pointer with
  | none => rfl
  | some p =>
    obtain ⟨d, rfl⟩ := Option.isSome_iff_exists.1 (h rfl)
    rfl

/-- How often each address occurs in a raw value. -/
def Raw.tally (raw : Raw α) : Tally := fun x ↦ (raw.addresses.map some).count x

theorem tally_eq_count (rs : List Release) (x : Option Nat) :
    tally rs x = (rs.map Release.address).count x := by
  rw [tally, List.count, List.countP_map]
  exact List.countP_congr fun r _ ↦ by simp

@[simp] theorem adoptions_addresses (raw : Raw α) :
    adoptions (raw.addresses.map .adopted) = raw.tally := by
  funext x
  rw [adoptions, Raw.tally, List.count, List.countP_map, List.countP_map]
  exact List.countP_congr fun a _ ↦ by simp [Event.adopts]

/-- What is handed over is released at the address where it came in. -/
@[simp] theorem tally_handed (value : Handed α) (address : Nat) :
    tally (value.toRaw address).release = (value.toRaw address).tally := by
  funext x
  rw [tally_eq_count, (value.sound_toRaw address).addresses_release, Raw.tally]

theorem tally_handed_le_span (value : Handed α) (next : Nat) (x : Option Nat) :
    (value.toRaw next).tally x ≤ span next (next + 1) x := by
  have hone : [some next].count x ≤ span next (next + 1) x := by
    by_cases hx : some next = x
    · subst hx
      simp [span]
    · simp [hx]
  cases value with
  | null => exact Nat.zero_le _
  | nullWithDeleter => exact Nat.zero_le _
  | owned content announcement => exact hone
  | borrowed content => exact hone

end Handed

/-! ## Books -/

/-- What came in so far, what was released, what may be gone, and the next address. -/
structure Books where
  adopted : Tally
  released : Tally
  lost : Role → Nat
  next : Nat

def Shared.books (s : Shared) : Books :=
  ⟨adoptions s.events, deletions s.events, losses s.events, s.nextAddress⟩

@[simp] theorem books_setSlot (s : Shared) (kind : Kind) (slot : Slot) :
    (s.setSlot kind slot).books = s.books := by
  cases kind <;> rfl

@[simp] theorem books_setRegistry (s : Shared) (kind : Kind) (r : Registry) :
    (s.setRegistry kind r).books = s.books := by
  cases kind <;> rfl

theorem books_aside (s : Shared) {e : Event} (h : e.Aside) :
    ({ s with events := s.events ++ [e] } : Shared).books = s.books := by
  have hnothing : adoptions [e] = 0 ∧ deletions [e] = 0 ∧ losses [e] = 0 := by
    cases e with
    | log severity message => exact ⟨rfl, rfl, funext fun role ↦ by cases role <;> rfl⟩
    | note text => exact ⟨rfl, rfl, funext fun role ↦ by cases role <;> rfl⟩
    | adopted address => exact h.elim
    | released r => exact h.elim
    | invalidated unit key text => exact h.elim
  obtain ⟨hadoptions, hdeletions, hlosses⟩ := hnothing
  rw [Shared.books, Shared.books]
  simp only [adoptions_append, deletions_append, losses_append, hadoptions, hdeletions, hlosses,
    add_zero]

/-! ## Who holds what -/

/-- How often each address occurs in each role. -/
abbrev Holding := Role → Tally

/-- Contexts alone. -/
def contexts (t : Tally) : Holding
  | .context => t
  | _ => 0

/-- The result for one unit and one key alone. -/
def resultAt (unit : UnitId) (key : Key) (t : Tally) : Holding
  | .context => 0
  | .result => t
  | .entry unit' key' => if (unit', key') = (unit, key) then t else 0

/-- What stays in its role is not the result that an analysis is told about. -/
theorem resultAt_of_kept {unit : UnitId} {key : Key} {text : Option String} {role : Role}
    (h : losses [.invalidated unit key text] role = 0) (t : Tally) :
    resultAt unit key t role = 0 := by
  cases role with
  | context => rfl
  | result => exact absurd h Nat.one_ne_zero
  | entry unit' key' =>
    have hother : ¬(unit' = unit ∧ key' = key) := by
      rintro ⟨rfl, rfl⟩
      simp [losses, Event.takes] at h
    exact if_neg fun heq ↦ hother (Prod.mk.inj heq)

/-- Things that hold foreign values. -/
class Account (α : Type) where
  holding : α → Holding

export Account (holding)

def Holding.sum (h : Holding) : Tally := h .context + h .result

/-- How often each address is held. -/
def held {α : Type} [Account α] (a : α) : Tally := (holding a).sum

/-- Dropping releases what is held. -/
class Accounted (α : Type) [Owner α] [Account α] : Prop where
  tally_releases : ∀ a : α, tally (releases a) = held a

export Accounted (tally_releases)

instance : Account Empty := ⟨fun e ↦ nomatch e⟩

instance : Accounted Empty := ⟨fun e ↦ nomatch e⟩

end ForeignPasses
