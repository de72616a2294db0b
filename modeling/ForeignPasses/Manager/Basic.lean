import ForeignPasses.CodeUnit
import ForeignPasses.Opaque.Basic
import ForeignPasses.Registry.Basic
import ForeignPasses.Table

/-!
# Analysis managers

A manager knows analyses by key and keeps their results by unit and key. A manager of modules can
have a manager of functions attached, as an analysis under the proxy key.
-/

namespace ForeignPasses

/-- An analysis, as a manager holds it; `S` is the type of managers of the inner level. -/
inductive Analysis (S : Type) where
  | foreign (entry : Entry) (context : Opaque String)
  | native (entry : Entry)
  | attached (inner : S)

/-- An analysis in its place; `running` while it is being computed. -/
structure Registered (S : Type) where
  analysis : Analysis S
  running : Bool := false

/-- A result in the cache. The result of an attached manager is the manager itself. -/
inductive Result where
  | foreign (value : Opaque Int)
  | native (value : Int)
  | attached
  deriving DecidableEq, Repr

structure Manager (S : Type) where
  analyses : Table Key (Registered S) := ∅
  results : Table (UnitId × Key) Result := ∅

/-- Functions have no inner level. -/
abbrev FunctionManager := Manager Empty

abbrev ModuleManager := Manager FunctionManager

instance {S : Type} [Owner S] : Owner (Analysis S) where
  releases
    | .foreign _ context => context.drop
    | .native _ => []
    | .attached inner => releases inner

instance : Owner Result where
  releases
    | .foreign value => value.drop
    | _ => []

instance {S : Type} [Owner S] : Owner (Manager S) where
  releases m := m.analyses.values.flatMap (fun r ↦ releases r.analysis) ++ releases m.results.values

namespace Manager

variable {S : Type}

def isRegistered (m : Manager S) (key : Key) : Bool := m.analyses.contains key

def keys (m : Manager S) : List Key := m.analyses.keys

/-- How many analyses are not being computed. This bounds how deep requests can nest, for each
nested computation takes one away. -/
def idle (m : Manager S) : Nat := m.analyses.values.countP fun r ↦ !r.running

def setRunning (m : Manager S) (key : Key) (running : Bool) : Manager S :=
  { m with analyses := m.analyses.modify key fun r ↦ { r with running } }

/-- The manager attached under the proxy key. -/
def attached? (m : Manager S) : Option S :=
  match m.analyses.find? .proxy with
  | some { analysis := .attached inner, .. } => some inner
  | _ => none

def setAttached (m : Manager S) (inner : S) : Manager S :=
  { m with analyses := m.analyses.modify .proxy fun r ↦ { r with analysis := .attached inner } }

/-- Forgets every result, and says what was released. -/
def clear [Owner S] (m : Manager S) : Manager S × List Release :=
  ({ m with results := ∅ }, releases m.results.values)

/-! ## The attached manager -/

variable {m : Manager S} {inner : S}

theorem find?_of_attached? (h : m.attached? = some inner) :
    ∃ running, m.analyses.find? .proxy = some ⟨.attached inner, running⟩ := by
  unfold attached? at h
  split at h
  · rename_i inner' running hfind
    obtain rfl := Option.some.inj h
    exact ⟨running, hfind⟩
  · contradiction

theorem attached?_setAttached (h : m.attached? = some inner) (inner' : S) :
    (m.setAttached inner').attached? = some inner' := by
  obtain ⟨running, hfind⟩ := find?_of_attached? h
  have hset : (m.setAttached inner').analyses.find? .proxy = some ⟨.attached inner', running⟩ := by
    rw [setAttached, Table.find?_modify, if_pos rfl, hfind]
    rfl
  rw [attached?, hset]

theorem keys_setAttached (inner : S) : (m.setAttached inner).keys = m.keys := by
  rw [keys, setAttached, Table.keys_modify]
  rfl

theorem isRegistered_setAttached (inner : S) (key : Key) :
    (m.setAttached inner).isRegistered key = m.isRegistered key := by
  rw [isRegistered, isRegistered, setAttached, Table.contains, Table.contains, Table.find?_modify]
  split <;> simp

end Manager

end ForeignPasses
