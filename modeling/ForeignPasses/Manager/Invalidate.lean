import ForeignPasses.Manager.Lookup

/-!
# Invalidation

After a unit has changed, every registered analysis that is not preserved loses its result for the
unit and is told so. The attached manager loses the results of all functions of the module.
-/

namespace ForeignPasses.Tier

open Exec

variable {β I S : Type} (tier : Tier β I S)

/-- Drops one result, if it is there. -/
def forget (u : CodeUnit β) (key : Key) : Exec (Manager S) Unit := do
  let old := (← focus).results.find? (u.id, key)
  modifyFocus fun m ↦ { m with results := m.results.erase (u.id, key) }
  discard old

/-- Tells an analysis that its result for a unit is gone. -/
def notify (u : CodeUnit β) (preserved : Preserved) (key : Key) :
    Analysis S → Exec (Manager S) Unit
  | .foreign .. => emit (.invalidated u.id key none)
  | .native entry =>
    emit (.invalidated u.id key (some (tier.behaviour.onInvalidated entry u preserved)))
  | .attached _ => do
    emit (.invalidated u.id key none)
    onAttached (tier.invalidateWithin u preserved)

def invalidateEach (u : CodeUnit β) (preserved : Preserved) :
    List (Key × Registered S) → Exec (Manager S) Unit
  | [] => return
  | (key, registered) :: rest => do
    unless preserved.contains key do
      forget u key
      tier.notify u preserved key registered.analysis
    invalidateEach u preserved rest

/-- Invalidates all that is not preserved. If everything is, no analysis is told anything. -/
def invalidate (u : CodeUnit β) (preserved : Preserved) : Exec (Manager S) Unit := do
  unless preserved.isAll do
    tier.invalidateEach u preserved (← focus).analyses.entries

end ForeignPasses.Tier

namespace ForeignPasses

/-! ## The two tiers -/

open Exec

/-- Functions have no inner level. -/
def Code.functionTier (code : Code) : Tier Body Empty Empty where
  kind := .function
  behaviour := code.functions
  within inner := nomatch inner
  invalidateWithin _ _ := return

def invalidateFunctions (code : Code) (preserved : Preserved) :
    Functions → Exec FunctionManager Unit
  | [] => return
  | f :: rest => do
    code.functionTier.invalidate f preserved
    invalidateFunctions code preserved rest

def Code.moduleTier (code : Code) : Tier Functions FunctionInquest FunctionManager where
  kind := .module
  behaviour := code.modules
  within inner := inner.run (code.functionTier.answer code.functionTier.fetch)
  invalidateWithin m preserved := invalidateFunctions code preserved m.content

end ForeignPasses
