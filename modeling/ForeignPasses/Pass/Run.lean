import ForeignPasses.Manager.Invalidate
import ForeignPasses.Manager.Register
import ForeignPasses.Pass.Basic

/-!
# Running passes

After every pass the results that it did not preserve are dropped, so that no later pass sees a
stale one. A pipeline preserves what all of its passes preserve.
-/

namespace ForeignPasses

/-- What a pass works on: a unit and the manager of its analyses. -/
structure Job (β S : Type) where
  manager : Manager S
  unit : CodeUnit β

namespace Tier

open Exec

variable {β I S J : Type} [Owner S] (tier : Tier β I S)

def onManager {α : Type} (act : Exec (Manager S) α) : Exec (Job β S) α :=
  zoom Job.manager (fun job manager ↦ { job with manager }) act

def setContent (content : β) : Exec (Job β S) Unit :=
  modifyFocus fun job ↦ { job with unit := job.unit.withContent content }

/-- Answers the questions of a pass. -/
def answerEdit : (q : Edit β I) → Exec (Job β S) q.Answer
  | .inquire q => onManager (tier.answer tier.fetch q)
  | .register key entry context => onManager (tier.access.boundaryRegister key entry context)
  | .freshUnit => freshUnit

/-- Runs a foreign pass over the unit. -/
def invoke (entry : Entry) (context : Opaque String) : Exec (Job β S) Status := do
  let code := tier.behaviour.pass entry context.content? (← focus).unit
  let (content, status) ← boundary (code.run tier.answerEdit)
  setContent content
  return status

def invokeNative (entry : Entry) : Exec (Job β S) Preserved := do
  let code := tier.behaviour.nativePass entry (← focus).unit
  let (content, preserved) ← code.run tier.answerEdit
  setContent content
  return preserved

def invalidateUnit (preserved : Preserved) : Exec (Job β S) Unit := do
  onManager (tier.invalidate (← focus).unit preserved)

/-- One step of a pipeline: a pass runs, and what it did not preserve is dropped. -/
def stage (name : String) (pass : Exec (Job β S) Preserved) : Exec (Job β S) Preserved := do
  trace ("running `" ++ name ++ "` over `" ++ (← focus).unit.name ++ "`")
  let preserved ← pass
  tier.invalidateUnit preserved
  return preserved

variable (adapt : J → Exec (Job β S) Preserved)

mutual

/-- Runs one pass; `adapt` runs what an adapter holds. -/
def runPass : Pass J → Exec (Job β S) Preserved
  | .foreign name entry context => do
    let status ← tier.invoke entry context
    trace (tier.kind.name ++ " pass `" ++ name ++ "` finished: " ++ status.name)
    return .ofStatus status
  | .native _ entry => tier.invokeNative entry
  | .group passes => runAll passes
  | .perFunction inner => adapt inner

/-- Runs passes one after the other. -/
def runAll : List (Pass J) → Exec (Job β S) Preserved
  | [] => return .all
  | pass :: rest => do
    let preserved ← tier.stage pass.name (runPass pass)
    return preserved.inter (← runAll rest)

end

end Tier

namespace Code

open Exec

variable (code : Code)

def runFunctionPipeline (passes : FunctionPipeline) : Exec (Job Body Empty) Preserved :=
  code.functionTier.runAll (fun inner ↦ nomatch inner) passes

/-- Runs passes over one function and invalidates what they did not preserve. -/
def runOverFunction (passes : FunctionPipeline) : Exec (Job Body Empty) Preserved := do
  let preserved ← code.runFunctionPipeline passes
  code.functionTier.invalidateUnit preserved
  return preserved

/-- Works on one function of a module, which stands between `before` and `after`, with the attached
manager. -/
def onFunction {α : Type} (before : Functions) (f : Function) (after : Functions)
    (act : Exec (Job Body Empty) α) : Exec (Job Functions FunctionManager) α := do
  match (← focus).manager.attached? with
  | some manager =>
    zoom (fun _ ↦ ⟨manager, f⟩)
      (fun job inner ↦
        ⟨job.manager.setAttached inner.manager,
          job.unit.withContent (before ++ inner.unit :: after)⟩)
      act
  | none => panic .typeMismatch

/-- Runs passes over one function of a module, which also is what comes out. -/
def runOverOne (passes : FunctionPipeline) (before : Functions) (f : Function)
    (after : Functions) : Exec (Job Functions FunctionManager) (Preserved × Function) :=
  onFunction before f after do
    let preserved ← code.runOverFunction passes
    return (preserved, (← focus).unit)

/-- Runs passes over the functions from `f` on; `before` holds those that are done. -/
def runOverFunctions (passes : FunctionPipeline) (before : Functions) :
    Functions → Exec (Job Functions FunctionManager) Preserved
  | [] => return .all
  | f :: after => do
    let (preserved, f') ← code.runOverOne passes before f after
    return preserved.inter (← runOverFunctions passes (before ++ [f']) after)

/-- Runs passes over every function of the module, with the manager that is attached. -/
def runPerFunction (passes : FunctionPipeline) :
    Exec (Job Functions FunctionManager) Preserved := do
  let m := (← focus).unit
  Tier.onManager (code.moduleTier.fetch .attached m)
  code.runOverFunctions passes [] m.content

def runModulePipeline (passes : ModulePipeline) : Exec (Job Functions FunctionManager) Preserved :=
  code.moduleTier.runAll code.runPerFunction passes

end Code

end ForeignPasses
