import ForeignPasses.Builder.Basic

/-!
# Setting up managers

The enrolment hooks of a builder fill a manager of functions and a manager of modules with
analyses. Then the first is attached to the second, which drops it if it has one already.
-/

namespace ForeignPasses

open Exec

variable {β I S : Type} [Owner S] (code : Code)

/-- Lets a hook register its analyses. -/
def Hook.enrol (tier : Tier β I S) : Hook → Exec (Manager S) Unit
  | .foreign s =>
    boundary ((code.enrolment s.callback s.context.content?).run tier.answerEnrol)
  | .registry => tier.enrolRegistry

namespace Builder

def enrolAll (tier : Tier β I S) : List Hook → Exec (Manager S) Unit
  | [] => return
  | hook :: rest => do
    hook.enrol code tier
    enrolAll tier rest

/-- Fills both managers and attaches the one of functions. -/
def setUp (b : Builder) (functions : FunctionManager) : Exec ModuleManager Unit := do
  let functions ← zoom (fun _ ↦ functions) (fun m _ ↦ m) do
    enrolAll code code.functionTier (b.enrolmentOf .function)
    focus
  enrolAll code code.moduleTier (b.enrolmentOf .module)
  let _ ← code.moduleTier.attach functions

end Builder

end ForeignPasses
