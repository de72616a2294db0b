import ForeignPasses.Proofs.Coherence.Attached
import ForeignPasses.Proofs.Manager.Stages

/-!
# Honest passes

A pass is honest if what it reports as preserved is found as before. It looks at its unit before it
changes it, registers lawful analyses alone, and gets right answers. Functions come into a module as
new units; they may share it with those that were there, but no two of them share an identifier.
-/

namespace ForeignPasses

namespace Meaning

variable (meaning : Meaning)

/-- A pass over a module left other functions, and reports honestly: what it preserves is found as
before, in the module and in the functions that stay, and if it preserves the proxy, then everything
is found as before in those. `next` and `next'` are the next units before and after. -/
structure ModuleReport (m : Module) (next : UnitId) (functions : Functions) (preserved : Preserved)
    (next' : UnitId) : Prop where
  nodup : (functions.map CodeUnit.id).Nodup
  origin : ∀ g ∈ functions, (∃ f ∈ m.content, f.id = g.id) ∨ (next ≤ g.id ∧ g.id < next')
  onModule : ∀ key, preserved.contains key = true →
    meaning.onModule key (m.withContent functions) = meaning.onModule key m
  onFunctions : ∀ key, preserved.contains .proxy = true ∨ preserved.contains key = true →
    ∀ f ∈ m.content, ∀ g ∈ functions, f.id = g.id →
      meaning.onFunction key g = meaning.onFunction key f

/-- A pass over a function of a module, which stands between others, left another body, and reports
honestly: what it preserves is found as before, in the function and in the module. -/
structure FunctionReport (m : Module) (before : Functions) (f : Function) (after : Functions)
    (body : Body) (preserved : Preserved) : Prop where
  onFunction : ∀ key, preserved.contains key = true →
    meaning.onFunction key (f.withContent body) = meaning.onFunction key f
  onModule : ∀ key, preserved.contains key = true →
    meaning.onModule key (m.withContent (before ++ f.withContent body :: after)) =
      meaning.onModule key (m.withContent (before ++ f :: after))

end Meaning

/-! ## Pipelines of honest passes -/

namespace Pass

variable {β I J : Type} (behaviour : Behaviour β I)
  (leaf : (CodeUnit β → Edition β I (β × Preserved)) → Prop) (inner : J → Prop)

mutual

/-- The code of every pass in a group is as `leaf` says, and what adapters hold as `inner` says. -/
def Every : Pass J → Prop
  | foreign _ entry context =>
    leaf fun u ↦ (fun r ↦ (r.1, .ofStatus r.2)) <$> behaviour.pass entry context.content? u
  | native _ entry => leaf (behaviour.nativePass entry)
  | group passes => EveryOf passes
  | perFunction j => inner j

def EveryOf : List (Pass J) → Prop
  | [] => True
  | pass :: rest => Every pass ∧ EveryOf rest

end

/-- All code is as `leaf` says, and whatever an adapter may hold as `inner` says. -/
structure Throughout : Prop where
  foreign : ∀ entry (context : Opaque String),
    leaf fun u ↦ (fun r ↦ (r.1, .ofStatus r.2)) <$> behaviour.pass entry context.content? u
  native : ∀ entry, leaf (behaviour.nativePass entry)
  perFunction : ∀ j, inner j

variable {behaviour leaf inner}

mutual

theorem Throughout.every (h : Throughout behaviour leaf inner) :
    ∀ pass : Pass J, pass.Every behaviour leaf inner
  | .foreign _ entry context => h.foreign entry context
  | .native _ entry => h.native entry
  | .group passes => h.everyOf passes
  | .perFunction j => h.perFunction j

theorem Throughout.everyOf (h : Throughout behaviour leaf inner) :
    ∀ passes : List (Pass J), EveryOf behaviour leaf inner passes
  | [] => trivial
  | pass :: rest => ⟨h.every pass, h.everyOf rest⟩

end

end Pass

namespace Code

variable (code : Code) (meaning : Meaning) (possible : Module → Prop)

/-- Code that passes over the possible modules honestly; the modules that it leaves are possible. -/
def HonestOverModules (pass : Module → Edition Functions FunctionInquest (Functions × Preserved)) :
    Prop :=
  ∀ m next, possible m → Distinct m.content next →
    (pass m).fold
      (Edit.Allows ((meaning.moduleTheory fun _ ↦ True).allows (· = m))
        ((meaning.moduleTheory fun _ ↦ True).LawfulForeign code.modules.toComputations))
      (fun r next' ↦
        meaning.ModuleReport m next r.1 r.2 next' ∧ possible (m.withContent r.1))
      next

/-- Code that passes honestly over the functions of possible modules. -/
def HonestOverFunctions (pass : Function → Edition Body Empty (Body × Preserved)) : Prop :=
  ∀ m before f after next, possible (m.withContent (before ++ f :: after)) →
    (pass f).fold
      (Edit.Allows (meaning.functionTheory.allows (· = f))
        (meaning.functionTheory.LawfulForeign code.functions.toComputations))
      (fun r _ ↦ meaning.FunctionReport m before f after r.1 r.2 ∧
        possible (m.withContent (before ++ f.withContent r.1 :: after)))
      next

def HonestFunctionPipeline (passes : FunctionPipeline) : Prop :=
  Pass.EveryOf code.functions (code.HonestOverFunctions meaning possible) (fun j ↦ nomatch j) passes

def HonestModulePipeline (passes : ModulePipeline) : Prop :=
  Pass.EveryOf code.modules (code.HonestOverModules meaning possible)
    (code.HonestFunctionPipeline meaning possible) passes

end Code

end ForeignPasses
