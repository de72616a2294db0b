import ForeignPasses.Proofs.Boundary.Strata
import ForeignPasses.Proofs.Coherence.Honest

/-!
# Within reach

Units fall into those that belong to something and those that do not, and so do modules if all that
is in them is of one side. Code keeps to a side if, run on a unit of it, it asks about units of it
alone.
-/

namespace ForeignPasses

/-- Which units code may look at, and with which programs at the inner level. -/
structure Reach (β I : Type) where
  unit : CodeUnit β → Prop
  program : I → Prop

namespace Reach

variable {β I S : Type} (reach : Reach β I)

/-- A question about something within reach. -/
def Has : Inquiry β I → Prop
  | .say _ => True
  | .identities => True
  | .result u _ => reach.unit u
  | .cached u _ => reach.unit u
  | .native u _ => reach.unit u
  | .within u program => reach.unit u ∧ reach.program program

/-- Run on a unit within reach, an analysis asks about what is within reach alone. -/
def Confines (computations : Computations β (Inquiry β I) Inquiry.Answer) : Analysis S → Prop
  | .foreign entry context =>
    ∀ u, reach.unit u → (computations.analysis entry context.content? u).AsksOnly reach.Has
  | .native entry => ∀ u, reach.unit u → (computations.native entry u).AsksOnly reach.Has
  | .attached _ => True

/-- A pass registers nothing and asks about what is within reach alone; `ids` has the identifiers of
new units. -/
def Lets (ids : UnitId → Prop) : (q : Edit β I) → (q.Answer → Prop) → Prop
  | .inquire q, next => reach.Has q ∧ ∀ a, next a
  | .register .., _ => False
  | .freshUnit, next => ∀ id, ids id → next id

/-- Run on a unit within reach, a pass does what it may and leaves the unit within reach. -/
def Holds (ids : UnitId → Prop) (pass : CodeUnit β → Edition β I (β × Preserved)) : Prop :=
  ∀ u, reach.unit u → (pass u).fold (reach.Lets ids) fun r ↦ reach.unit (u.withContent r.1)

/-- The functions with some identifiers. -/
def function (ids : UnitId → Prop) : Reach Body Empty where
  unit f := ids f.id
  program inner := nomatch inner

/-- The modules with some identifiers that have functions with such identifiers alone. -/
def module (ids : UnitId → Prop) : Reach Functions FunctionInquest where
  unit m := ids m.id ∧ ∀ f ∈ m.content, ids f.id
  program program := program.AsksOnly (function ids).Has

end Reach

namespace Code

variable (code : Code) (own ids : UnitId → Prop)

/-- Run on a function of one of two sides, an analysis asks about functions of this side alone. -/
def SidedFunction (analysis : Analysis Empty) : Prop :=
  (Reach.function own).Confines code.functions.toComputations analysis ∧
    (Reach.function ids).Confines code.functions.toComputations analysis

/-- The same of an analysis of modules. -/
def SidedModule (analysis : Analysis FunctionManager) : Prop :=
  (Reach.module own).Confines code.modules.toComputations analysis ∧
    (Reach.module ids).Confines code.modules.toComputations analysis

/-- Passes over functions that keep to units with some identifiers. -/
def HoldsFunctionPipeline (passes : FunctionPipeline) : Prop :=
  Pass.EveryOf code.functions ((Reach.function ids).Holds ids) (fun j ↦ nomatch j) passes

/-- Passes over modules that keep to units with some identifiers. -/
def HoldsModulePipeline (passes : ModulePipeline) : Prop :=
  Pass.EveryOf code.modules ((Reach.module ids).Holds ids) (code.HoldsFunctionPipeline ids) passes

end Code

namespace Module

/-- The identifiers of a module and of its functions. -/
def Owns (m : Module) (id : UnitId) : Prop := id = m.id ∨ ∃ f ∈ m.content, id = f.id

theorem unit_of_owns {m : Module} {ids : UnitId → Prop} (h : ∀ id, m.Owns id → ids id) :
    (Reach.module ids).unit m :=
  ⟨h m.id (.inl rfl), fun f hf ↦ h f.id (.inr ⟨f, hf, rfl⟩)⟩

end Module

end ForeignPasses
