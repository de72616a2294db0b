import ForeignPasses.CodeUnit
import ForeignPasses.Opaque.Basic
import ForeignPasses.Registry.Basic

/-!
# Passes

A pass is foreign or native code with a name, a group of passes that run one after the other, or
an adapter that runs something over every function of a module.
-/

namespace ForeignPasses

/-- A pass; `J` is what an adapter runs at the inner level. -/
inductive Pass (J : Type) where
  | foreign (name : String) (entry : Entry) (context : Opaque String)
  | native (name : String) (entry : Entry)
  | group (passes : List (Pass J))
  | perFunction (inner : J)

abbrev FunctionPass := Pass Empty

/-- Passes over functions in the order in which they run. -/
abbrev FunctionPipeline := List FunctionPass

abbrev ModulePass := Pass FunctionPipeline

/-- Passes over modules in the order in which they run. -/
abbrev ModulePipeline := List ModulePass

namespace Pass

variable {J : Type}

/-- The name in listings. -/
def name : Pass J → String
  | foreign name .. => name
  | native name _ => name
  | group _ => "pass-manager"
  | perFunction _ => "function-to-module"

/-- The name of a foreign pass that comes without one. -/
def defaultName (kind : Kind) : String := "foreign-" ++ kind.name ++ "-pass"

/-- Adapts passes over functions, if there are any. -/
def adapted? (inner : FunctionPipeline) : ModulePipeline :=
  if inner.isEmpty then [] else [perFunction inner]

mutual

def drop [Owner J] : Pass J → List Release
  | foreign _ _ context => context.drop
  | native .. => []
  | group passes => dropAll passes
  | perFunction inner => releases inner

def dropAll [Owner J] : List (Pass J) → List Release
  | [] => []
  | p :: rest => p.drop ++ dropAll rest

end

instance [Owner J] : Owner (Pass J) := ⟨drop⟩

end Pass

end ForeignPasses
