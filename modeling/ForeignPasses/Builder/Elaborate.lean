import ForeignPasses.Builder.Basic
import ForeignPasses.Pipeline.Parser

/-!
# Elaborating textual pipelines

`module(...)` groups passes over modules, and `function(...)` adapts passes over functions. Any
other name is offered to the parsing hooks, and the first that recognizes it wins; at module level
those of functions come after those of modules.
-/

namespace ForeignPasses

open Exec

variable {J : Type} (code : Code)

/-- Asks whether a hook recognizes a name. It may add passes whatever it answers. -/
def Hook.recognize (kind : Kind) (name : String) : Hook → Exec (List (Pass J)) Bool
  | .foreign s =>
    boundary ((code.parsing s.callback s.context.content? name).run (answerAssemble kind))
  | .registry => appendRegistered kind name

namespace Builder

/-- Offers a name to hooks in order until one recognizes it. -/
def offer (kind : Kind) (name : String) : List Hook → Exec (List (Pass J)) Bool
  | [] => return false
  | hook :: rest => do
    if ← hook.recognize code kind name then return true
    offer kind name rest

variable (b : Builder)

/-- Adds what an element stands for inside of `function(...)`. -/
def elaborateFunction (e : Element) : Exec FunctionPipeline (Except Pipeline.Error Unit) := do
  if ← offer code .function e.name (b.parsingOf .function) then return .ok ()
  return .error (.unknownPass e.name)

def elaborateFunctions : List Element → Exec FunctionPipeline (Except Pipeline.Error Unit)
  | [] => return .ok ()
  | e :: rest => do
    match ← b.elaborateFunction code e with
    | .ok () => elaborateFunctions rest
    | .error error => return .error error

/-- Adds an adapter around passes that were built apart, or drops them. -/
def adaptOrDrop (passes : FunctionPipeline) :
    Except Pipeline.Error Unit → Exec ModulePipeline (Except Pipeline.Error Unit)
  | .ok () => do
    append [.perFunction passes]
    return .ok ()
  | .error error => do
    discard passes
    return .error error

mutual

/-- Adds what an element stands for at module level. -/
def elaborate : Element → Exec ModulePipeline (Except Pipeline.Error Unit)
  | .mk name children => do
    if name = "module" ∧ children.isEmpty = false then elaborateAll children
    else if name = "function" ∧ children.isEmpty = false then
      let (outcome, passes) ← building (b.elaborateFunctions code children)
      adaptOrDrop passes outcome
    else if ← offer code .module name (b.parsingOf .module) then return .ok ()
    else
      let (found, passes) ← building (offer code .function name (b.parsingOf .function))
      adaptOrDrop passes (if found then .ok () else .error (.unknownPass name))

/-- Adds what elements stand for, up to the first that is not known. -/
def elaborateAll : List Element → Exec ModulePipeline (Except Pipeline.Error Unit)
  | [] => return .ok ()
  | e :: rest => do
    match ← elaborate e with
    | .ok () => elaborateAll rest
    | .error error => return .error error

end

/-- Adds the passes that a text names. Nothing happens if it cannot be read. -/
def elaborateText (text : String) : Exec ModulePipeline (Except Pipeline.Error Unit) :=
  match Pipeline.parse text with
  | .ok elements => b.elaborateAll code elements
  | .error error => return .error error

end Builder

end ForeignPasses
