import ForeignPasses.Builder.Analyses
import ForeignPasses.Builder.Default
import ForeignPasses.Builder.Elaborate
import ForeignPasses.Plugin

/-!
# Objects of a session

A session works on units, managers, pipelines, builders and subscriptions, each under a name. An
object that is replaced or taken away is dropped, and what it owns is released.
-/

namespace ForeignPasses

structure Objects where
  modules : Table String Module := ∅
  functions : Table String Function := ∅
  builders : Table String Builder := ∅
  moduleManagers : Table String ModuleManager := ∅
  functionManagers : Table String FunctionManager := ∅
  modulePipelines : Table String ModulePipeline := ∅
  functionPipelines : Table String FunctionPipeline := ∅
  subscriptions : Table String Subscription := ∅

/-- The sorts of objects. -/
inductive ObjectSort where
  | module
  | function
  | builder
  | moduleManager
  | functionManager
  | modulePipeline
  | functionPipeline
  | subscription
  deriving DecidableEq, Repr

namespace Objects

/-- Subscriptions may share a context, which is released once, after the last of them. -/
def sharedReleases (subscriptions : List Subscription) : List Release :=
  (releases subscriptions).eraseDups

instance : Owner Objects where
  releases o :=
    releases o.builders.values ++ releases o.moduleManagers.values ++
      releases o.functionManagers.values ++ releases o.modulePipelines.values ++
      releases o.functionPipelines.values ++ sharedReleases o.subscriptions.values

/-- A function by its own name, as `MODULE.NAME`, or as `MODULE#INDEX`. -/
inductive Spot where
  | alone (name : String)
  | inside (module : String) (index : Nat)

/-- Splits a text at the first occurrence of a character. -/
def splitAt? (c : Char) (text : String) : Option (String × String) :=
  match text.toList.span (· ≠ c) with
  | (before, _ :: after) => some (String.ofList before, String.ofList after)
  | (_, []) => none

/-- The number that a text of decimal digits stands for; a plus sign may come first. -/
def number? (text : String) : Option Nat :=
  let digits :=
    match text.toList with
    | '+' :: rest => rest
    | cs => cs
  if digits.isEmpty || !digits.all Char.isDigit then none
  else some (digits.foldl (fun n c ↦ 10 * n + (c.toNat - '0'.toNat)) 0)

/-- What was looked for; the error is its name if it is not there. -/
def orMissing {α : Type} (name : String) : Option α → Except String α
  | some a => .ok a
  | none => .error name

/-- The function at a place of a module. If the module is there and the function is not, the whole
spec is what is missing. -/
def functionAt (o : Objects) (spec module : String) (index? : Module → Option Nat) :
    Except String (Spot × Function) := do
  let m ← orMissing module (o.modules.find? module)
  orMissing spec do
    let index ← index? m
    let f ← m.content[index]?
    return (.inside module index, f)

/-- The function inside of a module that a spec stands for. -/
def functionInside (o : Objects) (spec : String) : Except String (Spot × Function) :=
  match splitAt? '.' spec, splitAt? '#' spec with
  | some (module, name), _ =>
    o.functionAt spec module fun m ↦ m.content.findIdx? (·.name = name)
  | none, some (module, number) => o.functionAt spec module fun _ ↦ number? number
  | none, none => .error spec

/-- The function that a spec stands for, and where it is. -/
def function (o : Objects) (spec : String) : Except String (Spot × Function) :=
  match o.functions.find? spec with
  | some f => .ok (.alone spec, f)
  | none => o.functionInside spec

def setFunction (o : Objects) (f : Function) : Spot → Objects
  | .alone name => { o with functions := o.functions.insert name f }
  | .inside module index =>
    { o with
      modules := o.modules.modify module fun m ↦ m.withContent (m.content.set index f) }

/-- The identifier of a unit, of a module before a function. -/
def unitId (o : Objects) (spec : String) : Except String UnitId :=
  match o.modules.find? spec with
  | some m => .ok m.id
  | none => (o.function spec).map fun found ↦ found.2.id

end Objects

end ForeignPasses
