import ForeignPasses.Exec.Registration
import ForeignPasses.Session.Step

/-!
# Running a session

Each step finds the objects it names, first the unit, then the manager, then the pipeline, and
works on them. What a step moves into something else is taken first, and is dropped if the step is
refused. A refusal or a panic ends the step alone, and what was done before stays done.
-/

namespace ForeignPasses.Session

open Exec

/-- A step in the making. -/
abbrev Act (α : Type) := ExceptT Refusal (Exec Objects) α

variable {α β I S J : Type}

def objects : Act Objects := ExceptT.lift focus

def registryOf (kind : Kind) : Act Registry := ExceptT.lift do return (← shared).registry kind

/-- Finds an object by name. -/
def require (table : Objects → Table String α) (name : String) : Act α := do
  match (table (← objects)).find? name with
  | some a => return a
  | none => throw (.noSuch name)

/-- Works on something that was found, and puts it back. -/
def on (a : α) (put : α → Objects → Objects) (act : Exec α β) : Act β :=
  ExceptT.lift (zoom (fun _ ↦ a) (fun o a ↦ put a o) act)

def modifyObjects (f : Objects → Objects) : Act Unit := ExceptT.lift (modifyFocus f)

def discardAll (rs : List Release) : Act Unit := ExceptT.lift (release rs)

/-- Passes an error of the framework on as a refusal. -/
def refuseWith {ε : Type} (refusal : ε → Refusal) : Except ε α → Act α
  | .ok a => return a
  | .error e => throw (refusal e)

/-! ## Putting objects back -/

def putBuilder (name : String) (b : Builder) (o : Objects) : Objects :=
  { o with builders := o.builders.insert name b }

def putModuleManager (name : String) (m : ModuleManager) (o : Objects) : Objects :=
  { o with moduleManagers := o.moduleManagers.insert name m }

def putFunctionManager (name : String) (m : FunctionManager) (o : Objects) : Objects :=
  { o with functionManagers := o.functionManagers.insert name m }

def putModulePipeline (name : String) (p : ModulePipeline) (o : Objects) : Objects :=
  { o with modulePipelines := o.modulePipelines.insert name p }

/-- Puts a new object under a name and drops the one that was there. -/
def store [Owner α] (table : Objects → Table String α) (put : String → α → Objects → Objects)
    (name : String) (a : α) : Act Unit := do
  let old := (table (← objects)).find? name
  modifyObjects (put name a)
  discardAll (releases old)

/-- Takes an object away, if it is there, and drops it. -/
def remove [Owner α] (table : Objects → Table String α) (erase : Objects → Objects)
    (name : String) : Act Bool := do
  let old := (table (← objects)).find? name
  modifyObjects erase
  discardAll (releases old)
  return old.isSome

/-- Takes an object that a step moves out of its table. If there is none, the refusal names the
part that it has in the step. -/
def take (part : String) (table : Objects → Table String α) (erase : Objects → Objects)
    (name : String) : Act α := do
  match (table (← objects)).find? name with
  | some a =>
    modifyObjects erase
    return a
  | none => throw (.noSuch part)

/-- Drops something that was taken if what it was taken for is refused. -/
def orDrop [Owner α] (a : α) (act : Act β) : Act β :=
  tryCatch act fun refusal ↦ do
    discardAll (releases a)
    throw refusal

/-- Takes a subscription away; the others keep a context alive that they share with it. -/
def removeSubscription (name : String) : Act Bool := do
  let o ← objects
  let rest := o.subscriptions.erase name
  let old := o.subscriptions.find? name
  modifyObjects fun o ↦ { o with subscriptions := rest }
  discardAll ((releases old).filter fun r ↦ !(releases rest.values).contains r)
  return old.isSome

/-- Puts a subscription under a name; the old one goes when the new one is there. -/
def storeSubscription (name : String) (s : Subscription) : Act Unit := do
  let old := (← objects).subscriptions.find? name
  modifyObjects fun o ↦ { o with subscriptions := o.subscriptions.insert name s }
  let kept := releases (← objects).subscriptions.values
  discardAll ((releases old).filter fun r ↦ !kept.contains r)

/-! ## The two kinds of units -/

/-- A unit that was found. -/
structure Place (β : Type) where
  unit : CodeUnit β
  put : CodeUnit β → Objects → Objects

/-- A manager that was found. -/
structure Hold (S : Type) where
  manager : Manager S
  put : Manager S → Objects → Objects

/-- Where the objects for one kind of units are. -/
structure Desk (β I S J : Type) where
  tier : Tier β I S
  shape : Shape β I
  adapt : J → Exec (Job β S) Preserved
  pipelines : Objects → Table String (List (Pass J))
  putPipeline : String → List (Pass J) → Objects → Objects
  erasePipeline : String → Objects → Objects
  place : String → Act (Place β)
  hold : String → Act (Hold S)

def moduleDesk (code : Code) : Desk Functions FunctionInquest FunctionManager FunctionPipeline where
  tier := code.moduleTier
  shape := .module
  adapt := code.runPerFunction
  pipelines := Objects.modulePipelines
  putPipeline := putModulePipeline
  erasePipeline name o := { o with modulePipelines := o.modulePipelines.erase name }
  place name := do
    let m ← require Objects.modules name
    return ⟨m, fun m o ↦ { o with modules := o.modules.insert name m }⟩
  hold name := do
    let m ← require Objects.moduleManagers name
    return ⟨m, putModuleManager name⟩

/-- The manager of functions that is attached to a manager of modules, as foreign code gets it. -/
def holdAttached (code : Code) (manager module : String) : Act (Hold Empty) := do
  let mam ← require Objects.moduleManagers manager
  let m ← require Objects.modules module
  let attached ← on mam (putModuleManager manager) do
    code.moduleTier.access.boundaryAttached code.moduleTier.fetch m
    return (← focus).attached?
  match attached with
  | some inner =>
    return ⟨inner, fun inner o ↦
      { o with moduleManagers := o.moduleManagers.modify manager (·.setAttached inner) }⟩
  | none => throw (.noSuch manager)

def functionDesk (code : Code) : Desk Body Empty Empty Empty where
  tier := code.functionTier
  shape := .function
  adapt inner := nomatch inner
  pipelines := Objects.functionPipelines
  putPipeline name p o := { o with functionPipelines := o.functionPipelines.insert name p }
  erasePipeline name o := { o with functionPipelines := o.functionPipelines.erase name }
  place spec := do
    let (spot, f) ← refuseWith .noSuch ((← objects).function spec)
    return ⟨f, fun f o ↦ o.setFunction f spot⟩
  hold spec :=
    match Objects.splitAt? '@' spec with
    | some (manager, module) => holdAttached code manager module
    | none => do
      let m ← require Objects.functionManagers spec
      return ⟨m, putFunctionManager spec⟩

namespace Desk

variable [Owner S] [Owner J] (code : Code) (desk : Desk β I S J)

/-- Works on a manager. -/
def onManager (hold : Hold S) (act : Exec (Manager S) α) : Act α := on hold.manager hold.put act

/-- Works on a unit and a manager. -/
def onJob (place : Place β) (hold : Hold S) (act : Exec (Job β S) α) : Act α :=
  on (⟨hold.manager, place.unit⟩ : Job β S)
    (fun job o ↦ place.put job.unit (hold.put job.manager o)) act

/-- Works on a pipeline. -/
def onPipeline (name : String) (act : Exec (List (Pass J)) α) : Act α := do
  let passes ← require desk.pipelines name
  on passes (desk.putPipeline name) act

/-- Ends everything beyond the boundary if a registration is refused, and only the step if not. -/
def settleRegistration (route : Route) (r : Except BoundaryError Unit) : Act Unit :=
  match route with
  | .boundary => ExceptT.lift (orFatal r)
  | .direct => refuseWith .boundary r

def number (value : Option Int) : Answer :=
  match value with
  | some n => .number n
  | none => .nothing

def step : UnitStep → Act Answer
  | .enterPass name entry route => do
    settleRegistration route
      (← ExceptT.lift (enterPass desk.tier.kind (nameOf name) entry))
    return .nothing
  | .enterAnalysis none _ _ => ExceptT.lift (fatal .nullKey)
  | .enterAnalysis (some key) entry route => do
    settleRegistration route (← ExceptT.lift (enterAnalysis desk.tier.kind key entry))
    return .nothing
  | .knowsPass name => do
    return .truth ((← registryOf desk.tier.kind).pass? name).isSome
  | .registry => do return .registry (← registryOf desk.tier.kind).overview
  | .appendRegistered name pipeline => do
    return .truth (← desk.onPipeline pipeline (appendRegistered desk.tier.kind name))
  | .install builder => do
    let b ← require Objects.builders builder
    on b (putBuilder builder) (Builder.install desk.tier.kind)
    return .nothing
  | .enrolRegistry manager => do
    onManager (← desk.hold manager) desk.tier.enrolRegistry
    return .nothing
  | .newPipeline pipeline => do
    store desk.pipelines desk.putPipeline pipeline []
    return .nothing
  | .addPass pipeline addition => do
    desk.onPipeline pipeline
      (answerAssemble desk.tier.kind (.append addition.name addition.pass addition.context))
    return .nothing
  | .addNative pipeline pass => do
    desk.onPipeline pipeline (append [.native (code.nativeName pass) pass])
    return .nothing
  | .addGroup pipeline inner => do
    let passes ← take "inner" desk.pipelines (desk.erasePipeline inner) inner
    let outer ← orDrop passes (require desk.pipelines pipeline)
    modifyObjects (desk.putPipeline pipeline (outer ++ [.group passes]))
    return .nothing
  | .pipeline pipeline => do
    return .passes ((← require desk.pipelines pipeline).map Pass.name)
  | .run pipeline target manager => do
    let place ← desk.place target
    let hold ← desk.hold manager
    let passes ← require desk.pipelines pipeline
    return .preserved (← onJob place hold (desk.tier.runAll desk.adapt passes))
  | .invoke pass context name target manager => do
    let place ← desk.place target
    let hold ← desk.hold manager
    let status ← onJob place hold do
      let context ← adopt context
      let status ← desk.tier.invoke pass context
      discard context
      return status
    return .invoked name status
  | .register manager key analysis context route => do
    let hold ← desk.hold manager
    match route, key with
    | .direct, some key =>
      return .truth (← onManager hold do
        desk.tier.access.registerForeign key analysis (← adopt context))
    | _, key =>
      return .truth (← onManager hold (desk.tier.access.boundaryRegister key analysis context))
  | .result manager key target route => do
    let place ← desk.place target
    let hold ← desk.hold manager
    let value ← onManager hold <|
      match route, key with
      | .direct, some key => desk.tier.access.foreignResult desk.tier.fetch place.unit key
      | _, key => desk.tier.access.boundaryResult desk.tier.fetch place.unit key
    return number value.content?
  | .cached manager key target route => do
    let place ← desk.place target
    let hold ← desk.hold manager
    let value ← onManager hold <|
      match route, key with
      | .direct, some key => desk.tier.access.foreignCached place.unit key
      | _, key => desk.tier.access.boundaryCached place.unit key
    return number (value.bind Opaque.content?)
  | .manager manager => do
    let ids := (← desk.hold manager).manager.keys.map fun k ↦ "AnalysisId(" ++ k.name ++ ")"
    return .analyses (sortByText id ids)
  | .isRegistered manager key => do
    return .truth ((← desk.hold manager).manager.isRegistered key)
  | .clear manager => do
    onManager (← desk.hold manager) do
      let (cleared, rs) := (← focus).clear
      setFocus cleared
      release rs
    return .nothing
  | .invalidate manager target preserved => do
    let place ← desk.place target
    let hold ← desk.hold manager
    onManager hold (desk.tier.invalidate place.unit preserved)
    return .nothing
  | .setBody target body => do
    let place ← desk.place target
    modifyObjects
      (place.put (place.unit.withContent (desk.shape.edit (fun _ ↦ body) place.unit.content)))
    return .nothing
  | .nativeRegister manager index analysis => do
    return .truth (← onManager (← desk.hold manager) (desk.tier.registerNative index analysis))
  | .nativeResult manager index target => do
    let place ← desk.place target
    let hold ← desk.hold manager
    return .number (← onManager hold (desk.tier.fetch (.native index) place.unit))
  | .nativeCached manager index target => do
    let place ← desk.place target
    let hold ← desk.hold manager
    return number (← onManager hold (desk.tier.access.cached (.native index) place.unit))
  | .identity scopes => do
    let key ← ExceptT.lift (scopes.foldr (withKey desk.tier.kind) (identity desk.tier.kind))
    return .text key.name
  | .relay subscription pipeline effort => do
    let s ← require Objects.subscriptions subscription
    desk.onPipeline pipeline (s.extend code desk.tier.kind effort)
    return .nothing

end Desk

/-! ## Steps without a kind -/

/-- Makes functions, each with an identifier of its own. -/
def makeFunctions : List (String × Body) → Act Functions
  | [] => return []
  | (name, body) :: rest => do
    let id ← ExceptT.lift freshUnit
    return ⟨id, name, body⟩ :: (← makeFunctions rest)

def drop (id : String) : ObjectSort → Act Bool
  | .module => do
    let found := (← objects).modules.contains id
    modifyObjects fun o ↦ { o with modules := o.modules.erase id }
    return found
  | .function => do
    let found := (← objects).functions.contains id
    modifyObjects fun o ↦ { o with functions := o.functions.erase id }
    return found
  | .builder =>
    remove Objects.builders (fun o ↦ { o with builders := o.builders.erase id }) id
  | .moduleManager =>
    remove Objects.moduleManagers
      (fun o ↦ { o with moduleManagers := o.moduleManagers.erase id }) id
  | .functionManager =>
    remove Objects.functionManagers
      (fun o ↦ { o with functionManagers := o.functionManagers.erase id }) id
  | .modulePipeline =>
    remove Objects.modulePipelines
      (fun o ↦ { o with modulePipelines := o.modulePipelines.erase id }) id
  | .functionPipeline =>
    remove Objects.functionPipelines
      (fun o ↦ { o with functionPipelines := o.functionPipelines.erase id }) id
  | .subscription => removeSubscription id

def orderName : Ordering → String
  | .lt => "Less"
  | .eq => "Equal"
  | .gt => "Greater"

def step (code : Code) : Step → Act Answer
  | .module id name functions => do
    let unit ← ExceptT.lift freshUnit
    let functions ← makeFunctions functions
    modifyObjects fun o ↦ { o with modules := o.modules.insert id ⟨unit, name, functions⟩ }
    return .nothing
  | .function id name body => do
    let unit ← ExceptT.lift freshUnit
    modifyObjects fun o ↦ { o with functions := o.functions.insert id ⟨unit, name, body⟩ }
    return .nothing
  | .addFunction module name body => do
    let m ← require Objects.modules module
    let unit ← ExceptT.lift freshUnit
    let m := m.withContent (m.content ++ [⟨unit, name, body⟩])
    modifyObjects fun o ↦ { o with modules := o.modules.insert module m }
    return .nothing
  | .findFunction module name => do
    match (Module.function? (← require Objects.modules module) name) with
    | some f => return .texts f.content
    | none => return .nothing
  | .print module => do return .text (Module.listing (← require Objects.modules module))
  | .compareUnits first second => do
    let a ← refuseWith .noSuch ((← objects).unitId first)
    let b ← refuseWith .noSuch ((← objects).unitId second)
    return .text (orderName (compare a b))
  | .builder id => do
    store Objects.builders putBuilder id {}
    return .nothing
  | .moduleManager id => do
    store Objects.moduleManagers putModuleManager id {}
    return .nothing
  | .functionManager id => do
    store Objects.functionManagers putFunctionManager id {}
    return .nothing
  | .drop sort id => do return .truth (← drop id sort)
  | .addAdapter target inner => do
    let passes ← take "fpm" Objects.functionPipelines
      (fun o ↦ { o with functionPipelines := o.functionPipelines.erase inner }) inner
    let outer ← orDrop passes (require Objects.modulePipelines target)
    modifyObjects (putModulePipeline target (outer ++ [.perFunction passes]))
    return .nothing
  | .subscribe builder topic callback context => do
    let b ← require Objects.builders builder
    on b (putBuilder builder) (Builder.subscribe topic callback context)
    return .nothing
  | .load builder info => do
    let b ← require Objects.builders builder
    refuseWith .plugin (← on b (putBuilder builder) (Builder.load info))
    return .plugin info
  | .apiVersion => return .number ForeignPasses.apiVersion.toNat
  | .setUp builder moduleManager functionManager => do
    let fam ← take "fam" Objects.functionManagers
      (fun o ↦ { o with functionManagers := o.functionManagers.erase functionManager })
      functionManager
    let mam ← orDrop fam (require Objects.moduleManagers moduleManager)
    let b ← orDrop fam (require Objects.builders builder)
    on mam (putModuleManager moduleManager) (b.setUp code fam)
    return .nothing
  | .parse builder pipeline text => do
    let passes ← require Objects.modulePipelines pipeline
    let b ← require Objects.builders builder
    refuseWith .pipeline (← on passes (putModulePipeline pipeline) (b.elaborateText code text))
    return .nothing
  | .build builder pipeline effort link => do
    let b ← require Objects.builders builder
    let (_, passes) ← ExceptT.lift
      (building (if link then b.buildLink code effort else b.buildDefault code effort))
    store Objects.modulePipelines putModulePipeline pipeline passes
    return .nothing
  | .newSubscription id callback context => do
    let context ← ExceptT.lift (adopt context)
    storeSubscription id ⟨callback, context⟩
    return .nothing
  | .cloneSubscription id source => do
    storeSubscription id (← require Objects.subscriptions source)
    return .nothing
  | .onUnit .module s => (moduleDesk code).step code s
  | .onUnit .function s => (functionDesk code).step code s

/-! ## Whole sessions -/

/-- The outcome of a step, and the state after it if the session goes on. -/
def settle : EStateM.Result Halt (World Objects) (Except Refusal Answer) →
    Outcome × World Objects × Bool
  | .ok (.ok a) w => (.answered a, w, true)
  | .ok (.error r) w => (.refused r, w, true)
  | .error (.panicked p) w => (.panicked p, w, true)
  | .error (.crashed p) w => (.crashed p, w, false)
  | .error (.fatal e) w => (.aborted e, w, false)
  | .error .exhausted w => (.exhausted, w, false)

/-- What is released when everything that is left goes away. -/
def ending (verbosity : Verbosity) (w : World Objects) : List String :=
  sortByText id (report verbosity false ((releases w.focus).map .released))

/-- Runs steps one after the other. -/
def transcript (code : Code) (verbosity : Verbosity) (w : World Objects) :
    List Step → Transcript
  | [] => ⟨[], some (ending verbosity w)⟩
  | s :: rest =>
    let (outcome, w', continues) := settle ((step code s).run w)
    let events := report verbosity s.enrolsRegistry w'.shared.events
    if continues then
      let w'' := { w' with shared := { w'.shared with events := [] } }
      let later := transcript code verbosity w'' rest
      ⟨⟨outcome, events⟩ :: later.steps, later.ending⟩
    else ⟨[⟨outcome, events⟩], none⟩

/-- Runs a session from the beginning. -/
def run (code : Code) (verbosity : Verbosity) (steps : List Step) : Transcript :=
  transcript code verbosity ⟨{}, {}⟩ steps

end ForeignPasses.Session
