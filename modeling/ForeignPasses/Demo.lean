import ForeignPasses.Builder.Analyses
import ForeignPasses.Builder.Default
import ForeignPasses.Builder.Elaborate
import ForeignPasses.Exec.Registration
import ForeignPasses.Options
import ForeignPasses.Plugin

/-!
# A demonstration

A small plugin and a sample module: a pass that removes instructions that do nothing, a pass that
prints how many there are, and a greeting. The tool runs a textual or a default pipeline over the
sample and prints what is left of it.
-/

namespace ForeignPasses.Demo

/-! ## The plugin -/

def instructionCount : Key := .numbered 0

def lengthKey : Key := .numbered 1

/-- The entries of the passes and of the callbacks. -/
def stripNops : Entry := 0

def printStats : Entry := 1

def hello : Entry := 2

def addHello : Entry := 0

def addStripNops : Entry := 1

/-- A number that is released without a word. -/
def boxed (n : Nat) : Handed Int := .owned n none

def countInstructions (m : Module) : Nat := (m.content.flatMap fun f ↦ f.content).length

def stripNopsCode (f : Function) : Edition Body Empty (Body × Status) :=
  let body := f.content.filter (· ≠ "nop")
  return (body, if body.length = f.content.length then .allPreserved else .nonePreserved)

/-- Prints the length of each function, as the manager of functions knows it. -/
def lengthLines : Functions → FunctionInquest
  | [] => return none
  | f :: rest => do
    let length ← Inquest.result f (some lengthKey)
    Inquest.say (";   " ++ f.name ++ ": " ++ toString (length.getD 0))
    lengthLines rest

/-- The manager of functions is there before anything is printed. -/
def printStatsCode (m : Module) :
    Edition Functions FunctionInquest (Functions × Status) := do
  let total ← Edition.result m (some instructionCount)
  let _ ← Edition.within m do
    Inquest.say ("; " ++ toString (total.getD 0) ++ " instructions")
    lengthLines m.content
  return (m.content, .allPreserved)

def helloCode (greeting : Option String) (m : Module) :
    Edition Functions FunctionInquest (Functions × Status) := do
  Edition.say ("; " ++ greeting.getD "" ++ " from `" ++ m.name ++ "`")
  return (m.content, .allPreserved)

def functionBehaviour : Behaviour Body Empty where
  analysis _ _ f := return boxed f.content.length
  native _ _ := return 0
  onInvalidated _ _ _ := ""
  pass _ _ f := stripNopsCode f
  nativePass _ f := return (f.content, .all)

def moduleBehaviour : Behaviour Functions FunctionInquest where
  analysis _ _ m := return boxed (countInstructions m)
  native _ _ := return 0
  onInvalidated _ _ _ := ""
  pass entry context m := if entry = printStats then printStatsCode m else helloCode context m
  nativePass _ m := return (m.content, .all)

def extension (callback : Entry) (level : Level) : Assembly Unit :=
  if callback = addHello then
    .ask (.append none hello (.owned ("hello at " ++ level.name) none)) .done
  else if level = .O0 then return
  else .ask (.append none stripNops .null) .done

def code : Code where
  functions := functionBehaviour
  modules := moduleBehaviour
  nativeName _ := ""
  extension callback _ level := extension callback level
  parsing _ _ _ := return false
  enrolment _ _ := return

/-! ## The tool -/

open Exec

def sampleFunctions : Exec Unit Functions := do
  let main := ["nop", "call helper", "nop", "ret"]
  let helper := ["load", "nop", "store", "ret"]
  return [⟨← freshUnit, "main", main⟩, ⟨← freshUnit, "helper", helper⟩]

def sample : Exec Unit Module := do
  let id ← freshUnit
  return ⟨id, "sample", ← sampleFunctions⟩

/-- Works on something that is there only for the time being. -/
def temporarily {σ α : Type} (s : σ) (act : Exec σ α) : Exec Unit (α × σ) :=
  zoom (fun _ ↦ s) (fun u _ ↦ u) do
    let a ← act
    return (a, ← focus)

def register : Exec Unit Unit := do
  boundaryAnalysis .module (some instructionCount) 0
  boundaryAnalysis .function (some lengthKey) 0
  boundaryPass .function "strip-nops".toUTF8 stripNops
  boundaryPass .module "print-stats".toUTF8 printStats

def info : PluginInfo :=
  ⟨apiVersion, some "playground".toUTF8, some "0.1.0".toUTF8⟩

/-- A builder with the plugin and its callbacks. -/
def builder : Exec Unit (Except LoadError Builder) := do
  let (loaded, b) ← temporarily {} do
    Builder.subscribe (.extension .pipelineStart) addHello .null
    Builder.subscribe (.extension .peephole) addStripNops .null
    Builder.subscribe (.extension .linkEarly) addHello .null
    Builder.load info
  return loaded.map fun _ ↦ b

/-- The pipeline that the options ask for. -/
def pipeline (b : Builder) (options : Options) :
    Exec Unit (Except Pipeline.Error ModulePipeline) := do
  match options.passes with
  | some text =>
    let (parsed, passes) ← temporarily [] (b.elaborateText code text)
    return parsed.map fun _ ↦ passes
  | none =>
    let (_, passes) ← temporarily []
      (if options.link then b.buildLink code options.effort
        else b.buildDefault code options.effort)
    return .ok passes

/-- Runs the tool: an error message, or the module in the end. -/
def execute (options : Options) : Exec Unit (Except String Module) := do
  register
  match ← builder with
  | .error e => return .error e.message
  | .ok b =>
    let (_, mam) ← temporarily {} (b.setUp code {})
    match ← pipeline b options with
    | .error e => return .error e.message
    | .ok passes =>
      let m ← sample
      let (_, job) ← temporarily (⟨mam, m⟩ : Job Functions FunctionManager)
        (code.runModulePipeline passes)
      return .ok job.unit

/-- What a run of the tool leaves behind: an exit code, what it printed, and an error message. -/
structure Ending where
  code : Nat
  output : String
  message : Option String

def lines (events : List Event) : String :=
  String.join ((report .off false events).map (· ++ "\n"))

def run (options : Options) : Ending :=
  match (execute options).run ⟨{}, ()⟩ with
  | .ok (.ok m) w => ⟨0, lines w.shared.events ++ m.listing, none⟩
  | .ok (.error message) w => ⟨1, lines w.shared.events, some ("playground: " ++ message)⟩
  | .error _ w => ⟨101, lines w.shared.events, none⟩

/-- Runs the tool on a command line. What the options parser itself prints is not part of this. -/
def runArgs (args : List String) : Ending :=
  match Options.parse args with
  | .ok options => run options
  | .error .helpOrVersion => ⟨0, "", none⟩
  | .error _ => ⟨1, "", none⟩

/-- The first line of the message. -/
def Ending.firstLine (e : Ending) : Option String :=
  e.message.map fun message ↦
    let line := message.toList.takeWhile (· ≠ '\n')
    let whole := line.length = message.length
    String.ofList (if !whole && line.getLast? = some '\r' then line.dropLast else line)

end ForeignPasses.Demo
