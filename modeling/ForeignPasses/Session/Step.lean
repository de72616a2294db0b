import ForeignPasses.Registry.Transcript
import ForeignPasses.Script.Code
import ForeignPasses.Session.Objects

/-!
# Steps of a session

What can be asked of a session, and what it answers.
-/

namespace ForeignPasses

/-- Whether a request goes through the foreign boundary or straight to the framework. -/
inductive Route where
  | boundary
  | direct
  deriving DecidableEq, Repr

/-- Steps that exist for both kinds of units. -/
inductive UnitStep where
  | enterPass (name : ByteArray) (entry : Entry) (route : Route)
  | enterAnalysis (key : Option Key) (entry : Entry) (route : Route)
  | knowsPass (name : String)
  | registry
  | appendRegistered (name pipeline : String)
  | install (builder : String)
  | enrolRegistry (manager : String)
  | newPipeline (pipeline : String)
  | addPass (pipeline : String) (addition : Addition)
  | addNative (pipeline : String) (pass : Entry)
  | addGroup (pipeline inner : String)
  | pipeline (pipeline : String)
  | run (pipeline target manager : String)
  | invoke (pass : Entry) (context : Handed String) (name target manager : String)
  | register (manager : String) (key : Option Key) (analysis : Entry) (context : Handed String)
      (route : Route)
  | result (manager : String) (key : Option Key) (target : String) (route : Route)
  | cached (manager : String) (key : Option Key) (target : String) (route : Route)
  | manager (manager : String)
  | isRegistered (manager : String) (key : Key)
  | clear (manager : String)
  | invalidate (manager target : String) (preserved : Preserved)
  | setBody (target : String) (body : Body)
  | nativeRegister (manager : String) (index : Nat) (analysis : Entry)
  | nativeResult (manager : String) (index : Nat) (target : String)
  | nativeCached (manager : String) (index : Nat) (target : String)
  | identity (scopes : List Key)
  | relay (subscription pipeline : String) (effort : Effort)

inductive Step where
  | module (id name : String) (functions : List (String × Body))
  | function (id name : String) (body : Body)
  | addFunction (module name : String) (body : Body)
  | findFunction (module name : String)
  | print (module : String)
  | compareUnits (first second : String)
  | builder (id : String)
  | moduleManager (id : String)
  | functionManager (id : String)
  | drop (sort : ObjectSort) (id : String)
  | addAdapter (modulePipeline functionPipeline : String)
  | subscribe (builder : String) (topic : Builder.Topic) (callback : Entry)
      (context : Handed String)
  | load (builder : String) (info : PluginInfo)
  | apiVersion
  | setUp (builder moduleManager functionManager : String)
  | parse (builder modulePipeline text : String)
  | build (builder modulePipeline : String) (effort : Effort) (link : Bool)
  | newSubscription (id : String) (callback : Entry) (context : Handed String)
  | cloneSubscription (id source : String)
  | onUnit (kind : Kind) (step : UnitStep)

/-- Whether analyses are registered from a registry, which keeps them in no particular order. -/
def Step.enrolsRegistry : Step → Bool
  | setUp .. => true
  | onUnit _ (.enrolRegistry _) => true
  | _ => false

/-- Why a step is refused. The session goes on. -/
inductive Refusal where
  | noSuch (name : String)
  | pipeline (error : Pipeline.Error)
  | boundary (error : BoundaryError)
  | plugin (error : LoadError)

namespace Refusal

def name : Refusal → String
  | noSuch _ => "NoSuch"
  | pipeline e => e.name
  | boundary e => e.name
  | plugin e => e.name

def message : Refusal → String
  | noSuch name => name
  | pipeline e => e.message
  | boundary e => e.message
  | plugin e => e.message

end Refusal

inductive Answer where
  | nothing
  | truth (value : Bool)
  | number (value : Int)
  | text (value : String)
  | texts (values : List String)
  | passes (names : List String)
  | analyses (ids : List String)
  | preserved (value : Preserved)
  | registry (overview : Registry.Overview)
  | plugin (info : PluginInfo)
  | invoked (name : String) (status : Status)

/-- How a step ends. After the last three the session is over. -/
inductive Outcome where
  | answered (answer : Answer)
  | refused (refusal : Refusal)
  | panicked (panic : Panic)
  | crashed (panic : Panic)
  | aborted (error : BoundaryError)
  | exhausted

/-- What becomes known of a step. -/
structure Report where
  outcome : Outcome
  events : List String

/-- What becomes known of a session; the end is missing if it is over early. -/
structure Transcript where
  steps : List Report
  ending : Option (List String)

end ForeignPasses
