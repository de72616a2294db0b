import ForeignPasses.CodeUnit
import ForeignPasses.Key
import ForeignPasses.Opaque.Basic

/-!
# Events

Everything that happens while code runs, in order. A value that comes in, a deleter that says
nothing and an analysis that does not listen to its invalidation are recorded all the same; they
have no line of text.
-/

namespace ForeignPasses

inductive Severity where
  | debug
  | trace
  deriving DecidableEq, Repr

inductive Event where
  | log (severity : Severity) (message : String)
  | note (text : String)
  /-- Foreign code handed over a value that is not null. -/
  | adopted (address : Nat)
  | released (release : Release)
  | invalidated (unit : UnitId) (key : Key) (text : Option String)
  deriving DecidableEq, Repr

/-- How much of the log is wanted. -/
inductive Verbosity where
  | off
  | debug
  | trace
  deriving DecidableEq, Repr

namespace Verbosity

def shows : Verbosity → Severity → Bool
  | off, _ => false
  | debug, .debug => true
  | debug, .trace => false
  | trace, _ => true

end Verbosity

namespace Event

/-- The line of an event, if it has one that is wanted. -/
def line? (verbosity : Verbosity) : Event → Option String
  | log .debug message => if verbosity.shows .debug then some ("log DEBUG " ++ message) else none
  | log .trace message => if verbosity.shows .trace then some ("log TRACE " ++ message) else none
  | note text => some text
  | adopted _ => none
  | released r => r.text
  | invalidated _ _ text => text

def isLog : Event → Bool
  | log .. => true
  | _ => false

/-- Whether the event takes a result or a value away. Several of those in a row come in no
particular order. -/
def isLoss : Event → Bool
  | released _ => true
  | invalidated .. => true
  | _ => false

end Event

/-! ## Reports -/

/-- Sorts a list by a name. -/
def sortByText {α : Type} (text : α → String) (l : List α) : List α :=
  l.mergeSort fun a b ↦ text a ≤ text b

/-- Sorts each longest run of neighbours that satisfy `p`; `run` holds the run so far, last
first. -/
def sortRuns {α : Type} (text : α → String) (p : α → Bool) (run : List α) : List α → List α
  | [] => sortByText text run.reverse
  | a :: rest =>
    if p a then sortRuns text p (a :: run) rest
    else sortByText text run.reverse ++ a :: sortRuns text p [] rest

/-- The lines of events in a settled order: runs of losses are sorted, and then, if asked for,
runs of log lines. -/
def report (verbosity : Verbosity) (sortLogs : Bool) (events : List Event) : List String :=
  let lines := events.filterMap fun e ↦ (e.line? verbosity).map fun text ↦ (e, text)
  let settled := sortRuns Prod.snd (·.1.isLoss) [] lines
  (if sortLogs then sortRuns Prod.snd (·.1.isLog) [] settled else settled).map Prod.snd

end ForeignPasses
