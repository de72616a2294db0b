import ForeignPasses.Registry.Basic

/-!
# Registration transcripts

What a registry answers to a sequence of requests, each seen by the next.
-/

namespace ForeignPasses.Registry

inductive Act where
  | pass (name : String)
  | analysis (key : Key)
  | lookup (name : String)
  | overview

/-- What can be seen of a registry from outside. -/
structure Overview where
  unit : String
  passes : List String
  analyses : Nat
  keys : List Key

def overview (r : Registry) : Overview where
  unit := r.unit
  passes := r.names
  analyses := r.analyses.size
  keys := r.analyses.keys.mergeSort fun i j ↦ !j.before i

inductive Answer where
  | registered
  | refused (error : BoundaryError)
  | found (answer : Bool)
  | seen (overview : Overview)

/-- A registration that is refused leaves the registry as it was. -/
def settle (r : Registry) : Except BoundaryError Registry → Registry × Answer
  | .ok r' => (r', .registered)
  | .error e => (r, .refused e)

def step (r : Registry) : Act → Registry × Answer
  | .pass name => r.settle (r.addPass name 0)
  | .analysis key => r.settle (r.addAnalysis key 0)
  | .lookup name => (r, .found (r.pass? name).isSome)
  | .overview => (r, .seen r.overview)

def transcript (r : Registry) : List Act → List Answer
  | [] => []
  | act :: rest => (r.step act).2 :: (r.step act).1.transcript rest

end ForeignPasses.Registry
