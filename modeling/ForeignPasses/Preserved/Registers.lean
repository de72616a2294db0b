import ForeignPasses.Preserved.Stored
import ForeignPasses.Table

/-!
# Registers of preserved sets

Sets under names, combined step by step. A name that was never set holds the empty set.
-/

namespace ForeignPasses.Preserved

inductive Act where
  | all (target : String)
  | none (target : String)
  | status (target : String) (status : Status)
  | preserve (target : String) (keys : List Key)
  | inter (target left right : String)
  | contains (source : String) (key : Key)
  | equal (left right : String)

inductive Answer where
  | set (value : Preserved)
  | truth (value : Bool)

abbrev Registers := Table String Stored

def Registers.get (r : Registers) (name : String) : Stored := (r.find? name).getD .none

variable (layout : Layout)

/-- Stores a set and shows it. -/
def Registers.store (r : Registers) (name : String) (value : Stored) : Registers × Answer :=
  (r.insert name value, .set (layout.read value))

def Registers.step (r : Registers) : Act → Registers × Answer
  | .all target => r.store layout target (.all layout.marker)
  | .none target => r.store layout target .none
  | .status target status => r.store layout target (.ofStatus layout.marker status)
  | .preserve target keys =>
    r.store layout target
      ((keys.map layout.address).foldl (Stored.preserve layout.marker) (r.get target))
  | .inter target left right =>
    r.store layout target (Stored.inter layout.marker (r.get left) (r.get right))
  | .contains source key =>
    (r, .truth (Stored.isPreserved layout.marker (r.get source) (layout.address key)))
  | .equal left right => (r, .truth (r.get left = r.get right))

def transcriptAt (r : Registers) : List Act → List Answer
  | [] => []
  | act :: rest => (r.step layout act).2 :: transcriptAt (r.step layout act).1 rest

def transcript : Registers → List Act → List Answer := transcriptAt .standard

end ForeignPasses.Preserved
