import ForeignPasses.Code

/-!
# Scripts

Foreign code written down as data: what a pass does to its unit and which results it asks for, how
an analysis comes to its number, and what a callback adds. Every script writes down what it does.
-/

namespace ForeignPasses

/-- One act of a pass. On a module the edits apply to every function. -/
inductive PassAct where
  | strip (instruction : String)
  | push (instruction : String)
  | pop
  | rename (old new : String)
  | addFunction (name : String) (body : Body)
  | result (key : Option Key)
  | cached (key : Option Key)
  | functionResult (function : String) (key : Option Key)
  | functionCached (function : String) (key : Option Key)
  | register (key : Option Key) (analysis : Entry) (context : Handed String)
  | current

/-- What a pass claims to preserve; `auto` claims everything exactly if no act changed anything. -/
inductive Claim where
  | auto
  | all
  | keys (keys : List Key)
  | none

structure PassScript where
  label : String := ""
  acts : List PassAct := []
  claim : Claim := .none
  deriving Inhabited

/-- One summand of an analysis. -/
inductive Summand where
  | const (value : Int)
  | length (weight : Int)
  | functions (weight : Int)
  | count (instruction : String) (weight : Int)
  | context (weight : Int)
  | result (key : Option Key) (weight : Int)
  | cached (key : Option Key) (weight default : Int)
  | native (index : Nat) (weight : Int)
  | functionSum (key : Option Key) (weight : Int)
  | current

/-- How an analysis hands over its number. -/
inductive Output where
  | owned
  | borrowed
  | null

structure AnalysisScript where
  label : String := ""
  terms : List Summand := []
  output : Output := .owned
  deriving Inhabited

/-- A pass that a callback adds, unless the level has one of the given names. -/
structure Addition where
  pass : Entry
  context : Handed String := .null
  name : Option String := none
  unlessLevels : List String := []

/-- An analysis that a callback registers. -/
structure Enlistment where
  key : Option Key
  analysis : Entry
  context : Handed String := .null

structure CallbackScript where
  label : String := ""
  additions : List Addition := []
  names : List String := []
  accept : Bool := true
  enlistments : List Enlistment := []
  deriving Inhabited

/-- Foreign code as data; an entry is a position in the list for its sort of code. -/
structure Scripts where
  passes : List PassScript := []
  analyses : List AnalysisScript := []
  callbacks : List CallbackScript := []

/-! ## Spelling -/

def keyName (key : Option Key) : String := (key.map Key.name).getD "null"

def shownKey (key : Option Key) : String := (key.map Key.name).getD "-"

def shownContext (context : Option String) : String := "ctx=" ++ context.getD "-"

def shownNumber (value : Option Int) : String := (value.map toString).getD "null"

def shownIdentities (keys : Option Key × Option Key) : String :=
  "current module=" ++ shownKey keys.1 ++ " function=" ++ shownKey keys.2

/-- A value that announces its release by its tag. -/
def tagged (tag : String) : Handed String := .owned tag (some ("release " ++ tag))

/-! ## Editing bodies -/

namespace PassAct

/-- What an act does to the body of a function. -/
def edit : PassAct → Body → Body
  | strip i, body => body.filter (· ≠ i)
  | push i, body => body ++ [i]
  | pop, body => body.dropLast
  | rename old new, body => body.map fun i ↦ if i = old then new else i
  | _, body => body

end PassAct

/-- A number in the 64 bits that results have. -/
def wrap (value : Int) : Int := value.bmod UInt64.size

end ForeignPasses
