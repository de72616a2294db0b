/-!
# Optimization levels

A pipeline is built for an effort, a pair of numbers that nothing restricts. Foreign code is told
one of six named levels; an effort without a name of its own is told as the smallest code size.
-/

namespace ForeignPasses

/-- How hard to optimize for speed and for size. -/
structure Effort where
  speedup : UInt32
  size : UInt32
  deriving DecidableEq, Repr

inductive Level where
  | O0
  | O1
  | O2
  | O3
  | Os
  | Oz
  deriving DecidableEq, Repr

namespace Level

def all : List Level := [O0, O1, O2, O3, Os, Oz]

def name : Level → String
  | O0 => "O0"
  | O1 => "O1"
  | O2 => "O2"
  | O3 => "O3"
  | Os => "Os"
  | Oz => "Oz"

/-- The position among the levels. -/
def number : Level → Nat
  | O0 => 0
  | O1 => 1
  | O2 => 2
  | O3 => 3
  | Os => 4
  | Oz => 5

def ofName? (name : String) : Option Level := all.find? (·.name = name)

def effort : Level → Effort
  | O0 => ⟨0, 0⟩
  | O1 => ⟨1, 0⟩
  | O2 => ⟨2, 0⟩
  | O3 => ⟨3, 0⟩
  | Os => ⟨2, 1⟩
  | Oz => ⟨2, 2⟩

end Level

namespace Effort

/-- The level whose effort this is. -/
def named? (e : Effort) : Option Level := Level.all.find? (·.effort = e)

def level (e : Effort) : Level := e.named?.getD .Oz

end Effort

@[simp] theorem Level.named?_effort (l : Level) : l.effort.named? = some l := by
  cases l <;> rfl

@[simp] theorem Level.level_effort (l : Level) : l.effort.level = l := by
  simp [Effort.level]

end ForeignPasses
