/-!
# Units of code

A module holds functions and a function holds a flat list of instructions. Each carries an
identifier that no other unit shares; its name is only for people.
-/

namespace ForeignPasses

/-- Tells units apart; a later unit has a larger one. -/
abbrev UnitId := Nat

/-- A unit of code with contents of type `β`. -/
structure CodeUnit (β : Type) where
  id : UnitId
  name : String
  content : β
  deriving DecidableEq, Repr

abbrev Body := List String

abbrev Function := CodeUnit Body

abbrev Functions := List Function

abbrev Module := CodeUnit Functions

namespace CodeUnit

/-- Changes the contents alone. -/
def withContent {β : Type} (u : CodeUnit β) (content : β) : CodeUnit β := { u with content }

@[simp] theorem id_withContent {β : Type} (u : CodeUnit β) (c : β) : (u.withContent c).id = u.id :=
  rfl

@[simp] theorem name_withContent {β : Type} (u : CodeUnit β) (c : β) :
    (u.withContent c).name = u.name :=
  rfl

@[simp] theorem content_withContent {β : Type} (u : CodeUnit β) (c : β) :
    (u.withContent c).content = c :=
  rfl

end CodeUnit

namespace Function

/-- The text of one function inside its module's text. -/
def listing (f : Function) : String :=
  "\nfn " ++ f.name ++ " \x7b\n" ++ String.join (f.content.map fun i ↦ "  " ++ i ++ "\n") ++
    "\x7d\n"

end Function

namespace Module

/-- The first function with a name. -/
def function? (m : Module) (name : String) : Option Function := m.content.find? (·.name = name)

/-- The text of a module: its name, then its functions in order. -/
def listing (m : Module) : String :=
  "module " ++ m.name ++ "\n" ++ String.join (m.content.map Function.listing)

end Module

end ForeignPasses
