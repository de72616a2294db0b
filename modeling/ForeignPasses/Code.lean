import ForeignPasses.Level
import ForeignPasses.Preserved
import ForeignPasses.CodeUnit
import ForeignPasses.Opaque.Basic
import ForeignPasses.Program
import ForeignPasses.Registry.Basic

/-!
# Foreign code

The passes, analyses and callbacks that a client brings along, each known by its entry. Code sees
its context, the unit and the answers to its questions, and nothing else.
-/

namespace ForeignPasses

/-! ## What code may ask -/

/-- Questions about units with contents `β`. Code that works at the inner level of a unit is a
program of type `I`. -/
inductive Inquiry (β I : Type) where
  /-- Writes a line. -/
  | say (text : String)
  /-- Which identities are current, of modules and of functions. -/
  | identities
  /-- The result of an analysis, computed if need be; no key is the null key. -/
  | result (unit : CodeUnit β) (key : Option Key)
  /-- The result of an analysis if it is there. -/
  | cached (unit : CodeUnit β) (key : Option Key)
  /-- The result of a native analysis, without crossing the boundary. -/
  | native (unit : CodeUnit β) (index : Nat)
  /-- Runs a program with the manager attached for the inner level. -/
  | within (unit : CodeUnit β) (inner : I)

namespace Inquiry

def Answer {β I : Type} : Inquiry β I → Type
  | say _ => Unit
  | identities => Option Key × Option Key
  | result .. => Option Int
  | cached .. => Option Int
  | native .. => Int
  | within .. => Option Int

end Inquiry

/-- The code of an analysis: it only looks. -/
abbrev Inquest (β I α : Type) := Program (Inquiry β I) Inquiry.Answer α

/-- Questions of a pass, which may also register analyses and make new units. -/
inductive Edit (β I : Type) where
  | inquire (inquiry : Inquiry β I)
  | register (key : Option Key) (entry : Entry) (context : Handed String)
  | freshUnit

namespace Edit

def Answer {β I : Type} : Edit β I → Type
  | inquire q => q.Answer
  | register .. => Bool
  | freshUnit => UnitId

end Edit

/-- The code of a pass. -/
abbrev Edition (β I α : Type) := Program (Edit β I) Edit.Answer α

namespace Inquest

variable {β I : Type}

def say (text : String) : Inquest β I Unit := .ask (.say text) .done

def identities : Inquest β I (Option Key × Option Key) := .ask .identities .done

def result (u : CodeUnit β) (key : Option Key) : Inquest β I (Option Int) :=
  .ask (.result u key) .done

def cached (u : CodeUnit β) (key : Option Key) : Inquest β I (Option Int) :=
  .ask (.cached u key) .done

def native (u : CodeUnit β) (index : Nat) : Inquest β I Int := .ask (.native u index) .done

def within (u : CodeUnit β) (inner : I) : Inquest β I (Option Int) := .ask (.within u inner) .done

end Inquest

namespace Edition

variable {β I : Type}

def say (text : String) : Edition β I Unit := .ask (.inquire (.say text)) .done

def identities : Edition β I (Option Key × Option Key) := .ask (.inquire .identities) .done

def result (u : CodeUnit β) (key : Option Key) : Edition β I (Option Int) :=
  .ask (.inquire (.result u key)) .done

def cached (u : CodeUnit β) (key : Option Key) : Edition β I (Option Int) :=
  .ask (.inquire (.cached u key)) .done

def within (u : CodeUnit β) (inner : I) : Edition β I (Option Int) :=
  .ask (.inquire (.within u inner)) .done

def register (key : Option Key) (entry : Entry) (context : Handed String) : Edition β I Bool :=
  .ask (.register key entry context) .done

def freshUnit : Edition β I UnitId := .ask .freshUnit .done

end Edition

/-- Questions of a callback that fills a manager with analyses. -/
inductive Enrol where
  | say (text : String)
  | register (key : Option Key) (entry : Entry) (context : Handed String)

def Enrol.Answer : Enrol → Type
  | say _ => Unit
  | register .. => Bool

abbrev Enrolment := Program Enrol Enrol.Answer Unit

/-- Questions of a callback that adds passes to a pipeline. A pass without a name gets the
default one. -/
inductive Assemble where
  | say (text : String)
  | isEmpty
  | append (name : Option String) (entry : Entry) (context : Handed String)

def Assemble.Answer : Assemble → Type
  | say _ => Unit
  | isEmpty => Bool
  | append .. => Unit

abbrev Assembly (α : Type) := Program Assemble Assemble.Answer α

/-! ## What a client brings -/

/-- The code of analyses of units with contents `β`, which asks questions `Q`. Contexts are seen as
what their pointers point at, if they are not null. -/
structure Computations (β Q : Type) (A : Q → Type) where
  analysis : Entry → Option String → CodeUnit β → Program Q A (Handed Int)
  native : Entry → CodeUnit β → Program Q A Int

/-- The code that works over units with contents `β`. -/
structure Behaviour (β I : Type) extends Computations β (Inquiry β I) Inquiry.Answer where
  /-- What a native analysis says when a result of it is invalidated. -/
  onInvalidated : Entry → CodeUnit β → Preserved → String
  pass : Entry → Option String → CodeUnit β → Edition β I (β × Status)
  nativePass : Entry → CodeUnit β → Edition β I (β × Preserved)

/-- A program over functions, as a module's code may run it. -/
abbrev FunctionInquest := Inquest Body Empty (Option Int)

structure Code where
  functions : Behaviour Body Empty
  modules : Behaviour Functions FunctionInquest
  /-- The name of a native pass. -/
  nativeName : Entry → String
  extension : Entry → Option String → Level → Assembly Unit
  parsing : Entry → Option String → String → Assembly Bool
  enrolment : Entry → Option String → Enrolment

end ForeignPasses
