import ForeignPasses.Builder.Basic

/-!
# Default pipelines

The pipelines that a builder makes out of what its clients add at the extension points. Passes
over functions go into one adapter for each place where they may run, if there are any.
-/

namespace ForeignPasses

open Exec

variable {J : Type} (code : Code)

/-- What the adapters of a pipeline run. -/
def Kind.Inner : Kind → Type
  | .module => FunctionPipeline
  | .function => Empty

section Assembling

variable (extendAt : (point : ExtensionPoint) → Exec (List (Pass point.kind.Inner)) Unit)

/-- The pipeline for one module. -/
def assembleDefault : Exec ModulePipeline Unit := do
  extendAt .pipelineStart
  extendAt .earlySimplification
  let (_, simplification) ← building do
    extendAt .peephole
    extendAt .scalarLate
  append (Pass.adapted? simplification)
  extendAt .optimizerEarly
  let (_, vectorization) ← building (extendAt .vectorizerStart)
  append (Pass.adapted? vectorization)
  extendAt .optimizerLast

/-- The pipeline for link time. -/
def assembleLink : Exec ModulePipeline Unit := do
  extendAt .linkEarly
  extendAt .linkLast

end Assembling

/-- Lets a callback add its passes. -/
def Subscription.extend (s : Subscription) (kind : Kind) (effort : Effort) :
    Exec (List (Pass J)) Unit :=
  boundary ((code.extension s.callback s.context.content? effort.level).run (answerAssemble kind))

namespace Builder

def extendAll (kind : Kind) (effort : Effort) : List Subscription → Exec (List (Pass J)) Unit
  | [] => return
  | s :: rest => do
    s.extend code kind effort
    extendAll kind effort rest

/-- Lets every callback of an extension point add its passes. -/
def extendAt (b : Builder) (effort : Effort) (point : ExtensionPoint) :
    Exec (List (Pass J)) Unit :=
  extendAll code point.kind effort (b.extensionsAt point)

def buildDefault (b : Builder) (effort : Effort) : Exec ModulePipeline Unit :=
  assembleDefault fun point ↦ b.extendAt code effort point

def buildLink (b : Builder) (effort : Effort) : Exec ModulePipeline Unit :=
  assembleLink fun point ↦ b.extendAt code effort point

end Builder

/-! ## Callbacks of any origin -/

/-- A callback at an extension point: foreign code with its context, or native code, which knows
the effort itself and adds passes according to what it finds. -/
inductive Extension (point : ExtensionPoint) where
  | foreign (subscription : Subscription)
  | native (contribute : Effort → List (Pass point.kind.Inner) → Shared →
      List (Pass point.kind.Inner) × Shared)

/-- The callbacks at every extension point, in the order in which they came. -/
abbrev Slots := (point : ExtensionPoint) → List (Extension point)

namespace Slots

def empty : Slots := fun _ ↦ []

def register (slots : Slots) (point : ExtensionPoint) (e : Extension point) : Slots := fun other ↦
  if h : point = other then slots other ++ [h ▸ e] else slots other

def registerAll (slots : Slots) (registrations : List (Sigma Extension)) : Slots :=
  registrations.foldl (fun slots r ↦ slots.register r.1 r.2) slots

/-- Lets a callback add its passes. -/
def extend (effort : Effort) {point : ExtensionPoint} :
    Extension point → Exec (List (Pass point.kind.Inner)) Unit
  | .foreign s => s.extend code point.kind effort
  | .native contribute => fun w ↦
    .ok () ⟨(contribute effort w.focus w.shared).2, w.focus ++ (contribute effort w.focus w.shared).1⟩

def extendAt (slots : Slots) (effort : Effort) (point : ExtensionPoint) :
    Exec (List (Pass point.kind.Inner)) Unit :=
  (slots point).forM (extend code effort)

def buildDefault (slots : Slots) (effort : Effort) : Exec ModulePipeline Unit :=
  assembleDefault fun point ↦ slots.extendAt code effort point

def buildLink (slots : Slots) (effort : Effort) : Exec ModulePipeline Unit :=
  assembleLink fun point ↦ slots.extendAt code effort point

end Slots

/-- The callbacks of a builder, all of them foreign. -/
def Builder.slots (b : Builder) : Slots :=
  Slots.empty.registerAll (b.extensions.map fun e ↦ ⟨e.1, .foreign e.2⟩)

end ForeignPasses
