import ForeignPasses.Pass.Run

/-!
# Pipeline builders

A builder keeps the callbacks of its clients: those that add passes at extension points, those
that recognize names in textual pipelines, and those that fill new managers with analyses. A
callback owns its context for as long as the builder lives.
-/

namespace ForeignPasses

/-- A foreign callback with its context. -/
structure Subscription where
  callback : Entry
  context : Opaque String

instance : Owner Subscription := ⟨fun s ↦ s.context.drop⟩

/-- The places of the default pipelines where clients may add passes. -/
inductive ExtensionPoint where
  | pipelineStart
  | earlySimplification
  | optimizerEarly
  | optimizerLast
  | linkEarly
  | linkLast
  | peephole
  | scalarLate
  | vectorizerStart
  deriving DecidableEq, Repr

namespace ExtensionPoint

def all : List ExtensionPoint :=
  [pipelineStart, earlySimplification, optimizerEarly, optimizerLast, linkEarly, linkLast, peephole,
    scalarLate, vectorizerStart]

def name : ExtensionPoint → String
  | pipelineStart => "pipeline_start"
  | earlySimplification => "pipeline_early_simplification"
  | optimizerEarly => "optimizer_early"
  | optimizerLast => "optimizer_last"
  | linkEarly => "full_lto_early"
  | linkLast => "full_lto_last"
  | peephole => "peephole"
  | scalarLate => "scalar_optimizer_late"
  | vectorizerStart => "vectorizer_start"

def ofName? (name : String) : Option ExtensionPoint := all.find? (·.name = name)

/-- The kind of pipeline that callbacks add to there. -/
def kind : ExtensionPoint → Kind
  | peephole | scalarLate | vectorizerStart => .function
  | _ => .module

end ExtensionPoint

/-- Who recognizes names or brings analyses: a foreign callback, or the registry of the kind. -/
inductive Hook where
  | foreign (subscription : Subscription)
  | registry

instance : Owner Hook where
  releases
    | .foreign s => releases s
    | .registry => []

/-- Callbacks in the order in which they came. -/
structure Builder where
  extensions : List (ExtensionPoint × Subscription) := []
  parsing : List (Kind × Hook) := []
  enrolment : List (Kind × Hook) := []

instance : Owner Builder where
  releases b :=
    releases (b.extensions.map Prod.snd) ++ releases (b.parsing.map Prod.snd) ++
      releases (b.enrolment.map Prod.snd)

namespace Builder

def extensionsAt (b : Builder) (point : ExtensionPoint) : List Subscription :=
  (b.extensions.filter (·.1 = point)).map Prod.snd

def parsingOf (b : Builder) (kind : Kind) : List Hook :=
  (b.parsing.filter (·.1 = kind)).map Prod.snd

def enrolmentOf (b : Builder) (kind : Kind) : List Hook :=
  (b.enrolment.filter (·.1 = kind)).map Prod.snd

/-! ## Subscribing -/

/-- What a callback can be subscribed to. -/
inductive Topic where
  | extension (point : ExtensionPoint)
  | parsing (kind : Kind)
  | enrolment (kind : Kind)
  deriving DecidableEq, Repr

def Topic.description : Topic → String
  | extension point => "subscribed to the " ++ point.name ++ " extension point"
  | parsing kind => "subscribed to " ++ kind.name ++ " pipeline parsing"
  | enrolment kind => "subscribed to " ++ kind.name ++ " analysis registration"

def add (b : Builder) (s : Subscription) : Topic → Builder
  | .extension point => { b with extensions := b.extensions ++ [(point, s)] }
  | .parsing kind => { b with parsing := b.parsing ++ [(kind, .foreign s)] }
  | .enrolment kind => { b with enrolment := b.enrolment ++ [(kind, .foreign s)] }

open Exec in
/-- Subscribes a foreign callback, which hands over its context. -/
def subscribe (topic : Topic) (callback : Entry) (context : Handed String) : Exec Builder Unit := do
  let context ← adopt context
  debug topic.description
  modifyFocus (·.add ⟨callback, context⟩ topic)

end Builder

/-! ## Adding passes -/

namespace Exec

variable {σ J : Type}

def append (passes : List (Pass J)) : Exec (List (Pass J)) Unit := modifyFocus (· ++ passes)

/-- Builds passes apart from the focus. -/
def building {α : Type} (act : Exec (List (Pass J)) α) : Exec σ (α × List (Pass J)) :=
  zoom (fun _ ↦ []) (fun s _ ↦ s) do
    let a ← act
    return (a, ← focus)

/-- Answers the questions of a callback that adds passes over units of a kind. -/
def answerAssemble (kind : Kind) : (q : Assemble) → Exec (List (Pass J)) q.Answer
  | .say text => note text
  | .isEmpty => do return (← focus).isEmpty
  | .append name entry context => do
    let context ← adopt context
    append [.foreign (name.getD (Pass.defaultName kind)) entry context]

/-- Adds the pass that the registry knows by a name, and says whether there is one. -/
def appendRegistered (kind : Kind) (name : String) : Exec (List (Pass J)) Bool := do
  match ((← shared).registry kind).pass? name with
  | some entry =>
    trace ("resolved " ++ kind.name ++ " pass `" ++ name ++ "`")
    append [.foreign name entry .null]
    return true
  | none => return false

end Exec

end ForeignPasses
