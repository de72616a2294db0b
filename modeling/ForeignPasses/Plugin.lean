import ForeignPasses.Builder.Basic
import ForeignPasses.Text.Quoted
import ForeignPasses.Text.Utf8

/-!
# Plugins

A plugin says which version of the interface it was made for. Loading it makes the registries
available to a builder: their passes by name in textual pipelines, and their analyses in every
manager that the builder sets up.
-/

namespace ForeignPasses

/-- The version of the plugin interface. -/
def apiVersion : UInt32 := 1

/-- How a plugin describes itself; its texts are bytes that end before a zero byte, or are not
there. -/
structure PluginInfo where
  apiVersion : UInt32
  name : Option ByteArray
  version : Option ByteArray

inductive LoadError where
  | incompatibleApiVersion (expected found : UInt32)
  deriving DecidableEq, Repr

namespace LoadError

def name : LoadError → String
  | incompatibleApiVersion .. => "IncompatibleApiVersion"

def message : LoadError → String
  | incompatibleApiVersion expected found =>
    "plugin api version mismatch: expected " ++ toString expected ++ ", found " ++ toString found

end LoadError

namespace PluginInfo

/-- A text as it is shown. -/
def describe : Option ByteArray → String
  | none => "<unnamed>"
  | some bytes =>
    (Text.decode? ⟨bytes.data.takeWhile (· ≠ 0)⟩).getD "<invalid utf-8>"

def shownName (info : PluginInfo) : String := describe info.name

def shownVersion (info : PluginInfo) : String := describe info.version

end PluginInfo

namespace Builder

open Exec

/-- Makes the registry of one kind available. -/
def install (kind : Kind) : Exec Builder Unit := do
  let registry := (← shared).registry kind
  debug ("installing " ++ kind.name ++ " passes " ++ Text.quoteAll registry.names ++ " and " ++
    toString registry.analyses.size ++ " analyses")
  modifyFocus fun b ↦
    { b with
      parsing := b.parsing ++ [(kind, .registry)]
      enrolment := b.enrolment ++ [(kind, .registry)] }

/-- Loads a plugin if it was made for this version of the interface. -/
def load (info : PluginInfo) : Exec Builder (Except LoadError Unit) := do
  if info.apiVersion ≠ apiVersion then
    return .error (.incompatibleApiVersion apiVersion info.apiVersion)
  debug ("loading plugin `" ++ info.shownName ++ "` version `" ++ info.shownVersion ++ "`")
  install .module
  install .function
  return .ok ()

end Builder

end ForeignPasses
