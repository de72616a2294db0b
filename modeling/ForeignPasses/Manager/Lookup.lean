import ForeignPasses.Code
import ForeignPasses.Exec.Basic
import ForeignPasses.Manager.Basic

/-!
# Looking up results

A result that is cached is handed out; otherwise its analysis is computed and the result kept. An
analysis may ask for other results while it is computed, but never for its own.
-/

namespace ForeignPasses

/-- The kind of analysis a request is for. It fixes the type of the result, and how the identity
is found: foreign analyses all share the current one of their kind of unit. -/
inductive Flavour where
  | foreign
  | native (index : Nat)
  | attached
  deriving DecidableEq, Repr

namespace Flavour

def Answer : Flavour → Type
  | foreign => Opaque Int
  | native _ => Int
  | attached => Unit

/-- A result, if it is of the type this flavour has. -/
def receive : (f : Flavour) → Result → Option f.Answer
  | foreign, .foreign value => some value
  | native _, .native value => some value
  | attached, .attached => some ()
  | _, _ => none

def resolve {σ : Type} (kind : Kind) : Flavour → Exec σ Key
  | foreign => Exec.identity kind
  | native index => pure (.numbered index)
  | attached => pure .proxy

/-- Hands out a result as the type that was asked for. -/
def expect {σ : Type} (f : Flavour) (r : Result) : Exec σ f.Answer :=
  match f.receive r with
  | some a => pure a
  | none => Exec.panic .typeMismatch

end Flavour

/-- A way of getting results. -/
abbrev Fetch (σ β : Type) := (f : Flavour) → CodeUnit β → Exec σ f.Answer

/-- Where a manager of analyses of one kind of unit is in a state, and the code of those analyses,
which asks questions `Q`. -/
structure Access (σ β S Q : Type) (A : Q → Type) where
  kind : Kind
  manager : σ → Manager S
  setManager : σ → Manager S → σ
  computations : Computations β Q A
  manager_setManager : ∀ s m, manager (setManager s m) = m := by intros; rfl

namespace Access

open Exec

variable {σ β S Q : Type} {A : Q → Type} (access : Access σ β S Q A)

def held : Exec σ (Manager S) := do return access.manager (← focus)

def modifyHeld (f : Manager S → Manager S) : Exec σ Unit :=
  modifyFocus fun s ↦ access.setManager s (f (access.manager s))

/-! ## Requests in terms of a way of getting results -/

section Requests

variable (fetch : Fetch σ β)

/-- The result of the foreign analysis with a given key. -/
def foreignResult (u : CodeUnit β) (key : Key) : Exec σ (Opaque Int) :=
  withKey access.kind key (fetch .foreign u)

/-- The same from beyond the boundary, where a null or unknown key ends everything. -/
def boundaryResult (u : CodeUnit β) : Option Key → Exec σ (Opaque Int)
  | none => fatal .nullKey
  | some key => boundary do
    unless (← access.held).isRegistered key do fatal (.unregistered access.kind.name key)
    access.foreignResult fetch u key

/-- Makes sure from beyond the boundary that the attached manager is there for a unit. -/
def boundaryAttached (u : CodeUnit β) : Exec σ Unit := boundary do
  unless (← access.held).isRegistered .proxy do fatal (.unregistered access.kind.name .proxy)
  fetch .attached u

end Requests

/-- The result under a key if it is cached. Nothing is computed. -/
def cachedAt (f : Flavour) (key : Key) (u : CodeUnit β) : Exec σ (Option f.Answer) := do
  match (← access.held).results.find? (u.id, key) with
  | some r => some <$> f.expect r
  | none => return none

def cached (f : Flavour) (u : CodeUnit β) : Exec σ (Option f.Answer) := do
  access.cachedAt f (← f.resolve access.kind) u

def foreignCached (u : CodeUnit β) (key : Key) : Exec σ (Option (Opaque Int)) :=
  withKey access.kind key (access.cached .foreign u)

def boundaryCached (u : CodeUnit β) : Option Key → Exec σ (Option (Opaque Int))
  | none => fatal .nullKey
  | some key => boundary (access.foreignCached u key)

/-! ## Computing -/

section Computing

variable (answer : (q : Q) → Exec σ (A q))

/-- Runs an analysis. Foreign code is behind the boundary, and what it hands over is adopted. -/
def compute (u : CodeUnit β) : Analysis S → Exec σ Result
  | .foreign entry context => do
    let code := access.computations.analysis entry context.content? u
    return .foreign (← adopt (← boundary (code.run answer)))
  | .native entry => do return .native (← (access.computations.native entry u).run answer)
  | .attached _ => return .attached

/-- Marks an analysis as running while an action runs. -/
def whileRunning {α : Type} (key : Key) (act : Exec σ α) : Exec σ α := do
  access.modifyHeld (·.setRunning key true)
  act.ensuring fun w ↦
    { w with focus := access.setManager w.focus ((access.manager w.focus).setRunning key false) }

/-- Keeps a result; one that was there before is dropped. -/
def keep (u : CodeUnit β) (key : Key) (r : Result) : Exec σ Unit := do
  let old := (← access.held).results.find? (u.id, key)
  access.modifyHeld fun m ↦ { m with results := m.results.insert (u.id, key) r }
  discard old

/-- Hands out the result under a key, which is computed if it is not cached. -/
def requestAt (f : Flavour) (key : Key) (u : CodeUnit β) : Exec σ f.Answer := do
  match (← access.held).results.find? (u.id, key) with
  | some r =>
    trace ("cache hit for analysis " ++ key.name ++ " on `" ++ u.name ++ "`")
    f.expect r
  | none =>
    match (← access.held).analyses.find? key with
    | none => panic .unregistered
    | some registered =>
      trace ("computing analysis " ++ key.name ++ " on `" ++ u.name ++ "`")
      if registered.running then panic .selfRequest
      let r ← access.whileRunning key (access.compute answer u registered.analysis)
      access.keep u key r
      f.expect r

/-- One request, with answers for the questions that are asked in the course of it. The identity is
resolved once, at the start. -/
def request : Fetch σ β := fun f u ↦ do
  access.requestAt answer f (← f.resolve access.kind) u

end Computing

end Access

/-- What is particular to one kind of unit, with contents `β` and inner managers `S`. -/
structure Tier (β I S : Type) where
  kind : Kind
  behaviour : Behaviour β I
  /-- Runs a program of the inner level on the attached manager. -/
  within : I → Exec S (Option Int)
  /-- What the attached manager does when its results for a unit are invalidated. -/
  invalidateWithin : CodeUnit β → Preserved → Exec S Unit

namespace Tier

open Exec

variable {β I S : Type} (tier : Tier β I S)

/-- The state is the manager itself. -/
def access : Access (Manager S) β S (Inquiry β I) Inquiry.Answer where
  kind := tier.kind
  manager := id
  setManager _ m := m
  computations := tier.behaviour.toComputations

/-- Works on the attached manager. -/
def onAttached {α : Type} (act : Exec S α) : Exec (Manager S) α := do
  match (← focus).attached? with
  | some inner => zoom (fun _ ↦ inner) Manager.setAttached act
  | none => panic .typeMismatch

/-- Answers the questions of code that is being run. -/
def answer (fetch : Fetch (Manager S) β) : (q : Inquiry β I) → Exec (Manager S) q.Answer
  | .say text => note text
  | .identities => do
    let s ← shared
    return (s.moduleSlot.current, s.functionSlot.current)
  | .result u key => do return (← tier.access.boundaryResult fetch u key).content?
  | .cached u key => do return (← tier.access.boundaryCached u key).bind Opaque.content?
  | .native u index => fetch (.native index) u
  | .within u inner => do
    tier.access.boundaryAttached fetch u
    onAttached (tier.within inner)

/-- Requests that nest at most so many times. -/
def fetchWithin : Nat → Fetch (Manager S) β
  | 0 => tier.access.request (tier.answer fun _ _ ↦ throw .exhausted)
  | depth + 1 => tier.access.request (tier.answer (fetchWithin depth))

/-- However deep requests may nest, the outermost one is made in the same way. -/
theorem exists_fetchWithin_eq (depth : Nat) :
    ∃ answer, tier.fetchWithin depth = tier.access.request answer := by
  cases depth <;> exact ⟨_, rfl⟩

/-- Gets a result. A request can nest only as often as there are analyses at rest. -/
def fetch : Fetch (Manager S) β := fun f u ↦ do tier.fetchWithin (← focus).idle f u

end Tier

end ForeignPasses
