/-!
# Identities of analyses

A key identifies an analysis. Identities are separate for the two kinds of unit: the same key may
name one analysis of modules and another of functions.
-/

namespace ForeignPasses

/-- The granularity a pass or an analysis works at. -/
inductive Kind where
  | module
  | function
  deriving DecidableEq, Repr

namespace Kind

def name : Kind → String
  | module => "module"
  | function => "function"

def ofName? : String → Option Kind
  | "module" => some module
  | "function" => some function
  | _ => none

end Kind

/-- An identity: one of the numbered ones, or the one under which a manager of functions is
attached to a manager of modules. -/
inductive Key where
  | numbered (n : Nat)
  | proxy
  deriving DecidableEq, Repr

namespace Key

def name : Key → String
  | numbered n => "k" ++ toString n
  | proxy => "proxy"

/-- Reads a name: a `k` and a decimal number, or `proxy`. -/
def ofName? (name : String) : Option Key :=
  if name = "proxy" then some proxy
  else
    match name.toList with
    | 'k' :: digits => (String.ofList digits).toNat?.map numbered
    | _ => none

/-- The order of listings: by number, the proxy last. -/
def before : Key → Key → Bool
  | numbered m, numbered n => m < n
  | numbered _, proxy => true
  | proxy, _ => false

@[simp] theorem before_irrefl (k : Key) : k.before k = false := by cases k <;> simp [before]

theorem before_trans {i j k : Key} (hij : i.before j) (hjk : j.before k) : i.before k := by
  cases i <;> cases j <;> cases k <;> simp_all [before]
  omega

theorem before_trichotomy (i j : Key) : i.before j ∨ i = j ∨ j.before i := by
  cases i <;> cases j <;> simp [before]
  omega

end Key

end ForeignPasses
