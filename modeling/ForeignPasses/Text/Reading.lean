/-!
# Readings

What a reader takes off the front of its input, and the rest, which is shorter. So whoever reads on
comes to an end.
-/

namespace ForeignPasses

/-- Something read off the front of an input. -/
structure Reading {τ : Type} (input : List τ) (α : Type) where
  value : α
  rest : List τ
  shorter : rest.length < input.length

namespace Reading

variable {τ α β : Type} {input : List τ}

def map (r : Reading input α) (f : α → β) : Reading input β := ⟨f r.value, r.rest, r.shorter⟩

/-- A reading of a shorter input, as one of the whole input. -/
def widen {shorter : List τ} (r : Reading shorter α) (h : shorter.length ≤ input.length) :
    Reading input α :=
  ⟨r.value, r.rest, Nat.lt_of_lt_of_le r.shorter h⟩

/-- A reading that goes on past one symbol, if that comes next. -/
def past? [DecidableEq τ] (r : Reading input α) (t : τ) : Option (Reading input α) :=
  match r with
  | ⟨_, [], _⟩ => none
  | ⟨v, x :: rest, h⟩ => if x = t then some ⟨v, rest, Nat.lt_of_succ_lt h⟩ else none

end Reading

end ForeignPasses
