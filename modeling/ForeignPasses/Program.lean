/-!
# Programs

A program is code from outside: it is done with a value, or it asks a question and goes on with
the answer. What the answers are is for whoever runs it.
-/

namespace ForeignPasses

/-- Code that asks questions `q : Q` and gets answers of type `A q`. -/
inductive Program (Q : Type) (A : Q → Type) (α : Type) where
  | done (value : α)
  | ask (question : Q) (next : A question → Program Q A α)

namespace Program

variable {Q : Type} {A : Q → Type} {α β : Type}

def bind (p : Program Q A α) (f : α → Program Q A β) : Program Q A β :=
  match p with
  | done value => f value
  | ask question next => ask question fun answer ↦ (next answer).bind f

instance : Monad (Program Q A) where
  pure := done
  bind := bind

/-- One question. -/
def query (question : Q) : Program Q A (A question) := ask question done

/-- Runs a program, answering each question in turn. -/
def run {m : Type → Type} [Monad m] (answer : (q : Q) → m (A q)) : Program Q A α → m α
  | done value => pure value
  | ask question next => do
    let a ← answer question
    (next a).run answer

instance : LawfulMonad (Program Q A) := by
  refine LawfulMonad.mk' _ (fun p ↦ ?_) (fun _ _ ↦ rfl) (fun p f g ↦ ?_)
  · induction p with
    | done => rfl
    | ask q next ih => exact congrArg (ask q) (funext ih)
  · induction p with
    | done => rfl
    | ask q next ih => exact congrArg (ask q) (funext ih)

end Program

end ForeignPasses
