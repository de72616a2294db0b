import ForeignPasses.Manager.Invalidate
import ForeignPasses.Proofs.Exec.Ensures

/-!
# What results mean

A result is the right one if it is what its analysis finds in the unit as it is now. Analyses are
lawful and passes honest with respect to what is right: their code may rely on right answers to its
questions, so it is judged for every way in which it can be answered rightly.
-/

namespace ForeignPasses

/-- What a result says, wherever its value is kept. -/
inductive Finding where
  | foreign (content : Option Int)
  | native (value : Int)
  | attached
  deriving DecidableEq, Repr

def Result.finding : Result → Finding
  | foreign value => .foreign value.content?
  | native value => .native value
  | attached => .attached

/-! ## Programs and their answers -/

namespace Program

variable {Q : Type} {A : Q → Type} {α β L : Type}

/-- What a program comes to if `ask` says what each question comes to, given what the rest does with
the answer. -/
def fold (ask : (q : Q) → (A q → L) → L) (done : α → L) : Program Q A α → L
  | .done a => done a
  | .ask q next => ask q fun a ↦ (next a).fold ask done

theorem fold_map (ask : (q : Q) → (A q → L) → L) (done : β → L) (f : α → β)
    (p : Program Q A α) : (f <$> p).fold ask done = p.fold ask (done ∘ f) := by
  induction p with
  | done a => rfl
  | ask q next ih => exact congrArg (ask q) (funext ih)

variable {σ : Type} {halted : Halt → World σ → Prop} {answer : (q : Q) → Exec σ (A q)}

/-- If answers are right as long as an invariant holds, which they keep, then a program that is good
for right answers ends well. `t` is what has to be remembered of the answers. -/
theorem ensures_run_of_fold {T : Type} {allows : (q : Q) → (A q → T → Prop) → T → Prop}
    {inv : T → World σ → Prop}
    (hanswer : ∀ q post t w, inv t w → allows q post t →
      (answer q).Ensures w (fun a w' ↦ ∃ t', inv t' w' ∧ post a t') halted)
    {p : Program Q A α} {post : α → T → Prop} {t : T} {w : World σ} (hinv : inv t w)
    (hp : p.fold allows post t) :
    Exec.Ensures (p.run answer) w (fun a w' ↦ ∃ t', inv t' w' ∧ post a t') halted := by
  induction p generalizing t w with
  | done a => exact ⟨t, hinv, hp⟩
  | ask q next ih =>
    change Exec.Ensures (answer q >>= fun a ↦ (next a).run answer) w _ _
    rw [Exec.ensures_bind]
    refine (hanswer q _ t w hinv hp).mono ?_ fun _ _ h ↦ h
    rintro a w' ⟨t', hinv', hnext⟩
    exact ih a hinv' hnext

/-- The same where nothing has to be remembered. -/
theorem ensures_run_of_fold' {allows : (q : Q) → (A q → Prop) → Prop} {inv : World σ → Prop}
    (hanswer : ∀ q post w, inv w → allows q post →
      (answer q).Ensures w (fun a w' ↦ inv w' ∧ post a) halted)
    {p : Program Q A α} {post : α → Prop} {w : World σ} (hinv : inv w)
    (hp : p.fold allows post) :
    Exec.Ensures (p.run answer) w (fun a w' ↦ inv w' ∧ post a) halted := by
  induction p generalizing w with
  | done a => exact ⟨hinv, hp⟩
  | ask q next ih =>
    change Exec.Ensures (answer q >>= fun a ↦ (next a).run answer) w _ _
    rw [Exec.ensures_bind]
    refine (hanswer q _ w hinv hp).mono ?_ fun _ _ h ↦ h
    rintro a w' ⟨hinv', hnext⟩
    exact ih a hinv' hnext

end Program

/-! ## Right answers -/

/-- An inquiry is made about an allowed unit, and what comes after it is good for every right
answer: the meaning of the key that is asked about, or no answer where only the cache is asked.
`within` says the same of programs for the inner level. -/
def Inquiry.Allows {β I : Type} (meaning : Key → CodeUnit β → Finding)
    (allowed : CodeUnit β → Prop) (within : CodeUnit β → I → (Option Int → Prop) → Prop) :
    (q : Inquiry β I) → (q.Answer → Prop) → Prop
  | .say _, post => post ()
  | .identities, post => ∀ ids, post ids
  | .result u key, post =>
    allowed u ∧ ∀ k value, key = some k → meaning k u = .foreign value → post value
  | .cached u key, post =>
    allowed u ∧ ∀ k, key = some k → post none ∧ ∀ value, meaning k u = .foreign value → post value
  | .native u index, post =>
    allowed u ∧ ∀ value, meaning (.numbered index) u = .native value → post value
  | .within u inner, post => allowed u ∧ within u inner post

/-- Questions of a pass: it registers lawful analyses only, and new units have identifiers that were
not there before. `next` is the first of those. -/
def Edit.Allows {β I : Type} (inquire : (q : Inquiry β I) → (q.Answer → Prop) → Prop)
    (lawful : Key → Entry → Option String → Prop) :
    (q : Edit β I) → (q.Answer → UnitId → Prop) → UnitId → Prop
  | .inquire q, post, next => inquire q fun a ↦ post a next
  | .register key entry context, post, next =>
    (∀ k, key = some k → lawful k entry context.content?) ∧ ∀ registered, post registered next
  | .freshUnit, post, next => post next (next + 1)

/-- What the analyses of one kind of unit mean, and what their code may ask. -/
structure Theory (β I S : Type) where
  meaning : Key → CodeUnit β → Finding
  /-- What code that looks at a unit may ask at the inner level. -/
  within : CodeUnit β → I → (Option Int → Prop) → Prop
  /-- Managers that may be attached. -/
  inner : S → Prop

namespace Theory

variable {β I S : Type} (theory : Theory β I S)

def allows (allowed : CodeUnit β → Prop) : (q : Inquiry β I) → (q.Answer → Prop) → Prop :=
  Inquiry.Allows theory.meaning allowed theory.within

variable (computations : Computations β (Inquiry β I) Inquiry.Answer)

/-- The code of a foreign analysis looks at its own unit alone and finds what its key means. -/
def LawfulForeign (key : Key) (entry : Entry) (context : Option String) : Prop :=
  ∀ u, (computations.analysis entry context u).fold (theory.allows (· = u))
    fun value ↦ theory.meaning key u = .foreign value.content?

def LawfulNative (key : Key) (entry : Entry) : Prop :=
  ∀ u, (computations.native entry u).fold (theory.allows (· = u))
    fun value ↦ theory.meaning key u = .native value

def Lawful (key : Key) : Analysis S → Prop
  | .foreign entry context => theory.LawfulForeign computations key entry context.content?
  | .native entry => theory.LawfulNative computations key entry
  | .attached inner =>
    key = .proxy ∧ (∀ u, theory.meaning key u = .attached) ∧ theory.inner inner

/-- The same theory with other managers attached. -/
def withInner (inner : S → Prop) : Theory β I S := { theory with inner }

end Theory

/-- What the analyses of both kinds find. -/
structure Meaning where
  onModule : Key → Module → Finding
  onFunction : Key → Function → Finding

namespace Meaning

variable (meaning : Meaning)

def functionTheory : Theory Body Empty Empty where
  meaning := meaning.onFunction
  within _ inner _ := nomatch inner
  inner manager := nomatch manager

/-- Code that looks at a module may look at the functions in it. -/
def moduleTheory (inner : FunctionManager → Prop) :
    Theory Functions FunctionInquest FunctionManager where
  meaning := meaning.onModule
  within m program post := program.fold (meaning.functionTheory.allows (· ∈ m.content)) post
  inner

end Meaning

/-! ## Managers whose results are right -/

/-- A manager of lawful analyses, with results of registered analyses alone, all of them for known
units. Those for some units are right wherever `valid` says so. -/
structure Manager.Coherent {β S : Type} (lawful : Key → Analysis S → Prop)
    (meaning : Key → CodeUnit β → Finding) (known : UnitId → Prop)
    (valid : CodeUnit β → Key → Prop) (units : List (CodeUnit β)) (m : Manager S) : Prop where
  lawful : ∀ key r, m.analyses.find? key = some r → lawful key r.analysis
  registered : ∀ id key r, m.results.find? (id, key) = some r → m.isRegistered key
  known : ∀ id key r, m.results.find? (id, key) = some r → known id
  right : ∀ u ∈ units, ∀ key r, valid u key → m.results.find? (u.id, key) = some r →
    r.finding = meaning key u

end ForeignPasses
