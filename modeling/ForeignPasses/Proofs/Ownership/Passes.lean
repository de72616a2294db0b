import ForeignPasses.Pass.Run
import ForeignPasses.Proofs.Ownership.Registrations

/-!
# Running passes keeps accounts

A pass may add analyses and results, and what is invalidated after it is released. The contexts
that were held before a run are held after it, and so are the results that nobody was told about.
-/

namespace ForeignPasses

open Exec

instance {β S : Type} [Account S] : Account (Job β S) := ⟨fun job ↦ holding job.manager⟩

namespace Tier

variable {β I S J α : Type} [Owner S] [Account S] [Accounted S] {tier : Tier β I S}
  {kept : Role → Prop} {panics : Prop} {hand : Tally} {out : α → Tally}

omit [Owner S] [Accounted S] in
theorem keeps_onManager {act : Exec (Manager S) α} (h : act.Keeps kept panics hand out) :
    (onManager act : Exec (Job β S) α).Keeps kept panics hand out :=
  fun w ↦ (h ⟨w.shared, w.focus.manager⟩).zoom fun t ↦
    add_comm (holding t) (holding w.focus.manager)

omit [Owner S] [Accounted S] in
theorem keeps_setContent (content : β) :
    (setContent content : Exec (Job β S) Unit).Keeps kept panics hand fun _ ↦ hand :=
  fun _ ↦ Ledger.refl

section Answers

variable (hwithin : ∀ inner, (tier.within inner).Keeps Role.Any True 0 fun _ ↦ 0)

include hwithin

theorem keeps_answerEdit (q : Edit β I) :
    (tier.answerEdit q : Exec (Job β S) q.Answer).Keeps Role.Any True 0 fun _ ↦ 0 := by
  cases q with
  | inquire q => exact keeps_onManager (keeps_answer hwithin q)
  | register key entry context =>
    exact keeps_onManager (keeps_boundaryRegister key entry context).steady
  | freshUnit => exact keeps_freshUnit

theorem keeps_invoke (entry : Entry) (context : Opaque String) :
    (tier.invoke entry context : Exec (Job β S) Status).Keeps Role.Any False hand fun _ ↦ hand := by
  refine keeps_focus.bind fun job ↦ ?_
  refine Keeps.bind (Keeps.enclosed (Keeps.run (keeps_answerEdit hwithin) _)) fun r ↦ ?_
  exact (keeps_setContent r.1).bind fun _ ↦ .pure r.2 rfl

theorem keeps_invokeNative (entry : Entry) :
    (tier.invokeNative entry : Exec (Job β S) Preserved).Keeps Role.Any True 0 fun _ ↦ 0 := by
  refine keeps_focus.bind fun job ↦ ?_
  refine Keeps.bind (Keeps.run (keeps_answerEdit hwithin) _) fun r ↦ ?_
  exact (keeps_setContent r.1).bind fun _ ↦ .pure r.2 rfl

end Answers

section Invalidation

variable (hinvalidate : ∀ u preserved,
  (tier.invalidate u preserved).Keeps Role.Any True 0 fun _ ↦ 0)

omit [Owner S] [Accounted S]
include hinvalidate

theorem keeps_invalidateUnit (preserved : Preserved) :
    (tier.invalidateUnit preserved : Exec (Job β S) Unit).Keeps Role.Any True 0 fun _ ↦ 0 :=
  keeps_focus.bind fun job ↦ keeps_onManager (hinvalidate job.unit preserved)

theorem keeps_stage (name : String) {pass : Exec (Job β S) Preserved}
    (h : pass.Keeps Role.Any True 0 fun _ ↦ 0) :
    (tier.stage name pass).Keeps Role.Any True 0 fun _ ↦ 0 := by
  refine keeps_focus.bind fun job ↦ (keeps_trace _).bind fun _ ↦ h.bind fun preserved ↦ ?_
  exact (keeps_invalidateUnit hinvalidate preserved).bind fun _ ↦ .pure preserved rfl

end Invalidation

end Tier

/-! ## Pipelines -/

namespace Tier

variable {β I S J : Type} [Owner S] [Account S]

/-- What the parts of a pipeline have to keep account of. -/
structure Accountable (tier : Tier β I S) (adapt : J → Exec (Job β S) Preserved) : Prop where
  invoke : ∀ entry context,
    (tier.invoke entry context : Exec (Job β S) Status).Keeps Role.Any True 0 fun _ ↦ 0
  invokeNative : ∀ entry,
    (tier.invokeNative entry : Exec (Job β S) Preserved).Keeps Role.Any True 0 fun _ ↦ 0
  invalidate : ∀ u preserved, (tier.invalidate u preserved).Keeps Role.Any True 0 fun _ ↦ 0
  adapt : ∀ j, (adapt j).Keeps Role.Any True 0 fun _ ↦ 0

theorem accountable [Accounted S] {tier : Tier β I S} {adapt : J → Exec (Job β S) Preserved}
    (hwithin : ∀ inner, (tier.within inner).Keeps Role.Any True 0 fun _ ↦ 0)
    (hinvalidate : ∀ u preserved,
      (tier.invalidate u preserved).Keeps Role.Any True 0 fun _ ↦ 0)
    (hadapt : ∀ j, (adapt j).Keeps Role.Any True 0 fun _ ↦ 0) : tier.Accountable adapt where
  invoke entry context := (keeps_invoke hwithin entry context).steady
  invokeNative := keeps_invokeNative hwithin
  invalidate := hinvalidate
  adapt := hadapt

namespace Accountable

variable {tier : Tier β I S} {adapt : J → Exec (Job β S) Preserved}

mutual

theorem keeps_runPass (h : tier.Accountable adapt) (pass : Pass J) :
    (tier.runPass adapt pass).Keeps Role.Any True 0 fun _ ↦ 0 := by
  cases pass with
  | foreign name entry context =>
    rw [runPass]
    exact (h.invoke entry context).bind fun status ↦ (keeps_trace _).bind fun _ ↦ .pure _ rfl
  | native name entry =>
    rw [runPass]
    exact h.invokeNative entry
  | group passes =>
    rw [runPass]
    exact h.keeps_runAll passes
  | perFunction j =>
    rw [runPass]
    exact h.adapt j

theorem keeps_runAll (h : tier.Accountable adapt) (passes : List (Pass J)) :
    (tier.runAll adapt passes).Keeps Role.Any True 0 fun _ ↦ 0 := by
  cases passes with
  | nil =>
    rw [runAll]
    exact .pure _ rfl
  | cons pass rest =>
    rw [runAll]
    refine (keeps_stage h.invalidate pass.name (h.keeps_runPass pass)).bind fun preserved ↦ ?_
    exact (h.keeps_runAll rest).bind fun _ ↦ .pure _ rfl

end

end Accountable

end Tier

namespace Code

variable (code : Code)

theorem functionTier_accountable (adapt : Empty → Exec (Job Body Empty) Preserved) :
    code.functionTier.Accountable adapt :=
  Tier.accountable code.keeps_functionWithin code.keeps_invalidateFunction fun j ↦ j.elim

theorem keeps_runOverFunction (passes : FunctionPipeline) :
    (code.runOverFunction passes).Keeps Role.Any True 0 fun _ ↦ 0 := by
  refine Keeps.bind ((code.functionTier_accountable _).keeps_runAll passes) fun preserved ↦ ?_
  exact (Tier.keeps_invalidateUnit code.keeps_invalidateFunction preserved).bind
    fun _ ↦ .pure preserved rfl

/-- Working on one function, with the attached manager. -/
theorem keeps_onFunction {α : Type} (before : Functions) (f : Function) (after : Functions)
    {act : Exec (Job Body Empty) α} (h : act.Keeps Role.Any True 0 fun _ ↦ 0) :
    (onFunction before f after act).Keeps Role.Any True 0 fun _ ↦ 0 := by
  intro w
  simp only [KeepsAt, onFunction, ensures_bind, ensures_focus]
  cases hattached : w.focus.manager.attached? with
  | none => exact ⟨trivial, Ledger.refl⟩
  | some manager =>
    exact (h ⟨w.shared, ⟨manager, f⟩⟩).zoom fun t ↦
      w.focus.manager.holding_setAttached hattached t.manager

theorem keeps_runOverFunctions (passes : FunctionPipeline) (before rest : Functions) :
    (code.runOverFunctions passes before rest).Keeps Role.Any True 0 fun _ ↦ 0 := by
  induction rest generalizing before with
  | nil => exact .pure _ rfl
  | cons f after ih =>
    have hone : (code.runOverOne passes before f after).Keeps Role.Any True 0 fun _ ↦ 0 :=
      keeps_onFunction before f after ((code.keeps_runOverFunction passes).bind fun preserved ↦
        keeps_focus.bind fun _ ↦ .pure _ rfl)
    exact hone.bind fun r ↦ (ih (before ++ [r.2])).bind fun _ ↦ .pure _ rfl

theorem keeps_runPerFunction (passes : FunctionPipeline) :
    (code.runPerFunction passes).Keeps Role.Any True 0 fun _ ↦ 0 := by
  have hattached (m : Module) :
      (code.moduleTier.fetch .attached m).Keeps Role.Any True 0 fun _ ↦ 0 :=
    Consults.keeps fun _ ↦ Tier.consults_fetch code.keeps_moduleWithin .attached m
  refine keeps_focus.bind fun job ↦ ?_
  exact (Tier.keeps_onManager (hattached job.unit)).bind fun _ ↦
    code.keeps_runOverFunctions passes [] job.unit.content

theorem moduleTier_accountable : code.moduleTier.Accountable code.runPerFunction :=
  Tier.accountable code.keeps_moduleWithin code.keeps_invalidateModule code.keeps_runPerFunction

end Code

end ForeignPasses
