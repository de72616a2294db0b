import ForeignPasses.Proofs.Coherence.Working
import ForeignPasses.Proofs.Manager.Reached

/-!
# What passes do with managers

Passes do no more with a manager than calls on it and on the one that is attached to it. So a run of
passes leads from a manager that there is to another one, whatever the passes are and however the
run ends.
-/

namespace ForeignPasses

open Exec

theorem Exec.ensures_ending {σ α : Type} (act : Exec σ α) (w : World σ) :
    act.Ensures w (fun _ w' ↦ w' = act.ending w) fun _ w' ↦ w' = act.ending w := by
  unfold Ensures Exec.ending
  cases act w <;> rfl

namespace Tier

variable {β I S J α : Type} [Owner S] {tier : Tier β I S} {inside : S → S → Prop}

theorem Leads.trans {m m' m'' : Manager S} (h : tier.Leads inside m m')
    (h' : tier.Leads inside m' m'') : tier.Leads inside m m'' := by
  induction h' with
  | refl => exact h
  | call _ hact s ih => exact ih.call hact s
  | within _ hattached hinner ih => exact ih.within hattached hinner

/-- Calls lead from the manager of the one job to that of the other. -/
abbrev Reaching (tier : Tier β I S) (inside : S → S → Prop) :
    World (Job β S) → World (Job β S) → Prop :=
  Focused fun job job' ↦ tier.Leads inside job.manager job'.manager

theorem onward_reaching : Onward (tier.Reaching inside) where
  right _ := .refl
  trans h h' := h.trans h'

theorem Call.reaching {act : Exec (Manager S) α} (hact : tier.Call act) :
    (onManager act).Respects (tier.Reaching inside) := by
  intro w _
  have hleads : tier.Leads inside w.focus.manager
      (act.ending ⟨w.shared, w.focus.manager⟩).focus :=
    .call .refl hact w.shared
  rw [ensures_onManager]
  apply (ensures_ending act _).mono
  · rintro a w' rfl
    exact hleads
  · rintro e w' rfl
    exact hleads

/-- An action that has nothing to do with the manager. -/
theorem reaching_of_same {act : Exec (Job β S) α}
    (h : ∀ w, act.Ensures w (fun _ w' ↦ w'.focus.manager = w.focus.manager)
      fun _ w' ↦ w'.focus.manager = w.focus.manager) :
    act.Respects (tier.Reaching inside) := by
  intro w _
  have hreaching {w' : World (Job β S)} (hsame : w'.focus.manager = w.focus.manager) :
      tier.Reaching inside w w' := by
    change tier.Leads inside w.focus.manager w'.focus.manager
    rw [hsame]
    exact .refl
  exact (h w).mono (fun _ _ ↦ hreaching) fun _ _ ↦ hreaching

theorem reaching_trace (message : String) :
    (trace message : Exec (Job β S) Unit).Respects (tier.Reaching inside) :=
  reaching_of_same fun _ ↦ rfl

theorem reaching_setContent (content : β) :
    (setContent content : Exec (Job β S) Unit).Respects (tier.Reaching inside) :=
  reaching_of_same fun _ ↦ rfl

theorem reaching_answerEdit (q : Edit β I) :
    (tier.answerEdit q).Respects (tier.Reaching inside) := by
  cases q with
  | inquire q => exact (Call.inquire q).reaching
  | register key entry context => exact (Call.boundaryRegister key entry context).reaching
  | freshUnit => exact reaching_of_same fun _ ↦ rfl

theorem reaching_edition (p : Edition β I α) :
    (p.run tier.answerEdit).Respects (tier.Reaching inside) :=
  .answered onward_reaching reaching_answerEdit p

theorem reaching_invoke (entry : Entry) (context : Opaque String) :
    (tier.invoke entry context).Respects (tier.Reaching inside) := by
  refine Respects.focus.bind onward_reaching fun job ↦ ?_
  refine (reaching_edition _).boundary.bind onward_reaching fun r ↦ ?_
  exact (reaching_setContent r.1).bind onward_reaching fun _ ↦ .pure r.2

theorem reaching_invokeNative (entry : Entry) :
    (tier.invokeNative entry).Respects (tier.Reaching inside) := by
  refine Respects.focus.bind onward_reaching fun job ↦ ?_
  refine (reaching_edition _).bind onward_reaching fun r ↦ ?_
  exact (reaching_setContent r.1).bind onward_reaching fun _ ↦ .pure r.2

theorem reaching_invalidateUnit (preserved : Preserved) :
    (tier.invalidateUnit preserved : Exec (Job β S) Unit).Respects (tier.Reaching inside) :=
  Respects.focus.bind onward_reaching fun job ↦ (Call.invalidate job.unit preserved).reaching

theorem paced_reaching {adapt : J → Exec (Job β S) Preserved}
    (hadapt : ∀ j, (adapt j).Respects (tier.Reaching inside)) :
    tier.Paced (tier.Reaching inside) adapt (fun _ ↦ True) fun _ ↦ True where
  onward := onward_reaching
  trace := reaching_trace
  invalidateUnit := reaching_invalidateUnit
  invoke entry context _ := reaching_invoke entry context
  invokeNative entry _ := reaching_invokeNative entry
  adapts j _ := hadapt j

/-- Passes may be whatever they are. -/
theorem reaching_runAll {adapt : J → Exec (Job β S) Preserved}
    (hadapt : ∀ j, (adapt j).Respects (tier.Reaching inside)) (passes : List (Pass J)) :
    (tier.runAll adapt passes).Respects (tier.Reaching inside) :=
  (paced_reaching hadapt).runAll passes <| Pass.Throughout.everyOf
    ⟨fun _ _ ↦ trivial, fun _ ↦ trivial, fun _ ↦ trivial⟩ passes

end Tier

namespace Code

variable {code : Code}

theorem reaching_runOverFunction (passes : FunctionPipeline) :
    (code.runOverFunction passes).Respects
      (code.functionTier.Reaching fun inner _ ↦ inner.elim) := by
  refine (Tier.reaching_runAll (fun inner ↦ inner.elim) passes).bind Tier.onward_reaching
    fun preserved ↦ ?_
  exact (Tier.reaching_invalidateUnit preserved).bind Tier.onward_reaching fun _ ↦ .pure _

/-- What is done with a function leads the attached manager on, and with it the one of modules. -/
theorem reaching_onFunction {α : Type} (before : Functions) (f : Function) (after : Functions)
    {act : Exec (Job Body Empty) α}
    (hact : act.Respects (code.functionTier.Reaching fun inner _ ↦ inner.elim)) :
    (onFunction before f after act).Respects (code.moduleTier.Reaching code.LeadsFunctions) := by
  intro w hw
  apply ensures_onFunction_of
  case hnone => exact fun _ ↦ hw
  case hsome =>
    intro inner hattached
    have hput {w' : World (Job Body Empty)} (h : code.LeadsFunctions inner w'.focus.manager) :
        code.LeadsModules w.focus.manager (w.focus.manager.setAttached w'.focus.manager) :=
      Tier.Leads.within .refl hattached h
    exact (hact ⟨w.shared, ⟨inner, f⟩⟩ .refl).mono (fun _ _ ↦ hput) fun _ _ ↦ hput

theorem reaching_runOverFunctions (passes : FunctionPipeline) (before rest : Functions) :
    (code.runOverFunctions passes before rest).Respects
      (code.moduleTier.Reaching code.LeadsFunctions) := by
  induction rest generalizing before with
  | nil => exact .pure _
  | cons f after ih =>
    have hone : (code.runOverOne passes before f after).Respects
        (code.moduleTier.Reaching code.LeadsFunctions) :=
      reaching_onFunction before f after <|
        (reaching_runOverFunction passes).bind Tier.onward_reaching fun preserved ↦
          Respects.focus.map fun job ↦ (preserved, job.unit)
    refine hone.bind Tier.onward_reaching fun r ↦ ?_
    exact (ih (before ++ [r.2])).map fun others ↦ r.1.inter others

theorem reaching_runPerFunction (passes : FunctionPipeline) :
    (code.runPerFunction passes).Respects (code.moduleTier.Reaching code.LeadsFunctions) := by
  refine Respects.focus.bind Tier.onward_reaching fun job ↦ ?_
  refine (Tier.Call.fetch .attached job.unit).reaching.bind Tier.onward_reaching fun _ ↦ ?_
  exact reaching_runOverFunctions passes [] job.unit.content

/-- A run of passes leads from one manager to another by calls alone. -/
theorem ReachesModules.runModulePipeline {w : World (Job Functions FunctionManager)}
    (h : code.ReachesModules w.focus.manager) (passes : ModulePipeline) :
    code.ReachesModules ((code.runModulePipeline passes).ending w).focus.manager := by
  have hrun : (code.runModulePipeline passes).Respects
      (code.moduleTier.Reaching code.LeadsFunctions) :=
    Tier.reaching_runAll reaching_runPerFunction passes
  have hleads : code.LeadsModules w.focus.manager
      ((code.runModulePipeline passes).ending w).focus.manager :=
    Ensures.ending (p := fun w' ↦ code.moduleTier.Reaching code.LeadsFunctions w w')
      (hrun w .refl)
  exact .leads h hleads

end Code

end ForeignPasses
