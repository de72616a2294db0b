import ForeignPasses.Pass.Run
import ForeignPasses.Proofs.Manager.Request

/-!
# What stages come to

A stage of a pipeline runs a pass and then goes through the analyses. What that ensures is said here
for each step, from a result that is dropped to a run of passes.
-/

namespace ForeignPasses.Tier

open Exec

/-! ## Invalidation -/

section Invalidation

variable {β I S : Type} {tier : Tier β I S} {u : CodeUnit β} {preserved : Preserved} {key : Key}
  {w : World (Manager S)} {post : Unit → World (Manager S) → Prop}
  {halted : Halt → World (Manager S) → Prop}

/-- What is there when a result has been dropped. -/
def forgotten (u : CodeUnit β) (key : Key) (w : World (Manager S)) : World (Manager S) where
  shared := { w.shared with events := w.shared.events ++
    (releases (w.focus.results.find? (u.id, key))).map .released }
  focus := { w.focus with results := w.focus.results.erase (u.id, key) }

theorem ensures_forget : (forget u key).Ensures w post halted ↔ post () (forgotten u key w) := by
  simp only [forget, ensures_bind, ensures_focus, ensures_modifyFocus, ensures_discard]
  rfl

theorem ensures_notify_attached {inner : S} (hattached : w.focus.attached? = some inner)
    (registered : S) :
    (tier.notify u preserved key (.attached registered)).Ensures w post halted ↔
      (tier.invalidateWithin u preserved).Ensures
        ⟨{ w.shared with events := w.shared.events ++ [.invalidated u.id key none] }, inner⟩
        (fun a w' ↦ post a ⟨w'.shared, w.focus.setAttached w'.focus⟩)
        fun e w' ↦ halted e ⟨w'.shared, w.focus.setAttached w'.focus⟩ := by
  simp only [notify, ensures_bind, ensures_emit]
  exact ensures_onAttached hattached

/-- An analysis is passed over, or it loses its result and is told so. -/
theorem ensures_invalidateEach_of {registered : Registered S} {rest : List (Key × Registered S)}
    (hkept : preserved.contains key = true →
      (tier.invalidateEach u preserved rest).Ensures w post halted)
    (hlost : preserved.contains key = false →
      (tier.notify u preserved key registered.analysis).Ensures (forgotten u key w)
        (fun _ w' ↦ (tier.invalidateEach u preserved rest).Ensures w' post halted) halted) :
    (tier.invalidateEach u preserved ((key, registered) :: rest)).Ensures w post halted := by
  rw [invalidateEach]
  cases hkey : preserved.contains key with
  | true => exact hkept hkey
  | false =>
    simp only [Bool.false_eq_true, if_false, ensures_bind, ensures_forget]
    exact hlost hkey

theorem ensures_invalidate_of (hall : preserved = .all → post () w)
    (honly : preserved.isAll = false →
      (tier.invalidateEach u preserved w.focus.analyses.entries).Ensures w post halted) :
    (tier.invalidate u preserved).Ensures w post halted := by
  cases preserved with
  | all => exact hall rfl
  | only keys =>
    simp only [invalidate, Preserved.isAll, Bool.false_eq_true, if_false, ensures_bind,
      ensures_focus]
    exact honly rfl

end Invalidation

/-! ## Passes -/

section Passes

variable {β I S J α : Type} {tier : Tier β I S} {w : World (Job β S)}
  {halted : Halt → World (Job β S) → Prop}

theorem ensures_onManager (act : Exec (Manager S) α) {post : α → World (Job β S) → Prop} :
    (onManager act).Ensures w post halted ↔
      act.Ensures ⟨w.shared, w.focus.manager⟩
        (fun a w' ↦ post a ⟨w'.shared, { w.focus with manager := w'.focus }⟩)
        fun e w' ↦ halted e ⟨w'.shared, { w.focus with manager := w'.focus }⟩ :=
  ensures_zoom _ _ _

theorem ensures_invalidateUnit {post : Unit → World (Job β S) → Prop} {preserved : Preserved} :
    (tier.invalidateUnit preserved).Ensures w post halted ↔
      (tier.invalidate w.focus.unit preserved).Ensures ⟨w.shared, w.focus.manager⟩
        (fun a w' ↦ post a ⟨w'.shared, { w.focus with manager := w'.focus }⟩)
        fun e w' ↦ halted e ⟨w'.shared, { w.focus with manager := w'.focus }⟩ := by
  rw [invalidateUnit, ensures_bind, ensures_focus, ensures_onManager]

/-- The world in which a pass begins to run. -/
def announced (name : String) (w : World (Job β S)) : World (Job β S) :=
  Access.traced w ("running `" ++ name ++ "` over `" ++ w.focus.unit.name ++ "`")

theorem ensures_stage {post : Preserved → World (Job β S) → Prop} (name : String)
    (pass : Exec (Job β S) Preserved) :
    (tier.stage name pass).Ensures w post halted ↔
      pass.Ensures (announced name w)
        (fun preserved w₁ ↦ (tier.invalidateUnit preserved).Ensures w₁
          (fun _ ↦ post preserved) halted) halted := by
  simp only [stage, ensures_bind, ensures_focus, ensures_trace, ensures_pure]
  rfl

variable [Owner S]

/-- The world in which the content of the unit has been replaced. -/
def edited (content : β) (w : World (Job β S)) : World (Job β S) :=
  { w with focus := { w.focus with unit := w.focus.unit.withContent content } }

theorem ensures_invoke {post : Status → World (Job β S) → Prop} (entry : Entry)
    (context : Opaque String) :
    (tier.invoke entry context).Ensures w post halted ↔
      Exec.Ensures ((tier.behaviour.pass entry context.content? w.focus.unit).run tier.answerEdit) w
        (fun r w' ↦ post r.2 (edited r.1 w')) fun e ↦ halted e.crossed := by
  simp only [invoke, setContent, ensures_bind, ensures_focus, ensures_boundary,
    ensures_modifyFocus, ensures_pure]
  rfl

theorem ensures_invokeNative {post : Preserved → World (Job β S) → Prop} (entry : Entry) :
    (tier.invokeNative entry).Ensures w post halted ↔
      Exec.Ensures ((tier.behaviour.nativePass entry w.focus.unit).run tier.answerEdit) w
        (fun r w' ↦ post r.2 (edited r.1 w')) halted := by
  simp only [invokeNative, setContent, ensures_bind, ensures_focus, ensures_modifyFocus,
    ensures_pure]
  rfl

variable {adapt : J → Exec (Job β S) Preserved} {post : Preserved → World (Job β S) → Prop}

theorem ensures_runPass_foreign (name : String) (entry : Entry) (context : Opaque String) :
    (tier.runPass adapt (.foreign name entry context)).Ensures w post halted ↔
      (tier.invoke entry context).Ensures w
        (fun status w' ↦ post (.ofStatus status) (Access.traced w'
          (tier.kind.name ++ " pass `" ++ name ++ "` finished: " ++ status.name))) halted := by
  simp only [runPass, ensures_bind, ensures_trace, ensures_pure]
  rfl

theorem ensures_runAll_cons (pass : Pass J) (rest : List (Pass J)) :
    (tier.runAll adapt (pass :: rest)).Ensures w post halted ↔
      (tier.stage pass.name (tier.runPass adapt pass)).Ensures w
        (fun preserved w₁ ↦ (tier.runAll adapt rest).Ensures w₁
          (fun others ↦ post (preserved.inter others)) halted) halted := by
  simp only [runAll, ensures_bind, ensures_pure]

end Passes

end ForeignPasses.Tier

/-! ## Functions of a module -/

namespace ForeignPasses.Code

open Exec

variable {α : Type} {code : Code} {passes : FunctionPipeline} {before after : Functions}
  {f : Function} {w : World (Job Functions FunctionManager)}
  {halted : Halt → World (Job Functions FunctionManager) → Prop}

theorem ensures_runOverFunction_iff {w : World (Job Body Empty)}
    {post : Preserved → World (Job Body Empty) → Prop}
    {halted : Halt → World (Job Body Empty) → Prop} :
    (code.runOverFunction passes).Ensures w post halted ↔
      (code.runFunctionPipeline passes).Ensures w
        (fun preserved w₁ ↦ (code.functionTier.invalidateUnit preserved).Ensures w₁
          (fun _ ↦ post preserved) halted) halted := by
  simp only [runOverFunction, ensures_bind, ensures_pure]

/-- The module when the work on one of its functions is done. -/
def rejoined (before after : Functions) (w : World (Job Functions FunctionManager))
    (w' : World (Job Body Empty)) : World (Job Functions FunctionManager) where
  shared := w'.shared
  focus := ⟨w.focus.manager.setAttached w'.focus.manager,
    w.focus.unit.withContent (before ++ w'.focus.unit :: after)⟩

theorem ensures_onFunction {act : Exec (Job Body Empty) α} {inner : FunctionManager}
    {post : α → World (Job Functions FunctionManager) → Prop}
    (hattached : w.focus.manager.attached? = some inner) :
    (onFunction before f after act).Ensures w post halted ↔
      act.Ensures ⟨w.shared, ⟨inner, f⟩⟩ (fun a w' ↦ post a (rejoined before after w w'))
        fun e w' ↦ halted e (rejoined before after w w') := by
  simp only [onFunction, ensures_bind, ensures_focus, hattached, ensures_zoom]
  rfl

theorem ensures_onFunction_of {act : Exec (Job Body Empty) α}
    {post : α → World (Job Functions FunctionManager) → Prop}
    (hnone : w.focus.manager.attached? = none → halted (.panicked .typeMismatch) w)
    (hsome : ∀ inner, w.focus.manager.attached? = some inner →
      act.Ensures ⟨w.shared, ⟨inner, f⟩⟩ (fun a w' ↦ post a (rejoined before after w w'))
        fun e w' ↦ halted e (rejoined before after w w')) :
    (onFunction before f after act).Ensures w post halted := by
  cases hattached : w.focus.manager.attached? with
  | none =>
    simp only [onFunction, ensures_bind, ensures_focus, hattached]
    exact hnone hattached
  | some inner => exact (ensures_onFunction hattached).2 (hsome inner hattached)

section RunOverOne

variable {post : Preserved × Function → World (Job Functions FunctionManager) → Prop}

theorem ensures_runOverOne_iff {inner : FunctionManager}
    (hattached : w.focus.manager.attached? = some inner) :
    (code.runOverOne passes before f after).Ensures w post halted ↔
      (code.runOverFunction passes).Ensures ⟨w.shared, ⟨inner, f⟩⟩
        (fun preserved w' ↦ post (preserved, w'.focus.unit) (rejoined before after w w'))
        fun e w' ↦ halted e (rejoined before after w w') := by
  simp only [runOverOne, ensures_onFunction hattached, ensures_bind, ensures_focus, ensures_pure]

theorem ensures_runOverOne_of
    (hnone : w.focus.manager.attached? = none → halted (.panicked .typeMismatch) w)
    (hsome : ∀ inner, w.focus.manager.attached? = some inner →
      (code.runOverFunction passes).Ensures ⟨w.shared, ⟨inner, f⟩⟩
        (fun preserved w' ↦ post (preserved, w'.focus.unit) (rejoined before after w w'))
        fun e w' ↦ halted e (rejoined before after w w')) :
    (code.runOverOne passes before f after).Ensures w post halted := by
  apply ensures_onFunction_of hnone
  simpa only [ensures_bind, ensures_focus, ensures_pure] using hsome

end RunOverOne

variable {post : Preserved → World (Job Functions FunctionManager) → Prop}

theorem ensures_runOverFunctions_cons :
    (code.runOverFunctions passes before (f :: after)).Ensures w post halted ↔
      (code.runOverOne passes before f after).Ensures w
        (fun r w₁ ↦ (code.runOverFunctions passes (before ++ [r.2]) after).Ensures w₁
          (fun others ↦ post (r.1.inter others)) halted) halted := by
  simp only [runOverFunctions, ensures_bind, ensures_pure]

theorem ensures_runPerFunction_iff :
    (code.runPerFunction passes).Ensures w post halted ↔
      (Tier.onManager (code.moduleTier.fetch .attached w.focus.unit)).Ensures w
        (fun _ w₁ ↦ (code.runOverFunctions passes [] w.focus.unit.content).Ensures w₁ post halted)
        halted := by
  rw [runPerFunction, ensures_bind, ensures_focus]
  exact ensures_bind _ _

end ForeignPasses.Code
