import ForeignPasses.Proofs.Coherence.Working
import ForeignPasses.Proofs.Separation.Requests

/-!
# Passes leave the rest alone

Passes that keep within reach, however they nest, change nothing that can be seen from elsewhere.
New units are within reach, for the identifiers of all that is elsewhere were taken before.
-/

namespace ForeignPasses

open Exec

variable {β I S V J : Type}

/-- Jobs on units within reach, with managers that look alike from elsewhere. -/
structure Job.Alike (l : Likeness S V) (reach : Reach β I) (job job' : Job β S) : Prop where
  manager : job.manager.Alike l job'.manager
  left : reach.unit job.unit
  right : reach.unit job'.unit

/-- A later world in the course of a job; `ids` has the identifiers of all new units. -/
structure Job.Proceeds (l : Likeness S V) (reach : Reach β I) (ids : UnitId → Prop)
    (w w' : World (Job β S)) : Prop extends Later (Job.Alike l reach) w w' where
  new : ∀ id, w.shared.nextUnit ≤ id → ids id

namespace Job.Proceeds

variable {l : Likeness S V} {reach : Reach β I} {ids : UnitId → Prop}
  {w w' : World (Job β S)}

theorem onward : Onward (Job.Proceeds l reach ids) where
  right h :=
    ⟨.refl ⟨h.focus.manager.right, h.focus.right, h.focus.right⟩,
      fun id hid ↦ h.new id (Nat.le_trans h.next_le hid)⟩
  trans h h' :=
    ⟨⟨⟨⟨h.focus.manager.trans h'.focus.manager, h.focus.left,
          h'.focus.right⟩, h'.slot_eq.trans h.slot_eq⟩,
        Nat.le_trans h.next_le h'.next_le⟩, h.new⟩

/-- The manager has changed where it is not seen. -/
theorem withManager (h : Job.Proceeds l reach ids w w) {w₁ : World (Manager S)}
    (h₁ : Later (Manager.Alike l) ⟨w.shared, w.focus.manager⟩ w₁) :
    Job.Proceeds l reach ids w ⟨w₁.shared, { w.focus with manager := w₁.focus }⟩ where
  toLater := ⟨⟨⟨h₁.focus, h.focus.left, h.focus.left⟩, h₁.slot_eq⟩, h₁.next_le⟩
  new := h.new

/-- The unit is another one within reach. -/
theorem withUnit (h : Job.Proceeds l reach ids w w') {u : CodeUnit β} (hu : reach.unit u) :
    Job.Proceeds l reach ids w { w' with focus := { w'.focus with unit := u } } where
  toLater :=
    ⟨⟨⟨h.focus.manager, h.focus.left, hu⟩, h.slot_eq⟩, h.next_le⟩
  new := h.new

end Job.Proceeds

namespace Tier

variable {tier : Tier β I S} {l : Likeness S V} {reach : Reach β I} {ids : UnitId → Prop}

theorem respects_onManager {α : Type} {act : Exec (Manager S) α}
    (hact : act.Respects (Later (Manager.Alike l))) :
    (onManager act).Respects (Job.Proceeds l reach ids) := by
  intro w hw
  rw [ensures_onManager]
  exact (hact ⟨w.shared, w.focus.manager⟩ (.refl hw.focus.manager)).mono
    (fun _ _ h ↦ hw.withManager h) fun _ _ h ↦ hw.withManager h

theorem respects_trace (message : String) :
    (trace message : Exec (Job β S) Unit).Respects (Job.Proceeds l reach ids) :=
  fun _ hw ↦ ⟨.emitted hw.focus _, hw.new⟩

section Passes

variable (h : tier.Fenced l reach)

include h

theorem respects_invalidateUnit (preserved : Preserved) :
    (tier.invalidateUnit preserved : Exec (Job β S) Unit).Respects (Job.Proceeds l reach ids) :=
  fun w hw ↦ respects_onManager (h.respects_invalidate hw.focus.left preserved) w hw

variable [Owner S]

/-- While the code of a pass is at work, its unit stays as it is. -/
theorem ensures_answerEdit_apart {q : Edit β I} {post : q.Answer → Prop}
    (hq : reach.Lets ids q post) {w w₁ : World (Job β S)} (h₁ : Job.Proceeds l reach ids w w₁)
    (hunit : w₁.focus.unit = w.focus.unit) :
    (tier.answerEdit q).Ensures w₁
      (fun a w₂ ↦ (Job.Proceeds l reach ids w w₂ ∧ w₂.focus.unit = w.focus.unit) ∧ post a)
      fun _ w₂ ↦ Job.Proceeds l reach ids w w₂ := by
  have hw₁ := Job.Proceeds.onward.right h₁
  cases q with
  | inquire q =>
    have hanswer := h.abides.answer (fun f _ hu ↦ h.abides.fetch f hu) q hq.1
    apply (ensures_onManager (tier.answer tier.fetch q)).2
    exact (hanswer ⟨w₁.shared, w₁.focus.manager⟩ (.refl hw₁.focus.manager)).mono
      (fun a _ h₂ ↦ ⟨⟨Job.Proceeds.onward.trans h₁ (hw₁.withManager h₂), hunit⟩, hq.2 a⟩)
      fun _ _ h₂ ↦ Job.Proceeds.onward.trans h₁ (hw₁.withManager h₂)
  | register key entry context => exact hq.elim
  | freshUnit =>
    refine ⟨⟨⟨?_, h₁.new⟩, hunit⟩, hq _ (hw₁.new _ (Nat.le_refl _))⟩
    exact ⟨⟨h₁.focus, h₁.slot_eq⟩, Nat.le_succ_of_le h₁.next_le⟩

/-- The content that the code of a pass ends with is within reach. -/
theorem ensures_edition {α : Type} {code : CodeUnit β → Edition β I α} (report : α → β × Preserved)
    (hcode : reach.Holds ids fun u ↦ report <$> code u) {w : World (Job β S)}
    (hw : Job.Proceeds l reach ids w w) :
    ((code w.focus.unit).run tier.answerEdit).Ensures w
      (fun r w' ↦ Job.Proceeds l reach ids w { w' with
        focus := { w'.focus with unit := w'.focus.unit.withContent (report r).1 } })
      fun _ w' ↦ Job.Proceeds l reach ids w w' := by
  have hfold := hcode w.focus.unit hw.focus.left
  rw [Program.fold_map] at hfold
  have hanswer (q : Edit β I) (post : q.Answer → Prop) (w₁ : World (Job β S))
      (h₁ : Job.Proceeds l reach ids w w₁ ∧ w₁.focus.unit = w.focus.unit)
      (hq : reach.Lets ids q post) := ensures_answerEdit_apart h hq h₁.1 h₁.2
  refine (Program.ensures_run_of_fold' hanswer ⟨hw, rfl⟩ hfold).mono ?_ fun _ _ h ↦ h
  rintro r w₁ ⟨⟨h₁, hunit⟩, hr⟩
  rw [hunit]
  exact h₁.withUnit hr

theorem respects_invoke {entry : Entry} {context : Opaque String}
    (hpass : reach.Holds ids fun u ↦
      (fun r ↦ (r.1, Preserved.ofStatus r.2)) <$> tier.behaviour.pass entry context.content? u) :
    (tier.invoke entry context).Respects (Job.Proceeds l reach ids) := by
  intro w hw
  rw [ensures_invoke]
  exact ensures_edition h _ hpass hw

theorem respects_invokeNative {entry : Entry}
    (hpass : reach.Holds ids (tier.behaviour.nativePass entry)) :
    (tier.invokeNative entry).Respects (Job.Proceeds l reach ids) := by
  intro w hw
  rw [ensures_invokeNative]
  exact ensures_edition h id (by simpa only [id_map] using hpass) hw

end Passes

variable [Owner S] {adapt : J → Exec (Job β S) Preserved} {inner : J → Prop}

theorem Fenced.paced (h : tier.Fenced l reach)
    (hadapt : ∀ j, inner j → (adapt j).Respects (Job.Proceeds l reach ids)) :
    tier.Paced (Job.Proceeds l reach ids) adapt (reach.Holds ids) inner where
  onward := Job.Proceeds.onward
  trace := respects_trace
  invalidateUnit := respects_invalidateUnit h
  invoke _ _ hpass := respects_invoke h hpass
  invokeNative _ hpass := respects_invokeNative h hpass
  adapts := hadapt

end Tier

namespace Code

/-- How work on a module proceeds that is not at `own` units. -/
abbrev ModuleProceeds (code : Code) (view : Result → V) (own ids : UnitId → Prop) :
    World (Job Functions FunctionManager) → World (Job Functions FunctionManager) → Prop :=
  Job.Proceeds (code.moduleLikeness view own ids) (Reach.module ids) ids

variable {code : Code} {view : Result → V} {own ids : UnitId → Prop}
  (hapart : ∀ id, ids id → ¬own id)

include hapart

/-! ## Over the functions of a module -/

section Functions

variable {passes : FunctionPipeline} (hpasses : code.HoldsFunctionPipeline ids passes)

include hpasses

theorem respects_runOverFunction :
    (code.runOverFunction passes).Respects (Job.Proceeds (code.functionLikeness view own ids)
      (Reach.function ids) ids) := by
  have hfenced := code.functionTier_fenced view hapart
  refine ((hfenced.paced fun j ↦ j.elim).runAll passes hpasses).bind
    Job.Proceeds.onward fun preserved ↦ ?_
  exact (Tier.respects_invalidateUnit hfenced preserved).bind Job.Proceeds.onward fun _ ↦ .pure _

theorem ensures_runOverOne_apart {before after : Functions} {f : Function}
    (hbefore : ∀ g ∈ before, ids g.id) (hf : ids f.id) (hafter : ∀ g ∈ after, ids g.id)
    {w : World (Job Functions FunctionManager)} (hw : code.ModuleProceeds view own ids w w) :
    (code.runOverOne passes before f after).Ensures w
      (fun r w' ↦ code.ModuleProceeds view own ids w w' ∧ ids r.2.id)
      fun _ w' ↦ code.ModuleProceeds view own ids w w' := by
  apply ensures_runOverOne_of
  case hnone => exact fun _ ↦ hw
  case hsome =>
    intro inner hattached
    have hmanager := hw.focus.manager
    have hinner := hmanager.inner_self hattached
    have hput {w' : World (Job Body Empty)}
        (h : Job.Proceeds (code.functionLikeness view own ids) (Reach.function ids) ids
          ⟨w.shared, ⟨inner, f⟩⟩ w') :
        code.ModuleProceeds view own ids w (rejoined before after w w') := by
      refine ⟨⟨⟨⟨?_, hw.focus.left, hw.focus.left.1, ?_⟩, h.slot_eq⟩,
        h.next_le⟩, hw.new⟩
      · exact hmanager.setAttached_right hattached h.focus.manager
      · intro g hg
        rcases List.mem_append.1 hg with hg | hg
        · exact hbefore g hg
        · rcases List.mem_cons.1 hg with rfl | hg
          · exact h.focus.right
          · exact hafter g hg
    exact (respects_runOverFunction hapart hpasses ⟨w.shared, ⟨inner, f⟩⟩
      ⟨.refl ⟨hinner, hf, hf⟩, hw.new⟩).mono
      (fun _ _ h ↦ ⟨hput h, h.focus.right⟩) fun _ _ h ↦ hput h

/-- Passes over one function after the other, as far as there are any. -/
theorem respects_runOverFunctions (before rest : Functions)
    (hbefore : ∀ g ∈ before, ids g.id) (hrest : ∀ g ∈ rest, ids g.id) :
    (code.runOverFunctions passes before rest).Respects (code.ModuleProceeds view own ids) := by
  induction rest generalizing before with
  | nil => exact .pure _
  | cons f after ih =>
    obtain ⟨hf, hafter⟩ := List.forall_mem_cons.1 hrest
    intro w hw
    rw [ensures_runOverFunctions_cons]
    refine (ensures_runOverOne_apart hapart hpasses hbefore hf hafter hw).mono ?_ fun _ _ h ↦ h
    rintro ⟨preserved, g⟩ w₁ ⟨h₁, hg⟩
    have hdone : ∀ g' ∈ before ++ [g], ids g'.id := by
      intro g' hg'
      rcases List.mem_append.1 hg' with hg' | hg'
      · exact hbefore g' hg'
      · exact List.mem_singleton.1 hg' ▸ hg
    exact (ih (before ++ [g]) hdone hafter w₁ (Job.Proceeds.onward.right h₁)).mono
      (fun _ _ h ↦ Job.Proceeds.onward.trans h₁ h) fun _ _ h ↦ Job.Proceeds.onward.trans h₁ h

theorem respects_runPerFunction :
    (code.runPerFunction passes).Respects (code.ModuleProceeds view own ids) := by
  intro w hw
  have hunit := hw.focus.left
  have hattached : (Tier.onManager (code.moduleTier.fetch .attached w.focus.unit)).Respects
      (code.ModuleProceeds view own ids) :=
    Tier.respects_onManager
      ((code.moduleTier_fenced view hapart).abides.fetch .attached hunit)
  have hover : (code.runOverFunctions passes [] w.focus.unit.content).Respects
      (code.ModuleProceeds view own ids) :=
    respects_runOverFunctions hapart hpasses [] _ (by simp) hunit.2
  exact hattached.bind Job.Proceeds.onward (fun _ ↦ hover) w hw

end Functions

/-- A run of passes over modules, each within reach, however they nest. -/
theorem respects_runModulePipeline {passes : ModulePipeline}
    (hpasses : code.HoldsModulePipeline ids passes) :
    (code.runModulePipeline passes).Respects (code.ModuleProceeds view own ids) :=
  ((code.moduleTier_fenced view hapart).paced fun _ hinner ↦
    respects_runPerFunction hapart hinner).runAll passes hpasses

end Code

end ForeignPasses
