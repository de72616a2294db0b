import ForeignPasses.Proofs.Coherence.Working

/-!
# Passes over modules

An adapter changes one function after the other. The results for the module get out of date on the
way, but nobody can look at them; what all passes of the adapter preserve is still right at the end.
-/

namespace ForeignPasses.Code

open Exec

variable (code : Code) (meaning : Meaning) (possible : Module → Prop)

def moduleRegime : Tier.Regime Functions FunctionManager where
  good job next :=
    code.ModuleRight meaning (fun _ ↦ True)
        (code.FunctionsRight meaning (fun _ _ ↦ True) job.unit.content next) job.unit job.manager ∧
      Distinct job.unit.content next ∧ possible job.unit
  changed preserved job next :=
    code.ModuleRight meaning (fun key ↦ preserved.contains key = true)
        (code.FunctionsRight meaning
          (fun _ key ↦ preserved.contains .proxy = true ∨ preserved.contains key = true)
          job.unit.content next) job.unit job.manager ∧
      Distinct job.unit.content next ∧ possible job.unit
  kept _ _ _ := True

variable {code meaning possible}

/-- What is attached may be judged anew. -/
theorem ModuleRight.of_inner {valid : Key → Prop} {inner inner' : FunctionManager → Prop}
    {m : Module} {manager : ModuleManager} (h : code.ModuleRight meaning valid inner m manager)
    (hinner : ∀ attached, inner attached → inner' attached) :
    code.ModuleRight meaning valid inner' m manager :=
  h.withInner fun _ hattached ↦ hinner _ (h.inner_of_attached? hattached)

theorem moduleRegime_lasting : (code.moduleRegime meaning possible).Lasting code.moduleTier where
  refl _ := trivial
  trans _ _ _ _ _ _ _ := trivial
  unchanged p job next h := by
    obtain ⟨hright, hdistinct, hpossible⟩ := h
    refine ⟨?_, hdistinct, hpossible⟩
    have hinner : code.ModuleRight meaning (fun _ ↦ True)
        (code.FunctionsRight meaning
          (fun _ key ↦ p.contains .proxy = true ∨ p.contains key = true) job.unit.content next)
        job.unit job.manager :=
      hright.of_inner fun attached hattached ↦ hattached.of_valid fun _ _ _ _ _ ↦ trivial
    exact hinner.of_valid fun _ _ _ _ _ ↦ trivial
  invalidated p w h := by
    obtain ⟨hright, hdistinct, hpossible⟩ := h
    rw [Tier.ensures_invalidateUnit]
    refine (ensures_invalidate_module rfl hright).mono ?_ fun _ _ _ ↦ trivial
    rintro _ w' ⟨hright', hnext⟩
    refine ⟨⟨?_, ?_, hpossible⟩, rfl⟩
    · rw [hnext]
      exact hright'
    · rw [hnext]
      exact hdistinct

/-! ## One pass -/

/-- What an honest pass preserves is right when its module has changed. -/
theorem moduleRegime_changed {m : Module} {functions : Functions} {preserved : Preserved}
    {start next : UnitId} (hnext : start ≤ next) {manager : ModuleManager}
    (hright : code.ModuleRight meaning (fun _ ↦ True)
      (code.FunctionsRight meaning (fun _ _ ↦ True) m.content start) m manager)
    (hreport : meaning.ModuleReport m start functions preserved next) :
    code.ModuleRight meaning (fun key ↦ preserved.contains key = true)
      (code.FunctionsRight meaning
        (fun _ key ↦ preserved.contains .proxy = true ∨ preserved.contains key = true) functions
        next) (m.withContent functions) manager := by
  have hinner (attached : FunctionManager)
      (hattached : code.FunctionsRight meaning (fun _ _ ↦ True) m.content start attached) :
      code.FunctionsRight meaning
        (fun _ key ↦ preserved.contains .proxy = true ∨ preserved.contains key = true) functions
        next attached := by
    apply hattached.of_units
    · intro id hid
      exact Nat.lt_of_lt_of_le hid hnext
    · intro g hg key r hkey hr
      have hbefore : g.id < start := hattached.known g.id key r hr
      rcases hreport.origin g hg with ⟨f, hf, hid⟩ | ⟨hnew, -⟩
      · have hmeaning := hreport.onFunctions key hkey f hf g hg hid
        rw [← hid] at hr
        exact (hattached.right f hf key r trivial hr).trans hmeaning.symm
      · exact absurd hbefore (Nat.not_lt.2 hnew)
  apply (hright.of_inner hinner).of_units fun _ h ↦ h
  intro u hu key r hkey hr
  obtain rfl : u = m.withContent functions := List.mem_singleton.1 hu
  have hmeaning := hreport.onModule key hkey
  exact (hright.right m (by simp) key r trivial hr).trans hmeaning.symm

theorem distinct_of_report {m : Module} {functions : Functions} {preserved : Preserved}
    {start next : UnitId} (hnext : start ≤ next) (hdistinct : Distinct m.content start)
    (hreport : meaning.ModuleReport m start functions preserved next) :
    Distinct functions next where
  nodup := hreport.nodup
  before g hg := by
    rcases hreport.origin g hg with ⟨f, hf, hid⟩ | ⟨-, hnew⟩
    · rw [← hid]
      exact Nat.lt_of_lt_of_le (hdistinct.before f hf) hnext
    · exact hnew

theorem moduleRegime_codes {α : Type} (pass : Module → Edition Functions FunctionInquest α)
    (report : α → Functions × Preserved)
    (h : code.HonestOverModules meaning possible fun m ↦ report <$> pass m) :
    (code.moduleRegime meaning possible).Codes code.moduleTier pass report := by
  intro w hgood
  obtain ⟨hright, hdistinct, hpossible⟩ := hgood
  have hfold := h w.focus.unit w.shared.nextUnit hpossible hdistinct
  rw [Program.fold_map] at hfold
  let inner := code.FunctionsRight meaning (fun _ _ ↦ True) w.focus.unit.content w.shared.nextUnit
  have hworking : code.moduleTier.Working (meaning.moduleTheory inner) (fun _ ↦ True)
      [w.focus.unit] w.focus.unit w.shared.nextUnit w.shared.nextUnit w :=
    ⟨hright, rfl, Nat.le_refl _, rfl⟩
  have hanswer := moduleTier_answersRight code meaning hdistinct
  refine (Tier.ensures_run_working hanswer hworking hfold).mono ?_ fun _ _ _ ↦ trivial
  rintro r w' ⟨next, hworking', hreport, hpossible'⟩
  have hnext := hworking'.next_eq
  refine ⟨hworking'.unit_eq, ⟨?_, ?_, hpossible'⟩, trivial⟩
  · rw [hnext]
    exact moduleRegime_changed hworking'.start_le hworking'.coherent hreport
  · rw [hnext]
    exact distinct_of_report hworking'.start_le hdistinct hreport

/-! ## Adapters -/

/-- An adapter is at work on a module, whose functions are different by now. -/
structure Adapting (code : Code) (meaning : Meaning) (possible : Module → Prop) (m : Module)
    (functions : Functions) (w : World (Job Functions FunctionManager)) : Prop where
  right : code.ModuleRight meaning (fun _ ↦ True)
    (code.FunctionsRight meaning (fun _ _ ↦ True) functions w.shared.nextUnit) m w.focus.manager
  distinct : Distinct functions w.shared.nextUnit
  possible : possible (m.withContent functions)
  unit_eq : w.focus.unit = m.withContent functions

variable {passes : FunctionPipeline}

/-- The passes of an adapter, run over one function. -/
theorem completes_runOverFunction (hpasses : code.HonestFunctionPipeline meaning possible passes)
    (m : Module) (before after : Functions) :
    (code.functionRegime meaning possible m before after).Completes
      (code.runOverFunction passes) := by
  intro w hgood
  have hlasting : (code.functionRegime meaning possible m before after).Lasting
    code.functionTier := functionRegime_lasting
  rw [ensures_runOverFunction_iff]
  refine (functionRegime_upheld.completes_runAll passes hpasses w hgood).mono ?_ fun _ _ _ ↦ trivial
  rintro preserved w₁ ⟨hgood₁, hkept⟩
  refine (hlasting.invalidated preserved w₁ (hlasting.unchanged _ _ _ hgood₁)).mono ?_
    fun _ _ _ ↦ trivial
  rintro _ w₂ ⟨hgood₂, hunit⟩
  rw [hunit]
  exact ⟨hgood₂, hkept⟩

theorem ensures_runOverOne (hpasses : code.HonestFunctionPipeline meaning possible passes)
    {m : Module} {before after : Functions} {f : Function}
    {w : World (Job Functions FunctionManager)}
    (h : Adapting code meaning possible m (before ++ f :: after) w) :
    (code.runOverOne passes before f after).Ensures w
      (fun r w' ↦ Adapting code meaning possible m (before ++ r.2 :: after) w' ∧
        ∀ key, r.1.contains key = true →
          meaning.onModule key (m.withContent (before ++ r.2 :: after)) =
            meaning.onModule key (m.withContent (before ++ f :: after)))
      fun _ _ ↦ True := by
  apply ensures_runOverOne_of
  case hnone => exact fun _ ↦ trivial
  case hsome =>
    intro manager hattached
    have hgood : (code.functionRegime meaning possible m before after).GoodIn
        ⟨w.shared, ⟨manager, f⟩⟩ :=
      ⟨h.right.inner_of_attached? hattached, h.distinct, h.possible⟩
    refine (completes_runOverFunction hpasses m before after _ hgood).mono ?_ fun _ _ _ ↦ trivial
    rintro preserved w' ⟨⟨hright, hdistinct, hpossible⟩, -, hkept⟩
    have hunit : w.focus.unit.withContent (before ++ w'.focus.unit :: after) =
        m.withContent (before ++ w'.focus.unit :: after) := by
      rw [h.unit_eq]
      rfl
    exact ⟨⟨h.right.setAttached hattached hright, hdistinct, hpossible, hunit⟩, hkept⟩

/-- The passes of an adapter, run over one function after the other. -/
theorem ensures_runOverFunctions (hpasses : code.HonestFunctionPipeline meaning possible passes)
    {m : Module} (before rest : Functions) {w : World (Job Functions FunctionManager)}
    (h : Adapting code meaning possible m (before ++ rest) w) :
    (code.runOverFunctions passes before rest).Ensures w
      (fun preserved w' ↦ ∃ functions, Adapting code meaning possible m functions w' ∧
        ∀ key, preserved.contains key = true →
          meaning.onModule key (m.withContent functions) =
            meaning.onModule key (m.withContent (before ++ rest)))
      fun _ _ ↦ True := by
  induction rest generalizing before w with
  | nil => exact ⟨_, h, fun _ _ ↦ rfl⟩
  | cons f after ih =>
    rw [ensures_runOverFunctions_cons]
    refine (ensures_runOverOne hpasses h).mono ?_ fun _ _ _ ↦ trivial
    rintro ⟨preserved, g⟩ w₁ ⟨h₁, hkept⟩
    have hsplit : before ++ g :: after = before ++ [g] ++ after := by simp
    rw [hsplit] at h₁
    refine (ih (before ++ [g]) h₁).mono ?_ fun _ _ _ ↦ trivial
    rintro others w₂ ⟨functions, h₂, hothers⟩
    refine ⟨functions, h₂, fun key hkey ↦ ?_⟩
    rw [Preserved.contains_inter, Bool.and_eq_true] at hkey
    calc meaning.onModule key (m.withContent functions)
      _ = meaning.onModule key (m.withContent (before ++ [g] ++ after)) := hothers key hkey.2
      _ = meaning.onModule key (m.withContent (before ++ g :: after)) := by rw [hsplit]
      _ = meaning.onModule key (m.withContent (before ++ f :: after)) := hkept key hkey.1

/-- The manager is looked up before an adapter starts with the functions. -/
theorem ensures_attached {w : World (Job Functions FunctionManager)}
    (hgood : (code.moduleRegime meaning possible).GoodIn w) :
    (Tier.onManager (code.moduleTier.fetch .attached w.focus.unit)).Ensures w
      (fun _ w' ↦ Adapting code meaning possible w.focus.unit w.focus.unit.content w')
      fun _ _ ↦ True := by
  obtain ⟨hright, hdistinct, hpossible⟩ := hgood
  have hfetch := moduleTier_fetchesRight code meaning hdistinct w.focus.manager.keys
    w.shared.nextUnit .attached w.focus.unit ⟨w.shared, w.focus.manager⟩ (by simp)
    ⟨hright, rfl, rfl⟩
  rw [Tier.ensures_onManager]
  refine hfetch.mono ?_ fun _ _ _ ↦ trivial
  rintro _ w' ⟨hsound, -⟩
  have hnext : w'.shared.nextUnit = w.shared.nextUnit := hsound.next_eq
  refine ⟨?_, ?_, hpossible, rfl⟩
  · rw [hnext]
    exact hsound.coherent
  · rw [hnext]
    exact hdistinct

theorem passes_runPerFunction (passes : FunctionPipeline)
    (hpasses : code.HonestFunctionPipeline meaning possible passes) :
    (code.moduleRegime meaning possible).Passes (code.runPerFunction passes) := by
  intro w hgood
  rw [ensures_runPerFunction_iff]
  refine (ensures_attached hgood).mono ?_ fun _ _ _ ↦ trivial
  intro _ w₁ h₁
  refine (ensures_runOverFunctions hpasses [] _ h₁).mono ?_ fun _ _ _ ↦ trivial
  rintro preserved w₂ ⟨functions, h₂, hkept⟩
  obtain ⟨hright, hdistinct, hpossible, hunit⟩ := h₂
  refine ⟨?_, trivial⟩
  change (_ ∧ _ ∧ _)
  rw [hunit]
  refine ⟨?_, hdistinct, hpossible⟩
  have hinner : code.ModuleRight meaning (fun _ ↦ True)
      (code.FunctionsRight meaning
        (fun _ key ↦ preserved.contains .proxy = true ∨ preserved.contains key = true) functions
        w₂.shared.nextUnit) w.focus.unit w₂.focus.manager :=
    hright.of_inner fun attached hattached ↦ hattached.of_valid fun _ _ _ _ _ ↦ trivial
  apply hinner.of_units fun _ h ↦ h
  intro u hu key r hkey hr
  obtain rfl : u = w.focus.unit.withContent functions := List.mem_singleton.1 hu
  have hfinding := hright.right w.focus.unit (by simp) key r trivial hr
  exact hfinding.trans (hkept key hkey).symm

/-- A pipeline of honest passes over a module. -/
theorem moduleRegime_upheld :
    code.moduleTier.Upheld (code.moduleRegime meaning possible) code.runPerFunction
      (code.HonestOverModules meaning possible) (code.HonestFunctionPipeline meaning possible) where
  lasting := moduleRegime_lasting
  codes := moduleRegime_codes
  adapts := passes_runPerFunction

end ForeignPasses.Code
